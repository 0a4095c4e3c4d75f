import ShadowTaint.Proofs.Records
/-!
# What the rules of strings record

The characters of a result have the taint of the characters that they were copied from, so the rules of
strings record a tainted entry only over the history of a value that is tainted by its own entry. Two
rules can do otherwise: a second run may return characters that read as tainted although nothing was,
and splitting takes an empty word for one of which all is tainted.

## Main definitions

- `Memory.Derives`: at most one entry was recorded, and taint only over the history of a tainted value.

## Main statements

- `TextRule.derives_model`, `TextRule.rerun_cases`, `TextRule.derives_concatenate`: the rules for
  results that are read off characters.
- `TextRule.split_apply`, `TextRule.wrapWord`: the rule for words.
- `TextRule.call_outcomes`: which of them decides about a call.
-/

namespace ShadowTaint

open Memory Policy

namespace Encoding

theorem toNat_ofNat {n : Nat} (h : n.isValidChar) : (Char.ofNat n).toNat = n := by
  unfold Char.ofNat
  rw [dif_pos h]
  rfl

/-- A character that is written with its taint reads as that character with that taint. -/
theorem decodeChar_encodeChar {c d : Char} {b : Bool} (h : encodeChar c b = .ok d) :
    decodeChar d = (c, b) := by
  unfold encodeChar at h
  split at h
  · cases h
  · rename_i basic
    cases h
    have bound : c.toNat < 0x10000 := Nat.lt_of_not_le basic
    have back : charOrReplacement c.toNat = c := by
      unfold charOrReplacement
      rw [if_pos (show c.toNat.isValidChar from c.valid), Char.ofNat_toNat]
    unfold decodeChar taintedPlane untaintedPlane
    cases b with
    | true =>
      have code : (Char.ofNat (0x100000 + c.toNat)).toNat = 0x100000 + c.toNat :=
        toNat_ofNat (.inr ⟨by omega, by omega⟩)
      rw [if_pos rfl, code, if_pos (by omega), Nat.add_sub_cancel_left, back]
    | false =>
      have code : (Char.ofNat (0xF0000 + c.toNat)).toNat = 0xF0000 + c.toNat :=
        toNat_ofNat (.inr ⟨by omega, by omega⟩)
      rw [if_neg Bool.false_ne_true, code, if_neg (by omega), if_pos (by omega),
        Nat.add_sub_cancel_left, back]

theorem decode_cons (c : Char) (s : List Char) : decode (c :: s) =
    ((decodeChar c).1 :: (decode s).1, (decodeChar c).2 :: (decode s).2) := by
  simp [decode, List.unzip_eq_map]

theorem decode_encodeChars {s t : List Char} {bits : List Bool} (len : s.length = bits.length)
    (h : encodeChars s bits = .ok t) : decode t = (s, bits) := by
  induction s generalizing bits t with
  | nil =>
    obtain rfl := List.length_eq_zero_iff.mp len.symm
    cases h
    rfl
  | cons c s ih =>
    rcases bits with _ | ⟨b, bits⟩
    · cases len
    · rw [encodeChars] at h
      rcases first : encodeChar c b with e | d <;> rw [first] at h
      · cases h
      · rcases rest : encodeChars s bits with e | ds <;> rw [rest] at h
        · cases h
        · cases h
          rw [decode_cons, decodeChar_encodeChar first, ih (Nat.succ.inj len) rest]

/-- Reading what was written gives back the text and the taint of its characters. -/
theorem decode_encode {s t : List Char} {bits : List Bool} (h : encode s bits = .ok t) :
    decode t = (s, bits) := by
  unfold encode at h
  split at h
  · rename_i len
    exact decode_encodeChars len h
  · cases h

end Encoding

namespace Memory

/-- At most one entry was recorded, for the value and by a rule that applied, and a tainted one only
over the histories of values one of which is tainted by its own entry. -/
inductive Derives (m : Memory) (run : Bool × Memory) (v : Value) : Prop where
  | nothing (used : NodesUsed m run.2)
  | entry {tainted : Bool} {label : String} {sources : List Value} (applied : run.1 = true)
      (recorded : m.Records run.2 v tainted label sources)
      (grounded : tainted = true → ∃ s ∈ sources, m.ownTaint s = true)

theorem any_id_eq_true {bits : List Bool} (h : bits.any id = true) : true ∈ bits := by
  obtain ⟨b, mem, rfl⟩ := List.any_eq_true.mp h
  exact mem

end Memory

namespace TextRule

open MemoryM

section Results

variable {m₀ m : Memory} {sources : List Value} {ns : List Provenance.Node}

/-- The taint of characters is recorded, or the rule does not apply. -/
theorem derives_storeBits (used : NodesUsed m₀ m) (histories : List.Forall₂ m₀.HistoryAt sources ns)
    (result : Value) {bits : List Bool} (label : String)
    (grounded : true ∈ bits → ∃ s ∈ sources, m₀.ownTaint s = true) :
    m₀.Derives (storeBits result bits label ns m) result := by
  have stored := records_storeBits used histories result bits label
  split at stored
  · exact .entry stored.1 stored.2 fun tainted => grounded (any_id_eq_true tainted)
  · rw [stored]
    exact .nothing used

variable (c : NativeCall) (m : Memory)

theorem derives_blink : m.Derives (blink c m) c.result := by
  unfold blink
  split
  · exact .nothing (.refl m)
  · obtain ⟨n, m₁, read, used, history⟩ := history_at (.refl m) c.base
    rw [bind_apply, get_apply]
    dsimp only
    rw [bind_apply, read]
    refine derives_storeBits used (.cons history .nil) _ _ fun tainted => ⟨c.base, by simp, ?_⟩
    have mem : true ∈ m.charBits c.base := by simpa using tainted
    exact ownTaint_of_charBits mem

/-- What lies between two positions of a list is in the list. -/
theorem mem_of_mem_charsBetween {b : Bool} {bits : List Bool} {i j : Nat}
    (h : b ∈ charsBetween bits i j) : b ∈ bits :=
  List.mem_of_mem_take (List.mem_of_mem_drop h)

theorem derives_substring : m.Derives (substring c m) c.result := by
  unfold substring
  split
  · exact .nothing (.refl m)
  · obtain ⟨n, m₁, read, used, history⟩ := history_at (.refl m) c.base
    rw [bind_apply, get_apply]
    dsimp only
    rw [bind_apply, read]
    exact derives_storeBits used (.cons history .nil) _ _ fun tainted => ⟨c.base, by simp,
      ownTaint_of_charBits (mem_of_mem_charsBetween tainted)⟩

theorem derives_concat : m.Derives (concat c m) c.result := by
  unfold concat
  split
  · exact .nothing (.refl m)
  · obtain ⟨ns, m₁, read, used, histories⟩ := histories_at (.refl m) (c.base :: c.args)
    rw [bind_apply, get_apply]
    dsimp only
    rw [bind_apply, read]
    refine derives_storeBits used histories _ _ fun tainted => ?_
    obtain ⟨v, mem, bit⟩ := List.mem_flatMap.mp tainted
    exact ⟨v, mem, ownTaint_of_charBits bit⟩

theorem derives_sameShape : m.Derives (sameShape c m) c.result := by
  unfold sameShape
  split
  · exact .nothing (.refl m)
  · obtain ⟨n, m₁, read, used, history⟩ := history_at (.refl m) c.base
    rw [bind_apply, get_apply]
    dsimp only
    rw [bind_apply, read]
    exact derives_storeBits used (.cons history .nil) _ _ fun tainted => ⟨c.base, by simp,
      ownTaint_of_charBits tainted⟩

theorem derives_characterCode : m.Derives (characterCode c m) c.result := by
  unfold characterCode
  split
  · exact .nothing (.refl m)
  · obtain ⟨n, m₁, read, used, history⟩ := history_at (.refl m) c.base
    rw [bind_apply, get_apply]
    dsimp only
    rw [bind_apply, read]
    refine .entry rfl (records_record used (.cons history .nil) _ _ none _) fun tainted =>
      ⟨c.base, by simp, ownTaint_of_charBits ?_⟩
    rw [Option.any_none, Bool.or_false, List.getD_eq_getElem?_getD] at tainted
    rcases read : (m.charBits c.base)[position m c.args[0]? 0 (m.charBits c.base).length]?
      with _ | b <;> rw [read] at tainted
    · cases tainted
    · obtain rfl : b = true := tainted
      exact List.mem_of_getElem? read

/-- All methods with a rule of their own but one derive their result from the operands. -/
theorem derives_model {levels : Levels} {name : String} {model : NativeCall → MemoryM Bool}
    (found : model? levels name = some model) (other : name ≠ "split") :
    m.Derives (model c m) c.result := by
  unfold model? at found
  split at found <;> cases found
  · exact derives_blink c m
  · exact derives_substring c m
  · exact derives_concat c m
  · exact derives_sameShape c m
  · exact derives_sameShape c m
  · exact derives_characterCode c m
  · exact derives_characterCode c m
  · exact absurd rfl other

/-- A property that is read through a string with taint per character is recorded as a whole. -/
theorem getField_apply (levels : Levels) (ops : Operands) : getField levels ops m =
    if (m.entryOf ops.base).chars.isSome then
      recordWhole ops.value ((m.entryOf ops.base).propertyTaint (m.keyText ops.offset))
        "string.GetField" [(m.entryOf ops.base).path] (useNodes 1 m).2
    else ObjectRule.getField levels.objectGrain ops (useNodes 1 m).2 := by
  unfold getField
  rw [bind_apply, get_apply]
  dsimp only
  rw [bind_apply, show entry ops.base m = (m.entryOf ops.base, (useNodes 1 m).2) from rfl]
  dsimp only
  rcases (m.entryOf ops.base).chars <;> rfl

theorem records_getField (ops : Operands) (tainted : Bool) : m.Records
    (recordWhole ops.value tainted "string.GetField" [(m.entryOf ops.base).path] (useNodes 1 m).2).2
    ops.value tainted "string.GetField" [ops.base] :=
  records_recordWhole ⟨1, rfl⟩ (.cons (entryOf_used (.refl m) ops.base).2.2 .nil) _ _ _

/-- The taint of a concatenation is that of the texts of the operands. -/
theorem derives_concatenate (ops : Operands) : m.Derives (concatenate ops m) ops.value := by
  unfold concatenate
  rw [bind_apply, get_apply]
  dsimp only
  rcases encodedLeft : encoded m ops.base with e | left
  · exact .nothing (.refl m)
  · rcases encodedRight : encoded m ops.offset with e | right
    · exact .nothing (.refl m)
    dsimp only
    rw [Encoding.decode_append, Encoding.decode_encode encodedLeft,
      Encoding.decode_encode encodedRight]
    split
    · exact .nothing (.refl m)
    · obtain ⟨ns, m₁, read, used, histories⟩ := histories_at (.refl m) [ops.base, ops.offset]
      rw [bind_apply, read]
      refine derives_storeBits used histories _ _ fun tainted => ?_
      rcases List.mem_append.mp tainted with left | right
      · exact ⟨_, List.mem_cons_self, ownTaint_of_charBits left⟩
      · exact ⟨_, List.mem_cons_of_mem _ List.mem_cons_self, ownTaint_of_charBits right⟩

end Results

section SecondRun

variable {m m₁ : Memory}

theorem charBits_used (used : NodesUsed m m₁) (v : Value) : m₁.charBits v = m.charBits v := by
  obtain ⟨bit₁, chars₁, -⟩ := entryOf_used used v
  obtain ⟨bit, -, -⟩ := entryOf_used (.refl m) v
  obtain ⟨count, rfl⟩ := used
  unfold Memory.charBits TaintEntry.charBits
  rw [bit₁, bit, chars₁]
  rfl

theorem encodedArgument_used (used : NodesUsed m m₁) (v : Value) :
    encodedArgument m₁ v = encodedArgument m v := by
  have bits := charBits_used used v
  obtain ⟨count, rfl⟩ := used
  unfold encodedArgument encoded
  rw [bits]
  rfl

/-- The second run does not depend on numbers of nodes, and it changes nothing but the heap. Nothing is
run for a receiver that is no string. -/
theorem runEncoded_used (used : NodesUsed m m₁) (c : NativeCall) :
    ∃ heap, runEncoded c m₁ = ((runEncoded c m).1, { m₁ with heap }) ∧
      (m.stringOf? c.base = none → heap = m.heap) := by
  have arguments := funext (encodedArgument_used used)
  have strings (v : Value) : m₁.stringOf? v = m.stringOf? v := by
    obtain ⟨count, rfl⟩ := used
    rfl
  have native : (m₁.heap.function? (m₁.valueOf c.f)).bind (·.native) =
      (m.heap.function? (m.valueOf c.f)).bind (·.native) := by
    obtain ⟨count, rfl⟩ := used
    rfl
  have heap : m₁.heap = m.heap := by
    obtain ⟨count, rfl⟩ := used
    rfl
  have still : m₁ = { m₁ with heap := m.heap } := by
    rw [← heap]
  unfold runEncoded
  rw [bind_apply, get_apply, bind_apply, get_apply]
  dsimp only
  rw [strings, strings, native, arguments, heap]
  split
  · exact ⟨m.heap, Prod.ext rfl still, fun _ => rfl⟩
  · rename_i texts
    rcases (m.heap.function? (m.valueOf c.f)).bind (·.native) with _ | native
    · exact ⟨m.heap, Prod.ext rfl still, fun _ => rfl⟩
    · rcases encodedArgument m c.base with e | base
      · exact ⟨m.heap, Prod.ext rfl still, fun _ => rfl⟩
      · rcases c.args.mapM (encodedArgument m) with e | args
        · exact ⟨m.heap, Prod.ext rfl still, fun _ => rfl⟩
        · dsimp only
          rcases native.run m.heap base args with e | ⟨output, heap'⟩
          · exact ⟨m.heap, Prod.ext rfl still, fun _ => rfl⟩
          · refine ⟨heap', rfl, fun textless => absurd ?_ texts⟩
            rw [textless]
            rfl

/-- What is read off a second run is recorded over the histories of the receiver and the arguments,
beside the heap that the run has left. -/
theorem rerun_cases (c : NativeCall) (m : Memory) :
    ∃ heap, (m.stringOf? c.base = none → heap = m.heap) ∧
      (NodesUsed { m with heap } (rerun c m).2 ∨
      ∃ output label, (rerun c m).1 = true ∧ (runEncoded c m).1 = some output ∧
        Records { m with heap } (rerun c m).2 c.result ((Encoding.decode output.toList).2.any id) label
          (c.base :: c.args)) := by
  obtain ⟨ns, m₁, read, used, histories⟩ := histories_at (.refl m) (c.base :: c.args)
  obtain ⟨heap, run, same⟩ := runEncoded_used used c
  have beside : NodesUsed { m with heap } { m₁ with heap } := by
    obtain ⟨count, rfl⟩ := used
    exact ⟨count, rfl⟩
  refine ⟨heap, same, ?_⟩
  unfold rerun
  rw [bind_apply, get_apply]
  dsimp only
  rw [bind_apply, read]
  dsimp only
  rw [bind_apply, run]
  rcases returned : (runEncoded c m).1 with _ | output
  · exact .inl beside
  · dsimp only
    split
    · exact .inl beside
    · have stored := records_storeBits beside (show List.Forall₂ (HistoryAt { m with heap })
          (c.base :: c.args) ns from histories) c.result
        (Encoding.decode output.toList).2 ("precise:string." ++ m.functionName c.f)
      split at stored
      · exact .inr ⟨output, _, stored.1, rfl, stored.2⟩
      · rw [stored]
        exact .inl beside

end SecondRun

section Words

/-- The taint of the characters of a word that was cut out of a text. -/
def wordBits (m : Memory) (base : List Bool) (start : Nat) (word : Value) : List Bool :=
  (List.range (m.heap.keyText (m.valueOf word)).length).map fun i => base.getD (start + i) false

/-- What the rule for words does for one word. -/
def wrapWord (base : List Bool) (path : Provenance.Node) (start : Nat) (word : Value) :
    MemoryM Value := do
  let m ← get
  let element ← wrapFresh (m.valueOf word)
  let bits := wordBits m base start word
  record element (bits.all id) (some (.ofBits bits)) "model:string.split" [path]
  return element

theorem wrapWords_cons (base : List Bool) (path : Provenance.Node) (separator start : Nat)
    (word : Value) (rest : List Value) (m : Memory) :
    (wrapWords base path separator start (word :: rest) m).2 =
      (wrapWords base path separator
        (start + (m.heap.keyText (m.valueOf word)).length + separator) rest
        (wrapWord base path start word m).2).2 := rfl

/-- The words of the receiver, as the rule gives them shadows, and whether all of them are tainted. -/
def splitWords (c : NativeCall) (words : List Value) (m : Memory) : (List Value × Bool) × Memory :=
  wrapWords (m.charBits c.base) (m.entryOf c.base).path (separatorLength m c.args[0]? 0) 0 words
    (useNodes 1 m).2

/-- The memory in which the words of the receiver have their shadows. -/
def afterWords (c : NativeCall) (words : List Value) (m : Memory) : Memory :=
  { (splitWords c words m).2 with
    heap := (splitWords c words m).2.heap.setElements (m.valueOf c.result)
      (splitWords c words m).1.1 }

theorem split_apply (levels : Levels) (c : NativeCall) (m : Memory) : split levels c m =
    if 2 < c.args.length then (false, m)
    else match m.heap.elements? (m.valueOf c.result) with
      | none => (false, m)
      | some words =>
        if levels.precision .array = .precise then
          (true, if (splitWords c words m).1.2 then (setBit c.result (afterWords c words m)).2
            else afterWords c words m)
        else (true, if m.anyProps c.base then (setBit c.result m).2 else m) := by
  unfold TextRule.split
  split
  · rfl
  · rw [bind_apply, get_apply]
    dsimp only
    rcases m.heap.elements? (m.valueOf c.result) with _ | words
    · rfl
    · dsimp only
      by_cases precise : levels.precision .array = .precise
      · rw [if_pos precise, if_neg (by simp [precise])]
        show ((if (splitWords c words m).1.2 = true then _ else _ : MemoryM Bool)
          (afterWords c words m)) = _
        split <;> rfl
      · rw [if_neg precise, if_pos (by simpa using precise)]
        split <;> rfl

/-- The rule for words does nothing where it does not apply. -/
theorem split_of_false {levels : Levels} {c : NativeCall} {m : Memory}
    (h : (split levels c m).1 = false) : (split levels c m).2 = m := by
  revert h
  rw [split_apply]
  split
  · exact fun _ => rfl
  · rcases m.heap.elements? (m.valueOf c.result) with _ | words
    · exact fun _ => rfl
    · dsimp only
      split <;> exact fun applies => nomatch applies

/-- A word that gets a shadow is tracked under a new identity. -/
theorem keyOf_wrapFresh {m m₁ : Memory} {raw element : Value} (bare : raw.raw = raw)
    (run : wrapFresh raw m = (element, m₁)) : m₁.shadow.keyOf element = none ∨
      m₁.shadow.keyOf element = some (.identity ⟨m.shadow.nextIdentity⟩) ∨
      ∃ id, raw = .object id ∧ m₁.shadow.keyOf element = some (.object id) := by
  cases raw with
  | object id =>
    cases run
    exact .inr (.inr ⟨id, rfl, rfl⟩)
  | shadow handle identity l => cases bare
  | literal l =>
    have minted : wrapFresh (.literal l) m =
        shadow ⟨m.shadow.nextIdentity⟩ l { m with shadow := m.shadow.mint.2 } := rfl
    rw [minted] at run
    rcases skips : m.shadow.frame.callType.skipsWrapping
    · obtain ⟨handle, made, known⟩ := lookup_shadow ⟨m.shadow.nextIdentity⟩ l
        (m := { m with shadow := m.shadow.mint.2 }) skips
      rw [run] at made known
      refine .inr (.inl ?_)
      rw [show element = _ from made, ShadowState.keyOf, known]
    · rw [shadow_of_skips (m := { m with shadow := m.shadow.mint.2 }) skips] at run
      cases run
      exact .inl rfl

end Words

section Calls

/-- What the rule for native functions does where no model applies. -/
def unmodelled (levels : Levels) (c : NativeCall) : MemoryM Unit := do
  if ← rerun c then return
  ObjectRule.call (some levels.objectGrain) c

/-- Without a model the rule records what it reads off a second run, or it leaves the result to the rule
of objects, beside the heap that the run has left. -/
theorem unmodelled_cases (levels : Levels) (c : NativeCall) (m : Memory) :
    ∃ heap, (m.stringOf? c.base = none → heap = m.heap) ∧
      (NodesUsed { m with heap } (unmodelled levels c m).2 ∨
      (∃ m₁, NodesUsed { m with heap } m₁ ∧
        (unmodelled levels c m).2 = (ObjectRule.call (some levels.objectGrain) c m₁).2) ∨
      ∃ output label, (runEncoded c m).1 = some output ∧
        Records { m with heap } (unmodelled levels c m).2 c.result
          ((Encoding.decode output.toList).2.any id) label (c.base :: c.args)) := by
  obtain ⟨heap, same, second⟩ := rerun_cases c m
  refine ⟨heap, same, ?_⟩
  unfold unmodelled
  rw [bind_apply]
  rcases second with used | ⟨output, label, applied, returned, recorded⟩
  · split
    · exact .inl used
    · exact .inr (.inl ⟨_, used, rfl⟩)
  · rw [if_pos applied]
    exact .inr (.inr ⟨output, label, returned, recorded⟩)

theorem call_apply (levels : Levels) (c : NativeCall) (m : Memory) : (call levels c m).2 =
    match model? levels (m.functionName c.f) with
    | some model =>
      if (model c m).1 then (model c m).2 else (unmodelled levels c (model c m).2).2
    | none => (unmodelled levels c m).2 := by
  unfold call
  rw [bind_apply, get_apply]
  dsimp only
  rcases model? levels (m.functionName c.f) with _ | model
  · rfl
  · dsimp only
    rw [bind_apply]
    split <;> rfl

/-- The rule of strings for native functions splits into words or derives the result from the operands.
Where no model applies it does what it does for a function without one. -/
theorem call_outcomes (levels : Levels) (c : NativeCall) (m : Memory) :
    (m.functionName c.f = "split" ∧ (call levels c m).2 = (split levels c m).2) ∨
    m.Derives (true, (call levels c m).2) c.result ∨
    ∃ m₁, NodesUsed m m₁ ∧
      (∀ model, model? levels (m.functionName c.f) = some model → (model c m).1 = false) ∧
      (call levels c m).2 = (unmodelled levels c m₁).2 := by
  rw [call_apply]
  rcases found : model? levels (m.functionName c.f) with _ | model
  · exact .inr (.inr ⟨m, .refl m, fun _ modelled => (by cases modelled), rfl⟩)
  · dsimp only
    rcases applied : (model c m).1
    · right; right
      have only (model' : NativeCall → MemoryM Bool) (same : some model = some model') :
          (model' c m).1 = false := by
        cases same
        exact applied
      -- a model that does not apply has at most used up nodes
      refine ⟨(model c m).2, ?_, only, rfl⟩
      by_cases named : m.functionName c.f = "split"
      · obtain rfl : split levels = model := by
          rw [named] at found
          exact Option.some.inj found
        rw [split_of_false applied]
        exact .refl m
      · cases derives_model c m found named with
        | nothing used => exact used
        | entry done _ _ => exact absurd (applied.symm.trans done) Bool.false_ne_true
    · by_cases named : m.functionName c.f = "split"
      · obtain rfl : split levels = model := by
          rw [named] at found
          exact Option.some.inj found
        exact .inl ⟨named, rfl⟩
      · right; left
        have derived := derives_model c m found named
        rwa [show model c m = (true, (model c m).2) from Prod.ext applied rfl] at derived

end Calls

end TextRule

end ShadowTaint
