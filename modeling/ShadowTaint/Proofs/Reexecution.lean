import ShadowTaint.Proofs.Copying
import ShadowTaint.Proofs.StringCalls
/-!
# Second runs

Where strings are tracked precisely and nothing is known about a method, it runs once more on strings that
carry the taint of their characters. What it returns is taken for the taint of its result if it reads the
same. That the second run did the same as the first one does not follow from that.

## Main definitions

- `TextRule.secondRun`: what a method returns when it runs once more.
- `Memory.ReadsAlike`: the second run of a method reads its receiver at the same places.

## Main statements

- `TextRule.rerun_apply`: what reading the taint off a second run leaves.
- `Tracker.TextRun.reread`: what is recorded for the result of a method without a model.
- `Tracker.positions_exact`: without strings among the arguments every character of a result has the taint of
  the character that it was copied from.
- `Tracker.rereading_sound`: with strings among them a character that was tainted at its origin is tainted, if
  the second run reads the receiver at the same places.
-/

namespace ShadowTaint

open Memory Tracker

/-- Whether the character at an origin was tainted. -/
def Origin.tainted (m : Memory) (base : Value) (args : List Value) : Origin → Bool
  | .receiver i => (m.charBits base).getD i false
  | .argument k i => ((args[k]?.map m.charBits).getD []).getD i false
  | .inserted _ => false

/-- The second run of a method reads the receiver where the first one did, as far as that does not follow
from what it returns: a string that is passed for a position spells the first one, and a pattern is a string
with the taint that the text has where it is found first. What takes its place is a string or untainted. -/
def Memory.ReadsAlike (m : Memory) (f : StringMethod) (s : String) (base : Value) (args : List Value) : Prop :=
  match f with
  | .charAt | .substr => ∀ v, args[0]? = some v → (m.stringOf? v).isSome = true →
      relativePosition s.length (integerArgument (args.map m.valueOf) 0 0) = 0
  | .replace => ∃ v p, args[0]? = some v ∧ m.stringOf? v = some p ∧
      (∀ i, Text.indexOf? p.toList s.toList = some i →
        charsBetween (m.charBits base) i (i + p.length) = m.charBits v) ∧
      ∀ w, args[1]? = some w → (m.stringOf? w).isSome = true ∨ true ∉ m.charBits w
  | _ => True

/-- What a method returns when it runs once more, on strings that are written with their taint. -/
def TextRule.secondRun (m : Memory) (h : Heap) (f : StringMethod) (base : Value) (args : List Value) :
    Option (List Char) :=
  match encoded m base, args.mapM (encodedArgument m) with
  | .ok cs, .ok given => match f.run h cs given with
    | .ok (.literal l) => (Value.literal l).string?.map String.toList
    | _ => none
  | _, _ => none

namespace TextRule

/-- The taint of characters is recorded for a string with as many characters, and nothing else. -/
theorem storeBits_stored {m₀ m : Memory} {r : Value} {id : Identity} {text : String} {bits : List Bool}
    {sources : List Value} {ns : List Provenance.Node} (used : Policy.NodesUsed m₀ m)
    (histories : List.Forall₂ m₀.HistoryAt sources ns)
    (known : m₀.shadow.lookup? r = some (id, .string text)) (fits : text.length = bits.length)
    (label : String) :
    (storeBits r bits label ns m).1 = true ∧ ∃ path, path.label = label ∧
      (storeBits r bits label ns m).2.stored? r =
        some ⟨(CharMap.ofBits bits).all, some (.ofBits bits), path⟩ := by
  have value : m₀.stringOf? r = some text := stringOf?_of_lookup known
  have tracked : m₀.shadow.keyOf r = some (.identity id) := by rw [ShadowState.keyOf, known]
  have records := records_storeBits used histories r bits label
  rw [value, Option.map_some, if_pos (congrArg some fits)] at records
  obtain ⟨applied, recorded⟩ := records
  refine ⟨applied, ?_⟩
  have same : m.stringOf? r = some text := (stringOf?_of_wraps used.marks.wraps r).trans value
  have writes : m₀.Writes (storeBits r bits label ns m).2 r (CharMap.ofBits bits).all
      (some (.ofBits bits)) := by
    unfold storeBits
    rw [bind_apply, get_apply]
    dsimp only
    rw [same, Option.map_some, if_neg (by simp [fits])]
    exact MemoryM.writes_record used r _ _ label ns
  obtain ⟨path, stored⟩ := writes.stored?_string known
  obtain ⟨e, -, joins, entries⟩ := recorded.get?
  obtain ⟨nodes, shown, joined, -⟩ := joins.histories
  refine ⟨path, ?_, stored⟩
  -- the entry is the one that was recorded over the histories
  have entry : e = ⟨(CharMap.ofBits bits).all, some (.ofBits bits), path⟩ := by
    rw [stored?_of_lookup ((lookup?_of_wraps writes.wraps r).trans known), entries, if_pos tracked]
      at stored
    exact Option.some.inj stored
  rw [← show e.path = path from congrArg TaintEntry.path entry, joined]
  unfold Provenance.Node.join
  split <;> rfl

end TextRule

/-- The rule of objects for native functions labels what it records by the function, and where it records
nothing, the history of the result is that of an untainted value. -/
theorem ObjectRule.label_call (receiver : Option Grain) (c : NativeCall) {m : Memory} {id : Identity}
    {raw : Literal} (known : m.shadow.lookup? c.result = some (id, raw))
    (unstored : m.stored? c.result = none) :
    ((call receiver c m).2.entryOf c.result).path.label = Provenance.untaintedLabel ∨
      ((call receiver c m).2.entryOf c.result).path.label = "imprecise:" ++ m.functionName c.f := by
  have tracked : m.shadow.keyOf c.result = some (.identity id) := by rw [ShadowState.keyOf, known]
  have labelled {m' : Memory} {label : String} {sources : List Value}
      (records : m.Records m' c.result true label sources) : (m'.entryOf c.result).path.label = label := by
    obtain ⟨e, -, joins, entries⟩ := records.get?
    obtain ⟨nodes, shown, joined, -⟩ := joins.histories
    rw [entryOf, stored?_of_lookup ((lookup?_of_wraps records.marks.wraps c.result).trans known), entries,
      if_pos tracked]
    dsimp only
    rw [joined]
    unfold Provenance.Node.join
    split <;> rfl
  have rule := records_call receiver c m
  split at rule
  · exact .inr (labelled rule)
  · split at rule
    · exact .inr (labelled rule)
    · left
      have unstored' : (call receiver c m).2.stored? c.result = none := by
        obtain ⟨count, rule⟩ := rule
        rw [rule]
        exact unstored
      rw [entryOf, unstored']
      rfl

/-- What the rule of objects records is not labelled as read off a second run. -/
theorem ObjectRule.label_call_ne (receiver : Option Grain) (c : NativeCall) {m : Memory} {id : Identity}
    {raw : Literal} (known : m.shadow.lookup? c.result = some (id, raw))
    (unstored : m.stored? c.result = none) (name : String) :
    ((call receiver c m).2.entryOf c.result).path.label ≠ "precise:string." ++ name := by
  intro same
  rcases label_call receiver c known unstored with label | label
  all_goals
    have first := congrArg (fun l : String => l.toList.head?) (label.symm.trans same)
    simp [Provenance.untaintedLabel] at first

/-- What reading the taint off a second run leaves: the taint that its text carries, if that is the text of the
result, and otherwise nothing but what the second run did. -/
theorem TextRule.rerun_apply {c : NativeCall} {m m₁ m₂ : Memory} {ns : List Provenance.Node} {text : String}
    {second : Option (List Char)} (histories : (c.base :: c.args).mapM MemoryM.history m = (ns, m₁))
    (again : runEncoded c m₁ = (second.map String.ofList, m₂)) (value : m.stringOf? c.result = some text) :
    rerun c m = match second.filter fun out => (Encoding.decode out).1 = text.toList with
      | some out => storeBits c.result (Encoding.decode out).2 ("precise:string." ++ m.functionName c.f) ns m₂
      | none => (false, m₂) := by
  unfold rerun
  rw [bind_apply, get_apply]
  dsimp only
  rw [bind_apply, histories]
  dsimp only
  rw [bind_apply, again, value]
  rcases second with _ | out
  · rfl
  · dsimp only [Option.map_some]
    rw [String.toList_ofList]
    by_cases same : (Encoding.decode out).1 = text.toList
    · rw [Option.filter_some_pos (by simpa using same), if_neg (by simp [same])]
    · have other : text ≠ String.ofList (Encoding.decode out).1 := by
        rintro rfl
        exact same String.toList_ofList.symm
      rw [Option.filter_some_neg (by simpa using same), if_pos (by simpa using other)]
      rfl

theorem TextRule.secondRun_eq_some {m : Memory} {h : Heap} {f : StringMethod} {base : Value}
    {args : List Value} {out : List Char} (copies : f.copies = true)
    (second : secondRun m h f base args = some out) : ∃ cs read, encoded m base = .ok cs ∧
      args.mapM (encodedArgument m) = .ok read ∧ f.run h cs read = .ok (.ofChars out) := by
  unfold secondRun at second
  rcases receiver : encoded m base with e | cs <;> rw [receiver] at second
  · cases second
  · rcases passed : args.mapM (encodedArgument m) with e | read <;> rw [passed] at second
    · cases second
    · dsimp only at second
      rcases run : f.run h cs read with e | result <;> rw [run] at second
      · cases second
      · obtain ⟨out', rfl, -⟩ := StringMethod.run_origins copies run
        refine ⟨cs, read, rfl, rfl, ?_⟩
        have same : (String.ofList out').toList = out := Option.some.inj second
        rw [← same, String.toList_ofList]
        exact run

namespace Tracker.TextRun

variable {t t' : Tracker} {c c' : Call} {f : StringMethod} {s : String} {r v : Value} {result : StringResult}
  {m₁ m₂ m : Memory} (h : TextRun t c f s c' r t' result v m₁ m₂ m)
include h

theorem runEncoded (calls : t.CallsText c f s) (bounded : t.memory.shadow.Bounded)
    (copies : f.copies = true) {text : String} (literal : v = .string text) :
    TextRule.runEncoded ⟨c'.f, c'.base, c'.args, r⟩ m =
      ((TextRule.secondRun t.memory m.heap f c.base c.args).map String.ofList, m) := by
  have base := h.string_base calls
  have value : m.stringOf? r = some text := by rw [stringOf?, h.result_eq, literal]; rfl
  have native : (m.heap.function? (m.valueOf c'.f)).bind (·.native) = some (.string f) := by
    rw [h.function]
    rfl
  have receiver : TextRule.encodedArgument m c'.base =
      (TextRule.encoded t.memory c.base).map fun cs => .string (String.ofList cs) := by
    rw [h.encodedArgument bounded h.base, TextRule.encodedArgument, calls.base]
  unfold TextRule.runEncoded TextRule.secondRun
  rw [bind_apply, get_apply]
  dsimp only
  rw [base, value, native, receiver, h.encodedArguments bounded]
  rcases TextRule.encoded t.memory c.base with e | cs
  · rfl
  · rcases c.args.mapM (TextRule.encodedArgument t.memory) with e | given
    · rfl
    · dsimp only [Except.map]
      rw [show Value.string (String.ofList cs) = .literal (.string (String.ofList cs)) from rfl,
        StringMethod.run_string, String.toList_ofList]
      rcases run : f.run m.heap cs given with e | result'
      · rfl
      · obtain ⟨out, rfl, -⟩ := StringMethod.run_origins copies run
        show (some (String.ofList out), m) = ((some (String.ofList out).toList).map String.ofList, m)
        rw [Option.map_some, String.ofList_toList]

/-- What is recorded for the result of a method that has no model. If the second run returns the same text,
that is the taint that it carries, and else the result has the rule of objects. -/
theorem reread (calls : t.CallsText c f s) (bounded : t.memory.shadow.Bounded)
    (precise : t.settings.policies.precision .string = .precise) (copies : f.copies = true) {text : String}
    (literal : v = .string text) :
    (∃ out path, TextRule.secondRun t.memory m.heap f c.base c.args = some out ∧
      (Encoding.decode out).1 = text.toList ∧ path.label = "precise:string." ++ f.name ∧
      t'.memory.stored? r = some ⟨(CharMap.ofBits (Encoding.decode out).2).all,
        some (.ofBits (Encoding.decode out).2), path⟩) ∨
    ((∀ out, TextRule.secondRun t.memory m.heap f c.base c.args = some out →
        (Encoding.decode out).1 ≠ text.toList) ∧
      (t'.memory.entryOf r).path.label ≠ "precise:string." ++ f.name) := by
  obtain ⟨id, known, fresh⟩ := h.fresh _ literal
  have unmodelled : TextRule.model? t.settings.policies f.name = none := by
    cases f <;> first | rfl | cases copies
  obtain ⟨ns, m₃, histories, used, at'⟩ := MemoryM.histories_at (.refl m) (c'.base :: c'.args)
  obtain ⟨heap, again, -⟩ := TextRule.runEncoded_used used ⟨c'.f, c'.base, c'.args, r⟩
  rw [h.runEncoded calls bounded copies literal] at again
  have rerun := TextRule.rerun_apply histories again (stringOf?_of_lookup known)
  have rule := h.rule_of_precise calls precise (by rw [literal]; rfl)
  rw [TextRule.call_apply, h.functionName, unmodelled] at rule
  dsimp only at rule
  rw [rule, TextRule.unmodelled, bind_apply, rerun, h.functionName]
  have beside : Policy.NodesUsed { m with heap } { m₃ with heap } := by
    obtain ⟨count, rfl⟩ := used
    exact ⟨count, rfl⟩
  rcases read : (TextRule.secondRun t.memory m.heap f c.base c.args).filter
      fun out => (Encoding.decode out).1 = text.toList with _ | out
  · -- the second run is given up, and nothing is stored for the result when the rule of objects is asked
    have known₃ : ShadowState.lookup? ({ m₃ with heap } : Memory).shadow r = some (id, .string text) :=
      (lookup?_of_wraps used.marks.wraps r).trans known
    have unstored₃ : stored? { m₃ with heap } r = none := by
      obtain ⟨count, rfl⟩ := used
      exact h.unstored bounded literal
    have label := ObjectRule.label_call_ne (some t.settings.policies.objectGrain) ⟨c'.f, c'.base, c'.args, r⟩
      known₃ unstored₃ f.name
    refine .inr ⟨fun out found same => ?_, label⟩
    exact Option.filter_eq_none_iff.mp read out found (by simpa using same)
  · left
    obtain ⟨found, same⟩ := Option.filter_eq_some_iff.mp read
    have same : (Encoding.decode out).1 = text.toList := of_decide_eq_true same
    have fits : text.length = (Encoding.decode out).2.length := by
      rw [← String.length_toList, ← same]
      simp [Encoding.decode, List.unzip_eq_map]
    obtain ⟨applied, path, label, stored⟩ := TextRule.storeBits_stored beside
      (show List.Forall₂ (HistoryAt { m with heap }) (c'.base :: c'.args) ns from at') known fits
      ("precise:string." ++ f.name)
    refine ⟨out, path, found, same, label, ?_⟩
    dsimp only
    rw [applied]
    exact stored

end Tracker.TextRun

namespace TextRule

theorem length_charBits_of_string {m : Memory} {v : Value} {s : String} (text : m.stringOf? v = some s) :
    (m.charBits v).length = s.length := by
  rw [charBits, text]
  simp [TaintEntry.charBits]

/-- A string is written with the taint of its characters. -/
theorem encoded_of_string {m : Memory} {v : Value} {s : String} (text : m.stringOf? v = some s) :
    encoded m v = Encoding.encode s.toList (m.charBits v) := by
  rw [encoded, keyText, valueOf_of_stringOf? text, Heap.keyText_string]

theorem exists_encoded {m : Memory} {v : Value} {s : String} (text : m.stringOf? v = some s)
    (basic : Encoding.IsBasic s.toList) :
    ∃ cs, encoded m v = .ok cs ∧ Encoding.decode cs = (s.toList, m.charBits v) := by
  have fits : s.toList.length = (m.charBits v).length := by
    rw [String.length_toList, length_charBits_of_string text]
  obtain ⟨cs, written⟩ := (Encoding.encode_ok_iff fits).mpr basic
  exact ⟨cs, (encoded_of_string text).trans written, Encoding.decode_encode written⟩

/-- Other values are passed as they are. -/
theorem mapM_encodedArgument_of_plain {m : Memory} {args : List Value}
    (plain : ∀ v ∈ args, m.stringOf? v = none) :
    args.mapM (encodedArgument m) = .ok (args.map m.valueOf) := by
  induction args with
  | nil => rfl
  | cons v rest ih =>
    rw [List.mapM_cons, encodedArgument, plain v List.mem_cons_self,
      ih fun w mem => plain w (List.mem_cons_of_mem _ mem)]
    rfl

theorem forall₂_of_mapM {α β ε : Type} {f : α → Except ε β} {as : List α} {bs : List β}
    (run : as.mapM f = .ok bs) : List.Forall₂ (fun a b => f a = .ok b) as bs := by
  induction as generalizing bs with
  | nil =>
    cases run
    exact .nil
  | cons a as ih =>
    rw [List.mapM_cons] at run
    rcases first : f a with e | b <;> rw [first] at run
    · cases run
    · rcases rest : as.mapM f with e | bs' <;> rw [rest] at run
      · cases run
      · cases run
        exact .cons first (ih rest)

theorem getElem?_of_forall₂ {α β : Type} {R : α → β → Prop} {as : List α} {bs : List β}
    (all : List.Forall₂ R as bs) (i : Nat) :
    as[i]? = none ∧ bs[i]? = none ∨ ∃ a b, as[i]? = some a ∧ bs[i]? = some b ∧ R a b := by
  induction all generalizing i with
  | nil => exact .inl ⟨rfl, rfl⟩
  | cons head _ ih =>
    cases i with
    | zero => exact .inr ⟨_, _, rfl, rfl, head⟩
    | succ i => exact ih i

section Arguments

variable {m : Memory} {args read : List Value} (written : args.mapM (encodedArgument m) = .ok read)
include written

/-- What is passed in the second run for an argument: a string that is written with its taint, or the value. -/
theorem argument_cases (i : Nat) :
    args[i]? = none ∧ read[i]? = none ∨
      (∃ v, args[i]? = some v ∧ m.stringOf? v = none ∧ read[i]? = some (m.valueOf v)) ∨
      ∃ v s cs, args[i]? = some v ∧ m.stringOf? v = some s ∧ read[i]? = some (.string (String.ofList cs)) ∧
        Encoding.encode s.toList (m.charBits v) = .ok cs := by
  rcases getElem?_of_forall₂ (forall₂_of_mapM written) i with missing | ⟨v, w, at_i, read_i, passed⟩
  · exact .inl missing
  · right
    rw [encodedArgument] at passed
    rcases text : m.stringOf? v with _ | s <;> rw [text] at passed
    · cases passed
      exact .inl ⟨v, at_i, text, read_i⟩
    · dsimp only at passed
      rw [encoded_of_string text] at passed
      rcases encodes : Encoding.encode s.toList (m.charBits v) with e | cs <;> rw [encodes] at passed
      · cases passed
      · cases passed
        exact .inr ⟨v, s, cs, at_i, text, read_i, encodes⟩

/-- A string that is written with its taint is read as zero. -/
theorem integerArgument_read (i : Nat) (fallback : Int) :
    integerArgument read i fallback = integerArgument (args.map m.valueOf) i fallback ∨
      integerArgument read i fallback = 0 ∧ ∃ v, args[i]? = some v ∧ (m.stringOf? v).isSome = true := by
  unfold integerArgument
  rw [List.getElem?_map]
  rcases argument_cases written i with ⟨at_i, read_i⟩ | ⟨v, at_i, -, read_i⟩ | ⟨v, s, cs, at_i, text, read_i, encodes⟩
  · exact .inl (by rw [at_i, read_i]; rfl)
  · exact .inl (by rw [at_i, read_i]; rfl)
  · refine .inr ⟨?_, v, at_i, by rw [text]; rfl⟩
    rw [read_i]
    have planes := Encoding.untaintedPlane_le_of_mem encodes
    have unspelled : spelledNumber? (String.ofList cs) = none :=
      spelledNumber?_of_large fun c mem => by
        rw [String.toList_ofList] at mem
        exact Nat.le_trans (by decide) (planes c mem)
    show ((spelledNumber? (String.ofList cs)).map Decimal.toInt64).getD 0 = 0
    rw [unspelled]
    rfl

end Arguments

end TextRule

namespace Tracker

variable {t t' : Tracker} {c c' : Call} {f : StringMethod} {s : String} {r : Value}

/-- A method that takes a part of its receiver is called, where strings are tracked precisely and literals
get shadows, on a string of the basic plane and without strings among the arguments. Unless the call is
refused or a text should be repeated a negative number of times, every character of the result is recorded
with the taint of the character of the receiver that was copied there. -/
theorem positions_exact (reachable : Reachable t)
    (wraps : t.memory.shadow.frame.callType.skipsWrapping = false)
    (precise : t.settings.policies.precision .string = .precise) (calls : t.CallsText c f s)
    (takes : f.takesPart = true) (basic : Encoding.IsBasic s.toList)
    (plain : ∀ v ∈ c.args, t.memory.stringOf? v = none) :
    (∃ e t', invoke c none t = (.error e, t') ∧ (t.memory.shadow.AtRest → e.EndsRun)) ∨
      (f = .repeated ∧ ∃ count t', count = integerArgument (c.args.map t.memory.valueOf) 0 0 ∧ count < 0 ∧
        invoke c none t = (.error (.native (.invalidCount count)), t')) ∨
      ∃ c' r t' text bits path, invoke c none t = (.ok (c', r), t') ∧
        t'.memory.stringOf? r = some text ∧
        t'.memory.stored? r = some ⟨(CharMap.ofBits bits).all, some (.ofBits bits), path⟩ ∧
        text.toList.map some =
          (f.positions s.length (c.args.map t.memory.valueOf)).map (s.toList[·]?) ∧
        bits.map some =
          (f.positions s.length (c.args.map t.memory.valueOf)).map ((t.memory.charBits c.base)[·]?) := by
  rcases invoke_text_cases calls wraps with refused | ⟨h, e, t', failed, run⟩ |
    ⟨c', r, t', result, v, m₁, m₂, m, run, h⟩
  · exact .inl refused
  · rcases StringMethod.run_of_takesPart (c.args.map t.memory.valueOf) takes h s.toList with
      ok | ⟨repeated, negative, invalid⟩
    · rw [failed] at ok
      cases ok
    · rw [failed] at invalid
      cases invalid
      exact .inr (.inl ⟨repeated, _, t', rfl, negative, run⟩)
  · right; right
    have bounded := reachable.bounded
    have copies : f.copies = true := by rw [StringMethod.copies, takes]; rfl
    have part := StringMethod.run_of_ok takes h.ran m₁.heap s.toList
    obtain rfl : result = .ofChars (f.part s.toList (c.args.map t.memory.valueOf)) := by
      have ran := h.ran
      rw [part] at ran
      cases ran
      rfl
    have literal : v = .string (String.ofList (f.part s.toList (c.args.map t.memory.valueOf))) :=
      (congrArg Prod.fst h.delivered).symm
    obtain ⟨id, known, -⟩ := h.known_result literal
    -- the second run takes the same part
    obtain ⟨cs, written, read⟩ := TextRule.exists_encoded calls.base basic
    have second : TextRule.secondRun t.memory m.heap f c.base c.args =
        some (f.part cs (c.args.map t.memory.valueOf)) := by
      unfold TextRule.secondRun
      rw [written, TextRule.mapM_encodedArgument_of_plain plain]
      dsimp only
      rw [StringMethod.run_of_ok takes h.ran m.heap cs]
      exact congrArg some String.toList_ofList
    have decoded := Encoding.decode_part f cs (c.args.map t.memory.valueOf)
    rw [read] at decoded
    have length := TextRule.length_charBits_of_string calls.base
    rcases h.reread calls bounded precise copies literal with ⟨out, path, found, -, -, stored⟩ | ⟨other, -⟩
    · rw [second] at found
      cases found
      rw [decoded] at stored
      refine ⟨c', r, t', _, _, path, run, stringOf?_of_lookup known, stored, ?_, ?_⟩
      · rw [String.toList_ofList, ← String.length_toList, f.map_positions]
      · rw [← length, f.map_positions]
    · refine absurd ?_ (other _ second)
      rw [decoded, String.toList_ofList]

end Tracker

namespace Session

/-- The function object of a method of strings. -/
def method (f : StringMethod) : HeapObject :=
  { kind := .function { name := f.name, native := some (.string f) } }

/-- A heap with a source of taint for properties and with some methods of strings. -/
def textMethods : Heap :=
  ⟨#[{ kind := .global }, { kind := .objectPrototype },
    { kind := .function { name := "__jalangi_set_prop_taint__" } },
    method .charAt, method .slice, method .substring, method .charCodeAt, method .split, method .replace]⟩

/-- The first string that comes up. -/
def spelled (text : String) : Value := .shadow ⟨0⟩ ⟨0⟩ (.string text)

/-- A string comes up, and one of its characters is tainted. -/
def spelling (text key : String) : List Event :=
  [.host textMethods, .hook (.literal (.string text)),
    .hook (.callPre
      { f := .object 2, base := .undefined, args := [spelled text, .string key], site := 0 })]

/-- The tracker then, where characters of strings are tracked. -/
def withSpelling (text key : String) : Tracker :=
  (run (start preciseStrings ⟨#[]⟩) (spelling text key)).tracker

/-- A method is called on the string. -/
def callText (f : ObjectId) (text : String) (args : List Value) : Call :=
  { f := .object f, base := spelled text, args, method := true, site := 1 }

end Session

namespace Tracker

open Session

/-- The last two characters of a string keep their taint. -/
theorem positions_exact_slice : ∃ c' r t', ∃ (text : String) (bits : List Bool), ∃ path,
    invoke (callText 4 "abc" [.literal (.number (-2.0))]) none (withSpelling "abc" "1") =
      (.ok (c', r), t') ∧
    t'.memory.stored? r = some ⟨(CharMap.ofBits bits).all, some (.ofBits bits), path⟩ ∧
    text.toList.map some = [some 'b', some 'c'] ∧ bits.map some = [some true, some false] := by
  rcases positions_exact (t := withSpelling "abc" "1")
      (c := callText 4 "abc" [.literal (.number (-2.0))]) (f := .slice) (s := "abc")
      (reachable_run (.start _ ⟨#[]⟩) _) (by decide +kernel) (by decide +kernel)
      ⟨by decide +kernel, rfl, by decide +kernel⟩ rfl (show Encoding.IsBasic _ by decide +kernel)
      (by decide +kernel) with
    ⟨e, t', failed, -⟩ | ⟨repeated, -⟩ | ⟨c', r, t', text, bits, path, run, -, stored, chars, taint⟩
  · have succeeds : (invoke (callText 4 "abc" [.literal (.number (-2.0))]) none
        (withSpelling "abc" "1")).1.isOk = true := by decide +kernel
    rw [failed] at succeeds
    cases succeeds
  · cases repeated
  · exact ⟨c', r, t', text, bits, path, run, stored, chars.trans (by decide +kernel),
      taint.trans (by decide +kernel)⟩

end Tracker

section Keeping

variable {m : Memory} {base : Value} {args read : List Value} {s : String}

/-- A character that was tainted at its origin is tainted. -/
def Origin.Kept (m : Memory) (base : Value) (args : List Value) (o : Origin) (bit : Bool) : Prop :=
  o.tainted m base args = true → bit = true

namespace Origin

/-- Where nothing was tainted, there is nothing to keep. -/
theorem kept_of_clean {os : List Origin} {bits : List Bool} (length : os.length = bits.length)
    (clean : ∀ o ∈ os, o.tainted m base args = false) : List.Forall₂ (Kept m base args) os bits := by
  induction os generalizing bits with
  | nil =>
    rw [List.length_eq_zero_iff.mp length.symm]
    exact .nil
  | cons o os ih =>
    cases bits with
    | nil => cases length
    | cons b bits =>
      refine .cons (fun tainted => ?_) (ih (Nat.succ.inj length) fun o' mem =>
        clean o' (List.mem_cons_of_mem _ mem))
      rw [clean o List.mem_cons_self] at tainted
      cases tainted

/-- Characters that were copied keep their taint. -/
theorem kept_of_positions {origin : Nat → Origin} {source bits : List Bool} {positions : List Nat}
    (taint : ∀ i, (origin i).tainted m base args = source.getD i false)
    (copied : bits.map some = positions.map (source[·]?)) :
    List.Forall₂ (Kept m base args) (positions.map origin) bits := by
  induction positions generalizing bits with
  | nil =>
    rw [List.map_nil, List.map_eq_nil_iff] at copied
    rw [copied]
    exact .nil
  | cons i positions ih =>
    cases bits with
    | nil => cases copied
    | cons b bits =>
      obtain ⟨head, tail⟩ := List.cons.inj copied
      have bit : some b = source[i]? := head
      refine .cons (fun tainted => ?_) (ih tail)
      rw [← tainted, taint, List.getD_eq_getElem?_getD, ← bit]
      rfl

theorem kept_all {origin : Nat → Origin} {source : List Bool}
    (taint : ∀ i, (origin i).tainted m base args = source.getD i false) :
    List.Forall₂ (Kept m base args) ((List.range source.length).map origin) source :=
  kept_of_positions taint (StringMethod.map_getElem?_range source).symm

/-- What takes the place of the pattern keeps its taint, if it is a string or untainted. -/
theorem kept_replacement {h h' : Heap} (written : args.mapM (TextRule.encodedArgument m) = .ok read)
    (either : ∀ w, args[1]? = some w → (m.stringOf? w).isSome = true ∨ true ∉ m.charBits w)
    (length : (replacementOrigins h (args.map m.valueOf)).length = (textArgument h' read 1).length) :
    List.Forall₂ (Kept m base args) (replacementOrigins h (args.map m.valueOf))
      (Encoding.decode (textArgument h' read 1).toList).2 := by
  have fits : (replacementOrigins h (args.map m.valueOf)).length =
      (Encoding.decode (textArgument h' read 1).toList).2.length := by
    rw [length, Encoding.length_snd_decode, String.length_toList]
  rcases TextRule.argument_cases written 1 with ⟨missing, -⟩ | ⟨w, at_1, plain, -⟩ |
    ⟨w, s, cs, at_1, text, read_1, encodes⟩
  · refine kept_of_clean fits fun o mem => ?_
    unfold replacementOrigins textArgument? at mem
    rw [List.getElem?_map, missing] at mem
    obtain ⟨c, -, rfl⟩ := List.mem_map.mp mem
    rfl
  · refine kept_of_clean fits fun o mem => ?_
    have clean : true ∉ m.charBits w := by
      rcases either w at_1 with string | clean
      · rw [plain] at string
        cases string
      · exact clean
    unfold replacementOrigins at mem
    split at mem
    · obtain ⟨i, -, rfl⟩ := List.mem_map.mp mem
      rw [tainted, at_1, Option.map_some, Option.getD_some, List.getD_eq_getElem?_getD]
      rcases bit : (m.charBits w)[i]? with _ | _ | _
      · rfl
      · rfl
      · exact absurd (List.mem_of_getElem? bit) clean
    · obtain ⟨c, -, rfl⟩ := List.mem_map.mp mem
      rfl
  · have given : textArgument? h (args.map m.valueOf) 1 = some s :=
      textArgument?_of_string h (by rw [List.getElem?_map, at_1, Option.map_some, valueOf_of_stringOf? text])
    have again : textArgument h' read 1 = String.ofList cs := by
      rw [textArgument, textArgument?_of_string h' read_1]
      rfl
    rw [again, String.toList_ofList, Encoding.decode_encode encodes, replacementOrigins, given]
    dsimp only
    rw [← TextRule.length_charBits_of_string text]
    exact kept_all fun i => by rw [tainted, at_1]; rfl

/-- A method that takes a part keeps the taint of the receiver, if its second run returns the same text and
begins at the same position. -/
theorem kept_of_part {f : StringMethod} (takes : f.takesPart = true) (text : m.stringOf? base = some s)
    (written : args.mapM (TextRule.encodedArgument m) = .ok read) (alike : m.ReadsAlike f s base args)
    (same : f.part s.toList read = f.part s.toList (args.map m.valueOf)) :
    List.Forall₂ (Kept m base args) ((f.positions s.length (args.map m.valueOf)).map .receiver)
      (f.part (m.charBits base) read) := by
  have copied := f.map_positions (m.charBits base) read
  rw [TextRule.length_charBits_of_string text] at copied
  have length : (f.positions s.length read).length = (f.positions s.length (args.map m.valueOf)).length := by
    rw [← String.length_toList, f.length_positions, f.length_positions, same]
  have first := TextRule.integerArgument_read written 0 0
  have second := TextRule.integerArgument_read written 1 s.length
  have start : f = .charAt ∨ f = .substr →
      integerArgument read 0 0 = integerArgument (args.map m.valueOf) 0 0 ∨
        relativePosition s.length (integerArgument (args.map m.valueOf) 0 0) = 0 := by
    intro seeks
    rcases first with unchanged | ⟨-, v, at_0, string⟩
    · exact .inl unchanged
    · right
      rcases seeks with rfl | rfl
      · exact alike v at_0 string
      · exact alike v at_0 string
  rcases StringMethod.positions_of_length takes (first.imp_right And.left) (second.imp_right And.left) start
    length with positions | empty
  · rw [← positions]
    exact kept_of_positions (fun _ => rfl) copied.symm
  · rw [empty] at length ⊢
    rw [List.length_eq_zero_iff.mp length] at copied
    rw [List.map_eq_nil_iff.mp copied.symm]
    exact .nil

/-- A method that replaces keeps the taint of the receiver and of what takes the place of the pattern, if its
second run returns the same text and finds the pattern in the same place. -/
theorem kept_of_replace {h h' : Heap} {cs : List Char} (text : m.stringOf? base = some s)
    (writes : TextRule.encoded m base = .ok cs) (written : args.mapM (TextRule.encodedArgument m) = .ok read)
    (alike : m.ReadsAlike .replace s base args)
    (same : (StringMethod.replace.origins h s.toList (args.map m.valueOf)).length =
      (Text.replaceFirst (textArgument h' read 0).toList (textArgument h' read 1).toList cs).length) :
    List.Forall₂ (Kept m base args) (StringMethod.replace.origins h s.toList (args.map m.valueOf))
      (Encoding.decode (Text.replaceFirst (textArgument h' read 0).toList
        (textArgument h' read 1).toList cs)).2 := by
  obtain ⟨v, p, at_0, pattern, place, either⟩ := alike
  rw [TextRule.encoded_of_string text] at writes
  have decoded := Encoding.decode_encode writes
  obtain ⟨ep, read_0, encodes⟩ : ∃ ep, read[0]? = some (.string (String.ofList ep)) ∧
      Encoding.encode p.toList (m.charBits v) = .ok ep := by
    rcases TextRule.argument_cases written 0 with ⟨missing, -⟩ | ⟨w, at_0', plain, -⟩ |
      ⟨w, p', ep, at_0', pattern', read_0, encodes⟩
    · rw [at_0] at missing
      cases missing
    · rw [at_0] at at_0'
      cases at_0'
      rw [pattern] at plain
      cases plain
    · rw [at_0] at at_0'
      cases at_0'
      rw [pattern] at pattern'
      cases pattern'
      exact ⟨ep, read_0, encodes⟩
  have given : textArgument h (args.map m.valueOf) 0 = p := by
    rw [textArgument, textArgument?_of_string h
      (by rw [List.getElem?_map, at_0, Option.map_some, valueOf_of_stringOf? pattern])]
    rfl
  have again : (textArgument h' read 0).toList = ep := by
    rw [textArgument, textArgument?_of_string h' read_0]
    exact String.toList_ofList
  -- the second run finds the pattern where the first one did
  have found : Text.indexOf? ep cs = Text.indexOf? p.toList s.toList :=
    Encoding.indexOf?_encoded encodes writes (by rwa [String.length_toList])
  have length : ep.length = p.length := by
    rw [← Encoding.length_fst_decode, Encoding.decode_encode encodes, String.length_toList]
  have origins : StringMethod.replace.origins h s.toList (args.map m.valueOf) =
      replacedAt (Text.indexOf? p.toList s.toList) p.length (replacementOrigins h (args.map m.valueOf))
        ((List.range s.length).map .receiver) := by
    rw [StringMethod.origins, given, String.length_toList]
  have receiver : List.Forall₂ (Kept m base args)
      ((List.range (m.charBits base).length).map .receiver) (m.charBits base) := kept_all fun _ => rfl
  rw [TextRule.length_charBits_of_string text] at receiver
  rw [again, Text.replaceFirst_eq, found, length] at same ⊢
  rw [origins] at same ⊢
  rw [Encoding.decode_replacedAt, decoded]
  generalize Text.indexOf? p.toList s.toList = found at same ⊢
  rcases found with _ | i
  · exact receiver
  · have count : cs.length = s.length := by
      rw [← Encoding.length_fst_decode, decoded, String.length_toList]
    have replacement : List.Forall₂ (Kept m base args) (replacementOrigins h (args.map m.valueOf))
        (Encoding.decode (textArgument h' read 1).toList).2 := by
      refine kept_replacement written either ?_
      simp only [replacedAt, List.length_append, List.length_take, List.length_drop, List.length_map,
        List.length_range, count, String.length_toList] at same
      omega
    exact List.rel_append (List.rel_append (List.forall₂_take i receiver) replacement)
      (List.forall₂_drop (i + p.length) receiver)

end Origin

end Keeping

namespace Tracker

variable {t t' : Tracker} {c c' : Call} {f : StringMethod} {s : String} {r : Value}

/-- What is read off a second run is sound if it reads the receiver where the first one did: every character
of the result that was tainted at its origin is tainted. -/
theorem rereading_sound (reachable : Reachable t)
    (wraps : t.memory.shadow.frame.callType.skipsWrapping = false)
    (precise : t.settings.policies.precision .string = .precise) (calls : t.CallsText c f s)
    (copies : f.copies = true) (alike : t.memory.ReadsAlike f s c.base c.args)
    (run : invoke c none t = (.ok (c', r), t'))
    (accepted : (t'.memory.entryOf r).path.label = "precise:string." ++ f.name) :
    ∃ text map, t'.memory.stringOf? r = some text ∧
      (t'.memory.stored? r).bind (·.chars) = some map ∧
      text.toList.map some =
        (f.origins (callPre c t).2.memory.heap s.toList (c.args.map t.memory.valueOf)).map
          (·.char? (callPre c t).2.memory.heap s.toList (c.args.map t.memory.valueOf)) ∧
      List.Forall₂ (Origin.Kept t.memory c.base c.args)
        (f.origins (callPre c t).2.memory.heap s.toList (c.args.map t.memory.valueOf)) map.chars := by
  obtain ⟨result, v, m₁, m₂, m, h⟩ := textRun_of_invoke calls wraps run
  have bounded := reachable.bounded
  rw [h.opened]
  obtain ⟨cs, rfl, origins⟩ := StringMethod.run_origins copies h.ran
  have literal : v = .string (String.ofList cs) := (congrArg Prod.fst h.delivered).symm
  obtain ⟨id, known, -⟩ := h.known_result literal
  rcases h.reread calls bounded precise copies literal with ⟨out, path, second, same, -, stored⟩ | ⟨-, other⟩
  · refine ⟨String.ofList cs, .ofBits (Encoding.decode out).2, stringOf?_of_lookup known, ?_, ?_, ?_⟩
    · rw [stored]
      rfl
    · rw [String.toList_ofList, origins]
    · rw [String.toList_ofList] at same
      obtain ⟨es, read, writes, written, ran⟩ := TextRule.secondRun_eq_some copies second
      have decoded : Encoding.decode es = (s.toList, t.memory.charBits c.base) := by
        rw [TextRule.encoded_of_string calls.base] at writes
        exact Encoding.decode_encode writes
      have fits : (f.origins m₁.heap s.toList (c.args.map t.memory.valueOf)).length = out.length := by
        rw [← Encoding.length_fst_decode, same]
        simpa using (congrArg List.length origins).symm
      rcases (Bool.or_eq_true _ _).mp copies with takes | replaces
      · have part := StringMethod.run_of_ok takes ran m.heap es
        have real := StringMethod.run_of_ok takes h.ran m₁.heap s.toList
        rw [ran] at part
        rw [h.ran] at real
        obtain rfl : out = _ := StringResult.ofChars_injective (Except.ok.inj part)
        obtain rfl : cs = _ := StringResult.ofChars_injective (Except.ok.inj real)
        rw [Encoding.decode_part, decoded] at same ⊢
        rw [StringMethod.origins_of_takesPart takes, String.length_toList]
        exact Origin.kept_of_part takes calls.base written alike same
      · obtain rfl : f = .replace := of_decide_eq_true replaces
        obtain rfl : _ = out := StringResult.ofChars_injective (Except.ok.inj ran)
        exact Origin.kept_of_replace calls.base writes written alike fits
  · exact absurd accepted other

/-- What a complete call returns, by what can be read of it. -/
theorem exists_of_result {α : Type} {c : Call} {t : Tracker} {g : Value → Memory → α} {a : α}
    (result : (invoke c none t).1.toOption.map (fun p => g p.2 (invoke c none t).2.memory) = some a) :
    ∃ c' r t', invoke c none t = (.ok (c', r), t') ∧ g r t'.memory = a := by
  rcases run : invoke c none t with ⟨e | ⟨c', r⟩, t'⟩ <;> rw [run] at result
  · cases result
  · exact ⟨c', r, t', rfl, Option.some.inj result⟩

open Session

/-- What stands behind a replaced pattern keeps its taint. -/
theorem rereading_sound_replace : ∃ c' r t' map,
    invoke (callText 8 "abc" [.string "b", .string "xy"]) none (withSpelling "abc" "2") =
      (.ok (c', r), t') ∧
    t'.memory.stringOf? r = some "axyc" ∧ (t'.memory.stored? r).bind (·.chars) = some map ∧
    map.chars[3]? = some true := by
  obtain ⟨c', r, t', run, read⟩ := exists_of_result
    (c := callText 8 "abc" [.string "b", .string "xy"]) (t := withSpelling "abc" "2")
    (a := ("precise:string.replace", some "axyc"))
    (g := fun v m => ((m.entryOf v).path.label, m.stringOf? v)) (by decide +kernel)
  obtain ⟨label, text⟩ := Prod.mk.inj read
  have alike : (withSpelling "abc" "2").memory.ReadsAlike .replace "abc" (spelled "abc")
      [.string "b", .string "xy"] := by
    refine ⟨.string "b", "b", rfl, rfl, fun i found => ?_, fun w second => ?_⟩
    · have place : Text.indexOf? "b".toList "abc".toList = some 1 := by decide +kernel
      obtain rfl : 1 = i := Option.some.inj (place.symm.trans found)
      decide +kernel
    · obtain rfl : Value.string "xy" = w := Option.some.inj second
      exact .inl rfl
  obtain ⟨_, map, -, stored, -, kept⟩ := rereading_sound (t := withSpelling "abc" "2") (f := .replace)
    (s := "abc") (reachable_run (.start _ ⟨#[]⟩) _) (by decide +kernel) (by decide +kernel)
    ⟨by decide +kernel, rfl, by decide +kernel⟩ rfl alike run label
  have tainted : ((StringMethod.replace.origins
      (callPre (callText 8 "abc" [.string "b", .string "xy"]) (withSpelling "abc" "2")).2.memory.heap
      "abc".toList ([.string "b", .string "xy"].map (withSpelling "abc" "2").memory.valueOf)).map
        (·.tainted (withSpelling "abc" "2").memory (spelled "abc") [.string "b", .string "xy"]))[3]? =
      some true := by
    decide +kernel
  rw [List.getElem?_map, Option.map_eq_some_iff] at tainted
  obtain ⟨o, at_3, bit⟩ := tainted
  rcases TextRule.getElem?_of_forall₂ kept 3 with ⟨missing, -⟩ | ⟨o', b, at_3', bit_3, keeps⟩
  · cases at_3.symm.trans missing
  · obtain rfl : o = o' := Option.some.inj (at_3.symm.trans at_3')
    exact ⟨c', r, t', map, run, text, stored, bit_3.trans (congrArg some (keeps bit))⟩

end Tracker

namespace Session

/-- A string that spells a position is read as the first one when the method runs once more. Where the same
character stands there, that is taken for exact, and the taint of the character is lost. -/
theorem repeated_character_loses : Reachable (withSpelling "aa" "1") ∧
    (withSpelling "aa" "1").memory.shadow.frame.callType.skipsWrapping = false ∧
    (withSpelling "aa" "1").settings.policies.precision .string = .precise ∧
    (withSpelling "aa" "1").CallsText (callText 3 "aa" [.string "1"]) .charAt "aa" ∧
    (withSpelling "aa" "1").memory.charBits (spelled "aa") = [false, true] ∧
    StringMethod.charAt.positions 2 [.string "1"] = [1] ∧
    ∃ c' r t', invoke (callText 3 "aa" [.string "1"]) none (withSpelling "aa" "1") = (.ok (c', r), t') ∧
      t'.memory.stringOf? r = some "a" ∧
      (t'.memory.entryOf r).path.label = "precise:string.charAt" ∧
      (t'.memory.stored? r).bind (·.chars) = some (.ofBits [false]) := by
  refine ⟨reachable_run (.start _ ⟨#[]⟩) _, by decide +kernel, by decide +kernel,
    ⟨by decide +kernel, rfl, by decide +kernel⟩, by decide +kernel, by decide +kernel, ?_⟩
  obtain ⟨c', r, t', run, result⟩ := exists_of_result (c := callText 3 "aa" [.string "1"])
    (t := withSpelling "aa" "1") (a := (some "a", "precise:string.charAt", some (.ofBits [false])))
    (g := fun v m => (m.stringOf? v, (m.entryOf v).path.label, (m.stored? v).bind (·.chars)))
    (by decide +kernel)
  obtain ⟨text, result⟩ := Prod.mk.inj result
  obtain ⟨label, chars⟩ := Prod.mk.inj result
  exact ⟨c', r, t', run, text, label, chars⟩

end Session

end ShadowTaint
