import ShadowTaint.Proofs.Blocking
import ShadowTaint.Proofs.Laundering
/-!
# Concatenating strings character by character

Where the characters of strings are tracked, the operands of a concatenation are written with their taint
in their code points, put together and read again. That works for characters of the basic plane only. If
there is another one, the result has the rule of objects, which looks at the operands as a whole, and at
their bits only, where objects are tracked precisely.

## Main definitions

- `Encoding.IsBasic`: a text of characters of the basic plane.

## Main statements

- `Encoding.encode_ok_iff`: these are the texts that can be written with their taint.
- `Tracker.concatenation_exact`: the characters of the result have the taint of those of the operands.
- `Tracker.concatenation_keeps_iff`: when a tainted character of an operand is tainted in the result.
- `Session.supplementary_loses`: a run in which one is not.
-/

namespace ShadowTaint

open Memory Tracker

namespace Encoding

/-- All characters are of the basic plane. -/
def IsBasic (s : List Char) : Prop := ∀ c ∈ s, c.toNat < planeSize

-- Not the instance of a finite type: it would run through all characters there are.
instance (s : List Char) : Decidable (IsBasic s) :=
  List.decidableBAll (fun c : Char => c.toNat < planeSize) s

theorem isBasic_append {s t : List Char} : IsBasic (s ++ t) ↔ IsBasic s ∧ IsBasic t :=
  List.forall_mem_append

theorem encodeChars_ok_iff {s : List Char} {bits : List Bool} (len : s.length = bits.length) :
    (∃ t, encodeChars s bits = .ok t) ↔ IsBasic s := by
  induction s generalizing bits with
  | nil => simp [encodeChars, IsBasic]
  | cons c s ih =>
    rcases bits with _ | ⟨b, bits⟩
    · cases len
    · have rest := ih (Nat.succ.inj len)
      rw [encodeChars, encodeChar, IsBasic, List.forall_mem_cons]
      by_cases basic : c.toNat < planeSize
      · rw [if_neg (Nat.not_le.mpr basic)]
        dsimp only
        rw [and_iff_right basic, ← IsBasic, ← rest]
        rcases encodeChars s bits with e | t <;> simp
      · rw [if_pos (Nat.not_lt.mp basic)]
        simp [basic]

/-- A text can be written with its taint exactly if all its characters are of the basic plane. -/
theorem encode_ok_iff {s : List Char} {bits : List Bool} (len : s.length = bits.length) :
    (∃ t, encode s bits = .ok t) ↔ IsBasic s := by
  rw [encode, if_pos len]
  exact encodeChars_ok_iff len

end Encoding

/-- All characters are tainted, and there is one. -/
theorem CharMap.all_ofBits_iff (bits : List Bool) :
    (CharMap.ofBits bits).all = true ↔ bits ≠ [] ∧ ∀ b ∈ bits, b = true := by
  cases bits with
  | nil => simp [ofBits, all]
  | cons b bits =>
    rw [all_eq_true_iff]
    refine ⟨fun h => ⟨List.cons_ne_nil b bits, h.2⟩, fun h => ⟨?_, h.2⟩⟩
    exact List.any_eq_true.mpr ⟨b, List.mem_cons_self, h.2 b List.mem_cons_self⟩

namespace TaintEntry

/-- An entry with a taint for every character says of each what it was given. -/
theorem charBits_ofBits (bits : List Bool) (path : Provenance.Node) :
    charBits ⟨(CharMap.ofBits bits).all, some (.ofBits bits), path⟩ bits.length = bits := by
  refine List.ext_getElem (by simp [charBits]) fun i _ inside => ?_
  have char : CharMap.charAt (.ofBits bits) i = bits[i] := by
    show bits.getD i false = bits[i]
    rw [List.getD_eq_getElem?_getD, List.getElem?_eq_getElem inside, Option.getD_some]
  simp only [charBits, List.getElem_map, List.getElem_range, Option.any_some, char]
  -- the bit is set only if every character is tainted
  rcases all : (CharMap.ofBits bits).all with _ | _
  · exact Bool.false_or _
  · exact (((CharMap.all_eq_true_iff _).mp all).2 _ (List.getElem_mem inside)).symm

theorem charBits_uniform (count : Nat) (tainted : Bool) (path : Provenance.Node) :
    charBits ⟨tainted, some (.uniform count tainted), path⟩ count =
      List.replicate count tainted := by
  refine List.ext_getElem (by simp [charBits]) fun i _ inside => ?_
  rw [List.length_replicate] at inside
  simp [charBits, CharMap.charAt, CharMap.uniform, List.getD_eq_getElem?_getD, inside]

end TaintEntry

namespace Memory

variable {m m' : Memory} {v w : Value} {id : Identity} {raw : Literal}

theorem keyText_of_lookup (known : m.shadow.lookup? v = some (id, raw)) : m.keyText v = raw.text := by
  rw [keyText, valueOf, ShadowState.valueOf_of_lookup known, Heap.keyText_of_plain rfl]
  rfl

theorem stringOf?_of_lookup (known : m.shadow.lookup? v = some (id, raw)) :
    m.stringOf? v = (Value.literal raw).string? := by
  rw [stringOf?, valueOf, ShadowState.valueOf_of_lookup known]

theorem length_charBits (known : m.shadow.lookup? v = some (id, raw)) :
    (m.charBits v).length = raw.text.length := by
  unfold charBits
  rw [stringOf?_of_lookup known, keyText_of_lookup known]
  cases raw with
  | string text => exact List.length_map _ |>.trans List.length_range
  | _ => exact List.length_replicate

theorem length_operandBits {left right : Value} {idl idr : Identity} {l r : Literal}
    (knownl : m.shadow.lookup? left = some (idl, l)) (knownr : m.shadow.lookup? right = some (idr, r)) :
    (l.text ++ r.text).length = (m.charBits left ++ m.charBits right).length := by
  rw [List.length_append, length_charBits knownl, length_charBits knownr, String.length_append]

/-- The characters of a literal that comes back are as tainted as before, as long as nothing is
recorded. -/
theorem ComesBack.charBits (back : m.ComesBack m' v w) (same : m.SameEntries m')
    (known : m.shadow.lookup? v = some (id, raw)) : m'.charBits w = m.charBits v := by
  have known' := (back.shadow id raw known).1
  have text := (stringOf?_of_lookup known').trans (stringOf?_of_lookup known).symm
  have stored : m'.stored? w = m.stored? v := by
    rw [stored?_of_lookup known', stored?_of_lookup known, same]
  unfold Memory.charBits TaintEntry.charBits entryOf charMap?
  rw [text, stored, keyText_of_lookup known', keyText_of_lookup known]
  cases m.stored? v <;> rfl

section Written

variable {text : String} {bit : Bool} {chars : Option CharMap} (writes : m.Writes m' v bit chars)
  (known : m.shadow.lookup? v = some (id, .string text))
include writes known

theorem Writes.stored?_string : ∃ path, m'.stored? v = some ⟨bit, chars, path⟩ := by
  obtain ⟨path, stored⟩ := writes.stored
  have tracked : m.shadow.keyOf v = some (.identity id) := by rw [ShadowState.keyOf, known]
  refine ⟨path, ?_⟩
  rw [stored?_of_lookup ((lookup?_of_wraps writes.wraps v).trans known), stored, if_pos tracked]

theorem Writes.charBits_string : ∃ path,
    m'.charBits v = TaintEntry.charBits ⟨bit, chars, path⟩ text.length := by
  obtain ⟨path, stored⟩ := writes.stored?_string known
  refine ⟨path, ?_⟩
  rw [charBits, stringOf?_of_lookup ((lookup?_of_wraps writes.wraps v).trans known), entryOf, stored]
  rfl

end Written

variable {text : String}

theorem Writes.charBits_ofBits {bits : List Bool}
    (writes : m.Writes m' v (CharMap.ofBits bits).all (some (.ofBits bits)))
    (known : m.shadow.lookup? v = some (id, .string text)) (fits : text.length = bits.length) :
    m'.charBits v = bits := by
  obtain ⟨path, written⟩ := writes.charBits_string known
  rw [written, fits, TaintEntry.charBits_ofBits]

theorem Writes.charBits_uniform {tainted : Bool}
    (writes : m.Writes m' v tainted (some (.uniform text.length tainted)))
    (known : m.shadow.lookup? v = some (id, .string text)) :
    m'.charBits v = List.replicate text.length tainted := by
  obtain ⟨path, written⟩ := writes.charBits_string known
  rw [written, TaintEntry.charBits_uniform]

end Memory

namespace TextRule

open MemoryM

variable {m : Memory} {ops : Operands} {left right : Identity} {l r : Literal}
  (knownl : m.shadow.lookup? ops.base = some (left, l))
  (knownr : m.shadow.lookup? ops.offset = some (right, r))

theorem encoded_ok_iff {v : Value} {id : Identity} {raw : Literal}
    (known : m.shadow.lookup? v = some (id, raw)) :
    (∃ t, encoded m v = .ok t) ↔ Encoding.IsBasic raw.text.toList := by
  unfold encoded
  rw [keyText_of_lookup known]
  exact Encoding.encode_ok_iff (by rw [length_charBits known, String.length_toList])

include knownl knownr

/-- Texts of the basic plane are put together with the taint of their characters. -/
theorem concatenate_basic (basicl : Encoding.IsBasic l.text.toList)
    (basicr : Encoding.IsBasic r.text.toList)
    (value : m.stringOf? ops.value = some (l.text ++ r.text)) :
    (concatenate ops m).1 = true ∧ m.Writes (concatenate ops m).2 ops.value
      (CharMap.ofBits (m.charBits ops.base ++ m.charBits ops.offset)).all
      (some (.ofBits (m.charBits ops.base ++ m.charBits ops.offset))) := by
  obtain ⟨s, writtenl⟩ := (encoded_ok_iff knownl).mpr basicl
  obtain ⟨t, writtenr⟩ := (encoded_ok_iff knownr).mpr basicr
  have readl := Encoding.decode_encode writtenl
  have readr := Encoding.decode_encode writtenr
  rw [keyText_of_lookup knownl] at readl
  rw [keyText_of_lookup knownr] at readr
  have spelled : String.ofList (l.text.toList ++ r.text.toList) = l.text ++ r.text := by
    rw [String.ofList_append, String.ofList_toList, String.ofList_toList]
  have fits := length_operandBits knownl knownr
  obtain ⟨ns, m₁, histories, used, -⟩ := histories_at (.refl m) [ops.base, ops.offset]
  have value₁ : m₁.stringOf? ops.value = some (l.text ++ r.text) :=
    (stringOf?_of_wraps used.marks.wraps _).trans value
  unfold concatenate
  rw [bind_apply, get_apply]
  dsimp only
  rw [writtenl, writtenr]
  dsimp only
  rw [Encoding.decode_append, readl, readr, spelled, value]
  simp only [bne_self_eq_false, Bool.false_eq_true, if_false]
  rw [bind_apply, histories]
  dsimp only
  unfold storeBits
  rw [bind_apply, get_apply]
  dsimp only
  rw [value₁, Option.map_some, ← fits]
  simp only [bne_self_eq_false, Bool.false_eq_true, if_false]
  exact ⟨rfl, writes_record used _ _ _ _ _⟩

/-- A text with another character is not put together in this way. -/
theorem concatenate_supplementary
    (other : ¬ Encoding.IsBasic (l.text.toList ++ r.text.toList)) :
    concatenate ops m = (false, m) := by
  unfold concatenate
  rw [bind_apply, get_apply]
  dsimp only
  rcases writtenl : encoded m ops.base with e | s
  · rfl
  · rcases writtenr : encoded m ops.offset with e | t
    · rfl
    · have basicl := (encoded_ok_iff knownl).mp ⟨s, writtenl⟩
      have basicr := (encoded_ok_iff knownr).mp ⟨t, writtenr⟩
      exact absurd (Encoding.isBasic_append.mpr ⟨basicl, basicr⟩) other

/-- The rule of a concatenation, unless an operand is undefined. -/
theorem binary_plus (levels : Levels) (definedl : l ≠ .undefined) (definedr : r ≠ .undefined) :
    binary levels "+" ops m = if (concatenate ops m).1 then ((), (concatenate ops m).2)
      else ObjectRule.binary levels.objectGrain "+" ops (concatenate ops m).2 := by
  have defined {v : Value} {id : Identity} {raw : Literal} (known : m.shadow.lookup? v = some (id, raw))
      (other : raw ≠ .undefined) : (m.valueOf v).isUndefined = false := by
    rw [valueOf, ShadowState.valueOf_of_lookup known]
    cases raw with
    | undefined => exact absurd rfl other
    | _ => rfl
  unfold binary
  rw [bind_apply, get_apply]
  dsimp only
  rw [defined knownl definedl, defined knownr definedr]
  simp only [beq_self_eq_true, Bool.not_false, Bool.and_self, if_true]
  rw [bind_apply]
  rcases concatenate ops m with ⟨_ | _, m₁⟩ <;> rfl

end TextRule

namespace Tracker

/-- The hook before a binary operator refuses to begin where something else is under way. -/
theorem binaryPre_fails {t : Tracker} (busy : ¬ t.memory.shadow.AtRest) (op : String)
    (left right : Value) : ∃ e t', binaryPre op left right t = (.error e, t') := by
  obtain ⟨e, idle, -⟩ := CheckedM.expectIdle_error busy "WBinaryPre"
  obtain ⟨t', hooked, -⟩ := HookM.memoryHook_of "binary_pre"
    (fun t => [("op", op), ("left", t.render left), ("right", t.render right)])
    (fun _ => binaryPreBody left right) (bind_apply_error idle)
  exact ⟨e, t', hooked⟩

section Hooks

variable {t : Tracker} (wraps : t.memory.shadow.frame.callType.skipsWrapping = false)
  (precise : t.settings.policies.precision .string = .precise) (heap : Heap)
  {left right : Value} {idl idr : Identity} {l r : Literal}
  (knownl : t.memory.shadow.lookup? left = some (idl, l))
  (knownr : t.memory.shadow.lookup? right = some (idr, r))
  (definedl : l ≠ .undefined) (definedr : r ≠ .undefined)
include wraps precise knownl knownr definedl definedr

/-- What is recorded for the result of a concatenation: the taint of every character, if all are of the
basic plane, and else that of the operands as a whole. -/
theorem concatenation_writes (rest : t.memory.shadow.AtRest) :
    ∃ (l' r' v : Value) (id : Identity) (t' : Tracker) (m₀ m : Memory),
      binaryHooks "+" left right heap (.string (l.text ++ r.text)) t = (.ok (l', r', v), t') ∧
      t'.memory = m.ended ∧ t'.memory.shadow.lookup? v = some (id, .string (l.text ++ r.text)) ∧
      m₀.shadow.lookup? v = some (id, .string (l.text ++ r.text)) ∧
      (Encoding.IsBasic (l.text.toList ++ r.text.toList) ∧
          m₀.Writes m v (CharMap.ofBits (t.memory.charBits left ++ t.memory.charBits right)).all
            (some (.ofBits (t.memory.charBits left ++ t.memory.charBits right))) ∨
        ∃ tainted, ¬ Encoding.IsBasic (l.text.toList ++ r.text.toList) ∧
          tainted = (t.settings.policies.objectGrain.isTainted t.memory left ||
            t.settings.policies.objectGrain.isTainted t.memory right) ∧
          m₀.Writes m v tainted (some (.uniform (l.text ++ r.text).length tainted))) := by
  obtain ⟨ops, m, id, t', hooked, memory, same, backl, backr, known⟩ :=
    binaryHooks_ruled rest wraps "+" heap left right (.string (l.text ++ r.text))
  have knownl' := (backl.shadow _ _ knownl).1
  have knownr' := (backr.shadow _ _ knownr).1
  have value : m.stringOf? ops.value = some (l.text ++ r.text) := stringOf?_of_lookup known
  have policy : m.policyOf t.settings.policies ops.value = .string := by
    rw [policyOf, valueOf, ShadowState.valueOf_of_lookup known]
    exact (Levels.resolve_string _).trans (if_pos precise)
  have rule : (m.policyOf t.settings.policies ops.value).binary t.settings.policies "+" ops =
      TextRule.binary t.settings.policies "+" ops := by
    rw [policy]
    rfl
  have marks := TextRule.marks_binary t.settings.policies "+" ops m
  have known' : t'.memory.shadow.lookup? ops.value = some (id, .string (l.text ++ r.text)) := by
    rw [memory, rule]
    exact (lookup?_of_wraps marks.wraps _).trans known
  rw [rule, TextRule.binary_plus knownl' knownr' _ definedl definedr] at memory
  by_cases basic : Encoding.IsBasic (l.text.toList ++ r.text.toList)
  · obtain ⟨basicl, basicr⟩ := Encoding.isBasic_append.mp basic
    obtain ⟨done, writes⟩ := TextRule.concatenate_basic knownl' knownr' basicl basicr value
    rw [done, if_pos rfl] at memory
    rw [backl.charBits same knownl, backr.charBits same knownr] at writes
    exact ⟨_, _, _, id, t', m, _, hooked, memory, known', known, .inl ⟨basic, writes⟩⟩
  · have writes := ObjectRule.writes_binary t.settings.policies.objectGrain "+" ops m
    rw [TextRule.concatenate_supplementary knownl' knownr' basic, if_neg Bool.false_ne_true]
      at memory
    rw [backl.counts same knownl, backr.counts same knownr, charMap?, value] at writes
    exact ⟨_, _, _, id, t', m, _, hooked, memory, known', known,
      .inr ⟨_, basic, rfl, writes⟩⟩

end Hooks

/-- A concatenation of literals none of which is undefined, and of which all characters are of the basic
plane, where characters of strings are tracked and literals get shadows: the characters of the result are
as tainted as those of the left operand and after them those of the right one, its length is tainted if
one of them is, and its bit is set if all of them are and there is one. Where something else is under way,
the concatenation does not begin. -/
theorem concatenation_exact {t : Tracker}
    (wraps : t.memory.shadow.frame.callType.skipsWrapping = false)
    (precise : t.settings.policies.precision .string = .precise) (heap : Heap)
    {left right : Value} {idl idr : Identity} {l r : Literal}
    (knownl : t.memory.shadow.lookup? left = some (idl, l))
    (knownr : t.memory.shadow.lookup? right = some (idr, r))
    (definedl : l ≠ .undefined) (definedr : r ≠ .undefined)
    (basic : ∀ c ∈ l.text.toList ++ r.text.toList, c.toNat < 0x10000) :
    (∃ l' r' v id t' e map, binaryHooks "+" left right heap (.string (l.text ++ r.text)) t =
        (.ok (l', r', v), t') ∧
      t'.memory.shadow.lookup? v = some (id, .string (l.text ++ r.text)) ∧
      t'.memory.charBits v = t.memory.charBits left ++ t.memory.charBits right ∧
      t'.memory.stored? v = some e ∧ e.chars = some map ∧
      (map.length = true ↔ true ∈ t'.memory.charBits v) ∧
      (e.bit = true ↔ t'.memory.charBits v ≠ [] ∧ ∀ b ∈ t'.memory.charBits v, b = true)) ∨
    ¬ t.memory.shadow.AtRest ∧ ∃ e t', binaryPre "+" left right t = (.error e, t') := by
  by_cases rest : t.memory.shadow.AtRest
  · obtain ⟨l', r', v, id, t', m₀, m, hooked, memory, known', known, ⟨-, writes⟩ | ⟨_, other, -⟩⟩ :=
      concatenation_writes wraps precise heap knownl knownr definedl definedr rest
    · left
      have bits : t'.memory.charBits v = t.memory.charBits left ++ t.memory.charBits right := by
        rw [memory]
        exact writes.charBits_ofBits known (length_operandBits knownl knownr)
      obtain ⟨path, stored⟩ := writes.stored?_string known
      have stored' : t'.memory.stored? v = m.stored? v := by
        rw [memory]
        rfl
      refine ⟨l', r', v, id, t', _, _, hooked, known', bits, stored'.trans stored, rfl, ?_, ?_⟩
      · rw [bits]
        exact List.any_eq_true.trans ⟨fun ⟨b, mem, set⟩ => (show b = true from set) ▸ mem,
          fun mem => ⟨true, mem, rfl⟩⟩
      · rw [bits]
        exact CharMap.all_ofBits_iff _
    · exact absurd basic other
  · exact .inr ⟨rest, binaryPre_fails rest "+" left right⟩

end Tracker

namespace Session

/-- The tracker when the first character of the string is tainted, where characters are tracked. -/
def withSpelled : Tracker := (run (start preciseStrings ⟨#[]⟩) taintedCharacter).tracker

end Session

namespace Tracker

open Session

/-- Of twice a string whose first character is tainted, the first and the fifth character are. -/
theorem concatenation_exact_twice : ∃ l' r' v t',
    binaryHooks "+" evil evil rootsAndSources (.string ("evil" ++ "evil")) withSpelled =
      (.ok (l', r', v), t') ∧
    t'.memory.charBits v = [true, false, false, false, true, false, false, false] := by
  have known : withSpelled.memory.shadow.lookup? evil = some (⟨0⟩, .string "evil") := rfl
  rcases concatenation_exact (by decide +kernel) (by decide +kernel) rootsAndSources known known nofun
    nofun (show Encoding.IsBasic _ by decide +kernel) with
    ⟨l', r', v, id, t', e, map, hooked, -, bits, -⟩ | ⟨busy, -⟩
  · have spelled : withSpelled.memory.charBits evil = [true, false, false, false] := by
      decide +kernel
    rw [spelled] at bits
    exact ⟨l', r', v, t', hooked, bits⟩
  · exact absurd (.inl (by decide +kernel)) busy

/-- Under one taint for all characters, those that were tainted stay so exactly if that taint is set, or
if there were none. -/
theorem kept_replicate_iff (bits : List Bool) (tainted : Bool) :
    (∀ i : Nat, bits[i]? = some true → (List.replicate bits.length tainted)[i]? = some true) ↔
      tainted = true ∨ true ∉ bits := by
  constructor
  · intro kept
    refine or_iff_not_imp_right.mpr fun held => ?_
    obtain ⟨i, at_i⟩ := List.mem_iff_getElem?.mp (not_not.mp held)
    exact (List.eq_of_mem_replicate (List.mem_of_getElem? (kept i at_i))).symm
  · rintro (rfl | clear) i at_i
    · exact List.getElem?_replicate_of_lt (List.getElem?_eq_some_iff.mp at_i).1
    · exact absurd (List.mem_of_getElem? at_i) clear

/-- Where objects are tracked as a whole, a string with a tainted character counts as tainted. -/
theorem counts_iff (m : Memory) (left right : Value) (grain : Grain) :
    ((grain.isTainted m left || grain.isTainted m right) = true ∨
        true ∉ m.charBits left ++ m.charBits right) ↔
      grain = .imprecise ∨ m.taintBit left = true ∨ m.taintBit right = true ∨
        true ∉ m.charBits left ++ m.charBits right := by
  cases grain with
  | precise => simp [Grain.isTainted, or_assoc]
  | imprecise =>
    refine ⟨fun _ => .inl rfl, fun _ => or_iff_not_imp_right.mpr fun held => ?_⟩
    rw [Bool.or_eq_true]
    exact (List.mem_append.mp (not_not.mp held)).imp
      (fun mem => isTainted_of_ownTaint (ownTaint_of_charBits mem))
      fun mem => isTainted_of_ownTaint (ownTaint_of_charBits mem)

/-- A concatenation of strings, where characters of strings are tracked and literals get shadows: every
tainted character of an operand is tainted in the result, exactly if all characters are of the basic plane,
or objects are tracked as a whole, or the bit of an operand is set, or there is no tainted character. Where
something else is under way, the concatenation does not begin. -/
theorem concatenation_keeps_iff {t : Tracker}
    (wraps : t.memory.shadow.frame.callType.skipsWrapping = false)
    (precise : t.settings.policies.precision .string = .precise) (heap : Heap)
    {left right : Value} {idl idr : Identity} {a b : String}
    (knownl : t.memory.shadow.lookup? left = some (idl, .string a))
    (knownr : t.memory.shadow.lookup? right = some (idr, .string b)) :
    (∃ l' r' v id t', binaryHooks "+" left right heap (.string (a ++ b)) t = (.ok (l', r', v), t') ∧
      t'.memory.shadow.lookup? v = some (id, .string (a ++ b)) ∧
      ((∀ i : Nat, (t.memory.charBits left ++ t.memory.charBits right)[i]? = some true →
          (t'.memory.charBits v)[i]? = some true) ↔
        (∀ c ∈ a.toList ++ b.toList, c.toNat < 0x10000) ∨
        t.settings.policies.objectGrain = .imprecise ∨ t.memory.taintBit left = true ∨
        t.memory.taintBit right = true ∨
        true ∉ t.memory.charBits left ++ t.memory.charBits right)) ∨
    ¬ t.memory.shadow.AtRest ∧ ∃ e t', binaryPre "+" left right t = (.error e, t') := by
  by_cases rest : t.memory.shadow.AtRest
  · left
    obtain ⟨l', r', v, id, t', m₀, m, hooked, memory, known', known, written⟩ :=
      concatenation_writes wraps precise heap knownl knownr nofun nofun rest
    refine ⟨l', r', v, id, t', hooked, known', ?_⟩
    have fits := length_operandBits knownl knownr
    have same : t'.memory.charBits v = m.charBits v := by
      rw [memory]
      rfl
    rcases written with ⟨basic, writes⟩ | ⟨tainted, other, counted, writes⟩
    · refine ⟨fun _ => .inl basic, fun _ i at_i => ?_⟩
      rwa [same, writes.charBits_ofBits known fits]
    · rw [same, writes.charBits_uniform known, fits, kept_replicate_iff, counted, counts_iff]
      exact (or_iff_right other).symm
  · exact .inr ⟨rest, binaryPre_fails rest "+" left right⟩

/-- Of twice a string whose first character is tainted, both copies keep it. -/
theorem concatenation_keeps_iff_basic : ∃ l' r' v t',
    binaryHooks "+" evil evil rootsAndSources (.string ("evil" ++ "evil")) withSpelled =
      (.ok (l', r', v), t') ∧
    ∀ i : Nat, (withSpelled.memory.charBits evil ++ withSpelled.memory.charBits evil)[i]? = some true →
      (t'.memory.charBits v)[i]? = some true := by
  have known : withSpelled.memory.shadow.lookup? evil = some (⟨0⟩, .string "evil") := rfl
  rcases concatenation_keeps_iff (by decide +kernel) (by decide +kernel) rootsAndSources known known with
    ⟨l', r', v, id, t', hooked, -, keeps⟩ | ⟨busy, -⟩
  · exact ⟨l', r', v, t', hooked, keeps.mpr (.inl (show Encoding.IsBasic _ by decide +kernel))⟩
  · exact absurd (.inl (by decide +kernel)) busy

end Tracker

namespace Session

/-- A string with a character that is not of the basic plane. -/
def smile : Value := .shadow ⟨0⟩ ⟨0⟩ (.string "a😀")

/-- A string that comes up after it. -/
def plain : Value := .shadow ⟨1⟩ ⟨1⟩ (.string "x")

/-- The tracker when the first character of the former is tainted, where characters of strings are tracked
and of objects the bits. -/
def withSupplementary : Tracker :=
  (run (start { policies := (({} : Levels).set "string" .precise).set "object" .precise } ⟨#[]⟩)
    [.host rootsAndSources, .hook (.literal (.string "a😀")), .hook (.literal (.string "x")),
      .hook (.callPre
        { f := .object 3, base := .undefined, args := [smile, .string "0"], site := 0 })]).tracker

/-- The tainted character is not tainted in the concatenation of the two. -/
theorem supplementary_loses : Reachable withSupplementary ∧
    withSupplementary.memory.shadow.frame.callType = .internal ∧
    withSupplementary.settings.policies.precision .string = .precise ∧
    withSupplementary.memory.shadow.lookup? smile = some (⟨0⟩, .string "a😀") ∧
    withSupplementary.memory.shadow.lookup? plain = some (⟨1⟩, .string "x") ∧
    withSupplementary.memory.charBits smile = [true, false] ∧
    ∃ l r v t, binaryHooks "+" smile plain rootsAndSources (.string "a😀x") withSupplementary =
      (.ok (l, r, v), t) ∧ t.memory.charBits v = [false, false, false] := by
  refine ⟨reachable_run (.start _ ⟨#[]⟩) _, by decide +kernel, by decide +kernel, rfl, rfl,
    by decide +kernel, ?_⟩
  exact ⟨_, _, _, _, rfl, by decide +kernel⟩

end Session

end ShadowTaint
