import Mathlib.Algebra.GroupWithZero.Nat
import ShadowTaint.Proofs.ContainerTaint
import ShadowTaint.Proofs.Numbers
import ShadowTaint.Proofs.Reexecution
/-!
# Positions that are read twice

A method of strings that takes positions coerces its arguments, and what is known about the method coerces
them once more. The two coercions are not the same. For `true` the first one gives one and the second one
zero, and the second one reads the text of an array, where the first one gives zero. A negative position is
outside of the text for the first one and the start of it for the second one.

## Main definitions

- `Memory.CoercesAlike`: the argument is one for which both coercions give the same number.

## Main statements

- `Tracker.positions_agree`: for such arguments the taint that is recorded for a part of a text, or for the
  code of a character, is that of the positions that the method read.
-/

namespace ShadowTaint

open Memory Tracker

/-- The text of an object that is no array spells no number. -/
theorem Heap.spelledNumber?_keyText {h : Heap} {v : Value} (object : v.literal? = none)
    (plain : h.elements? v = none) : spelledNumber? (h.keyText v) = none := by
  rw [keyText_of_plain plain, plainKeyText, object]
  dsimp only
  split
  · rw [String.append_assoc]
    exact spelledNumber?_of_first (c := 'f') (by rw [String.toList_append]; rfl) (by decide) (by decide)
  · exact spelledNumber?_of_first (c := '[') rfl (by decide) (by decide)

/-- Both coercions give the same number, or numbers that are not above zero. If the value is an array whose
text is looked at, all shadows on the heap have to be the tracker's. -/
structure Memory.CoercesAlike (m : Memory) (v : Value) : Prop where
  bool : m.valueOf v ≠ .literal (.bool true)
  object : ∀ id, m.valueOf v = .object id →
    id < m.heap.objects.size ∧ m.heap.elements? (.object id) = none ∨
      m.Sound ∧ ∀ x, spelledNumber? (m.heap.keyText (.object id)) = some x → (x.isNaN || x <= 0.0) = true

namespace TextRule

/-- The position that an argument gives does not depend on the coercion, unless the argument is `true` or an
object that spells a number above zero. -/
theorem position_eq {m : Memory} {arg : Option Value} {args : List Value} {i n : Nat} (fallback : Int)
    (fits : n < 2 ^ 63) (given : args[i]? = arg.map m.valueOf)
    (bool : ∀ v, arg = some v → m.valueOf v ≠ .literal (.bool true))
    (object : ∀ v id x, arg = some v → m.valueOf v = .object id →
      spelledNumber? (m.heap.keyText (.object id)) = some x → (x.isNaN || x <= 0.0) = true) :
    position m arg (positionWithin n fallback) n = positionWithin n (integerArgument args i fallback) := by
  have zero : Decimal.toInt64 0.0 = 0 := by decide +kernel
  have text (l : Literal) : m.heap.keyText (.literal l) = l.text := by
    rw [Heap.keyText_of_plain rfl]
    rfl
  unfold position integerArgument
  rw [given]
  rcases arg with _ | v
  · rfl
  · have raw := m.shadow.raw_valueOf v
    specialize bool v rfl
    replace object id x := object v id x rfl
    simp only [Option.map_some, ← Decimal.positionWithin_toInt64 _ fits]
    rcases value : m.valueOf v with l | id | ⟨handle, identity, l⟩
    · cases l with
      | undefined => rfl
      | null =>
        have spelled : spelledNumber? (m.heap.keyText (.literal .null)) = none := by
          rw [text]
          decide +kernel
        simp [Value.isUndefined, Value.literal?, Value.number?, spelled, zero, Literal.toInteger]
      | bool b =>
        cases b with
        | true => exact absurd value bool
        | false =>
          have spelled : spelledNumber? (m.heap.keyText (.literal (.bool false))) = none := by
            rw [text]
            decide +kernel
          simp [Value.isUndefined, Value.literal?, Value.number?, spelled, zero, Literal.toInteger]
      | number x => rfl
      | string s =>
        rcases spelled : spelledNumber? s <;>
          simp [Value.isUndefined, Value.literal?, Value.number?, spelled, zero, Literal.toInteger]
    · simp only [Value.isUndefined, Value.literal?, Value.number?, Option.getD_none]
      rcases spelled : spelledNumber? (m.heap.keyText (.object id)) with _ | x
      · simp [zero]
      · have low := Decimal.toInt64_le_zero (object id x value spelled)
        show min (Decimal.toInt64 x).toNat n = min 0 n
        rw [Int.toNat_of_nonpos low]
    · rw [show m.shadow.valueOf v = _ from value] at raw
      cases raw

end TextRule

/-- An object that is no array stays no array. -/
theorem Heap.Evolves.elements?_eq_none {h h' : Heap} (evolves : h.Evolves h') {id : ObjectId}
    (bound : id < h.objects.size) (plain : h.elements? (.object id) = none) :
    h'.elements? (.object id) = none := by
  have becomes := evolves.kind id bound
  simp only [elements?, Value.object?] at plain ⊢
  generalize (h.get id).kind = k, (h'.get id).kind = k' at *
  cases k <;> cases k' <;> simp_all [ObjectKind.Becomes]

/-- The literal that a method gives for a character that it looks up, if there is one. -/
def StringMethod.codeOf (f : StringMethod) : Option Char → Literal
  | some c => .number (Decimal.ofNat c.toNat)
  | none => if f = .codePointAt then .undefined else .number (0.0 / 0.0)

theorem StringMethod.run_code {f : StringMethod} (code : f = .charCodeAt ∨ f = .codePointAt) (h : Heap)
    (s : List Char) (args : List Value) :
    f.run h s args = .ok (.literal (f.codeOf (itemAt? s (integerArgument args 0 0)))) := by
  rcases code with rfl | rfl
  all_goals
    unfold run codeOf
    rcases itemAt? s (integerArgument args 0 0) <;> rfl

theorem StringMethod.isUndefined_codeOf {f : StringMethod} {o : Option Char}
    (undefined : (Value.literal (f.codeOf o)).isUndefined = true) : o = none := by
  cases o with
  | none => rfl
  | some x => cases undefined

/-- A model takes a position before the text for the start of it. That makes no difference where there is
nothing to find. -/
theorem getD_positionWithin {bits : List Bool} {i : Int} (inside : 0 ≤ i ∨ bits.head? ≠ some true) :
    bits.getD (positionWithin bits.length i) false = (itemAt? bits i).getD false := by
  unfold positionWithin itemAt?
  by_cases before : i < 0
  · have untainted := inside.resolve_left (by omega)
    rw [if_pos before, Int.toNat_of_nonpos (by omega), Nat.zero_min]
    cases bits with
    | nil => rfl
    | cons b bits => simpa using untainted
  · rw [if_neg before, List.getD_eq_getElem?_getD]
    by_cases there : i.toNat < bits.length
    · rw [Nat.min_eq_left (by omega)]
    · rw [List.getElem?_eq_none (by omega), List.getElem?_eq_none (by omega)]

/-- What is looked up at a position is there in all lists of the same length, or in none. -/
theorem itemAt?_eq_none_of_length {α β : Type} {s : List α} {s' : List β} {i : Int}
    (length : s.length = s'.length) (outside : itemAt? s i = none) : itemAt? s' i = none := by
  unfold itemAt? at outside ⊢
  by_cases before : i < 0
  · exact if_pos before
  · rw [if_neg before, List.getElem?_eq_none_iff] at outside ⊢
    omega

namespace Tracker

variable {t t' : Tracker} {c c' : Call} {f : StringMethod} {s : String} {r v : Value}

namespace TextRun

variable {result : StringResult} {m₁ m₂ m : Memory} (h : TextRun t c f s c' r t' result v m₁ m₂ m)
include h

/-- A method that returns a literal leaves the heap alone. -/
theorem memory_of_literal {l : Literal} (literal : result = .literal l) : m₂ = m₁ := by
  have delivered := h.delivered
  rw [literal] at delivered
  have heap : m₂.heap = m₁.heap := (congrArg Prod.snd delivered).symm
  have shadow := h.shadow
  cases m₁
  cases m₂
  cases heap
  cases shadow
  rfl

/-- Where a literal is returned, texts stay what they were, if all shadows on the heap are the tracker's. -/
theorem respells_of_literal {l : Literal} (literal : result = .literal l) (sound : t.memory.Sound) :
    t.memory.heap.Respells m.heap := by
  obtain ⟨sound₁, respells⟩ := h.rereads sound
  rw [← h.memory_of_literal literal] at sound₁ respells
  exact respells.trans (h.rewords.respells (.inr sound₁))

theorem evolves_of_literal {l : Literal} (literal : result = .literal l) :
    t.memory.heap.Evolves m.heap := by
  have evolves := h.undresses.evolves
  rw [← h.memory_of_literal literal] at evolves
  exact evolves.trans h.grows.evolves

/-- The model reads the position that the method read. -/
theorem position_eq {l : Literal} (literal : result = .literal l)
    (alike : ∀ a ∈ c.args, t.memory.CoercesAlike a) {n : Nat} (fits : n < 2 ^ 63) (i : Nat) (fallback : Int) :
    TextRule.position m c'.args[i]? (positionWithin n fallback) n =
      positionWithin n (integerArgument (c.args.map t.memory.valueOf) i fallback) := by
  have given : (c.args.map t.memory.valueOf)[i]? = c'.args[i]?.map m.valueOf := by
    rw [List.getElem?_map]
    rcases TextRule.getElem?_of_forall₂ h.args i with ⟨missing, missing'⟩ | ⟨a, w, at_i, at_i', answers⟩
    · rw [missing, missing']
      rfl
    · rw [at_i, at_i', Option.map_some, Option.map_some, answers.valueOf]
  have alike' (w : Value) (at_i : c'.args[i]? = some w) :
      ∃ a, t.memory.CoercesAlike a ∧ m.valueOf w = t.memory.valueOf a := by
    rcases TextRule.getElem?_of_forall₂ h.args i with ⟨-, missing⟩ | ⟨a, w', at_a, at_w, answers⟩
    · rw [missing] at at_i
      cases at_i
    · rw [at_w] at at_i
      cases at_i
      exact ⟨a, alike a (List.mem_of_getElem? at_a), answers.valueOf⟩
  refine TextRule.position_eq fallback fits given (fun w at_i => ?_) fun w id x at_i value spelled => ?_
  · obtain ⟨a, coerces, same⟩ := alike' w at_i
    rw [same]
    exact coerces.bool
  · obtain ⟨a, coerces, same⟩ := alike' w at_i
    rcases coerces.object id (by rw [← same, value]) with ⟨bound, plain⟩ | ⟨sound, low⟩
    · rw [Heap.spelledNumber?_keyText rfl ((h.evolves_of_literal literal).elements?_eq_none bound plain)]
        at spelled
      cases spelled
    · rw [(h.respells_of_literal literal sound).keyText] at spelled
      exact low x spelled

end TextRun

section Models

variable {result : StringResult} {m₁ m₂ m : Memory}

/-- What is recorded for a part of a text is the taint of the positions that the method took. -/
theorem stored_substring (h : TextRun t c .substring s c' r t' result v m₁ m₂ m)
    (calls : t.CallsText c .substring s) (bounded : t.memory.shadow.Bounded)
    (precise : t.settings.policies.precision .string = .precise)
    (alike : ∀ a ∈ c.args, t.memory.CoercesAlike a) (fits : s.length < 2 ^ 63)
    (count : c.args.length = 1 ∨ c.args.length = 2) :
    ∃ text bits path, t'.memory.stringOf? r = some text ∧ path.label = "model:string.substring" ∧
      t'.memory.stored? r = some ⟨(CharMap.ofBits bits).all, some (.ofBits bits), path⟩ ∧
      text.toList.map some =
        (StringMethod.substring.positions s.length (c.args.map t.memory.valueOf)).map (s.toList[·]?) ∧
      bits.map some =
        (StringMethod.substring.positions s.length (c.args.map t.memory.valueOf)).map
          ((t.memory.charBits c.base)[·]?) := by
  obtain rfl : result = .ofChars (substringPart s.toList (c.args.map t.memory.valueOf)) :=
    (Except.ok.inj h.ran).symm
  have literal : v = .string (String.ofList (substringPart s.toList (c.args.map t.memory.valueOf))) :=
    (congrArg Prod.fst h.delivered).symm
  obtain ⟨id, known, -⟩ := h.fresh _ literal
  obtain ⟨id', known', -⟩ := h.known_result literal
  have length := TextRule.length_charBits_of_string calls.base
  have first := h.position_eq rfl alike fits 0 0
  have second := h.position_eq rfl alike fits 1 s.length
  rw [show positionWithin s.length 0 = 0 from Nat.zero_min _] at first
  rw [show positionWithin s.length s.length = s.length from Nat.min_self _] at second
  obtain ⟨n, m₃, history, used, histories⟩ := MemoryM.history_at (.refl m) c'.base
  have rule := h.rule_of_precise calls precise (by rw [literal]; rfl)
  rw [TextRule.call_apply, h.functionName,
    show TextRule.model? t.settings.policies StringMethod.substring.name = some TextRule.substring from rfl]
    at rule
  have model : TextRule.substring ⟨c'.f, c'.base, c'.args, r⟩ m =
      TextRule.storeBits r (substringPart (t.memory.charBits c.base) (c.args.map t.memory.valueOf))
        "model:string.substring" [n] m₃ := by
    have few : (c'.args.length != 1 && c'.args.length != 2) = false := by
      rw [← h.args.length_eq]
      simpa [or_iff_not_imp_left] using count
    unfold TextRule.substring
    dsimp only
    rw [few, if_neg (by decide), bind_apply, get_apply]
    dsimp only
    rw [bind_apply, history]
    dsimp only
    rw [h.charBits_base calls bounded, length, first, second, substringPart, length]
  have same : (substringPart s.toList (c.args.map t.memory.valueOf)).length =
      (substringPart (t.memory.charBits c.base) (c.args.map t.memory.valueOf)).length := by
    simp only [substringPart, charsBetween, List.length_drop, List.length_take, String.length_toList, length]
  obtain ⟨applied, path, label, stored⟩ := TextRule.storeBits_stored used (.cons histories .nil) known
    (by rw [← String.length_toList, String.toList_ofList, same]) "model:string.substring"
  dsimp only at rule
  rw [model, if_pos applied] at rule
  refine ⟨_, substringPart (t.memory.charBits c.base) (c.args.map t.memory.valueOf), path,
    stringOf?_of_lookup known', label, ?_, ?_, ?_⟩
  · rw [rule]
    exact stored
  · rw [String.toList_ofList, ← String.length_toList, StringMethod.map_positions]
    rfl
  · rw [← length, StringMethod.map_positions]
    rfl

/-- What is recorded for the code of a character is the taint of the position that the method looked up. -/
theorem taintBit_code (h : TextRun t c f s c' r t' result v m₁ m₂ m) (code : f = .charCodeAt ∨ f = .codePointAt)
    (calls : t.CallsText c f s) (bounded : t.memory.shadow.Bounded)
    (precise : t.settings.policies.precision .string = .precise)
    (alike : ∀ a ∈ c.args, t.memory.CoercesAlike a) (fits : s.length < 2 ^ 63) (count : c.args.length = 1)
    (inside : f = .charCodeAt → 0 ≤ integerArgument (c.args.map t.memory.valueOf) 0 0 ∨
      (t.memory.charBits c.base).head? ≠ some true) :
    t'.memory.valueOf r =
        .literal (f.codeOf (itemAt? s.toList (integerArgument (c.args.map t.memory.valueOf) 0 0))) ∧
      t'.memory.taintBit r =
        (itemAt? (t.memory.charBits c.base) (integerArgument (c.args.map t.memory.valueOf) 0 0)).getD false := by
  obtain rfl : result = _ := Except.ok.inj (h.ran.symm.trans (StringMethod.run_code code _ _ _))
  have literal : v = .literal (f.codeOf (itemAt? s.toList (integerArgument (c.args.map t.memory.valueOf) 0 0))) :=
    (congrArg Prod.fst h.delivered).symm
  obtain ⟨id, known, -⟩ := h.fresh _ literal
  obtain ⟨id', known', -⟩ := h.known_result literal
  refine ⟨ShadowState.valueOf_of_lookup known', ?_⟩
  have length := TextRule.length_charBits_of_string calls.base
  have index := h.position_eq rfl alike fits 0 0
  rw [show positionWithin s.length 0 = 0 from Nat.zero_min _] at index
  rcases undefined : v.isUndefined
  · -- the bit of the position is recorded
    have inside' : 0 ≤ integerArgument (c.args.map t.memory.valueOf) 0 0 ∨
        (t.memory.charBits c.base).head? ≠ some true := by
      rcases code with rfl | rfl
      · exact inside rfl
      · left
        by_contra before
        rw [literal, itemAt?, if_pos (Int.not_le.mp before)] at undefined
        cases undefined
    obtain ⟨n, m₃, history, used, -⟩ := MemoryM.history_at (.refl m) c'.base
    have rule := h.rule_of_precise calls precise undefined
    have model : TextRule.characterCode ⟨c'.f, c'.base, c'.args, r⟩ m =
        (true, (MemoryM.record r
          ((itemAt? (t.memory.charBits c.base) (integerArgument (c.args.map t.memory.valueOf) 0 0)).getD false)
          none ("model:string." ++ f.name) [n] m₃).2) := by
      have single : (c'.args.length != 1) = false := by
        rw [← h.args.length_eq, count]
        rfl
      unfold TextRule.characterCode
      dsimp only
      rw [single, if_neg (by decide), bind_apply, get_apply]
      dsimp only
      rw [bind_apply, history]
      dsimp only
      rw [h.charBits_base calls bounded, length, index, h.functionName, ← length,
        getD_positionWithin inside']
      rfl
    rw [TextRule.call_apply, h.functionName,
      show TextRule.model? t.settings.policies f.name = some TextRule.characterCode by
        rcases code with rfl | rfl <;> rfl] at rule
    dsimp only at rule
    rw [model] at rule
    have own : m.shadow.keyOf r = some (.identity id) := by rw [ShadowState.keyOf, known]
    have written := (MemoryM.writes_record used r
      ((itemAt? (t.memory.charBits c.base) (integerArgument (c.args.map t.memory.valueOf) 0 0)).getD false)
      none ("model:string." ++ f.name) [n]).taintBit own
    rw [if_pos own] at written
    rw [rule]
    exact written
  · -- nothing is returned, and nothing recorded
    have outside : itemAt? s.toList (integerArgument (c.args.map t.memory.valueOf) 0 0) = none := by
      rw [literal] at undefined
      exact StringMethod.isUndefined_codeOf undefined
    have memory : t'.memory = m.ended := by
      rw [h.rule, propagateCall, bind_apply, get_apply]
      dsimp only
      rw [h.result_eq, undefined]
      rfl
    rw [itemAt?_eq_none_of_length (by rw [length, String.length_toList]) outside, memory]
    show (m.stored? r).any (·.bit) = false
    rw [h.unstored bounded literal]
    rfl

end Models

/-- A part of a string is taken between two positions, or the code of a character is looked up, where strings
are tracked precisely and literals get shadows. If both coercions of the arguments give the same positions,
and a character is not looked up before a tainted first one, the result is recorded with the taint of the
positions that the method read: a part character by character, a code with the bit of its character. -/
theorem positions_agree (reachable : Reachable t)
    (wraps : t.memory.shadow.frame.callType.skipsWrapping = false)
    (precise : t.settings.policies.precision .string = .precise) (calls : t.CallsText c f s)
    (indexed : f = .substring ∧ (c.args.length = 1 ∨ c.args.length = 2) ∨
      (f = .charCodeAt ∨ f = .codePointAt) ∧ c.args.length = 1)
    (fits : s.length < 2 ^ 63) (alike : ∀ a ∈ c.args, t.memory.CoercesAlike a)
    (inside : f = .charCodeAt → 0 ≤ integerArgument (c.args.map t.memory.valueOf) 0 0 ∨
      (t.memory.charBits c.base).head? ≠ some true) :
    (∃ e t', invoke c none t = (.error e, t') ∧ (t.memory.shadow.AtRest → e.EndsRun)) ∨
      ∃ c' r t', invoke c none t = (.ok (c', r), t') ∧
        (f = .substring → ∃ text bits path, t'.memory.stringOf? r = some text ∧
          path.label = "model:string.substring" ∧
          t'.memory.stored? r = some ⟨(CharMap.ofBits bits).all, some (.ofBits bits), path⟩ ∧
          text.toList.map some =
            (f.positions s.length (c.args.map t.memory.valueOf)).map (s.toList[·]?) ∧
          bits.map some =
            (f.positions s.length (c.args.map t.memory.valueOf)).map ((t.memory.charBits c.base)[·]?)) ∧
        (f ≠ .substring →
          t'.memory.valueOf r =
            .literal (f.codeOf (itemAt? s.toList (integerArgument (c.args.map t.memory.valueOf) 0 0))) ∧
          t'.memory.taintBit r = (itemAt? (t.memory.charBits c.base)
            (integerArgument (c.args.map t.memory.valueOf) 0 0)).getD false) := by
  have bounded := reachable.bounded
  rcases invoke_text_cases calls wraps with refused | ⟨h, e, t', failed, run⟩ |
    ⟨c', r, t', result, v, m₁, m₂, m, run, h⟩
  · exact .inl refused
  · -- these methods do not fail
    rcases indexed with ⟨rfl, -⟩ | ⟨code, -⟩
    · cases failed
    · rw [StringMethod.run_code code] at failed
      cases failed
  · refine .inr ⟨c', r, t', run, fun part => ?_, fun other => ?_⟩
    · subst part
      have count := (indexed.resolve_right fun code => by simp at code).2
      exact stored_substring h calls bounded precise alike fits count
    · obtain ⟨code, count⟩ := indexed.resolve_left fun part => other part.1
      exact taintBit_code h code calls bounded precise alike fits count inside

open Session

/-- The bounds of a part come in any order, and a string spells one of them. -/
theorem positions_agree_substring : ∃ c' r t', ∃ (text : String) (bits : List Bool), ∃ path,
    invoke (callText 5 "abc" [.string "2", .literal .null]) none (withSpelling "abc" "1") =
      (.ok (c', r), t') ∧
    t'.memory.stored? r = some ⟨(CharMap.ofBits bits).all, some (.ofBits bits), path⟩ ∧
    text.toList.map some = [some 'a', some 'b'] ∧ bits.map some = [some false, some true] := by
  have plain (v : Value) (mem : v ∈ [.string "2", .literal .null]) :
      (withSpelling "abc" "1").memory.CoercesAlike v := by
    simp only [List.mem_cons, List.not_mem_nil, or_false] at mem
    rcases mem with rfl | rfl
    · exact ⟨(by intro same; cases same), (by intro id same; cases same)⟩
    · exact ⟨(by intro same; cases same), (by intro id same; cases same)⟩
  rcases positions_agree (t := withSpelling "abc" "1")
      (c := callText 5 "abc" [.string "2", .literal .null]) (f := .substring) (s := "abc")
      (reachable_run (.start _ ⟨#[]⟩) _) (by decide +kernel) (by decide +kernel)
      ⟨by decide +kernel, rfl, by decide +kernel⟩ (.inl ⟨rfl, .inr rfl⟩) (by decide +kernel) plain
      (by intro same; cases same) with
    ⟨e, t', failed, -⟩ | ⟨c', r, t', run, part, -⟩
  · have succeeds : (invoke (callText 5 "abc" [.string "2", .literal .null]) none
        (withSpelling "abc" "1")).1.isOk = true := by decide +kernel
    rw [failed] at succeeds
    cases succeeds
  · obtain ⟨text, bits, path, -, -, stored, chars, taint⟩ := part rfl
    exact ⟨c', r, t', text, bits, path, run, stored, chars.trans (by decide +kernel),
      taint.trans (by decide +kernel)⟩

end Tracker

namespace Session

/-- For `true` the method gives the code of the second character, which is tainted, and the result counts
as untainted, since its model looks at the first one. -/
theorem bool_position_loses : Reachable (withSpelling "ab" "1") ∧
    (withSpelling "ab" "1").memory.shadow.frame.callType.skipsWrapping = false ∧
    (withSpelling "ab" "1").settings.policies.precision .string = .precise ∧
    (withSpelling "ab" "1").CallsText (callText 6 "ab" [.literal (.bool true)]) .charCodeAt "ab" ∧
    (withSpelling "ab" "1").memory.charBits (spelled "ab") = [false, true] ∧
    ∃ c' r t', invoke (callText 6 "ab" [.literal (.bool true)]) none (withSpelling "ab" "1") =
        (.ok (c', r), t') ∧
      (t'.memory.valueOf r).number? = some (Decimal.ofNat 'b'.toNat) ∧
      t'.memory.taintBit r = false := by
  refine ⟨reachable_run (.start _ ⟨#[]⟩) _, by decide +kernel, by decide +kernel,
    ⟨by decide +kernel, rfl, by decide +kernel⟩, by decide +kernel, ?_⟩
  obtain ⟨c', r, t', run, result⟩ := exists_of_result (c := callText 6 "ab" [.literal (.bool true)])
    (t := withSpelling "ab" "1") (a := (some (Decimal.ofNat 'b'.toNat), false))
    (g := fun v m => ((m.valueOf v).number?, m.taintBit v)) (by decide +kernel)
  obtain ⟨value, bit⟩ := Prod.mk.inj result
  exact ⟨c', r, t', run, value, bit⟩

end Session

end ShadowTaint
