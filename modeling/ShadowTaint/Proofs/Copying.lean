import Mathlib.Data.Nat.Find
import ShadowTaint.Proofs.Concatenation
import ShadowTaint.Proofs.Numbers
import ShadowTaint.Proofs.Spans
/-!
# What methods of strings copy

A few methods return characters of the receiver, and which ones depends only on its length and on the
arguments. So they do the same on any list, on a text as on the taint of its characters, and on a text that
is written with its taint. Replacing is different, because the pattern is looked for in the text.

A text that is written with its taint has no character in common with a number, so as an argument it
stands for the position zero.

## Main definitions

- `StringMethod.part`: what a method takes of a list, with `StringMethod.positions`, the positions.
- `Origin`: where a character of a result comes from.
- `StringMethod.origins`: where all characters of a result come from.

## Main statements

- `StringMethod.map_part`: a method takes the same part of every list of the same length.
- `StringMethod.run_origins`: a result consists of the characters at their origins.
- `Encoding.indexOf?_encoded`: a pattern is found at the same place when both texts are written with their
  taint, if it has the taint of that place.
-/

namespace ShadowTaint

theorem StringResult.ofChars_injective {s t : List Char} (same : ofChars s = ofChars t) : s = t := by
  unfold ofChars at same
  rw [StringResult.literal.injEq, Literal.string.injEq] at same
  rw [← String.toList_ofList (l := s), same, String.toList_ofList]

section Parts

variable {α β : Type} (g : α → β) (s : List α) (args : List Value)

theorem map_charsBetween (start stop : Nat) :
    (charsBetween s start stop).map g = charsBetween (s.map g) start stop := by
  simp [charsBetween, List.map_drop, List.map_take]

theorem map_itemAt? (i : Int) : (itemAt? s i).map g = itemAt? (s.map g) i := by
  unfold itemAt?
  split <;> simp

theorem map_repeatedPart (count : Nat) :
    (repeatedPart s count).map g = repeatedPart (s.map g) count := by
  unfold repeatedPart
  rw [List.isEmpty_map]
  split <;> simp [List.map_flatten]

/-- What a method takes of a list. Other methods than these five take nothing. -/
def StringMethod.part {α : Type} (s : List α) (args : List Value) : StringMethod → List α
  | .charAt => (itemAt? s (integerArgument args 0 0)).toList
  | .slice => slicePart s args
  | .substr => substrPart s args
  | .substring => substringPart s args
  | .repeated => repeatedPart s (integerArgument args 0 0).toNat
  | _ => []

/-- The methods without a model that return a part of the receiver. -/
def StringMethod.takesPart : StringMethod → Bool
  | .charAt | .slice | .substr | .repeated => true
  | _ => false

namespace StringMethod

/-- A method takes the same part of every list of the same length. -/
theorem map_part (f : StringMethod) : (f.part s args).map g = f.part (s.map g) args := by
  cases f with
  | charAt => simp only [part, ← map_itemAt?, Option.toList_map]
  | slice => simp only [part, slicePart, map_charsBetween, List.length_map]
  | substr => simp only [part, substrPart, map_charsBetween, List.length_map]
  | substring => simp only [part, substringPart, map_charsBetween, List.length_map]
  | repeated => exact map_repeatedPart g s _
  | _ => rfl

/-- The positions that a method takes of a list of this length. -/
def positions (f : StringMethod) (length : Nat) (args : List Value) : List Nat :=
  f.part (List.range length) args

theorem map_getElem?_range : (List.range s.length).map (s[·]?) = s.map some := by
  refine List.ext_getElem (by simp) fun i _ _ => ?_
  simp

/-- At these positions stands what is taken. -/
theorem map_positions (f : StringMethod) :
    (f.positions s.length args).map (s[·]?) = (f.part s args).map some := by
  rw [positions, map_part, map_getElem?_range, map_part]

theorem length_positions (f : StringMethod) : (f.positions s.length args).length = (f.part s args).length := by
  simpa using congrArg List.length (f.map_positions s args)

theorem charsBetween_range (n start stop : Nat) :
    charsBetween (List.range n) start stop = List.range' start (min stop n - start) := by
  rw [charsBetween, List.take_range, List.range_eq_range', List.drop_range']
  simp

/-- Where some arguments are read as zero, as many positions are taken only if they are the same ones or
none at all. A single position and the start of a part of given length have to be looked at. -/
theorem positions_of_length {f : StringMethod} (takes : f.takesPart = true) {n : Nat}
    {given read : List Value}
    (first : integerArgument read 0 0 = integerArgument given 0 0 ∨ integerArgument read 0 0 = 0)
    (second : integerArgument read 1 n = integerArgument given 1 n ∨ integerArgument read 1 n = 0)
    (start : f = .charAt ∨ f = .substr → integerArgument read 0 0 = integerArgument given 0 0 ∨
      relativePosition n (integerArgument given 0 0) = 0)
    (length : (f.positions n read).length = (f.positions n given).length) :
    f.positions n read = f.positions n given ∨ f.positions n given = [] := by
  have zero : relativePosition n 0 = 0 := by simp [relativePosition, positionWithin]
  rw [← List.length_eq_zero_iff (l := f.positions n given)]
  cases f with
  | charAt =>
    simp only [positions, part, itemAt?] at length ⊢
    rcases start (.inl rfl) with same | atStart
    · exact .inl (by rw [same])
    · rcases first with same | readZero
      · exact .inl (by rw [same])
      · unfold relativePosition positionWithin at atStart
        rw [readZero]
        split at atStart
        · right
          rw [if_pos (by assumption)]
          rfl
        · rename_i nonneg
          rw [if_neg nonneg]
          by_cases empty : n = 0
          · simp [empty]
          · have index : integerArgument given 0 0 = 0 := by omega
            rw [index]
            exact .inl rfl
  | slice =>
    simp only [positions, part, slicePart, List.length_range, charsBetween_range, List.length_range'] at *
    rcases second with second | second
    · rw [second] at length ⊢
      rcases first with first | first
      · exact .inl (by rw [first])
      · rw [first, zero] at length ⊢
        by_cases atStart : relativePosition n (integerArgument given 0 0) = 0
        · exact .inl (by rw [atStart])
        · right
          omega
    · right
      rw [second, zero] at length
      omega
  | substr =>
    simp only [positions, part, substrPart, List.length_range, charsBetween_range, List.length_range'] at *
    rcases second with second | second
    · left
      rcases start (.inr trivial) with same | atStart
      · rw [second, same]
      · rcases first with same | readZero
        · rw [second, same]
        · rw [second, readZero, zero, atStart]
    · right
      rw [second] at length
      have start : positionWithin n 0 = 0 := by simp [positionWithin]
      rw [start] at length
      omega
  | repeated =>
    rcases first with first | first
    · exact .inl (by rw [positions, positions, part, part, first])
    · right
      rw [← length, positions, part, first]
      simp [repeatedPart]
  | _ => cases takes

/-- Such a method returns the part that it takes, unless it should repeat the text a negative number of
times. -/
theorem run_of_takesPart {f : StringMethod} (takes : f.takesPart = true) (h : Heap) (s : List Char) :
    f.run h s args = .ok (.ofChars (f.part s args)) ∨
      f = .repeated ∧ integerArgument args 0 0 < 0 ∧
        f.run h s args = .error (.invalidCount (integerArgument args 0 0)) := by
  cases f with
  | charAt => exact .inl rfl
  | slice => exact .inl rfl
  | substr => exact .inl rfl
  | repeated =>
    unfold run
    by_cases negative : integerArgument args 0 0 < 0
    · exact .inr ⟨rfl, negative, if_pos negative⟩
    · exact .inl (if_neg negative)
  | _ => cases takes

/-- If such a method succeeds, it does so on every text. -/
theorem run_of_ok {f : StringMethod} (takes : f.takesPart = true) {h : Heap} {s : List Char}
    {args : List Value} {result : StringResult} (run : f.run h s args = .ok result) (h' : Heap)
    (s' : List Char) : f.run h' s' args = .ok (.ofChars (f.part s' args)) := by
  rcases run_of_takesPart args takes h' s' with ok | ⟨rfl, negative, -⟩
  · exact ok
  · unfold StringMethod.run at run
    rw [if_pos negative] at run
    cases run

end StringMethod

end Parts

theorem textArgument?_of_string (h : Heap) {args : List Value} {i : Nat} {s : String}
    (at_i : args[i]? = some (.string s)) : textArgument? h args i = some s := by
  rw [textArgument?, at_i]
  exact congrArg some (Heap.keyText_string h s)

namespace Encoding

theorem length_fst_decode (t : List Char) : (decode t).1.length = t.length := by
  simp [decode, List.unzip_eq_map]

theorem length_snd_decode (t : List Char) : (decode t).2.length = t.length := by
  simp [decode, List.unzip_eq_map]

/-- Reading a text and taking a part of it can be done in any order. -/
theorem decode_part (f : StringMethod) (t : List Char) (args : List Value) :
    decode (f.part t args) = (f.part (decode t).1 args, f.part (decode t).2 args) := by
  simp only [decode, List.unzip_eq_map, StringMethod.map_part]

/-- The character of the plane for its taint. -/
def shifted (p : Char × Bool) : Char :=
  Char.ofNat ((if p.2 then taintedPlane else untaintedPlane) + p.1.toNat)

theorem encode_eq_map {s t : List Char} {bits : List Bool} (h : encode s bits = .ok t) :
    t = (s.zip bits).map shifted := by
  have chars : ∀ (s t : List Char) (bits : List Bool), encodeChars s bits = .ok t →
      t = (s.zip bits).map shifted := by
    intro s
    induction s with
    | nil =>
      intro t bits h
      cases h
      rfl
    | cons c s ih =>
      intro t bits h
      cases bits with
      | nil =>
        cases h
        rfl
      | cons b bits =>
        rw [encodeChars, encodeChar] at h
        split at h
        · cases h
        · rename_i d first
          rcases rest : encodeChars s bits with e | ds <;> rw [rest] at h
          · cases h
          · cases h
            split at first
            · cases first
            · cases first
              rw [ih ds bits rest]
              rfl
  unfold encode at h
  split at h
  · exact chars s t bits h
  · cases h

/-- A text that was written with its taint has characters of the two last planes only. -/
theorem untaintedPlane_le_of_mem {s t : List Char} {bits : List Bool} (h : encode s bits = .ok t) :
    ∀ c ∈ t, untaintedPlane ≤ c.toNat := by
  have len : s.length = bits.length := by
    unfold encode at h
    split at h
    · assumption
    · cases h
  have basic := (encode_ok_iff len).mp ⟨t, h⟩
  intro d mem
  rw [encode_eq_map h] at mem
  obtain ⟨⟨c, b⟩, pair, rfl⟩ := List.mem_map.mp mem
  have bound : c.toNat < 0x10000 := basic c (List.of_mem_zip pair).1
  unfold shifted taintedPlane untaintedPlane
  cases b with
  | true => rw [toNat_ofNat (.inr ⟨by simp; omega, by simp; omega⟩)]; simp; omega
  | false => rw [toNat_ofNat (.inr ⟨by simp; omega, by simp; omega⟩)]; simp

end Encoding

section Origins

variable {α β : Type}

/-- Where a character of a result comes from: from the receiver, from the text of an argument, or from
neither. -/
inductive Origin where
  | receiver (i : Nat)
  | argument (k i : Nat)
  | inserted (c : Char)

/-- The character at its origin. -/
def Origin.char? (h : Heap) (s : List Char) (args : List Value) : Origin → Option Char
  | .receiver i => s[i]?
  | .argument k i => (textArgument h args k).toList[i]?
  | .inserted c => some c

/-- A list in which other items take the place of `count` items, if there is a place. -/
def replacedAt (place : Option Nat) (count : Nat) (replacement s : List α) : List α :=
  match place with
  | none => s
  | some i => s.take i ++ replacement ++ s.drop (i + count)

theorem map_replacedAt (g : α → β) (place : Option Nat) (count : Nat) (replacement s : List α) :
    (replacedAt place count replacement s).map g =
      replacedAt place count (replacement.map g) (s.map g) := by
  cases place with
  | none => rfl
  | some i => simp [replacedAt, List.map_take, List.map_drop]

theorem Text.replaceFirst_eq (pattern replacement s : List Char) :
    replaceFirst pattern replacement s =
      replacedAt (indexOf? pattern s) pattern.length replacement s := by
  unfold replaceFirst replacedAt
  cases indexOf? pattern s <;> rfl

/-- Where the characters of a replacement come from. A missing one reads as the text of undefined. -/
def replacementOrigins (h : Heap) (args : List Value) : List Origin :=
  match textArgument? h args 1 with
  | some w => (List.range w.length).map (.argument 1)
  | none => "undefined".toList.map .inserted

/-- Where the characters of a result come from, if the method returns a part of the receiver or replaces
one. -/
def StringMethod.origins (h : Heap) (s : List Char) (args : List Value) : StringMethod → List Origin
  | .replace => replacedAt (Text.indexOf? (textArgument h args 0).toList s) (textArgument h args 0).length
      (replacementOrigins h args) ((List.range s.length).map .receiver)
  | f => (f.positions s.length args).map .receiver

/-- The methods whose characters have origins. -/
def StringMethod.copies (f : StringMethod) : Bool := f.takesPart || f = .replace

theorem map_char?_replacementOrigins (h : Heap) (s : List Char) (args : List Value) :
    (replacementOrigins h args).map (·.char? h s args) = (textArgument h args 1).toList.map some := by
  unfold replacementOrigins
  rcases text : textArgument? h args 1 with _ | w
  · rw [textArgument, text, List.map_map]
    rfl
  · dsimp only
    rw [textArgument, text, Option.getD_some, List.map_map, ← StringMethod.map_getElem?_range,
      String.length_toList]
    refine List.map_congr_left fun i _ => ?_
    show (textArgument h args 1).toList[i]? = _
    rw [textArgument, text, Option.getD_some]

theorem StringMethod.origins_of_takesPart {f : StringMethod} (takes : f.takesPart = true) {h : Heap}
    {s : List Char} {args : List Value} :
    f.origins h s args = (f.positions s.length args).map .receiver := by
  cases f with
  | replace => cases takes
  | _ => rfl

/-- A result consists of the characters at their origins. -/
theorem StringMethod.run_origins {f : StringMethod} (copies : f.copies = true) {h : Heap} {s : List Char}
    {args : List Value} {result : StringResult} (run : f.run h s args = .ok result) :
    ∃ cs, result = .ofChars cs ∧ cs.map some = (f.origins h s args).map (·.char? h s args) := by
  have receivers : ((List.range s.length).map Origin.receiver).map (·.char? h s args) = s.map some := by
    rw [List.map_map, ← map_getElem?_range]
    rfl
  rcases (Bool.or_eq_true _ _).mp copies with takes | replaces
  · rcases run_of_takesPart args takes h s with ok | ⟨-, -, failed⟩
    · rw [ok] at run
      cases run
      refine ⟨_, rfl, ?_⟩
      rw [origins_of_takesPart takes, List.map_map, ← map_positions]
      rfl
    · rw [failed] at run
      cases run
  · obtain rfl : f = .replace := of_decide_eq_true replaces
    cases run
    refine ⟨_, rfl, ?_⟩
    rw [Text.replaceFirst_eq, map_replacedAt, origins, map_replacedAt, receivers,
      map_char?_replacementOrigins, String.length_toList]

end Origins

theorem Encoding.decode_replacedAt (place : Option Nat) (count : Nat) (replacement t : List Char) :
    decode (replacedAt place count replacement t) =
      (replacedAt place count (decode replacement).1 (decode t).1,
        replacedAt place count (decode replacement).2 (decode t).2) := by
  simp only [decode, List.unzip_eq_map, map_replacedAt]

namespace Text

/-- The first place where a text stands in another one. -/
theorem indexOf?_eq_some {needle s : List Char} {i : Nat} : indexOf? needle s = some i ↔
    needle <+: s.drop i ∧ i ≤ s.length ∧ ∀ j < i, ¬ needle <+: s.drop j := by
  induction s generalizing i with
  | nil =>
    cases needle with
    | nil =>
      constructor
      · intro found
        cases found
        exact ⟨List.nil_prefix, Nat.le_refl 0, fun j before => absurd before (Nat.not_lt_zero j)⟩
      · intro h
        rw [Nat.le_zero.mp h.2.1]
        rfl
    | cons c needle => simp [indexOf?]
  | cons c rest ih =>
    rw [indexOf?]
    by_cases here : needle <+: c :: rest
    · rw [if_pos (List.isPrefixOf_iff_prefix.mpr here), Option.some.injEq]
      constructor
      · rintro rfl
        exact ⟨here, Nat.zero_le _, fun j before => absurd before (Nat.not_lt_zero j)⟩
      · rintro ⟨-, -, first⟩
        by_contra later
        exact first 0 (by omega) here
    · rw [if_neg (by rwa [List.isPrefixOf_iff_prefix]), Option.map_eq_some_iff]
      constructor
      · rintro ⟨k, found, rfl⟩
        obtain ⟨there, bound, first⟩ := ih.mp found
        refine ⟨there, Nat.succ_le_succ bound, fun j before => ?_⟩
        cases j with
        | zero => exact here
        | succ j => exact first j (by omega)
      · rintro ⟨there, bound, first⟩
        cases i with
        | zero => exact absurd there here
        | succ k => exact ⟨k, ih.mpr ⟨there, Nat.le_of_succ_le_succ bound,
            fun j before => first (j + 1) (by omega)⟩, rfl⟩

theorem indexOf?_eq_none {needle s : List Char} :
    indexOf? needle s = none ↔ ∀ i ≤ s.length, ¬ needle <+: s.drop i := by
  constructor
  · intro missing i bound there
    have exists_place : ∃ i, needle <+: s.drop i ∧ i ≤ s.length := ⟨i, there, bound⟩
    classical
    have first := Nat.find_spec exists_place
    have found : indexOf? needle s = some (Nat.find exists_place) :=
      indexOf?_eq_some.mpr ⟨first.1, first.2, fun j before there => Nat.find_min exists_place before
        ⟨there, Nat.le_of_lt (Nat.lt_of_lt_of_le before first.2)⟩⟩
    rw [missing] at found
    cases found
  · intro nowhere
    rcases found : indexOf? needle s with _ | i
    · rfl
    · obtain ⟨there, bound, -⟩ := indexOf?_eq_some.mp found
      exact absurd there (nowhere i bound)

end Text

namespace Encoding

/-- A pattern that was written with its taint is found where the text without taint is found, if its taint
is the one that the text has there. -/
theorem indexOf?_encoded {p s ep es : List Char} {pb sb : List Bool} (pattern : encode p pb = .ok ep)
    (text : encode s sb = .ok es)
    (alike : ∀ i, Text.indexOf? p s = some i → charsBetween sb i (i + p.length) = pb) :
    Text.indexOf? ep es = Text.indexOf? p s := by
  have chars {t : List Char} : (decode t).1 = t.map fun c => (decodeChar c).1 := by
    simp only [decode, List.unzip_eq_map, List.map_map, Function.comp_def]
  have readp : ep.map (fun c => (decodeChar c).1) = p := by rw [← chars, decode_encode pattern]
  have reads : es.map (fun c => (decodeChar c).1) = s := by rw [← chars, decode_encode text]
  have length : es.length = s.length := by rw [← reads, List.length_map]
  -- what stands somewhere with its taint stands there without it
  have plain {i : Nat} (there : ep <+: es.drop i) : p <+: s.drop i := by
    have mapped := there.map fun c => (decodeChar c).1
    rwa [List.map_drop, readp, reads] at mapped
  rcases found : Text.indexOf? p s with _ | i
  · rw [Text.indexOf?_eq_none] at found ⊢
    intro i bound there
    exact found i (by omega) (plain there)
  · have agree := alike i found
    rw [Text.indexOf?_eq_some] at found ⊢
    obtain ⟨there, bound, first⟩ := found
    refine ⟨?_, by omega, fun j before there' => first j before (plain there')⟩
    have cut : p.zip pb = ((s.zip sb).drop i).take p.length := by
      simp only [List.zip_eq_zipWith, List.drop_zipWith, List.take_zipWith]
      rw [← List.prefix_iff_eq_take.mp there, ← agree, charsBetween,
        List.drop_take, Nat.add_sub_cancel_left]
    rw [encode_eq_map pattern, encode_eq_map text, cut, ← List.map_drop]
    exact (List.take_prefix _ _).map _

end Encoding

end ShadowTaint
