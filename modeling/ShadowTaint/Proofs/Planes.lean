import ShadowTaint.Proofs.Concatenation
/-!
# Taint carried by planes

A text with one taint bit per character is written as a text, and this file says which texts can be
written, that nothing is lost, and how texts are read that were put together from written and unwritten
ones.

## Main definitions

- `Encoding.plane`: the plane of a character.

## Main statements

- `Encoding.exists_encode_iff`: what can be written.
- `Encoding.plane_of_encode`: written characters lie in the two planes that stand for their taint.
- `Encoding.planes_carry`: writing and reading lose nothing, and reading works piece by piece.
-/

namespace ShadowTaint.Encoding

/-- The plane in which a character lies. -/
def plane (c : Char) : Nat := c.toNat / planeSize

theorem plane_of_basic {c : Char} (basic : c.toNat < planeSize) : plane c = 0 :=
  Nat.div_eq_of_lt basic

/-- A text can be written with one bit per character if it lies in the basic plane, and otherwise it
cannot be written. -/
theorem exists_encode_iff {s : List Char} {bits : List Bool} :
    (∃ t, encode s bits = .ok t) ↔ bits.length = s.length ∧ IsBasic s := by
  by_cases len : s.length = bits.length
  · rw [encode_ok_iff len, and_iff_right len.symm]
  · rw [encode, if_neg len]
    refine iff_of_false ?_ fun both => len both.1.symm
    rintro ⟨t, written⟩
    cases written

/-- A written character lies in the plane of its taint. -/
theorem plane_encodeChar {c d : Char} {b : Bool} (h : encodeChar c b = .ok d) :
    plane d = if b then 16 else 15 := by
  unfold encodeChar at h
  split at h
  · cases h
  · rename_i basic
    cases h
    have bound : c.toNat < 0x10000 := Nat.lt_of_not_le basic
    -- both planes lie above the surrogates, so every code point in them is a character
    cases b with
    | true =>
      have code : (Char.ofNat (taintedPlane + c.toNat)).toNat = 0x100000 + c.toNat :=
        toNat_ofNat (.inr ⟨by rw [taintedPlane]; omega, by rw [taintedPlane]; omega⟩)
      rw [if_pos rfl, if_pos rfl, plane, code, planeSize]
      omega
    | false =>
      have code : (Char.ofNat (untaintedPlane + c.toNat)).toNat = 0xF0000 + c.toNat :=
        toNat_ofNat (.inr ⟨by rw [untaintedPlane]; omega, by rw [untaintedPlane]; omega⟩)
      rw [if_neg Bool.false_ne_true, if_neg Bool.false_ne_true, plane, code, planeSize]
      omega

theorem planes_encodeChars {s t : List Char} {bits : List Bool} (len : s.length = bits.length)
    (h : encodeChars s bits = .ok t) : t.map plane = bits.map fun b => if b then 16 else 15 := by
  induction s generalizing bits t with
  | nil =>
    obtain rfl := List.length_eq_zero_iff.mp len.symm
    cases h
    rfl
  | cons c s ih =>
    rcases bits with _ | ⟨b, bits⟩
    · cases len
    · rw [encodeChars] at h
      rcases first : encodeChar c b with e | d <;> rw [first] at h
      · cases h
      · rcases rest : encodeChars s bits with e | ds <;> rw [rest] at h
        · cases h
        · cases h
          rw [List.map_cons, List.map_cons, plane_encodeChar first, ih (Nat.succ.inj len) rest]

/-- Every character of a written text lies in the plane of its taint. -/
theorem plane_of_encode {s t : List Char} {bits : List Bool} (h : encode s bits = .ok t) :
    t.map plane = bits.map fun b => if b then 16 else 15 := by
  unfold encode at h
  split at h
  · rename_i len
    exact planes_encodeChars len h
  · cases h

/-- A written text has no character in a plane of the text that was written. -/
theorem plane_ne_of_encode {s t : List Char} {bits : List Bool} (h : encode s bits = .ok t)
    {c d : Char} (hc : c ∈ s) (hd : d ∈ t) : plane d ≠ plane c := by
  have basic : plane c = 0 := plane_of_basic ((exists_encode_iff.mp ⟨t, h⟩).2 c hc)
  have written : plane d ∈ bits.map fun b => if b then 16 else 15 :=
    plane_of_encode h ▸ List.mem_map_of_mem hd
  obtain ⟨b, -, eq⟩ := List.mem_map.mp written
  rw [basic, ← eq]
  cases b <;> decide

/-- A character below the two planes stands for itself. -/
theorem decodeChar_of_lt {c : Char} (low : c.toNat < untaintedPlane) : decodeChar c = (c, false) := by
  unfold untaintedPlane at low
  unfold decodeChar taintedPlane untaintedPlane
  rw [if_neg (by omega), if_neg (by omega)]

/-- A text below the two planes reads as itself, without taint. -/
theorem decode_of_lt {s : List Char} (low : ∀ c ∈ s, c.toNat < untaintedPlane) :
    decode s = (s, List.replicate s.length false) := by
  induction s with
  | nil => rfl
  | cons c s ih =>
    obtain ⟨here, rest⟩ := List.forall_mem_cons.mp low
    rw [decode_cons, decodeChar_of_lt here, ih rest, List.length_cons, List.replicate_succ]

/-- A text can be written exactly if there is one bit per character and all characters are of the basic
plane. What is written reads as what it was written from, so two writings are never the same, and it has
no character in a plane of the text. Texts are read piece by piece, and characters below the two planes
are read as themselves, without taint. -/
theorem planes_carry (s : List Char) (bits : List Bool) :
    ((∃ t, encode s bits = .ok t) ↔ bits.length = s.length ∧ ∀ c ∈ s, c.toNat < 0x10000) ∧
    (∀ t, encode s bits = .ok t → decode t = (s, bits) ∧ (∀ d ∈ t, ∀ c ∈ s, plane d ≠ plane c) ∧
      ∀ s' bits', encode s' bits' = .ok t → s' = s ∧ bits' = bits) ∧
    (∀ x y, decode (x ++ y) = ((decode x).1 ++ (decode y).1, (decode x).2 ++ (decode y).2)) ∧
    ∀ x, (∀ c ∈ x, c.toNat < 0xF0000) → decode x = (x, List.replicate x.length false) := by
  refine ⟨exists_encode_iff, fun t written => ⟨decode_encode written, ?_, ?_⟩, decode_append,
    fun _ => decode_of_lt⟩
  · exact fun d hd c hc => plane_ne_of_encode written hc hd
  · -- reading has one answer, so what was written is the same
    intro s' bits' written'
    have same := (decode_encode written').symm.trans (decode_encode written)
    exact ⟨congrArg Prod.fst same, congrArg Prod.snd same⟩

end ShadowTaint.Encoding
