import ShadowTaint.Native.Invoke
/-!
# Keys of maps and members of sets

Containers compare keys with shadows put aside, and numbers are the same key if they differ in the sign
of a zero only or are both no numbers. So they compare what is left of a value when the rest is forgotten,
and a value that was put under a key is found under every equal one, and under no other.

## Main definitions

- `Value.key`: what makes a value the key that it is.

## Main statements

- `Value.sameKey_iff`: values are compared by their keys.
- `entryUnder?_putEntryUnder`: what is found under a key after a value was put under one.
-/

namespace ShadowTaint

namespace Literal

section Numbers

open Float.Model

/-- A number without the sign of a zero. -/
def unsignedZero : UnpackedFloat → UnpackedFloat
  | .zero _ => .zero .positive
  | shape => shape

theorem isNaN_iff {a : UnpackedFloat} : a.isNaN = true ↔ a = .notANumber := by
  cases a with
  | notANumber => exact iff_of_true rfl rfl
  | _ => exact iff_of_false Bool.false_ne_true nofun

theorem compare_sign_iff {s s' : UnpackedFloat.Sign} : compare s s' = .eq ↔ s = s' := by
  cases s <;> cases s' <;> simp [compare]

/-- The library takes numbers for equal if they differ in the sign of a zero only, but nothing for equal to what
is no number. -/
theorem compare_eq_iff (a b : UnpackedFloat) :
    a.compare b = some .eq ↔ unsignedZero a = unsignedZero b ∧ a ≠ .notANumber := by
  cases a <;> cases b
  case infinity.infinity s s' =>
    change some (compare s s') = some .eq ↔ UnpackedFloat.infinity s = .infinity s' ∧ _
    simp [compare_sign_iff]
  case finite.finite s m e above s' m' e' above' =>
    change _ ↔ UnpackedFloat.finite s m e above = .finite s' m' e' above' ∧ _
    rw [and_iff_left nofun, UnpackedFloat.finite.injEq]
    cases s <;> cases s'
    case negative.negative =>
      change some ((compare e e').then (compare m m')).swap = some .eq ↔ _
      simp [Ordering.then_eq_eq, and_comm]
    case positive.positive =>
      change some ((compare e e').then (compare m m')) = some .eq ↔ _
      simp [Ordering.then_eq_eq, and_comm]
    all_goals exact iff_of_false nofun fun same => nomatch same.1
  case zero.zero => exact iff_of_true rfl ⟨rfl, nofun⟩
  case notANumber.infinity | notANumber.notANumber | notANumber.zero | notANumber.finite =>
    exact iff_of_false nofun fun same => same.2 rfl
  -- of two shapes that differ, the sign of the one that is greater in magnitude decides
  case infinity.zero s _ | infinity.finite s _ _ _ _ | finite.zero s _ _ _ _ | zero.infinity _ s |
      finite.infinity _ _ _ _ s | zero.finite _ s _ _ _ =>
    exact iff_of_false (by cases s <;> exact nofun) fun same => nomatch same.1
  all_goals exact iff_of_false nofun fun same => nomatch same.1

end Numbers

/-- What makes a literal the key that it is. -/
inductive Key where
  | number (shape : Float.Model.UnpackedFloat)
  | other (l : Literal)

/-- The key that a literal is. -/
def key : Literal → Key
  | .number x => .number (unsignedZero x.toModel.unpack)
  | l => .other l

/-- Numbers are compared as the library compares them, but what is no number equals itself. -/
theorem sameNumber_iff (x y : Float) : (x == y || (x.isNaN && y.isNaN)) = true ↔
    unsignedZero x.toModel.unpack = unsignedZero y.toModel.unpack := by
  change (x.toModel.unpack.compare y.toModel.unpack == some .eq ||
    (x.toModel.unpack.isNaN && y.toModel.unpack.isNaN)) = true ↔ _
  generalize x.toModel.unpack = a
  generalize y.toModel.unpack = b
  rw [Bool.or_eq_true, beq_iff_eq, compare_eq_iff, Bool.and_eq_true, isNaN_iff, isNaN_iff]
  constructor
  · rintro (⟨same, -⟩ | ⟨rfl, rfl⟩)
    · exact same
    · rfl
  · intro same
    by_cases number : a = .notANumber
    · refine .inr ⟨number, ?_⟩
      subst number
      cases b <;> first | rfl | cases same
    · exact .inl ⟨same, number⟩

/-- Two literals are the same as keys if they are the same key. -/
theorem sameKey_iff (l k : Literal) : l.sameKey k = true ↔ l.key = k.key := by
  cases l <;> cases k <;> simp [sameKey, key]
  case number.number x y => simpa using sameNumber_iff x y

end Literal

namespace Value

/-- What makes a value the key that it is: the key that its literal is, or the object. -/
def key : Value → Literal.Key ⊕ ObjectId
  | .literal l | .shadow _ _ l => .inl l.key
  | .object id => .inr id

/-- Two values are the same as keys if they are the same key. -/
theorem sameKey_iff (v w : Value) : v.sameKey w = true ↔ v.key = w.key := by
  cases v <;> cases w <;> simp [sameKey, literal?, object?, key, Literal.sameKey_iff]

end Value

section Entries

variable {key key' v : Value} (entries : List (Value × Value))

/-- Under the key itself it is the value that was put there, and under others what was there before. -/
theorem entryUnder?_putEntryUnder : entryUnder? key' (putEntryUnder key v entries) =
    if key.sameKey key' then some v else entryUnder? key' entries := by
  induction entries with
  | nil => simp [putEntryUnder, entryUnder?]
  | cons e rest ih =>
    obtain ⟨k, w⟩ := e
    by_cases put : k.sameKey key = true
    · -- the entry is replaced, and it is found under the keys that equal its own
      have step : k.sameKey key' = key.sameKey key' := by
        rw [Bool.eq_iff_iff, Value.sameKey_iff, Value.sameKey_iff, (Value.sameKey_iff _ _).mp put]
      by_cases found : key.sameKey key' = true <;> simp [putEntryUnder, entryUnder?, put, step, found]
    · by_cases here : k.sameKey key' = true
      · have other : ¬ key.sameKey key' = true := by
          intro same
          rw [Value.sameKey_iff] at put here same
          exact put (here.trans same.symm)
        simp [putEntryUnder, entryUnder?, put, here, other]
      · simp [putEntryUnder, entryUnder?, put, here, ih]

/-- Equal keys find the same. -/
theorem entryUnder?_congr (same : key.sameKey key' = true) :
    entryUnder? key entries = entryUnder? key' entries := by
  induction entries with
  | nil => rfl
  | cons e rest ih =>
    have step : e.1.sameKey key = e.1.sameKey key' := by
      rw [Bool.eq_iff_iff, Value.sameKey_iff, Value.sameKey_iff, (Value.sameKey_iff _ _).mp same]
    simp [entryUnder?, step, ih]

end Entries

end ShadowTaint
