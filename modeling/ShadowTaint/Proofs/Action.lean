import Mathlib.Order.Defs.Unbundled
/-!
# Running actions

An action on a state takes the state it finds and leaves another one, and it may fail. This file has
the equations by which actions are run step by step, and two properties of actions that are put
together along their structure: which states an action can leave, and which faults it can raise.

## Main definitions

- `Within`: the state that an action leaves is related to the one that it found.
- `Raises`: every fault of an action has a property.

## Design notes

`Within` takes a preorder, so that it holds of a sequence as soon as it holds of the parts. It says
nothing about the value of an action; where that matters the action is run by the equations.
-/

namespace ShadowTaint

variable {σ ε α β : Type}

section Running

theorem bind_apply (x : StateM σ α) (f : α → StateM σ β) (s : σ) :
    (x >>= f) s = f (x s).1 (x s).2 := rfl

theorem get_apply (s : σ) : (get : StateM σ σ) s = (s, s) := rfl

/-- After a first action that succeeds, a sequence goes on from the state that the action left. -/
theorem bind_apply_ok {x : ExceptT ε (StateM σ) α} {f : α → ExceptT ε (StateM σ) β} {s s' : σ}
    {a : α} (h : x s = (.ok a, s')) : (x >>= f) s = f a s' := by
  change (ExceptT.bindCont f (x s).1) (x s).2 = f a s'
  rw [h]
  rfl

/-- A first action that fails ends a sequence. -/
theorem bind_apply_error {x : ExceptT ε (StateM σ) α} {f : α → ExceptT ε (StateM σ) β} {s s' : σ}
    {e : ε} (h : x s = (.error e, s')) : (x >>= f) s = (.error e, s') := by
  change (ExceptT.bindCont f (x s).1) (x s).2 = (.error e, s')
  rw [h]
  rfl

/-- A sequence succeeds exactly when its parts do. -/
theorem bind_eq_ok {x : ExceptT ε (StateM σ) α} {f : α → ExceptT ε (StateM σ) β} {s t : σ} {b : β} :
    (x >>= f) s = (.ok b, t) ↔ ∃ a s', x s = (.ok a, s') ∧ f a s' = (.ok b, t) := by
  constructor
  · intro h
    rcases hx : x s with ⟨e | a, s'⟩
    · rw [bind_apply_error hx] at h
      cases h
    · rw [bind_apply_ok hx] at h
      exact ⟨a, s', rfl, h⟩
  · rintro ⟨a, s', hx, hf⟩
    rw [bind_apply_ok hx, hf]

/-- A sequence fails when its first part does, or else when its second part does. -/
theorem bind_eq_error {x : ExceptT ε (StateM σ) α} {f : α → ExceptT ε (StateM σ) β} {s t : σ}
    {e : ε} : (x >>= f) s = (.error e, t) ↔
      x s = (.error e, t) ∨ ∃ a s', x s = (.ok a, s') ∧ f a s' = (.error e, t) := by
  constructor
  · intro h
    rcases hx : x s with ⟨e | a, s'⟩
    · rw [bind_apply_error hx] at h
      cases h
      exact .inl rfl
    · rw [bind_apply_ok hx] at h
      exact .inr ⟨a, s', rfl, h⟩
  · rintro (hx | ⟨a, s', hx, hf⟩)
    · exact bind_apply_error hx
    · rw [bind_apply_ok hx, hf]

/-- A second part that only computes leaves the state of the first part. -/
theorem snd_bind_of_pure {x : ExceptT ε (StateM σ) α} {f : α → ExceptT ε (StateM σ) β}
    (pure : ∀ a s, (f a s).2 = s) (s : σ) : ((x >>= f) s).2 = (x s).2 := by
  rcases run : x s with ⟨_ | a, s'⟩
  · rw [bind_apply_error run]
  · rw [bind_apply_ok run, pure]

theorem lift_apply (x : StateM σ α) (s : σ) :
    (liftM x : ExceptT ε (StateM σ) α) s = (.ok (x s).1, (x s).2) := rfl

theorem lift_bind_apply (x : StateM σ α) (f : α → ExceptT ε (StateM σ) β) (s : σ) :
    ((liftM x : ExceptT ε (StateM σ) α) >>= f) s = f (x s).1 (x s).2 := rfl

theorem lift_bind_of {x : StateM σ α} {a : α} {s s' : σ} (h : x s = (a, s'))
    (f : α → ExceptT ε (StateM σ) β) :
    ((liftM x : ExceptT ε (StateM σ) α) >>= f) s = f a s' := by
  rw [lift_bind_apply, h]

theorem get_bind_apply (f : σ → ExceptT ε (StateM σ) β) (s : σ) : (get >>= f) s = f s s := rfl

theorem pure_apply_except (a : α) (s : σ) : (pure a : ExceptT ε (StateM σ) α) s = (.ok a, s) := rfl

theorem throw_apply (e : ε) (s : σ) :
    (throw e : ExceptT ε (StateM σ) α) s = (.error e, s) := rfl

/-- A step that is only done on a condition, in front of what follows in any case. -/
theorem if_bind_apply {p : Prop} [Decidable p] {x : ExceptT ε (StateM σ) PUnit}
    {f : PUnit → ExceptT ε (StateM σ) β} {s s' : σ}
    (h : (if p then x else pure ()) s = (.ok (), s')) :
    (if p then x >>= f else f ()) s = f () s' := by
  by_cases hp : p
  · rw [if_pos hp] at h ⊢
    exact bind_apply_ok h
  · rw [if_neg hp] at h ⊢
    cases h
    rfl

/-- A loop of actions that cannot fail does not fail. -/
theorem forM_lift_apply (f : α → StateM σ PUnit) (l : List α) (s : σ) :
    (l.forM fun a => (liftM (f a) : ExceptT ε (StateM σ) PUnit)) s =
      (.ok (l.forM f s).1, (l.forM f s).2) := by
  induction l generalizing s with
  | nil => rfl
  | cons a l ih => exact ih (f a s).2

theorem mapM_lift_apply (f : α → StateM σ β) (l : List α) (s : σ) :
    (l.mapM fun a => (liftM (f a) : ExceptT ε (StateM σ) β)) s =
      (.ok (l.mapM f s).1, (l.mapM f s).2) := by
  induction l generalizing s with
  | nil => rfl
  | cons a l ih =>
    rw [List.mapM_cons, List.mapM_cons, lift_bind_apply, bind_apply_ok (ih (f a s).2)]
    rfl

end Running

/-- The state that the action leaves is related to the one that it found. -/
def Within (R : σ → σ → Prop) (x : StateM σ α) : Prop := ∀ s, R s (x s).2

namespace Within

variable {R S : σ → σ → Prop}

theorem mono {x : StateM σ α} (h : Within R x) (imp : ∀ s t, R s t → S s t) : Within S x :=
  fun s => imp _ _ (h s)

theorem of_apply {x : StateM σ α} (h : Within R x) {s s' : σ} {a : α} (run : x s = (a, s')) :
    R s s' := by
  have := h s
  rwa [run] at this

theorem lift {x : StateM σ α} (h : Within R x) : Within R (liftM x : ExceptT ε (StateM σ) α) := h

section Preorder

variable [IsPreorder σ R]

protected theorem pure (a : α) : Within R (pure a : StateM σ α) := fun s => refl_of R s

protected theorem get : Within R (get : StateM σ σ) := fun s => refl_of R s

protected theorem bind {x : StateM σ α} {f : α → StateM σ β} (hx : Within R x)
    (hf : ∀ a, Within R (f a)) : Within R (x >>= f) :=
  fun s => trans_of R (hx s) (hf _ _)

/-- A sequence whose second part is only known to stay within the relation on the values and states
that the first part comes to. -/
theorem bind_apply {x : StateM σ α} {f : α → StateM σ β} {s : σ} (hx : R s (x s).2)
    (hf : R (x s).2 (f (x s).1 (x s).2).2) : R s ((x >>= f) s).2 :=
  trans_of R hx hf

protected theorem mapM {f : α → StateM σ β} (hf : ∀ a, Within R (f a)) (l : List α) :
    Within R (l.mapM f) := by
  induction l with
  | nil => exact .pure _
  | cons a l ih =>
    rw [List.mapM_cons]
    exact .bind (hf a) fun _ => .bind ih fun _ => .pure _

protected theorem forM {f : α → StateM σ PUnit} (hf : ∀ a, Within R (f a)) (l : List α) :
    Within R (l.forM f) := by
  induction l with
  | nil => exact .pure _
  | cons a l ih => exact .bind (hf a) fun _ => ih

protected theorem foldlM {f : β → α → StateM σ β} (hf : ∀ b a, Within R (f b a)) (b : β)
    (l : List α) : Within R (l.foldlM f b) := by
  induction l generalizing b with
  | nil => exact .pure _
  | cons a l ih =>
    rw [List.foldlM_cons]
    exact .bind (hf b a) fun b => ih b

end Preorder

section Failing

variable [IsPreorder σ R]

theorem pure_except (a : α) : Within R (pure a : ExceptT ε (StateM σ) α) := fun s => refl_of R s

theorem throw (e : ε) : Within R (throw e : ExceptT ε (StateM σ) α) := fun s => refl_of R s

theorem get_except : Within R (get : ExceptT ε (StateM σ) σ) := fun s => refl_of R s

/-- A sequence stays within a preorder if its parts do, whether or not it ends early. -/
theorem bind_except {x : ExceptT ε (StateM σ) α} {f : α → ExceptT ε (StateM σ) β}
    (hx : Within R x) (hf : ∀ a, Within R (f a)) :
    Within R (x >>= f : ExceptT ε (StateM σ) β) := by
  intro s
  have first : R s (x s).2 := hx s
  rcases run : x s with ⟨_ | a, s'⟩
  · rw [bind_apply_error run]
    rwa [run] at first
  · rw [bind_apply_ok run]
    rw [run] at first
    exact trans_of R first (hf a s')

end Failing

end Within

/-- Every fault of the action has the property. -/
def Raises (P : ε → Prop) (x : ExceptT ε (StateM σ) α) : Prop :=
  ∀ s e s', x s = (.error e, s') → P e

namespace Raises

variable {P Q : ε → Prop}

theorem mono {x : ExceptT ε (StateM σ) α} (h : Raises P x) (imp : ∀ e, P e → Q e) : Raises Q x :=
  fun s e s' run => imp e (h s e s' run)

protected theorem pure (a : α) : Raises P (pure a : ExceptT ε (StateM σ) α) := by
  intro s e s' run
  rw [pure_apply_except] at run
  cases run

protected theorem lift (x : StateM σ α) : Raises P (liftM x : ExceptT ε (StateM σ) α) := by
  intro s e s' run
  rw [lift_apply] at run
  cases run

protected theorem throw {e : ε} (h : P e) : Raises P (throw e : ExceptT ε (StateM σ) α) := by
  intro s e' s' run
  rw [throw_apply] at run
  cases run
  exact h

protected theorem get : Raises P (get : ExceptT ε (StateM σ) σ) := by
  intro s e s' run
  cases run

protected theorem bind {x : ExceptT ε (StateM σ) α} {f : α → ExceptT ε (StateM σ) β}
    (hx : Raises P x) (hf : ∀ a, Raises P (f a)) : Raises P (x >>= f) := by
  intro s e s' run
  rcases bind_eq_error.mp run with first | ⟨a, s'', -, second⟩
  · exact hx s e s' first
  · exact hf a s'' e s' second

end Raises

end ShadowTaint
