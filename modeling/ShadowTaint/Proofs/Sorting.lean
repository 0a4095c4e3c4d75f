import ShadowTaint.Proofs.Aftermath
import ShadowTaint.Proofs.Contents
import ShadowTaint.Proofs.Spelling
/-!
# Identities of strings and of other literals

An identity is handed out for one value. If the value is a literal, the handles that are added under the
identity stand for literals of the same kind, a string or no string, as long as every hook after an
operation gets the values that the hook before it has returned. This file marks every identity that is
handed out as one of strings or as one of others, and says which marks the parts of a hook need, and
which ones they leave.

## Main definitions

- `Memory.Sorted`: every identity is marked, and its handles stand for literals as marked.
- `Memory.Awaits`: the reserved identities are marked for the given values.
- `Memory.Adopts`: a step may hand out identities, and their handles can be marked as well.
- `Sorts`: what holds before an action and after it, for some marks of what was handed out by it.

## Main statements

- `Memory.Sorted.unmixed`: where identities can be marked, no identity stands for both kinds.
- `MemoryM.sorts_unwrap`, `MemoryM.sorts_wrap`: a shadow that is taken off can be put back.
- `Tracker.sorts_binaryPreBody` and its like: the bodies of hooks.

## Design notes

The marks are a list with one entry for each identity, so marks of more identities are a longer list with
the same beginning. `Sorts` is a triple in which the marks may grow.
-/

namespace ShadowTaint

open Memory

namespace Memory

variable {m m' : Memory} {kinds kinds' : List Bool} {v : Value} {id : Identity} {raw : Literal}

/-- Every identity that was handed out is marked as one of strings or as one of others, and its handles
stand for literals as marked. -/
structure Sorted (kinds : List Bool) (m : Memory) : Prop where
  length : kinds.length = m.shadow.nextIdentity
  handle : ∀ id raw, (id, raw) ∈ m.shadow.wraps → kinds[id.index]? = some raw.isText

/-- If the value is a literal, the identity is marked for it. -/
def Suits (kinds : List Bool) (v : Value) (id : Identity) : Prop :=
  ∀ raw, v = .literal raw → kinds[id.index]? = some raw.isText

/-- The reserved identities are marked for the values, the one reserved last for the first value. -/
def Awaits (vs : List Value) (kinds : List Bool) (m : Memory) : Prop :=
  List.Forall₂ (Suits kinds) vs m.shadow.frame.reserved

/-- The identity reserved last, if there is one, is marked for the value. -/
def Offers (v : Value) (kinds : List Bool) (m : Memory) : Prop :=
  ∀ id rest, m.shadow.frame.reserved = id :: rest → Suits kinds v id

/-- However the identities are marked, those that the step hands out can be marked as well. -/
def Adopts (m m' : Memory) : Prop :=
  ∀ kinds, m.Sorted kinds → ∃ kinds', kinds <+: kinds' ∧ m'.Sorted kinds'

/-- Marks that were made stay. -/
theorem mark_mono (more : kinds <+: kinds') {i : Nat} {b : Bool} (mark : kinds[i]? = some b) :
    kinds'[i]? = some b := by
  obtain ⟨added, rfl⟩ := more
  obtain ⟨inside, -⟩ := List.getElem?_eq_some_iff.mp mark
  rw [List.getElem?_append_left inside, mark]

theorem Suits.mono (h : Suits kinds v id) (more : kinds <+: kinds') : Suits kinds' v id :=
  fun raw same => mark_mono more (h raw same)

/-- Where identities can be marked, no identity stands for strings and for other literals. -/
theorem Sorted.unmixed (h : m.Sorted kinds) : m.Unmixed := by
  intro id raw raw' handle handle'
  have marked := h.handle id raw handle
  rw [h.handle id raw' handle'] at marked
  exact (Option.some.inj marked).symm

theorem Sorted.congr (h : m.Sorted kinds) (wraps : m'.shadow.wraps = m.shadow.wraps)
    (next : m'.shadow.nextIdentity = m.shadow.nextIdentity) : m'.Sorted kinds where
  length := by rw [next, h.length]
  handle := by
    rw [wraps]
    exact h.handle

theorem Sorted.lookup (h : m.Sorted kinds) (known : m.shadow.lookup? v = some (id, raw)) :
    kinds[id.index]? = some raw.isText := by
  cases v with
  | literal l => cases known
  | object o => cases known
  | shadow handle identity l => exact h.handle id raw (Array.mem_of_getElem? known)

/-- An identity that was not handed out before can be marked either way. -/
theorem Sorted.mint (h : m.Sorted kinds) (b : Bool) :
    Sorted (kinds ++ [b]) { m with shadow := m.shadow.mint.2 } where
  length := by
    rw [List.length_append, h.length]
    rfl
  handle id raw handle := mark_mono (List.prefix_append _ _) (h.handle id raw handle)

theorem Sorted.minted (h : m.Sorted kinds) (b : Bool) :
    (kinds ++ [b])[m.shadow.nextIdentity]? = some b := by
  rw [← h.length, List.getElem?_concat_length]

/-- A handle can be added under an identity that is marked for what it stands for. -/
theorem Sorted.addHandle (h : m.Sorted kinds) (mark : kinds[id.index]? = some raw.isText) :
    Sorted kinds { m with shadow := (m.shadow.addHandle id raw).2 } where
  length := h.length
  handle other raw' handle := by
    rcases Array.mem_push.mp handle with old | new
    · exact h.handle other raw' old
    · cases new
      exact mark

theorem Adopts.of_same (wraps : m'.shadow.wraps = m.shadow.wraps)
    (next : m'.shadow.nextIdentity = m.shadow.nextIdentity) : m.Adopts m' :=
  fun kinds sorted => ⟨kinds, List.prefix_refl kinds, sorted.congr wraps next⟩

instance : IsPreorder Memory Adopts where
  refl _ := .of_same rfl rfl
  trans _ _ _ first second kinds sorted := by
    obtain ⟨kinds₁, more₁, sorted₁⟩ := first kinds sorted
    obtain ⟨kinds₂, more₂, sorted₂⟩ := second kinds₁ sorted₁
    exact ⟨kinds₂, more₁.trans more₂, sorted₂⟩

theorem Marks.adopts (h : m.Marks m') : m.Adopts m' := .of_same h.wraps h.nextIdentity

theorem adopts_mint (m : Memory) : m.Adopts { m with shadow := m.shadow.mint.2 } :=
  fun kinds sorted => ⟨kinds ++ [false], List.prefix_append _ _, sorted.mint false⟩

theorem Awaits.mono {vs : List Value} (h : m.Awaits vs kinds) (more : kinds <+: kinds')
    (reserved : m'.shadow.frame.reserved = m.shadow.frame.reserved) : m'.Awaits vs kinds' := by
  rw [Awaits, reserved]
  exact List.Forall₂.imp (fun _ _ suits => suits.mono more) h

theorem Awaits.offers {vs : List Value} (h : m.Awaits (v :: vs) kinds) : m.Offers v kinds := by
  intro id rest reserved
  rw [Awaits, reserved] at h
  cases h with
  | cons suits below => exact suits

theorem Awaits.offers_of_nil (h : m.Awaits [] kinds) (v : Value) : m.Offers v kinds := by
  intro id rest reserved
  rw [Awaits, reserved] at h
  cases h

end Memory

/-- Where the first condition holds of marked identities, the action leaves identities that can be marked
as well, and then the second condition holds. -/
def Sorts {α : Type} (P : List Bool → Memory → Prop) (x : MemoryM α)
    (Q : α → List Bool → Memory → Prop) : Prop :=
  ∀ kinds m, m.Sorted kinds → P kinds m →
    ∃ kinds', kinds <+: kinds' ∧ (x m).2.Sorted kinds' ∧ Q (x m).1 kinds' (x m).2

/-- The same of an action that may fail; if it does, the second condition need not hold. -/
def SortsIfOk {α : Type} (P : List Bool → Memory → Prop) (x : CheckedM α)
    (Q : α → List Bool → Memory → Prop) : Prop :=
  Sorts P (α := Except Fault α) x fun r kinds m => ∀ a, r = .ok a → Q a kinds m

/-- No condition. -/
def Freely (_ : List Bool) (_ : Memory) : Prop := True

section Rules

variable {α β : Type} {P P' : List Bool → Memory → Prop} {Q Q' : α → List Bool → Memory → Prop}
  {R : β → List Bool → Memory → Prop}

namespace Sorts

theorem mono {x : MemoryM α} (h : Sorts P x Q) (before : ∀ kinds m, P' kinds m → P kinds m)
    (after : ∀ a kinds m, Q a kinds m → Q' a kinds m) : Sorts P' x Q' := by
  intro kinds m sorted holds
  obtain ⟨kinds', more, sorted', holds'⟩ := h kinds m sorted (before kinds m holds)
  exact ⟨kinds', more, sorted', after _ _ _ holds'⟩

protected theorem pure {a : α} (imp : ∀ kinds m, P kinds m → Q a kinds m) :
    Sorts P (pure a : MemoryM α) Q :=
  fun kinds m sorted holds => ⟨kinds, List.prefix_refl kinds, sorted, imp kinds m holds⟩

protected theorem bind {x : MemoryM α} {f : α → MemoryM β} (hx : Sorts P x Q)
    (hf : ∀ a, Sorts (Q a) (f a) R) : Sorts P (x >>= f) R := by
  intro kinds m sorted holds
  obtain ⟨kinds₁, more₁, sorted₁, holds₁⟩ := hx kinds m sorted holds
  obtain ⟨kinds₂, more₂, sorted₂, holds₂⟩ := hf (x m).1 kinds₁ (x m).2 sorted₁ holds₁
  exact ⟨kinds₂, more₁.trans more₂, sorted₂, holds₂⟩

/-- An action after which identities can be marked and which leaves the frame alone. -/
theorem of_adopts {x : MemoryM α} (adopts : Within Adopts x) (spreads : Within Spreads x)
    (vs : List Value) : Sorts (Awaits vs) x fun _ => Awaits vs := by
  intro kinds m sorted holds
  obtain ⟨kinds', more, sorted'⟩ := adopts m kinds sorted
  exact ⟨kinds', more, sorted', holds.mono more (congrArg Frame.reserved (spreads m).frame)⟩

theorem of_marks {x : MemoryM α} (marks : Within Marks x) (vs : List Value) :
    Sorts (Awaits vs) x fun _ => Awaits vs :=
  of_adopts (marks.mono fun _ _ h => h.adopts) (marks.mono fun _ _ h => h.spreads) vs

theorem adopts {x : MemoryM α} (h : Sorts Freely x Q) : Within Adopts x := by
  intro m kinds sorted
  obtain ⟨kinds', more, sorted', -⟩ := h kinds m sorted trivial
  exact ⟨kinds', more, sorted'⟩

theorem freely {x : MemoryM α} (adopts : Within Adopts x) : Sorts P x fun _ => Freely := by
  intro kinds m sorted _
  obtain ⟨kinds', more, sorted'⟩ := adopts m kinds sorted
  exact ⟨kinds', more, sorted', trivial⟩

end Sorts

namespace SortsIfOk

theorem mono {x : CheckedM α} (h : SortsIfOk P x Q) (before : ∀ kinds m, P' kinds m → P kinds m)
    (after : ∀ a kinds m, Q a kinds m → Q' a kinds m) : SortsIfOk P' x Q' :=
  Sorts.mono h before fun _ kinds m holds a ok => after a kinds m (holds a ok)

protected theorem pure {a : α} (imp : ∀ kinds m, P kinds m → Q a kinds m) :
    SortsIfOk P (pure a : CheckedM α) Q := by
  refine fun kinds m sorted holds => ⟨kinds, List.prefix_refl kinds, sorted, fun b ok => ?_⟩
  cases ok
  exact imp kinds m holds

protected theorem bind {x : CheckedM α} {f : α → CheckedM β} (hx : SortsIfOk P x Q)
    (hf : ∀ a, SortsIfOk (Q a) (f a) R) : SortsIfOk P (x >>= f) R := by
  intro kinds m sorted holds
  obtain ⟨kinds₁, more₁, sorted₁, holds₁⟩ := hx kinds m sorted holds
  rcases run : x m with ⟨e | a, m₁⟩
  · rw [run] at sorted₁
    rw [bind_apply_error run]
    exact ⟨kinds₁, more₁, sorted₁, fun _ impossible => nomatch impossible⟩
  · rw [run] at sorted₁ holds₁
    rw [bind_apply_ok run]
    obtain ⟨kinds₂, more₂, sorted₂, holds₂⟩ := hf a kinds₁ m₁ sorted₁ (holds₁ a rfl)
    exact ⟨kinds₂, more₁.trans more₂, sorted₂, holds₂⟩

protected theorem get_bind {f : Memory → CheckedM α}
    (hf : ∀ m, SortsIfOk (fun kinds m' => m' = m ∧ P kinds m') (f m) Q) :
    SortsIfOk P (get >>= f) Q :=
  fun kinds m sorted holds => hf m kinds m sorted ⟨rfl, holds⟩

protected theorem lift {x : MemoryM α} (h : Sorts P x Q) : SortsIfOk P (liftM x) Q := by
  intro kinds m sorted holds
  obtain ⟨kinds', more, sorted', holds'⟩ := h kinds m sorted holds
  refine ⟨kinds', more, sorted', fun a ok => ?_⟩
  cases ok
  exact holds'

theorem of_marks {x : CheckedM α} (marks : Within Marks x) (vs : List Value) :
    SortsIfOk (Awaits vs) x fun _ => Awaits vs :=
  Sorts.mono (Sorts.of_marks marks vs) (fun _ _ h => h) fun _ _ _ holds _ _ => holds

theorem adopts {x : CheckedM α} (h : SortsIfOk Freely x Q) : Within Adopts x := Sorts.adopts h

/-- What the action does not touch is still true after it. -/
protected theorem and {x : CheckedM α} (h : SortsIfOk P x Q) {I : Memory → Prop}
    (stays : Within (fun m m' => I m → I m') x) :
    SortsIfOk (fun kinds m => P kinds m ∧ I m) x fun a kinds m => Q a kinds m ∧ I m := by
  rintro kinds m sorted ⟨holds, also⟩
  obtain ⟨kinds', more, sorted', holds'⟩ := h kinds m sorted holds
  exact ⟨kinds', more, sorted', fun a ok => ⟨holds' a ok, stays m also⟩⟩

theorem freely {x : CheckedM α} (adopts : Within Adopts x) : SortsIfOk P x fun _ => Freely :=
  Sorts.mono (Sorts.freely adopts) (fun _ _ h => h) fun _ _ _ _ _ _ => trivial

/-- The condition of a step is not needed where nothing has to hold afterwards. -/
theorem weaken {x : CheckedM α} (h : SortsIfOk P x Q) : SortsIfOk P x fun _ => Freely :=
  h.mono (fun _ _ h => h) fun _ _ _ _ => trivial

end SortsIfOk

end Rules

namespace MemoryM

variable (levels : Levels) (v : Value) (vs : List Value)

theorem admitsIdentities_adopts : AdmitsIdentities Adopts where
  mint := adopts_mint
  frame _ _ := .of_same rfl rfl

/-- A literal gets a shadow under an identity that is marked for it. -/
theorem sorted_shadow {m : Memory} {kinds : List Bool} (sorted : m.Sorted kinds) {id : Identity}
    {raw : Literal} (mark : kinds[id.index]? = some raw.isText) :
    (shadow id raw m).2.Sorted kinds := by
  rcases skips : m.shadow.frame.callType.skipsWrapping
  · rw [shadow_of_wraps skips]
    exact sorted.addHandle mark
  · rw [shadow_of_skips skips]
    exact sorted

theorem adopts_wrapFresh : Within Adopts (wrapFresh v) := by
  intro m kinds sorted
  cases v with
  | literal raw =>
    exact ⟨kinds ++ [raw.isText], List.prefix_append _ _,
      sorted_shadow (sorted.mint raw.isText) (sorted.minted raw.isText)⟩
  | object id => exact ⟨kinds, List.prefix_refl kinds, sorted⟩
  | shadow handle identity raw => exact ⟨kinds, List.prefix_refl kinds, sorted⟩

theorem adopts_hold (grain : Grain) : Within Adopts (hold grain v) := by
  cases grain with
  | imprecise =>
    exact .bind (admitsIdentities_adopts.unwrap v) fun _ =>
      .bind admitsIdentities_adopts.discard fun _ => .pure _
  | precise => exact adopts_wrapFresh v

theorem adopts_settle (policy : Policy) : Within Adopts (settle policy v) :=
  within_settle (fun grain v => adopts_hold v grain) (fun _ _ _ => .of_same rfl rfl) policy v

/-- The identity of a value is marked for any value that is a string exactly if the known handle stands
for one. -/
theorem sorted_identityOf {w : Value} {m : Memory} {kinds : List Bool} (sorted : m.Sorted kinds)
    (fits : ∀ id raw l, m.shadow.lookup? v = some (id, raw) → w = .literal l → l.isText = raw.isText) :
    ∃ kinds', kinds <+: kinds' ∧ (identityOf v m).2.Sorted kinds' ∧ Suits kinds' w (identityOf v m).1 := by
  rcases identityOf_cases v m with ⟨id, raw, known, run⟩ | ⟨unknown, run⟩
  · rw [run]
    refine ⟨kinds, List.prefix_refl kinds, sorted, fun l literal => ?_⟩
    rw [fits id raw l known literal]
    exact sorted.lookup known
  · rw [run]
    let b := w.literal?.any Literal.isText
    refine ⟨kinds ++ [b], List.prefix_append _ _, sorted.mint b, fun l literal => ?_⟩
    have kind : b = l.isText := by rw [show b = w.literal?.any Literal.isText from rfl, literal]; rfl
    rw [← kind]
    exact sorted.minted b

/-- The identity of a value is marked for what lies behind the value. -/
theorem sorted_identityOf_valueOf {m : Memory} {kinds : List Bool} (sorted : m.Sorted kinds) :
    ∃ kinds', kinds <+: kinds' ∧ (identityOf v m).2.Sorted kinds' ∧
      Suits kinds' (m.valueOf v) (identityOf v m).1 := by
  refine sorted_identityOf v sorted fun id raw l known literal => ?_
  change m.shadow.valueOf v = _ at literal
  rw [ShadowState.valueOf_of_lookup known] at literal
  cases literal
  rfl

/-- The identity that is reserved is marked as the identity of the value. -/
theorem sorted_reserve {w : Value} {m : Memory} {kinds kinds' : List Bool} (more : kinds <+: kinds')
    (sorted : (identityOf v m).2.Sorted kinds') (suits : Suits kinds' w (identityOf v m).1)
    (awaits : m.Awaits vs kinds) :
    (reserve v m).2.Sorted kinds' ∧ (reserve v m).2.Awaits (w :: vs) kinds' := by
  have frame : (identityOf v m).2.shadow.frame = m.shadow.frame := (spreads_identityOf v m).frame
  have below : (identityOf v m).2.Awaits vs kinds' :=
    awaits.mono more (congrArg Frame.reserved frame)
  exact ⟨sorted.congr rfl rfl, .cons suits below⟩

theorem sorts_reserve : Sorts (Awaits vs) (reserve v) fun _ => Awaits (v :: vs) := by
  intro kinds m sorted awaits
  obtain ⟨kinds', more, sorted', suits⟩ := sorted_identityOf v (w := v) sorted
    fun _ _ _ known literal => by subst literal; cases known
  exact ⟨kinds', more, sorted_reserve v vs more sorted' suits awaits⟩

/-- The identity of a shadow that is taken off is marked for what lay behind it. -/
theorem sorts_unwrap : Sorts (Awaits vs) (unwrap v) fun r => Awaits (r :: vs) := by
  intro kinds m sorted awaits
  obtain ⟨kinds', more, sorted', suits⟩ := sorted_identityOf_valueOf v sorted
  exact ⟨kinds', more, sorted_reserve v vs more sorted' suits awaits⟩

theorem sorts_discard : Sorts (Awaits (v :: vs)) discard fun _ => Awaits vs := by
  intro kinds m sorted awaits
  obtain ⟨kinds', more, sorted'⟩ := admitsIdentities_adopts.discard m kinds sorted
  refine ⟨kinds', more, sorted', ?_⟩
  obtain ⟨id, rest, -, below, reserved⟩ := List.forall₂_cons_left_iff.mp awaits
  rw [Awaits, (stacks_discard m).reserved, reserved]
  exact below.imp fun _ _ suits => suits.mono more

/-- A value is wrapped under the identity reserved last, if that is marked for it, or else under a new
one. -/
theorem sorted_wrap {m : Memory} {kinds : List Bool} (sorted : m.Sorted kinds)
    (suits : m.Offers v kinds) : ∃ kinds', kinds <+: kinds' ∧ (wrap levels v m).2.Sorted kinds' := by
  have composite (policy : Policy) : m.Adopts (discard (settle policy v m).2).2 :=
    trans_of Adopts (adopts_settle v policy m) (admitsIdentities_adopts.discard _)
  cases v with
  | literal raw =>
    rw [wrap_bare]
    rcases m.shadow.take_cases with ⟨id, rest, reserved, run⟩ | ⟨-, run⟩
    · rw [takeIdentity, stepShadow, run]
      have taken : Sorted kinds
          { m with shadow := { m.shadow with frame := m.shadow.frame.withReserved rest } } :=
        sorted.congr rfl rfl
      exact ⟨kinds, List.prefix_refl kinds, sorted_shadow taken (suits id rest reserved raw rfl)⟩
    · rw [takeIdentity, stepShadow, run]
      exact ⟨kinds ++ [raw.isText], List.prefix_append _ _,
        sorted_shadow (sorted.mint raw.isText) (sorted.minted raw.isText)⟩
  | object id => exact composite _ kinds sorted
  | shadow handle identity raw => exact composite _ kinds sorted

/-- A shadow can be put back under an identity that is marked for the value. -/
theorem sorts_wrap : Sorts (Awaits (v :: vs)) (wrap levels v) fun _ => Awaits vs := by
  intro kinds m sorted awaits
  obtain ⟨id, rest, -, below, reserved⟩ := List.forall₂_cons_left_iff.mp awaits
  obtain ⟨kinds', more, sorted'⟩ := sorted_wrap levels v sorted (awaits.offers)
  refine ⟨kinds', more, sorted', ?_⟩
  show List.Forall₂ _ vs _
  rw [(stacks_wrap levels v m).reserved, reserved]
  exact below.imp fun _ _ suits => suits.mono more

/-- A result gets a new identity. -/
theorem sorts_wrap_result : Sorts (Awaits []) (wrap levels v) fun _ => Awaits [] := by
  intro kinds m sorted awaits
  have empty : m.shadow.frame.reserved = [] := List.forall₂_nil_left_iff.mp awaits
  obtain ⟨kinds', more, sorted'⟩ := sorted_wrap levels v sorted (awaits.offers_of_nil v)
  refine ⟨kinds', more, sorted', ?_⟩
  show List.Forall₂ _ [] _
  rw [(stacks_wrap levels v m).reserved, empty]
  exact .nil

end MemoryM

namespace CheckedM

variable {P : List Bool → Memory → Prop}

theorem sorts_checkPending (site : String) (expected : Nat) :
    SortsIfOk P (checkPending site expected) fun _ => P := by
  intro kinds m sorted holds
  rw [checkPending_snd]
  exact ⟨kinds, List.prefix_refl kinds, sorted, fun _ _ => holds⟩

/-- Where a hook expects nothing to be reserved, nothing is, or the hook fails. -/
theorem sorts_checkNone (site : String) :
    SortsIfOk P (checkPending site 0) fun _ => Awaits [] := by
  intro kinds m sorted _
  rw [checkPending_snd]
  refine ⟨kinds, List.prefix_refl kinds, sorted, fun _ ok => ?_⟩
  have passed : checkPending site 0 m = (.ok (), m) := Prod.ext ok (checkPending_snd site 0 m)
  show List.Forall₂ _ [] _
  rw [reserved_of_checkPending passed]
  exact .nil

theorem sorts_expectIdle (site : String) : SortsIfOk Freely (expectIdle site) fun _ => Awaits [] := by
  refine .get_bind fun m => ?_
  split
  · exact .bind (sorts_checkPending _ _) fun _ =>
      .bind (.freely (.lift MemoryM.admitsIdentities_adopts.discard)) fun _ => sorts_checkNone site
  · exact sorts_checkNone site

end CheckedM

end ShadowTaint
