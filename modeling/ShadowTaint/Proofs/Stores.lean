import ShadowTaint.Proofs.Hooks
import ShadowTaint.Proofs.Protocol
/-!
# Stores

The hooks of a store differ from those of other operations in two ways. How many identities they put
on the stack depends on the policy of the base, which takes off the shadow of the stored value or
leaves it on. And a store may be refused, by which the hook takes back what it has handed out.

## Main definitions

- `Memory.HandsStored`: how the stored value is handed to the host under a policy.
- `Memory.SameEntries`: the same is recorded about taint.
- `Memory.refused`: the memory after a refused store.

## Main statements

- `Tracker.putFieldPreBody_ok`, `Tracker.putFieldBody_cases`: the hooks of a store.
- `Tracker.grows_putFieldBody`: a refused store forgets only what its own hook has handed out.
- `Tracker.putField_refused`: after a refused store the shadow state is the one before its hook.
-/

namespace ShadowTaint

open Memory

/-- The stored value is handed to the host, and on top of what was reserved below its identity is,
if the policy of the base takes its shadow off. -/
inductive Memory.HandsStored (m : Memory) (v : Value) (below : List Identity) :
    Policy → Value → List Identity → Prop where
  | stripped {r : Value} {id : Identity} (out : m.HandsOut v r id) :
      HandsStored m v below (.container .array .imprecise) r (id :: below)
  | kept {policy : Policy} (other : policy ≠ .container .array .imprecise) :
      HandsStored m v below policy v below

theorem Memory.HandsStored.mono {m m' : Memory} {v r : Value} {below ids : List Identity}
    {policy : Policy} (h : m'.HandsStored v below policy r ids) (grows : m.Grows m') :
    m.HandsStored v below policy r ids := by
  cases h with
  | stripped out => exact .stripped (out.mono grows)
  | kept other => exact .kept other

/-- The same is recorded about the taint of values. -/
def Memory.SameEntries (m m' : Memory) : Prop := m'.shadow.entries = m.shadow.entries

instance : IsPreorder Memory SameEntries where
  refl _ := rfl
  trans _ _ _ first second := Eq.trans second first

/-- The memory after a refused store: what was handed out since the store began is taken back, and
nothing is reserved. -/
def Memory.refused (before m : Memory) : Memory :=
  { m with shadow := (m.shadow.rollback before.shadow.checkpoint).clearPending }

section Catching

variable {σ ε α : Type}

theorem tryCatch_apply_ok {x : ExceptT ε (StateM σ) α} {s s' : σ} {a : α}
    (run : x s = (.ok a, s')) (handle : ε → ExceptT ε (StateM σ) α) :
    (tryCatch x handle) s = (.ok a, s') := by
  show ((x >>= fun result => match result with
    | .ok a => pure (.ok a)
    | .error e => handle e : StateM σ (Except ε α))) s = _
  rw [bind_apply, run]
  rfl

theorem tryCatch_apply_error {x : ExceptT ε (StateM σ) α} {s s' : σ} {e : ε}
    (run : x s = (.error e, s')) (handle : ε → ExceptT ε (StateM σ) α) :
    (tryCatch x handle) s = handle e s' := by
  show ((x >>= fun result => match result with
    | .ok a => pure (.ok a)
    | .error e => handle e : StateM σ (Except ε α))) s = _
  rw [bind_apply, run]

end Catching

namespace MemoryM

section Entries

theorem admitsHandles_sameEntries : AdmitsHandles SameEntries where
  mint _ := rfl
  frame _ _ := rfl
  handle _ _ _ := rfl

/-- Wrapping hands out identities and handles but records nothing about them. -/
theorem sameEntries_wrap (levels : Levels) (v : Value) : Within SameEntries (wrap levels v) :=
  admitsHandles_sameEntries.wrap (fun _ _ _ => rfl) levels v

end Entries

section Stored

theorem prepareStored_out (policy : Policy) (v : Value) (m : Memory) :
    ∃ r ids m', prepareStored policy v m = (r, m') ∧ m.Stacks ids m' ∧ m'.heap = m.heap ∧
      m.HandsStored v m.shadow.frame.reserved policy r ids := by
  by_cases strips : policy = .container .array .imprecise
  · obtain ⟨id, out, stacked⟩ := stacks_unwrap v m
    subst strips
    exact ⟨_, _, _, rfl, stacked, (issues_unwrap v m).heap, .stripped out⟩
  · rw [prepareStored_of_keeps strips]
    exact ⟨v, _, m, rfl, .refl m, rfl, .kept strips⟩

/-- The stored value comes back, and what was reserved below it is reserved again. -/
theorem restoreStored_back (levels : Levels) {m₀ m : Memory} {v r : Value}
    {below ids : List Identity} {policy : Policy} (out : m₀.HandsStored v below policy r ids)
    (grows : m₀.Grows m) (reserved : m.shadow.frame.reserved = ids) :
    ∃ w m', restoreStored levels policy r m = (w, m') ∧ m.Stacks below m' ∧
      (m.shadow.frame.callType.skipsWrapping = false → m₀.ComesBack m' v w) := by
  cases out with
  | stripped out => exact wrap_back levels out grows reserved
  | kept other =>
    rw [restoreStored_of_keeps levels other]
    exact ⟨v, m, rfl, reserved ▸ .refl m, fun _ => grows.comesBack v⟩

theorem stacks_restoreStored (levels : Levels) (policy : Policy) (v : Value) (m : Memory) :
    ∃ ids, m.Stacks ids (restoreStored levels policy v m).2 := by
  by_cases strips : policy = .container .array .imprecise
  · rw [restoreStored_of_strips levels strips]
    exact ⟨_, stacks_wrap levels v m⟩
  · rw [restoreStored_of_keeps levels strips]
    exact ⟨_, .refl m⟩

theorem sameEntries_restoreStored (levels : Levels) (policy : Policy) (v : Value) :
    Within SameEntries (restoreStored levels policy v) := by
  by_cases strips : policy = .container .array .imprecise
  · rw [restoreStored_of_strips levels strips]
    exact sameEntries_wrap levels v
  · rw [restoreStored_of_keeps levels strips]
    exact .pure v

end Stored

end MemoryM

namespace Memory

/-- Handles are added at the end, so those that were known before can be cut off again. -/
theorem Grows.take_wraps {m m' : Memory} (h : m.Grows m') :
    m'.shadow.wraps.take m.shadow.wraps.size = m.shadow.wraps := by
  refine Array.ext_getElem? fun i => ?_
  rw [Array.take, Array.getElem?_extract, Nat.zero_add, Nat.sub_zero]
  rcases Nat.lt_or_ge i m.shadow.wraps.size with inside | beyond
  · have known := h.known i _ (Array.getElem?_eq_getElem inside)
    have inside' := (Array.getElem?_eq_some_iff.mp known).1
    rw [if_pos (by omega), known, Array.getElem?_eq_getElem inside]
  · rw [if_neg (by omega), Array.getElem?_eq_none beyond]

/-- A store that is refused before anything is recorded leaves nothing behind but what its hook wrote
to the heap. -/
theorem Stacks.grows_refused {m m₁ m₂ : Memory} {ids : List Identity} (stacked : m.Stacks ids m₁)
    (same : m.SameEntries m₁) (used : Policy.NodesUsed m₁ m₂) : m.Grows (m.refused m₂) := by
  obtain ⟨count, rfl⟩ := used
  have wraps := stacked.toGrows.take_wraps
  exact {
    evolves := stacked.evolves
    known := fun i x known => by
      show (m₁.shadow.wraps.take m.shadow.wraps.size)[i]? = some x
      rwa [wraps]
    minted := Nat.le_refl _
    bounded := fun bounded => by
      refine bounded.of_mentions (Nat.le_refl _) fun id mention => .inl ?_
      rcases mention with entry | ⟨raw, handle⟩ | (reserved | tree) | ⟨site, f, hf, mention⟩
      · refine .inl ?_
        have entry' : m₁.shadow.entries.contains (.identity id) = true := entry
        rwa [show m₁.shadow.entries = m.shadow.entries from same] at entry'
      · refine .inr (.inl ⟨raw, ?_⟩)
        have handle' : (id, raw) ∈ m₁.shadow.wraps.take m.shadow.wraps.size := handle
        rwa [wraps] at handle'
      · exact nomatch reserved
      · refine .inr (.inr (.inl (.inr ?_)))
        have tree' : ∃ object trees, m₁.shadow.frame.trees.get? object = some trees ∧
            TaintTree.Mentions id trees := tree
        rwa [stacked.frame] at tree'
      · refine .inr (.inr (.inr ⟨site, f, ?_, mention⟩))
        have hf' : f ∈ m₁.shadow.framesAt site := hf
        rwa [ShadowState.framesAt, stacked.saved] at hf' }

/-- What is left of the shadow state when a store is refused before anything is recorded: all of it,
but for the identities that were reserved. -/
theorem Stacks.shadow_refused {m m₁ m₂ : Memory} {ids : List Identity} (stacked : m.Stacks ids m₁)
    (same : m.SameEntries m₁) (used : Policy.NodesUsed m₁ m₂) :
    (m.refused m₂).shadow = { m.shadow with
      frame := m.shadow.frame.withReserved []
      nextNode := (m.refused m₂).shadow.nextNode } := by
  obtain ⟨count, rfl⟩ := used
  have frame : m₁.shadow.frame.withReserved [] = m.shadow.frame.withReserved [] := by
    rw [stacked.frame]
    rfl
  have wraps : m₁.shadow.wraps.take m.shadow.wraps.size = m.shadow.wraps :=
    stacked.toGrows.take_wraps
  have entries : m₁.shadow.entries = m.shadow.entries := same
  show ShadowState.mk (m₁.shadow.frame.withReserved [])
    (m₁.shadow.wraps.take m.shadow.wraps.size) m₁.shadow.entries m₁.shadow.context m₁.shadow.saved
    m.shadow.nextIdentity (m₁.shadow.nextNode + count) = _
  rw [frame, wraps, entries, stacked.context, stacked.saved]
  rfl

end Memory

namespace Tracker

theorem putFieldPreBody_ok (levels : Levels) {m : Memory} (rest : m.shadow.AtRest)
    (base offset v : Value) :
    ∃ b o r idb ido ids m', putFieldPreBody base offset v levels m = (.ok ⟨b, o, r⟩, m') ∧
      m.HandsOut base b idb ∧ m.HandsOut offset o ido ∧
      m.HandsStored v [ido, idb] (levels.policyFor m.heap b) r ids ∧ m.Stacks ids m' ∧
      m'.heap = m.heap := by
  obtain ⟨m₁, idle, dropped, heap₁⟩ := CheckedM.expectIdle_ok rest "WPutFieldPre"
  obtain ⟨idb, outb, first⟩ := MemoryM.stacks_unwrap base m₁
  have heap₂ := (MemoryM.issues_unwrap base m₁).heap
  rw [dropped.reserved] at first
  obtain ⟨b, m₂, run₂⟩ : ∃ b m₂, MemoryM.unwrap base m₁ = (b, m₂) := ⟨_, _, rfl⟩
  rw [run₂] at outb first heap₂
  obtain ⟨ido, outo, second⟩ := MemoryM.stacks_unwrap offset m₂
  have heap₃ := (MemoryM.issues_unwrap offset m₂).heap
  rw [first.reserved] at second
  obtain ⟨o, m₃, run₃⟩ : ∃ o m₃, MemoryM.unwrap offset m₂ = (o, m₃) := ⟨_, _, rfl⟩
  rw [run₃] at outo second heap₃
  obtain ⟨r, ids, m₄, run₄, third, heap₄, outv⟩ :=
    MemoryM.prepareStored_out (levels.policyFor m₃.heap b) v m₃
  have heap : m₃.heap = m.heap := by rw [heap₃, heap₂, heap₁]
  have stacked := dropped.trans first
  rw [second.reserved, heap] at outv
  refine ⟨b, o, r, idb, ido, ids, m₄, ?_, outb.mono dropped.toGrows, outo.mono stacked.toGrows,
    outv.mono (stacked.trans second).toGrows, (stacked.trans second).trans third,
    heap₄.trans heap⟩
  unfold putFieldPreBody
  rw [bind_apply_ok idle, lift_bind_of run₂, lift_bind_of run₃, get_bind_apply, lift_bind_of run₄]
  rfl

/-- What the hook after a store does before it decides whether to refuse it, and how it decides. -/
theorem putFieldAttempt_apply (levels : Levels) {base offset v b o w : Value} {m m₁ m₂ m₃ : Memory}
    (run₁ : MemoryM.restoreStored levels (levels.policyFor m.heap base) v m = (w, m₁))
    (run₂ : MemoryM.wrap levels offset m₁ = (o, m₂))
    (run₃ : MemoryM.wrap levels base m₂ = (b, m₃)) :
    putFieldAttempt base offset v levels m = (do
      CheckedM.checkPending "WPutField" 0
      ((← get).policyOf levels b).putField levels ⟨b, o, w⟩
      return ⟨b, o, w⟩ : CheckedM Operands) m₃ := by
  unfold putFieldAttempt
  rw [get_bind_apply, lift_bind_of run₁, lift_bind_of run₂, lift_bind_of run₃]

/-- Whatever lies on the stack, the store is recorded in the end, or it is refused and nothing is. -/
theorem recordStore_cases (levels : Levels) (ops : Operands) (m : Memory) :
    (∃ m', (do
        CheckedM.checkPending "WPutField" 0
        ((← get).policyOf levels ops.base).putField levels ops
        return ops : CheckedM Operands) m = (.ok ops, m') ∧ m.Marks m') ∨
    ∃ e m', (do
        CheckedM.checkPending "WPutField" 0
        ((← get).policyOf levels ops.base).putField levels ops
        return ops : CheckedM Operands) m = (.error e, m') ∧ Policy.NodesUsed m m' := by
  by_cases empty : m.shadow.frame.reserved.length = 0
  · rw [bind_apply_ok (CheckedM.checkPending_ok empty), get_bind_apply]
    rcases (m.policyOf levels ops.base).putField_cases levels ops m with
      ⟨m', stored, marks⟩ | ⟨f, m', refused, used⟩
    · exact .inl ⟨m', by rw [bind_apply_ok stored]; rfl, marks⟩
    · exact .inr ⟨_, m', bind_apply_error refused, used⟩
  · have failed : CheckedM.checkPending "WPutField" 0 m =
        (.error (.violation (.pending "WPutField" 0 m.shadow.frame.reserved.length)), m) := by
      unfold CheckedM.checkPending
      rw [get_bind_apply]
      unfold ShadowState.checkPending ShadowState.pendingCount
      rw [if_neg empty]
      rfl
    exact .inr ⟨_, m, bind_apply_error failed, 0, rfl⟩

/-- The hook after a store, whatever lies on the stack: the store is recorded, or it is refused, and
then nothing was recorded before. -/
theorem putFieldAttempt_cases (levels : Levels) (base offset v : Value) (m : Memory) :
    (∃ ops ids m', putFieldAttempt base offset v levels m = (.ok ops, m') ∧ m.Stacks ids m') ∨
    ∃ e ids m₁ m₂, putFieldAttempt base offset v levels m = (.error e, m₂) ∧ m.Stacks ids m₁ ∧
      m.SameEntries m₁ ∧ Policy.NodesUsed m₁ m₂ := by
  obtain ⟨ids, s₁⟩ := MemoryM.stacks_restoreStored levels (levels.policyFor m.heap base) v m
  have e₁ := MemoryM.sameEntries_restoreStored levels (levels.policyFor m.heap base) v m
  obtain ⟨w, m₁, run₁⟩ : ∃ w m₁, MemoryM.restoreStored levels (levels.policyFor m.heap base) v m =
    (w, m₁) := ⟨_, _, rfl⟩
  rw [run₁] at s₁ e₁
  have s₂ := MemoryM.stacks_wrap levels offset m₁
  have e₂ := MemoryM.sameEntries_wrap levels offset m₁
  obtain ⟨o, m₂, run₂⟩ : ∃ o m₂, MemoryM.wrap levels offset m₁ = (o, m₂) := ⟨_, _, rfl⟩
  rw [run₂] at s₂ e₂
  have s₃ := MemoryM.stacks_wrap levels base m₂
  have e₃ := MemoryM.sameEntries_wrap levels base m₂
  obtain ⟨b, m₃, run₃⟩ : ∃ b m₃, MemoryM.wrap levels base m₂ = (b, m₃) := ⟨_, _, rfl⟩
  rw [run₃] at s₃ e₃
  have stacked := (s₁.trans s₂).trans s₃
  have same := trans_of SameEntries (trans_of SameEntries e₁ e₂) e₃
  rw [putFieldAttempt_apply levels run₁ run₂ run₃]
  rcases recordStore_cases levels ⟨b, o, w⟩ m₃ with ⟨m', stored, marks⟩ | ⟨e, m', refused, used⟩
  · exact .inl ⟨_, _, m', stored, stacked.trans marks.spreads.stacked⟩
  · exact .inr ⟨e, _, m₃, m', refused, stacked, same, used⟩

/-- A store that is not refused is not rolled back. -/
theorem putFieldBody_of_ok {levels : Levels} {base offset v : Value} {m m' : Memory}
    {ops : Operands} (run : putFieldAttempt base offset v levels m = (.ok ops, m')) :
    putFieldBody base offset v levels m = (.ok ops, m') := by
  unfold putFieldBody
  rw [get_bind_apply]
  exact tryCatch_apply_ok run _

theorem putFieldBody_of_error {levels : Levels} {base offset v : Value} {m m' : Memory} {e : Fault}
    (run : putFieldAttempt base offset v levels m = (.error e, m')) :
    putFieldBody base offset v levels m = (.error e, m.refused m') := by
  unfold putFieldBody
  rw [get_bind_apply, tryCatch_apply_error run]
  rfl

/-- Whatever lies on the stack, the hook after a store grows the memory, even if it refuses the
store. -/
theorem grows_putFieldBody (levels : Levels) (base offset v : Value) :
    Within Grows (putFieldBody base offset v levels) := by
  intro m
  rcases putFieldAttempt_cases levels base offset v m with
    ⟨ops, ids, m', run, stacked⟩ | ⟨e, ids, m₁, m₂, run, stacked, same, used⟩
  · rw [putFieldBody_of_ok run]
    exact stacked.toGrows
  · rw [putFieldBody_of_error run]
    exact stacked.grows_refused same used

/-- A store, after its operands were handed out. It is refused with a finding only. -/
theorem putFieldBody_cases (levels : Levels) {m₀ m : Memory} {base offset v b o r : Value}
    {idb ido : Identity} {ids : List Identity} (outb : m₀.HandsOut base b idb)
    (outo : m₀.HandsOut offset o ido)
    (outv : m₀.HandsStored v [ido, idb] (levels.policyFor m.heap b) r ids) (grows : m₀.Grows m)
    (reserved : m.shadow.frame.reserved = ids) :
    (∃ ops m', putFieldBody b o r levels m = (.ok ops, m') ∧ m.Stacks [] m' ∧
      (m.shadow.frame.callType.skipsWrapping = false → m₀.ComesBack m' base ops.base ∧
        m₀.ComesBack m' offset ops.offset ∧ m₀.ComesBack m' v ops.value)) ∨
    ∃ f m', putFieldBody b o r levels m = (.error (.finding f), m') := by
  obtain ⟨r', m₁, run₁, s₁, backv⟩ := MemoryM.restoreStored_back levels outv grows reserved
  obtain ⟨o', m₂, run₂, s₂, backo⟩ := MemoryM.wrap_back levels outo
    (grows.trans s₁.toGrows) s₁.reserved
  obtain ⟨b', m₃, run₃, s₃, backb⟩ := MemoryM.wrap_back levels outb
    (grows.trans (s₁.trans s₂).toGrows) s₂.reserved
  have checked : CheckedM.checkPending "WPutField" 0 m₃ = (.ok (), m₃) :=
    CheckedM.checkPending_ok (by rw [s₃.reserved]; rfl)
  have attempt := putFieldAttempt_apply levels run₁ run₂ run₃
  rw [bind_apply_ok checked, get_bind_apply] at attempt
  rcases (m₃.policyOf levels b').putField_cases levels ⟨b', o', r'⟩ m₃ with
    ⟨m', stored, marks⟩ | ⟨f, m', refused, -⟩
  · left
    rw [bind_apply_ok stored] at attempt
    have recorded := marks.spreads
    refine ⟨_, m', putFieldBody_of_ok attempt,
      ((s₁.trans s₂).trans s₃).trans (s₃.reserved ▸ recorded.stacked), fun wraps => ⟨?_, ?_, ?_⟩⟩
    · exact (backb (by rw [s₂.callType, s₁.callType, wraps])).mono recorded.toGrows
    · exact (backo (by rw [s₁.callType, wraps])).mono (s₃.toGrows.trans recorded.toGrows)
    · exact (backv wraps).mono ((s₂.trans s₃).toGrows.trans recorded.toGrows)
  · right
    rw [bind_apply_error refused] at attempt
    exact ⟨f, _, putFieldBody_of_error attempt⟩

/-- After a refused store the shadow state is the one before its hook, whatever the hook was given and
whyever it refused, but that nothing is reserved any more and nothing is left behind for the next
hook. The numbers that went to the nodes of the finding's histories are not used again. -/
theorem putField_refused {t t' : Tracker} {base offset v : Value} {e : Fault}
    (refused : putField base offset v t = (.error e, t')) :
    t'.memory.shadow = { t.memory.shadow with
      frame := { t.memory.shadow.frame with reserved := [] }
      context := .unset
      nextNode := t'.memory.shadow.nextNode } := by
  obtain ⟨r, m, run⟩ : ∃ r m, putFieldBody base offset v t.settings.policies t.memory = (r, m) :=
    ⟨_, _, rfl⟩
  obtain ⟨t₁, hooked, memory, -⟩ := HookM.memoryHook_of "put_field"
    (fun t => [("base", t.render base), ("offset", t.render offset), ("value", t.render v)])
    (putFieldBody base offset v) run
  obtain ⟨rfl, rfl⟩ := Prod.mk.inj (hooked.symm.trans refused)
  rcases putFieldAttempt_cases t.settings.policies base offset v t.memory with
    ⟨ops, _, m', attempt, -⟩ | ⟨e', ids, m₁, m₂, attempt, stacked, same, used⟩
  · -- a store that is not refused is none of these
    rw [putFieldBody_of_ok attempt] at run
    cases run
  · rw [putFieldBody_of_error attempt] at run
    cases run
    rw [memory, Memory.ended, stacked.shadow_refused same used]
    rfl

/-- A tracker in the middle of a store of a tainted string under a name of prototypes: the identities
of the base and of the name are reserved, and the base is an array that is tracked element by
element and has an element without a shadow. -/
def storing : Tracker where
  settings := { policies := ({} : Levels).set "array" .precise }
  memory :=
    { heap := ⟨#[{ kind := .array [.string "x"] }]⟩
      shadow :=
        { frame := { reserved := [⟨2⟩, ⟨1⟩], callType := .internal, callSite := 0 }
          wraps := #[(⟨0⟩, .string "evil")]
          entries := .ofList [(.identity ⟨0⟩, { bit := true, chars := none, path := .leaf 0 "" })]
          nextIdentity := 3
          nextNode := 1 } }
  ghosts := {}
  scope := {}

/-- The store is refused after the name and the element have got shadows, of which the shadow state
has nothing afterwards. -/
theorem putField_refused_storing : ∃ e t',
    putField (.object 0) (.string "__proto__") (.shadow ⟨0⟩ ⟨0⟩ (.string "evil")) storing =
      (.error e, t') ∧
    t'.memory.shadow = { storing.memory.shadow with
      frame := { storing.memory.shadow.frame with reserved := [] }
      context := .unset
      nextNode := t'.memory.shadow.nextNode } := by
  have failed : (putField (.object 0) (.string "__proto__") (.shadow ⟨0⟩ ⟨0⟩ (.string "evil"))
      storing).1.isOk = false := by decide +kernel
  rcases run : putField (.object 0) (.string "__proto__") (.shadow ⟨0⟩ ⟨0⟩ (.string "evil"))
    storing with ⟨e | ops, t'⟩
  · exact ⟨e, t', rfl, putField_refused run⟩
  · rw [run] at failed
    cases failed

end Tracker

end ShadowTaint
