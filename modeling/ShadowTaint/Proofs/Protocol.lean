import ShadowTaint.Proofs.Operands
import ShadowTaint.Proofs.Rules
import ShadowTaint.Tracker.Code
import ShadowTaint.Tracker.Fields
import ShadowTaint.Tracker.Operators
/-!
# The hooks of one operation

Between two operations the tracker is at rest: nothing is reserved, or one identity is, which the
hook of a condition has left behind. This file has one lemma for each hook on the memory. At rest the
hook before an operation cannot fail, and it reserves the identities of the operands; when these lie
on the stack, the hook after the operation can fail with a finding only, and it takes them off again.

## Main definitions

- `ShadowState.AtRest`: the state between two operations.
- `Memory.Fresh`: a result comes back under an identity that is new.
-/

namespace ShadowTaint

open Memory

/-- Nothing is reserved, or the identity of a condition is. -/
def ShadowState.AtRest (s : ShadowState) : Prop :=
  (s.context = .unset ∧ s.frame.reserved = []) ∨
    (s.context = .conditional ∧ s.frame.reserved.length = 1)

/-- Where literals get shadows, a literal result comes back under an identity that was not handed out
in the first memory. -/
def Memory.Fresh (m : Memory) (v w : Value) : Prop :=
  ∀ raw, v = .literal raw → ∃ handle id, w = .shadow handle id raw ∧
    m.shadow.nextIdentity ≤ id.index

theorem Memory.Fresh.mono {m m' : Memory} {v w : Value} (h : m'.Fresh v w) (grows : m.Grows m') :
    m.Fresh v w := by
  intro raw eq
  obtain ⟨handle, id, shadow, new⟩ := h raw eq
  exact ⟨handle, id, shadow, Nat.le_trans grows.minted new⟩

namespace CheckedM

theorem checkPending_ok {site : String} {expected : Nat} {m : Memory}
    (h : m.shadow.frame.reserved.length = expected) :
    checkPending site expected m = (.ok (), m) := by
  unfold checkPending
  rw [get_bind_apply]
  unfold ShadowState.checkPending ShadowState.pendingCount
  rw [if_pos h]
  rfl

theorem checkPending_snd (site : String) (expected : Nat) (m : Memory) :
    (checkPending site expected m).2 = m := by
  unfold checkPending
  rw [get_bind_apply]
  rcases m.shadow.checkPending site expected with v | ⟨⟩
  · rfl
  · rfl

/-- A count leaves the memory as it is. -/
theorem within_checkPending {R : Memory → Memory → Prop} [IsPreorder Memory R] (site : String)
    (expected : Nat) : Within R (checkPending site expected) := by
  intro m
  rw [checkPending_snd]
  exact refl_of R m

/-- Before an operation begins, the identity of a condition is dropped at most. -/
theorem within_expectIdle {R : Memory → Memory → Prop} [IsPreorder Memory R]
    (discards : Within R MemoryM.discard) (site : String) : Within R (expectIdle site) := by
  refine .bind_except .get_except fun m => ?_
  split
  · exact .bind_except (within_checkPending _ _) fun _ => .bind_except (.lift discards) fun _ =>
      within_checkPending _ _
  · exact within_checkPending _ _

theorem keeps_expectIdle (site : String) : Within Keeps (expectIdle site) :=
  within_expectIdle (fun m => (MemoryM.stacks_discard m).toKeeps) site

/-- At rest the hook before an operation can begin, and the identity of a condition is dropped. -/
theorem expectIdle_ok {m : Memory} (rest : m.shadow.AtRest) (site : String) :
    ∃ m', expectIdle site m = (.ok (), m') ∧ m.Stacks [] m' ∧ m'.heap = m.heap := by
  unfold expectIdle
  rw [get_bind_apply]
  rcases rest with ⟨unset, empty⟩ | ⟨conditional, one⟩
  · refine ⟨m, ?_, by simpa [empty] using Stacks.refl m, rfl⟩
    rw [if_neg (by rw [unset]; decide)]
    exact checkPending_ok (by rw [empty]; rfl)
  · have dropped := MemoryM.stacks_discard m
    have empty : m.shadow.frame.reserved.tail = [] := by
      rw [← List.length_eq_zero_iff, List.length_tail, one]
    rw [empty] at dropped
    refine ⟨_, ?_, dropped, rfl⟩
    rw [if_pos conditional, bind_apply_ok (checkPending_ok one), lift_bind_apply]
    exact checkPending_ok (by rw [dropped.reserved]; rfl)

end CheckedM

namespace MemoryM

/-- One step back: the identity reserved last is dropped, and the operand it belongs to comes back. -/
theorem wrap_back (levels : Levels) {m₀ m : Memory} {v r : Value} {id : Identity}
    {rest : List Identity} (out : m₀.HandsOut v r id) (grows : m₀.Grows m)
    (reserved : m.shadow.frame.reserved = id :: rest) :
    ∃ w m', wrap levels r m = (w, m') ∧ m.Stacks rest m' ∧
      (m.shadow.frame.callType.skipsWrapping = false → m₀.ComesBack m' v w) := by
  have wrapped := stacks_wrap levels r m
  rw [reserved] at wrapped
  exact ⟨_, _, rfl, wrapped, comesBack_wrap levels out grows reserved⟩

/-- A result for which nothing is reserved is wrapped under a new identity. -/
theorem wrap_result (levels : Levels) {m : Memory} (empty : m.shadow.frame.reserved = [])
    (v : Value) : ∃ w m', wrap levels v m = (w, m') ∧ m.Stacks [] m' ∧
      (m.shadow.frame.callType.skipsWrapping = false → m.Fresh v w) := by
  have wrapped := stacks_wrap levels v m
  rw [empty] at wrapped
  refine ⟨_, _, rfl, wrapped, fun wraps => ?_⟩
  rintro raw rfl
  obtain ⟨handle, eq⟩ := wrap_literal_fresh levels empty wraps raw
  exact ⟨handle, _, eq, Nat.le_refl _⟩

end MemoryM

namespace Tracker

section Reading

theorem getFieldPreBody_ok {m : Memory} (rest : m.shadow.AtRest) (base offset : Value) :
    ∃ b o idb ido m', getFieldPreBody base offset m = (.ok (b, o), m') ∧ m.HandsOut base b idb ∧
      m.HandsOut offset o ido ∧ m.Stacks [ido, idb] m' := by
  obtain ⟨m₁, idle, dropped, -⟩ := CheckedM.expectIdle_ok rest "WGetFieldPre"
  obtain ⟨idb, outb, first⟩ := MemoryM.stacks_unwrap base m₁
  obtain ⟨ido, outo, second⟩ := MemoryM.stacks_unwrap offset (MemoryM.unwrap base m₁).2
  rw [dropped.reserved] at first
  rw [first.reserved] at second
  have stacked := dropped.trans first
  refine ⟨_, _, idb, ido, _, ?_, outb.mono dropped.toGrows, outo.mono stacked.toGrows,
    stacked.trans second⟩
  unfold getFieldPreBody
  rw [bind_apply_ok idle]
  rfl

/-- Giving a function its name changes nothing but that name. -/
theorem spreads_nameFunction (v offset : Value) (m : Memory) :
    m.Spreads { m with heap := nameFunction m.heap v offset } := by
  unfold nameFunction
  split
  · exact refl_of Spreads m
  · split
    · rename_i f kind
      split
      · rename_i anonymous
        refine (refl_of Spreads m).withHeap (Heap.evolves_setKind _ ?_) fun sound _ =>
          Heap.Holding.setKind sound _ trivial
        rw [kind]
        exact ⟨rfl, rfl, fun named => absurd anonymous named⟩
      · exact refl_of Spreads m
    · exact refl_of Spreads m

/-- Reading a property, after its operands were handed out. -/
theorem getFieldBody_ok (levels : Levels) {m₀ m : Memory} {base offset b o : Value}
    {idb ido : Identity} (outb : m₀.HandsOut base b idb) (outo : m₀.HandsOut offset o ido)
    (grows : m₀.Grows m) (reserved : m.shadow.frame.reserved = [ido, idb]) (v : Value) :
    ∃ ops m', getFieldBody b o v levels m = (.ok ops, m') ∧ m.Stacks [] m' ∧
      (m.shadow.frame.callType.skipsWrapping = false → m₀.ComesBack m' base ops.base ∧
        m₀.ComesBack m' offset ops.offset ∧ m.Fresh v ops.value) := by
  have named := spreads_nameFunction v o m
  have first : MemoryM.modifyHeap (nameFunction · v o) m =
      ((), { m with heap := nameFunction m.heap v o }) := rfl
  generalize { m with heap := nameFunction m.heap v o } = m₁ at named first
  obtain ⟨o', m₂, run₂, s₂, backo⟩ := MemoryM.wrap_back levels outo (grows.trans named.toGrows)
    (by rw [named.frame, reserved])
  obtain ⟨b', m₃, run₃, s₃, backb⟩ := MemoryM.wrap_back levels outb
    (grows.trans (named.stacked.trans s₂).toGrows) s₂.reserved
  obtain ⟨v', m₄, run₄, s₄, fresh⟩ := MemoryM.wrap_result levels s₃.reserved v
  have ruled := ((m₄.policyOf levels b').marks_getField levels ⟨b', o', v'⟩ m₄).spreads
  have wrapped := ((named.stacked.trans s₂).trans s₃)
  refine ⟨⟨b', o', v'⟩, _, ?_, (wrapped.trans s₄).trans (s₄.reserved ▸ ruled.stacked),
    fun wraps => ⟨?_, ?_, ?_⟩⟩
  · unfold getFieldBody
    rw [lift_bind_of first, lift_bind_of run₂, lift_bind_of run₃, lift_bind_of run₄,
      bind_apply_ok (CheckedM.checkPending_ok (by rw [s₄.reserved]; rfl)), get_bind_apply]
    rfl
  · exact (backb (by rw [s₂.callType, named.frame, wraps])).mono (s₄.toGrows.trans ruled.toGrows)
  · exact (backo (by rw [named.frame, wraps])).mono
      ((s₃.trans s₄).toGrows.trans ruled.toGrows)
  · exact (fresh (by rw [wrapped.callType, wraps])).mono wrapped.toGrows

end Reading

section Operators

theorem binaryPreBody_ok {m : Memory} (rest : m.shadow.AtRest) (left right : Value) :
    ∃ l r idl idr m', binaryPreBody left right m = (.ok (l, r), m') ∧ m.HandsOut left l idl ∧
      m.HandsOut right r idr ∧ m.Stacks [idr, idl] m' := by
  obtain ⟨m₁, idle, dropped, -⟩ := CheckedM.expectIdle_ok rest "WBinaryPre"
  obtain ⟨idl, outl, first⟩ := MemoryM.stacks_unwrap left m₁
  obtain ⟨idr, outr, second⟩ := MemoryM.stacks_unwrap right (MemoryM.unwrap left m₁).2
  rw [dropped.reserved] at first
  rw [first.reserved] at second
  have stacked := dropped.trans first
  refine ⟨_, _, idl, idr, _, ?_, outl.mono dropped.toGrows, outr.mono stacked.toGrows,
    stacked.trans second⟩
  unfold binaryPreBody
  rw [bind_apply_ok idle]
  rfl

/-- Applying a binary operator, after its operands were handed out. -/
theorem binaryBody_ok (levels : Levels) (op : String) {m₀ m : Memory} {left right l r : Value}
    {idl idr : Identity} (outl : m₀.HandsOut left l idl) (outr : m₀.HandsOut right r idr)
    (grows : m₀.Grows m) (reserved : m.shadow.frame.reserved = [idr, idl]) (result : Value) :
    ∃ l' r' v m', binaryBody op l r result levels m = (.ok (l', r', v), m') ∧ m.Stacks [] m' ∧
      (m.shadow.frame.callType.skipsWrapping = false → m₀.ComesBack m' left l' ∧
        m₀.ComesBack m' right r' ∧ m.Fresh result v) := by
  obtain ⟨r', m₂, run₂, s₂, backr⟩ := MemoryM.wrap_back levels outr grows reserved
  obtain ⟨l', m₃, run₃, s₃, backl⟩ := MemoryM.wrap_back levels outl
    (grows.trans s₂.toGrows) s₂.reserved
  obtain ⟨v, m₄, run₄, s₄, fresh⟩ := MemoryM.wrap_result levels s₃.reserved result
  have ruled := ((m₄.policyOf levels v).marks_binary levels op ⟨l', r', v⟩ m₄).spreads
  have wrapped := s₂.trans s₃
  refine ⟨l', r', v, _, ?_, (wrapped.trans s₄).trans (s₄.reserved ▸ ruled.stacked),
    fun wraps => ⟨?_, ?_, ?_⟩⟩
  · unfold binaryBody
    rw [lift_bind_of run₂, lift_bind_of run₃, lift_bind_of run₄,
      bind_apply_ok (CheckedM.checkPending_ok (by rw [s₄.reserved]; rfl)), get_bind_apply]
    rfl
  · exact (backl (by rw [s₂.callType, wraps])).mono (s₄.toGrows.trans ruled.toGrows)
  · exact (backr wraps).mono ((s₃.trans s₄).toGrows.trans ruled.toGrows)
  · exact (fresh (by rw [wrapped.callType, wraps])).mono wrapped.toGrows

theorem unaryPreBody_ok {m : Memory} (rest : m.shadow.AtRest) (operand : Value) :
    ∃ x id m', unaryPreBody operand m = (.ok x, m') ∧ m.HandsOut operand x id ∧
      m.Stacks [id] m' := by
  obtain ⟨m₁, idle, dropped, -⟩ := CheckedM.expectIdle_ok rest "WUnaryPre"
  obtain ⟨id, out, stacked⟩ := MemoryM.stacks_unwrap operand m₁
  rw [dropped.reserved] at stacked
  refine ⟨_, id, _, ?_, out.mono dropped.toGrows, dropped.trans stacked⟩
  unfold unaryPreBody
  rw [bind_apply_ok idle]
  rfl

/-- Applying a unary operator, after its operand was handed out. -/
theorem unaryBody_ok (levels : Levels) {m₀ m : Memory} {operand x : Value} {id : Identity}
    (out : m₀.HandsOut operand x id) (grows : m₀.Grows m)
    (reserved : m.shadow.frame.reserved = [id]) (result : Value) :
    ∃ x' v m', unaryBody x result levels m = (.ok (x', v), m') ∧ m.Stacks [] m' ∧
      (m.shadow.frame.callType.skipsWrapping = false → m₀.ComesBack m' operand x' ∧
        m.Fresh result v) := by
  obtain ⟨x', m₂, run₂, s₂, back⟩ := MemoryM.wrap_back levels out grows reserved
  obtain ⟨v, m₃, run₃, s₃, fresh⟩ := MemoryM.wrap_result levels s₂.reserved result
  have ruled := ((m₃.policyOf levels x').marks_unary levels x' v m₃).spreads
  refine ⟨x', v, _, ?_, (s₂.trans s₃).trans (s₃.reserved ▸ ruled.stacked),
    fun wraps => ⟨?_, ?_⟩⟩
  · unfold unaryBody
    rw [lift_bind_of run₂, lift_bind_of run₃,
      bind_apply_ok (CheckedM.checkPending_ok (by rw [s₃.reserved]; rfl)), get_bind_apply]
    rfl
  · exact (back wraps).mono (s₃.toGrows.trans ruled.toGrows)
  · exact (fresh (by rw [s₂.callType, wraps])).mono s₂.toGrows

end Operators

section Single

theorem literalBody_ok (levels : Levels) {m : Memory} (rest : m.shadow.AtRest) (v : Value) :
    ∃ w m', literalBody v levels m = (.ok w, m') ∧ m.Stacks [] m' := by
  obtain ⟨m₁, idle, dropped, -⟩ := CheckedM.expectIdle_ok rest "WLiteral"
  obtain ⟨w, m₂, run₂, s₂, -⟩ := MemoryM.wrap_result levels dropped.reserved v
  refine ⟨w, m₂, ?_, dropped.trans s₂⟩
  unfold literalBody
  rw [bind_apply_ok idle, lift_bind_of run₂,
    bind_apply_ok (CheckedM.checkPending_ok (by rw [s₂.reserved]; rfl))]
  rfl

theorem conditionalBody_ok {m : Memory} (rest : m.shadow.AtRest) (v : Value) :
    ∃ r id m', conditionalBody v m = (.ok r, m') ∧ m.Stacks [id] m' := by
  obtain ⟨m₁, idle, dropped, -⟩ := CheckedM.expectIdle_ok rest "WConditional"
  obtain ⟨id, -, stacked⟩ := MemoryM.stacks_unwrap v m₁
  rw [dropped.reserved] at stacked
  refine ⟨(MemoryM.unwrap v m₁).1, id, _, ?_, dropped.trans stacked⟩
  unfold conditionalBody
  rw [bind_apply_ok idle, lift_bind_apply,
    bind_apply_ok (CheckedM.checkPending_ok (by rw [stacked.reserved]; rfl))]
  rfl

theorem marks_taintWritten (v : Value) : Within Marks (taintWritten v) :=
  .bind (MemoryM.marks_history v) fun _ => .bind .get fun _ => MemoryM.marks_store v _

/-- What is written after a condition takes the identity of the condition. -/
theorem writeBody_ok (levels : Levels) {m : Memory} (rest : m.shadow.AtRest) (v : Value)
    (inScope : Bool) : ∃ w m', writeBody v inScope levels m = (.ok w, m') ∧ m.Keeps m' ∧
      m'.shadow.frame = m.shadow.frame.withReserved [] ∧ m'.shadow.saved = m.shadow.saved := by
  -- what remains once the value is wrapped, or left alone
  have finish (w : Value) (m₁ : Memory) (s₁ : m.Stacks [] m₁) :
      ∃ m', (do
          CheckedM.checkPending "WWrite" 0
          MemoryM.modifyShadow fun s => { s with context := .unset }
          if inScope then taintWritten w
          return w : CheckedM Value) m₁ = (.ok w, m') ∧ m.Keeps m' ∧
        m'.shadow.frame = m.shadow.frame.withReserved [] ∧ m'.shadow.saved = m.shadow.saved := by
    rw [bind_apply_ok (CheckedM.checkPending_ok (by rw [s₁.reserved]; rfl)), lift_bind_apply]
    have cleared : m.Keeps { m₁ with shadow := { m₁.shadow with context := .unset } } :=
      s₁.toKeeps.withShadow (fun _ _ h => h) (Nat.le_refl _) fun _ after => after
    cases inScope with
    | false => exact ⟨_, rfl, cleared, s₁.frame, s₁.saved⟩
    | true =>
      have marks := marks_taintWritten w
        { m₁ with shadow := { m₁.shadow with context := .unset } }
      exact ⟨_, rfl, cleared.trans marks.spreads.toKeeps, marks.frame.trans s₁.frame,
        marks.saved.trans s₁.saved⟩
  unfold writeBody
  rw [get_bind_apply]
  rcases rest with ⟨unset, empty⟩ | ⟨conditional, one⟩
  · have other : m.shadow.context ≠ .conditional := by
      rw [unset]
      decide
    obtain ⟨m', run, kept⟩ := finish v m (by simpa [empty] using Stacks.refl m)
    refine ⟨v, m', ?_, kept⟩
    rw [if_neg other, bind_apply_ok (CheckedM.checkPending_ok (by rw [empty]; rfl)), if_neg other]
    exact run
  · obtain ⟨w, m₁, wrapped, s₁⟩ : ∃ w m₁, MemoryM.wrap levels v m = (w, m₁) ∧ m.Stacks [] m₁ := by
      have stacked := MemoryM.stacks_wrap levels v m
      have empty : m.shadow.frame.reserved.tail = [] := by
        rw [← List.length_eq_zero_iff, List.length_tail, one]
      rw [empty] at stacked
      exact ⟨_, _, rfl, stacked⟩
    obtain ⟨m', run, kept⟩ := finish w m₁ s₁
    refine ⟨w, m', ?_, kept⟩
    rw [if_pos conditional, bind_apply_ok (CheckedM.checkPending_ok one), if_pos conditional,
      lift_bind_of wrapped]
    exact run

end Single

section Code

/-- The check of code notes the evaluation in its history, and may end in a finding. -/
theorem checkCode_cases (code : Value) (sink : Bool) (maxLength : Nat) (m : Memory) :
    (∃ m', checkCode code sink maxLength m = (.ok (), m') ∧ m.Marks m') ∨
      ∃ f m', checkCode code sink maxLength m = (.error (.finding f), m') ∧ m.Marks m' := by
  have noted := MemoryM.marks_relabel code evalLabel m
  unfold checkCode
  rw [lift_bind_apply, get_bind_apply]
  split
  · exact .inr ⟨_, _, rfl, trans_of Marks noted (MemoryM.marks_history code _)⟩
  · exact .inl ⟨_, rfl, noted⟩

/-- The text of code that is about to be evaluated. -/
def codeSource (code : Value) (internal : Bool) : CheckedM String := do
  CheckedM.expectIdle "WEvalPre"
  let raw ← MemoryM.unwrap code
  if internal then MemoryM.discard
  return (← get).heap.keyText raw

theorem codePreBody_eq (code : Value) (internal sink : Bool) (maxLength : Nat) :
    codePreBody code internal sink maxLength = (do
      let source ← codeSource code internal
      if containsText source Rewrite.instrumentMarker then return source
      if sink then
        checkCode code sink maxLength
        return source
      if (← get).isTainted code && !containsText source Rewrite.rewriteMarker then
        return Rewrite.rewrite source
      return source) := by
  -- the memory is read once on the left and twice on the right, with nothing in between
  have once (raw : Value) : (do
      let m ← get
      let source := m.heap.keyText raw
      if containsText source Rewrite.instrumentMarker then return source
      if sink then
        checkCode code sink maxLength
        return source
      if m.isTainted code && !containsText source Rewrite.rewriteMarker then
        return Rewrite.rewrite source
      return source : CheckedM String) = (do
      let source := (← get).heap.keyText raw
      if containsText source Rewrite.instrumentMarker then return source
      if sink then
        checkCode code sink maxLength
        return source
      if (← get).isTainted code && !containsText source Rewrite.rewriteMarker then
        return Rewrite.rewrite source
      return source) := by
    funext m
    rw [get_bind_apply, get_bind_apply]
    split
    · rfl
    · cases sink <;> rfl
  unfold codePreBody codeSource
  cases internal
  · simp only [Bool.false_eq_true, if_false, once, bind_assoc, pure_bind]
  · simp only [if_true, once, bind_assoc, pure_bind]

/-- Before code is evaluated, the identity of the code is reserved, unless the call is internal. -/
theorem codeSource_stacks {m : Memory} (rest : m.shadow.AtRest) (code : Value) (internal : Bool) :
    ∃ source ids m', codeSource code internal m = (.ok source, m') ∧ m.Stacks ids m' ∧
      ids.length ≤ 1 := by
  obtain ⟨m₁, idle, dropped, -⟩ := CheckedM.expectIdle_ok rest "WEvalPre"
  obtain ⟨id, -, first⟩ := MemoryM.stacks_unwrap code m₁
  rw [dropped.reserved] at first
  unfold codeSource
  rw [bind_apply_ok idle, lift_bind_apply]
  cases internal with
  | false => exact ⟨_, [id], _, rfl, dropped.trans first, Nat.le_refl _⟩
  | true =>
    have second := MemoryM.stacks_discard (MemoryM.unwrap code m₁).2
    rw [first.reserved] at second
    exact ⟨_, [], _, rfl, (dropped.trans first).trans second, Nat.zero_le _⟩

/-- The code runs as it is or rewritten, or evaluating it is a finding. -/
theorem codePreBody_cases {m : Memory} (rest : m.shadow.AtRest) (code : Value)
    (internal sink : Bool) (maxLength : Nat) :
    (∃ source ids m', codePreBody code internal sink maxLength m = (.ok source, m') ∧
      m.Stacks ids m' ∧ ids.length ≤ 1) ∨
    ∃ f m', codePreBody code internal sink maxLength m = (.error (.finding f), m') := by
  obtain ⟨source, ids, m₂, read, stacked, short⟩ := codeSource_stacks rest code internal
  rw [codePreBody_eq, bind_apply_ok read]
  by_cases marked : containsText source Rewrite.instrumentMarker = true
  · rw [if_pos marked]
    exact .inl ⟨_, ids, m₂, rfl, stacked, short⟩
  rw [if_neg marked]
  cases sink with
  | true =>
    rw [if_pos rfl]
    rcases checkCode_cases code true maxLength m₂ with ⟨m', run, marks⟩ | ⟨f, m', run, -⟩
    · rw [bind_apply_ok run]
      have spread := marks.spreads.stacked
      rw [stacked.reserved] at spread
      exact .inl ⟨source, ids, m', rfl, stacked.trans spread, short⟩
    · rw [bind_apply_error run]
      exact .inr ⟨f, m', rfl⟩
  | false =>
    rw [if_neg Bool.false_ne_true, get_bind_apply]
    split
    · exact .inl ⟨_, ids, m₂, rfl, stacked, short⟩
    · exact .inl ⟨_, ids, m₂, rfl, stacked, short⟩

/-- Code that was prepared is wrapped, and checked once more. -/
theorem codePostBody_cases (levels : Levels) {m : Memory}
    (reserved : m.shadow.frame.reserved.length ≤ 1) (code : String) (sink : Bool)
    (maxLength : Nat) :
    (∃ m', codePostBody code sink maxLength levels m = (.ok code, m') ∧ m.Stacks [] m') ∨
    ∃ f m', codePostBody code sink maxLength levels m = (.error (.finding f), m') := by
  have wrapped := MemoryM.stacks_wrap levels (.string code) m
  have empty : m.shadow.frame.reserved.tail = [] := by
    rw [← List.length_eq_zero_iff, List.length_tail]
    omega
  rw [empty] at wrapped
  unfold codePostBody
  rw [lift_bind_apply, bind_apply_ok (CheckedM.checkPending_ok (by rw [wrapped.reserved]; rfl))]
  rcases checkCode_cases (MemoryM.wrap levels (.string code) m).1 sink maxLength
    (MemoryM.wrap levels (.string code) m).2 with ⟨m', run, marks⟩ | ⟨f, m', run, -⟩
  · refine .inl ⟨m', by rw [bind_apply_ok run]; rfl, ?_⟩
    have spread := marks.spreads.stacked
    rw [wrapped.reserved] at spread
    exact wrapped.trans spread
  · exact .inr ⟨f, m', bind_apply_error run⟩

end Code

end Tracker

end ShadowTaint
