import ShadowTaint.Proofs.Pollution
import ShadowTaint.Proofs.Tallies
/-!
# Taint that passes through operators

The rule of an operator asks of each operand whether it counts as tainted, and it may ask for the bit only.
What it asks for depends on the literal that picks the rule, which is the result of a binary operator and
the operand of a unary one: for a string it is the bit, unless the characters of strings are tracked. So a
string of which only some characters are tainted can go in and a clean result come out. Anything else that
is tainted for the rule taints the result.

## Main definitions

- `Levels.operandGrain`: the grain at which a rule of an operator looks at operands.
- `Tracker.binaryHooks`, `Tracker.unaryHooks`: the hooks before and after an operator.

## Main statements

- `Tracker.operators_carry`: the result is as tainted as the operands at that grain.
- `Session.partial_taint_laundered`: a tainted string goes in and a clean one comes out.
-/

namespace ShadowTaint

open Memory Tracker

namespace Levels

/-- The grain at which operators look at taint, by the literal that picks the rule. The bit of a string
counts alone, unless its characters are tracked. -/
def operandGrain (levels : Levels) : Literal → Grain
  | .string _ => if levels.precision .string = .precise then levels.objectGrain else .precise
  | _ => levels.objectGrain

theorem resolve_string (levels : Levels) : levels.resolve .string =
    if levels.precision .string = .precise then .string else .object .precise := by
  unfold resolve
  cases levels.precision .string <;> rfl

theorem resolve_other (levels : Levels) (name : String) :
    levels.resolve (.other name) = .object levels.objectGrain := by
  unfold resolve
  cases levels.precision (.other name) <;> rfl

variable (levels : Levels) (h : Heap) (raw : Literal)

/-- The policy of a literal: that of strings, or that of objects at the grain at which operators look. -/
theorem policyFor_literal_cases :
    (levels.policyFor h (.literal raw) = .string ∧ levels.precision .string = .precise ∧
      ∃ text, raw = .string text) ∨
    levels.policyFor h (.literal raw) = .object (levels.operandGrain raw) := by
  cases raw with
  | string text =>
    by_cases precise : levels.precision .string = .precise
    · exact .inl ⟨levels.resolve_string.trans (if_pos precise), precise, text, rfl⟩
    · right
      rw [operandGrain, if_neg precise]
      exact levels.resolve_string.trans (if_neg precise)
  | _ => exact .inr (levels.resolve_other _)

/-- Either has that grain. -/
theorem objectGrain_policyFor :
    (levels.policyFor h (.literal raw)).objectGrain levels = levels.operandGrain raw := by
  rcases levels.policyFor_literal_cases h raw with ⟨policy, precise, text, rfl⟩ | policy
  · rw [policy, operandGrain, if_pos precise]
    rfl
  · rw [policy]
    rfl

end Levels

namespace Memory

section Host

variable {m m₁ m' : Memory} {v w : Value}

/-- Between two hooks the heap belongs to the host. Whatever it does there might as well have been done
before the first hook, which does not look at it. -/
theorem Stacks.grows_host {ids : List Identity} (stacked : m.Stacks ids m₁) (heap : Heap) :
    Memory.Grows ⟨heap, m.shadow⟩ ⟨heap, m₁.ended.shadow⟩ :=
  ⟨.refl _, stacked.known, stacked.minted, stacked.bounded⟩

theorem HandsOut.host {id : Identity} (out : m.HandsOut v w id) (heap : Heap) :
    Memory.HandsOut ⟨heap, m.shadow⟩ v w id :=
  ⟨out.shadow, out.object⟩

theorem ComesBack.of_host {heap : Heap} (back : Memory.ComesBack ⟨heap, m.shadow⟩ m' v w) :
    m.ComesBack m' v w :=
  ⟨back.shadow, back.object⟩

end Host

variable {m m' : Memory} {v w : Value} {id : Identity} {raw : Literal}

/-- A literal that comes back counts as tainted as before, as long as nothing is recorded. -/
theorem ComesBack.counts (back : m.ComesBack m' v w) (same : m.SameEntries m')
    (known : m.shadow.lookup? v = some (id, raw)) (grain : Grain) :
    grain.isTainted m' w = grain.isTainted m v := by
  have known' := (back.shadow id raw known).1
  cases grain with
  | imprecise =>
    show m'.isTainted w = m.isTainted v
    rw [isTainted_of_lookup known', isTainted_of_lookup known, same]
  | precise =>
    show m'.taintBit w = m.taintBit v
    rw [taintBit, taintBit, stored?_of_lookup known', stored?_of_lookup known, same]

/-- The entry that was stored for a literal says whether it counts as tainted. -/
theorem Writes.isTainted {bit : Bool} {chars : Option CharMap} (writes : m.Writes m' v bit chars)
    (known : m.shadow.lookup? v = some (id, raw)) :
    m'.isTainted v = (bit || chars.any CharMap.any) := by
  obtain ⟨path, stored⟩ := writes.stored
  have tracked : m.shadow.keyOf v = some (.identity id) := by rw [ShadowState.keyOf, known]
  rw [isTainted_of_lookup (by rw [lookup?_of_wraps writes.wraps, known]), stored, if_pos tracked]
  rfl

/-- A tainted bit is part of what counts. -/
theorem taintBit_imp_counts (grain : Grain) (bit : m.taintBit v = true) :
    grain.isTainted m v = true := by
  cases grain with
  | imprecise =>
    show (m.taintBit v || m.anyProps v) = true
    rw [bit, Bool.true_or]
  | precise => exact bit

end Memory

namespace MemoryM

/-- Where literals get shadows, the shadow of a literal that was wrapped is known. -/
theorem lookup_wrap (levels : Levels) (raw : Literal) {m : Memory}
    (wraps : m.shadow.frame.callType.skipsWrapping = false) :
    ∃ id, (wrap levels (.literal raw) m).2.shadow.lookup? (wrap levels (.literal raw) m).1 =
      some (id, raw) := by
  have callType := (stacks_takeIdentity m).callType
  obtain ⟨handle, wrapped, known⟩ := lookup_shadow (takeIdentity m).1 raw (m := (takeIdentity m).2)
    (by rw [callType, wraps])
  rw [wrap_bare, wrapped]
  exact ⟨_, known⟩

end MemoryM

namespace ObjectRule

/-- What is recorded for the result of a binary operator. -/
theorem writes_binary (grain : Grain) (op : String) (ops : Operands) (m : Memory) :
    m.Writes (binary grain op ops m).2 ops.value
      (grain.isTainted m ops.base || grain.isTainted m ops.offset)
      (m.charMap? ops.value (grain.isTainted m ops.base || grain.isTainted m ops.offset)) :=
  MemoryM.writes_record (((Policy.NodesUsed.refl m).more 1).more 1) _ _ _ _ _

end ObjectRule

/-- Only concatenations have a rule of their own. -/
theorem TextRule.binary_of_ne (levels : Levels) {op : String} (other : op ≠ "+") (ops : Operands) :
    TextRule.binary levels op ops = ObjectRule.binary levels.objectGrain op ops := by
  funext m
  unfold TextRule.binary
  rw [bind_apply, get_apply]
  simp [other]

namespace Policy

variable (levels : Levels) {m : Memory} {id : Identity} {raw : Literal}

/-- The rule of a binary operator taints its result as a whole, if one of the operands counts as tainted.
A concatenation whose characters are tracked has a rule of its own. -/
theorem isTainted_binary (op : String) {ops : Operands}
    (known : m.shadow.lookup? ops.value = some (id, raw))
    (plain : op = "+" → levels.precision .string = .precise → ∀ text, raw ≠ .string text) :
    ((m.policyOf levels ops.value).binary levels op ops m).2.isTainted ops.value =
      ((levels.operandGrain raw).isTainted m ops.base ||
        (levels.operandGrain raw).isTainted m ops.offset) := by
  have policy : m.policyOf levels ops.value = levels.policyFor m.heap (.literal raw) := by
    rw [policyOf, valueOf, ShadowState.valueOf_of_lookup known]
  have rule : (m.policyOf levels ops.value).binary levels op ops =
      ObjectRule.binary (levels.operandGrain raw) op ops := by
    rcases levels.policyFor_literal_cases m.heap raw with ⟨string, precise, text, rfl⟩ | object
    · have other : ¬ op = "+" := fun plus => plain plus precise text rfl
      rw [policy, string, Levels.operandGrain, if_pos precise]
      exact TextRule.binary_of_ne levels other ops
    · rw [policy, object]
      rfl
  rw [rule, (ObjectRule.writes_binary _ op ops m).isTainted known]
  exact TaintEntry.isTainted_uniform m ops.value _ default

/-- The rule of a unary operator taints the result, if the operand counts as tainted. -/
theorem isTainted_unary {operand result : Value} {x : Identity} {source : Literal}
    (picks : m.shadow.lookup? operand = some (x, source))
    (known : m.shadow.lookup? result = some (id, raw)) :
    ((m.policyOf levels operand).unary levels operand result m).2.isTainted result =
      (levels.operandGrain source).isTainted m operand := by
  have policy : m.policyOf levels operand = levels.policyFor m.heap (.literal source) := by
    rw [policyOf, valueOf, ShadowState.valueOf_of_lookup picks]
  show (ObjectRule.unary ((m.policyOf levels operand).objectGrain levels) operand result m
    ).2.isTainted result = _
  rw [policy, levels.objectGrain_policyFor, (ObjectRule.writes_unary _ operand result m).isTainted known]
  -- the map has the taint of the bit, which counts at every grain
  cases bit : m.taintBit operand with
  | true => rw [taintBit_imp_counts _ bit, Bool.true_or]
  | false =>
    have clean := TaintEntry.isTainted_uniform m result false default
    rw [TaintEntry.isTainted, Bool.false_or] at clean
    rw [clean, Bool.or_false]

end Policy

namespace Tracker

section Operands

variable (levels : Levels) {m m₁ : Memory} (heap : Heap) (result : Literal)

/-- The operands of a binary operator come back to the hook after it, and the result gets a shadow. -/
theorem binaryOperands_back {left right l r : Value} {idl idr : Identity}
    (outl : m.HandsOut left l idl) (outr : m.HandsOut right r idr) (stacked : m.Stacks [idr, idl] m₁)
    (wraps : m.shadow.frame.callType.skipsWrapping = false) :
    ∃ ops m' id, binaryOperands l r (.literal result) levels ⟨heap, m₁.ended.shadow⟩ = (.ok ops, m') ∧
      m.ComesBack m' left ops.base ∧ m.ComesBack m' right ops.offset ∧
      m'.shadow.lookup? ops.value = some (id, result) := by
  have grows := stacked.grows_host heap
  have wraps₁ : m₁.ended.shadow.frame.callType.skipsWrapping = false := stacked.callType ▸ wraps
  obtain ⟨r', m₂, run₂, s₂, backr⟩ := MemoryM.wrap_back levels (outr.host heap) grows stacked.reserved
  obtain ⟨l', m₃, run₃, s₃, backl⟩ := MemoryM.wrap_back levels (outl.host heap)
    (grows.trans s₂.toGrows) s₂.reserved
  have wraps₂ : m₂.shadow.frame.callType.skipsWrapping = false := by rw [s₂.callType, wraps₁]
  obtain ⟨id, known⟩ := MemoryM.lookup_wrap levels result (m := m₃) (by rw [s₃.callType, wraps₂])
  obtain ⟨v, m₄, run₄, s₄, -⟩ := MemoryM.wrap_result levels s₃.reserved (.literal result)
  rw [run₄] at known
  refine ⟨⟨l', r', v⟩, m₄, id, ?_, ((backl wraps₂).mono s₄.toGrows).of_host,
    ((backr wraps₁).mono (s₃.trans s₄).toGrows).of_host, known⟩
  unfold binaryOperands
  rw [lift_bind_of run₂, lift_bind_of run₃, lift_bind_of run₄,
    bind_apply_ok (CheckedM.checkPending_ok (by rw [s₄.reserved]; rfl))]
  rfl

/-- So does the operand of a unary operator. -/
theorem unaryOperands_back {operand x : Value} {idx : Identity} (out : m.HandsOut operand x idx)
    (stacked : m.Stacks [idx] m₁) (wraps : m.shadow.frame.callType.skipsWrapping = false) :
    ∃ y v m' id, unaryOperands x (.literal result) levels ⟨heap, m₁.ended.shadow⟩ =
        (.ok (y, v), m') ∧
      m.ComesBack m' operand y ∧ m'.shadow.lookup? v = some (id, result) := by
  have wraps₁ : m₁.ended.shadow.frame.callType.skipsWrapping = false := stacked.callType ▸ wraps
  obtain ⟨y, m₂, run₂, s₂, back⟩ := MemoryM.wrap_back levels (out.host heap)
    (stacked.grows_host heap) stacked.reserved
  obtain ⟨id, known⟩ := MemoryM.lookup_wrap levels result (m := m₂) (by rw [s₂.callType, wraps₁])
  obtain ⟨v, m₃, run₃, s₃, -⟩ := MemoryM.wrap_result levels s₂.reserved (.literal result)
  rw [run₃] at known
  refine ⟨y, v, m₃, id, ?_, ((back wraps₁).mono s₃.toGrows).of_host, known⟩
  unfold unaryOperands
  rw [lift_bind_of run₂, lift_bind_of run₃,
    bind_apply_ok (CheckedM.checkPending_ok (by rw [s₃.reserved]; rfl))]
  rfl

end Operands

/-- Two hooks with the host in between, which leaves the heap. -/
def aroundHost {α β : Type} (before : HookM α) (heap : Heap) (after : α → HookM β) : HookM β := do
  let a ← before
  modify fun t => { t with memory := ⟨heap, t.memory.shadow⟩ }
  after a

/-- The hooks of a binary operator, when the host computes the result. -/
def binaryHooks (op : String) (left right : Value) (heap : Heap) (result : Literal) :
    HookM (Value × Value × Value) :=
  aroundHost (binaryPre op left right) heap fun (l, r) => binary op l r (.literal result)

/-- The hooks of a unary operator. -/
def unaryHooks (op : String) (operand : Value) (heap : Heap) (result : Literal) :
    HookM (Value × Value) :=
  aroundHost (unaryPre op operand) heap fun x => unary op x (.literal result)

/-- Two hooks on the memory do there what their bodies do, and the heap is left by the host. -/
theorem aroundHost_of {α β : Type} {t : Tracker} (name : String)
    (operands : Tracker → List (String × String)) (body : Levels → CheckedM α) {a : α} {m₁ : Memory}
    (before : body t.settings.policies t.memory = (.ok a, m₁)) (heap : Heap) (name' : String)
    (operands' : Tracker → List (String × String)) (body' : Levels → CheckedM β)
    {r : Except Fault β} {m₂ : Memory}
    (after : body' t.settings.policies ⟨heap, m₁.ended.shadow⟩ = (r, m₂)) (hook : α → HookM β)
    (follows : hook a = HookM.memoryHook name' operands' body') :
    ∃ t', aroundHost (HookM.memoryHook name operands body) heap hook t = (r, t') ∧
      t'.memory = m₂.ended := by
  obtain ⟨t₁, hooked₁, memory₁, settings₁, -⟩ := HookM.memoryHook_of name operands body before
  have shadow₁ : t₁.memory.shadow = m₁.ended.shadow := by rw [memory₁]
  obtain ⟨t₂, hooked₂, memory₂, -⟩ := HookM.memoryHook_of
    (t := { t₁ with memory := ⟨heap, t₁.memory.shadow⟩ }) name' operands' body'
    (by rw [settings₁, shadow₁]; exact after)
  refine ⟨t₂, ?_, memory₂⟩
  unfold aroundHost
  rw [bind_apply_ok hooked₁, follows]
  exact hooked₂

section Hooks

variable {t : Tracker} (rest : t.memory.shadow.AtRest)
  (wraps : t.memory.shadow.frame.callType.skipsWrapping = false) (op : String) (heap : Heap)
include rest wraps

/-- Around a binary operator its operands come back and its result gets a shadow, and all that is recorded is
what the rule of the result then records. -/
theorem binaryHooks_ruled (left right : Value) (result : Literal) :
    ∃ ops m id t', binaryHooks op left right heap result t =
        (.ok (ops.base, ops.offset, ops.value), t') ∧
      t'.memory = ((m.policyOf t.settings.policies ops.value).binary
        t.settings.policies op ops m).2.ended ∧
      t.memory.SameEntries m ∧ t.memory.ComesBack m left ops.base ∧
      t.memory.ComesBack m right ops.offset ∧ m.shadow.lookup? ops.value = some (id, result) := by
  obtain ⟨x, y, idx, idy, m₁, pre, outl, outr, stacked⟩ := binaryPreBody_ok rest left right
  obtain ⟨ops, m₂, id, run, backl, backr, known⟩ := binaryOperands_back t.settings.policies heap result
    outl outr stacked wraps
  -- neither hook has recorded anything before the rule runs
  have same : t.memory.SameEntries m₂ :=
    ((calm_binaryOperands _ x y (.literal result)).within.of_apply run).entries.trans
      ((calm_binaryPreBody left right).within.of_apply pre).entries
  have post : binaryBody op x y (.literal result) t.settings.policies ⟨heap, m₁.ended.shadow⟩ =
      (.ok (ops.base, ops.offset, ops.value), ((m₂.policyOf t.settings.policies ops.value).binary
        t.settings.policies op ops m₂).2) := by
    rw [binaryBody_eq, bind_apply_ok run, get_bind_apply, lift_bind_apply]
    rfl
  obtain ⟨t', hooked, memory⟩ := aroundHost_of "binary_pre"
    (fun t => [("op", op), ("left", t.render left), ("right", t.render right)])
    (fun _ => binaryPreBody left right) pre heap "binary"
    (fun t => [("op", op), ("left", t.render x), ("right", t.render y),
      ("result", t.render (.literal result))])
    (binaryBody op x y (.literal result)) post (fun (l, r) => binary op l r (.literal result)) rfl
  exact ⟨ops, m₂, id, t', hooked, memory, same, backl, backr, known⟩

/-- The result of a binary operator is tainted exactly if an operand counts as tainted at the grain that
goes with the result. -/
theorem binary_carries {left right : Value} {idl idr : Identity} {l r result : Literal}
    (knownl : t.memory.shadow.lookup? left = some (idl, l))
    (knownr : t.memory.shadow.lookup? right = some (idr, r))
    (plain : op = "+" → t.settings.policies.precision .string = .precise →
      ∀ text, result ≠ .string text) :
    ∃ l' r' v id t', binaryHooks op left right heap result t = (.ok (l', r', v), t') ∧
      t'.memory.shadow.lookup? v = some (id, result) ∧
      t'.memory.isTainted v = ((t.settings.policies.operandGrain result).isTainted t.memory left ||
        (t.settings.policies.operandGrain result).isTainted t.memory right) := by
  obtain ⟨ops, m, id, t', hooked, memory, same, backl, backr, known⟩ :=
    binaryHooks_ruled rest wraps op heap left right result
  have ruled := Policy.isTainted_binary t.settings.policies op known plain
  rw [backl.counts same knownl, backr.counts same knownr] at ruled
  have marks := (m.policyOf t.settings.policies ops.value).marks_binary t.settings.policies op ops m
  refine ⟨ops.base, ops.offset, ops.value, id, t', hooked, ?_, ?_⟩
  · rw [memory]
    exact (lookup?_of_wraps marks.wraps _).trans known
  · rw [memory]
    exact ruled

/-- The result of a unary operator is tainted exactly if the operand counts as tainted at the grain that goes
with the operand. -/
theorem unary_carries {operand : Value} {idx : Identity} {source : Literal}
    (picks : t.memory.shadow.lookup? operand = some (idx, source)) (result : Literal) :
    ∃ y v id t', unaryHooks op operand heap result t = (.ok (y, v), t') ∧
      t'.memory.shadow.lookup? v = some (id, result) ∧
      t'.memory.isTainted v =
        (t.settings.policies.operandGrain source).isTainted t.memory operand := by
  obtain ⟨x, idy, m₁, pre, out, stacked⟩ := unaryPreBody_ok rest operand
  obtain ⟨y, v, m₂, id, run, back, known⟩ := unaryOperands_back t.settings.policies heap result out
    stacked wraps
  -- nothing is recorded before the rule runs here either
  have same : t.memory.SameEntries m₂ :=
    ((calm_unaryOperands _ x (.literal result)).within.of_apply run).entries.trans
      ((calm_unaryPreBody operand).within.of_apply pre).entries
  have ruled := Policy.isTainted_unary t.settings.policies (back.shadow idx source picks).1 known
  rw [back.counts same picks] at ruled
  have marks := (m₂.policyOf t.settings.policies y).marks_unary t.settings.policies y v m₂
  obtain ⟨m₃, applied⟩ : ∃ m₃, (m₂.policyOf t.settings.policies y).unary t.settings.policies y v m₂ =
    ((), m₃) := ⟨_, rfl⟩
  rw [applied] at ruled marks
  have post : unaryBody x (.literal result) t.settings.policies ⟨heap, m₁.ended.shadow⟩ =
      (.ok (y, v), m₃) := by
    rw [unaryBody_eq, bind_apply_ok run]
    dsimp only
    rw [get_bind_apply, lift_bind_of applied]
    rfl
  obtain ⟨t', hooked, memory⟩ := aroundHost_of "unary_pre"
    (fun t => [("op", op), ("operand", t.render operand)]) (fun _ => unaryPreBody operand) pre heap
    "unary" (fun t => [("op", op), ("operand", t.render x), ("result", t.render (.literal result))])
    (unaryBody x (.literal result)) post (fun x => unary op x (.literal result)) rfl
  refine ⟨y, v, id, t', hooked, ?_, ?_⟩
  · rw [memory]
    exact (lookup?_of_wraps marks.wraps _).trans known
  · rw [memory]
    exact ruled

end Hooks

/-- Where literals get shadows, the result of an operator is tainted exactly if one of its operands counts as
tainted, by anything in it or by its bit, at the grain that goes with the literal that picks the rule: the
result of a binary operator, and the operand of a unary one. Concatenations whose characters are tracked are
left out. -/
theorem operators_carry {t : Tracker} (rest : t.memory.shadow.AtRest)
    (code : t.memory.shadow.frame.callType = .internal ∨
      t.memory.shadow.frame.callType = .external) (op : String) (heap : Heap) (result : Literal) :
    (∀ left right idl idr l r, t.memory.shadow.lookup? left = some (idl, l) →
      t.memory.shadow.lookup? right = some (idr, r) →
      (op = "+" → t.settings.policies.precision .string = .precise → ∀ text, result ≠ .string text) →
      ∃ l' r' v id t', binaryHooks op left right heap result t = (.ok (l', r', v), t') ∧
        t'.memory.shadow.lookup? v = some (id, result) ∧
        t'.memory.isTainted v = ((t.settings.policies.operandGrain result).isTainted t.memory left ||
          (t.settings.policies.operandGrain result).isTainted t.memory right)) ∧
    ∀ operand idx source, t.memory.shadow.lookup? operand = some (idx, source) →
      ∃ x v id t', unaryHooks op operand heap result t = (.ok (x, v), t') ∧
        t'.memory.shadow.lookup? v = some (id, result) ∧
        t'.memory.isTainted v =
          (t.settings.policies.operandGrain source).isTainted t.memory operand := by
  have wraps := CallType.skipsWrapping_eq_false_iff.mpr code
  constructor
  · intro left right idl idr l r knownl knownr plain
    exact binary_carries rest wraps op heap knownl knownr plain
  · intro operand idx source picks
    exact unary_carries rest wraps op heap picks result

end Tracker

namespace Session

/-- The tracker when the string is tainted as a whole. -/
def withWhole : Tracker := (run (start {} ⟨#[]⟩) taintedWhole).tracker

/-- The tracker when its first character is. -/
def withCharacter : Tracker := (run (start {} ⟨#[]⟩) taintedCharacter).tracker

end Session

namespace Tracker

open Session

/-- Twice a tainted string is tainted, and so is the negation of it. -/
theorem operators_carry_whole : Reachable withWhole ∧ withWhole.memory.shadow.AtRest ∧
    withWhole.memory.shadow.lookup? evil = some (⟨0⟩, .string "evil") ∧
    (∃ l' r' v id t', binaryHooks "+" evil evil rootsAndSources (.string "evilevil") withWhole =
        (.ok (l', r', v), t') ∧
      t'.memory.shadow.lookup? v = some (id, .string "evilevil") ∧ t'.memory.isTainted v = true) ∧
    ∃ x v id t', unaryHooks "!" evil rootsAndSources (.bool false) withWhole = (.ok (x, v), t') ∧
      t'.memory.shadow.lookup? v = some (id, .bool false) ∧ t'.memory.isTainted v = true := by
  have rest : withWhole.memory.shadow.AtRest := .inl (by decide +kernel)
  have code : withWhole.memory.shadow.frame.callType = .internal := by decide +kernel
  have known : withWhole.memory.shadow.lookup? evil = some (⟨0⟩, .string "evil") := rfl
  have coarse : ¬ withWhole.settings.policies.precision .string = .precise := by decide +kernel
  have counts (text : String) :
      (withWhole.settings.policies.operandGrain (.string text)).isTainted withWhole.memory evil =
        true := by
    rw [Levels.operandGrain, if_neg coarse]
    decide +kernel
  obtain ⟨both, -⟩ := operators_carry rest (.inl code) "+" rootsAndSources (.string "evilevil")
  obtain ⟨-, negated⟩ := operators_carry rest (.inl code) "!" rootsAndSources (.bool false)
  have doubled := both evil evil _ _ _ _ known known fun _ precise => absurd precise coarse
  have negation := negated evil _ _ known
  simp only [counts, Bool.or_self] at doubled negation
  exact ⟨reachable_run (.start _ ⟨#[]⟩) taintedWhole, rest, known, doubled, negation⟩

end Tracker

namespace Session

/-- Twice a string with a tainted character is clean, and so is the negation of it. -/
theorem partial_taint_laundered : Reachable withCharacter ∧ withCharacter.memory.shadow.AtRest ∧
    withCharacter.memory.shadow.frame.callType = .internal ∧
    withCharacter.memory.shadow.isWrapped evil = true ∧
    withCharacter.memory.isTainted evil = true ∧
    (∃ l r v t, binaryHooks "+" evil evil rootsAndSources (.string "evilevil") withCharacter =
      (.ok (l, r, v), t) ∧ t.memory.shadow.isWrapped v = true ∧ t.memory.isTainted v = false) ∧
    ∃ x v t, unaryHooks "!" evil rootsAndSources (.bool false) withCharacter = (.ok (x, v), t) ∧
      t.memory.shadow.isWrapped v = true ∧ t.memory.isTainted v = false := by
  refine ⟨reachable_run (.start _ ⟨#[]⟩) taintedCharacter, .inl (by decide +kernel),
    by decide +kernel, by decide +kernel, by decide +kernel, ?_, ?_⟩
  · exact ⟨_, _, _, _, rfl, by decide +kernel, by decide +kernel⟩
  · exact ⟨_, _, _, rfl, by decide +kernel, by decide +kernel⟩

end Session

end ShadowTaint
