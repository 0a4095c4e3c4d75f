import ShadowTaint.Proofs.Calls
import ShadowTaint.Proofs.Stores
/-!
# Any hook in any state

A host may call the hooks in any order and with any operands. This file says what is true even then:
a hook grows the memory, and all but one of them keep the shadows on the heap sound.

## Main definitions

- `Hook`: the hooks with their operands.
- `Memory.AdmitsStacks`: what the hooks of operations other than stores and calls do.
- `Reachable`: the states that any hooks can lead to.

## Main statements

- `Hook.within_of_stacks`: a relation that admits these steps holds between the ends of such a hook.
- `Hook.follows`: whatever the state is, a hook grows the memory.
- `Reachable.bounded`: every identity that occurs in a reachable state was handed out.
-/

namespace ShadowTaint

open Memory Tracker

/-- The hooks, with their operands. -/
inductive Hook where
  | literal (v : Value)
  | write (target v : Value)
  | conditional (v : Value)
  | endExpression
  | getFieldPre (base offset : Value)
  | getField (base offset v : Value)
  | putFieldPre (base offset v : Value)
  | putField (base offset v : Value)
  | binaryPre (op : String) (left right : Value)
  | binary (op : String) (left right result : Value)
  | unaryPre (op : String) (operand : Value)
  | unary (op : String) (operand result : Value)
  | callPre (c : Call)
  | callPost (c : Call) (result : Value)
  | enterFunction (f : Value)
  | exitFunction (threw : Bool)
  | codePre (code : Value) (internal : Bool)
  | codePost (code : String)

/-- The operands of a call. -/
def Call.operands (c : Call) : List Value := c.f :: c.base :: c.args

namespace Hook

/-- The values that the host passes to a hook. -/
def operands : Hook → List Value
  | literal v | conditional v | codePre v _ | enterFunction v => [v]
  | write target v => [target, v]
  | getFieldPre base offset => [base, offset]
  | getField base offset v | putFieldPre base offset v | putField base offset v =>
    [base, offset, v]
  | binaryPre _ left right => [left, right]
  | binary _ left right result => [left, right, result]
  | unaryPre _ operand => [operand]
  | unary _ operand result => [operand, result]
  | callPre c => c.operands
  | callPost c result => result :: c.operands
  | endExpression | exitFunction _ | codePost _ => []

/-- Runs a hook. Returns the values that the host gets from it. -/
def run : Hook → HookM (List Value)
  | literal v => do return [← Tracker.literal v]
  | write target v => do return [← Tracker.write target v]
  | conditional v => do return [← Tracker.conditional v]
  | endExpression => do
    Tracker.endExpression
    return []
  | getFieldPre base offset => do
    let (base, offset) ← Tracker.getFieldPre base offset
    return [base, offset]
  | getField base offset v => do
    let ops ← Tracker.getField base offset v
    return [ops.base, ops.offset, ops.value]
  | putFieldPre base offset v => do
    let ops ← Tracker.putFieldPre base offset v
    return [ops.base, ops.offset, ops.value]
  | putField base offset v => do
    let ops ← Tracker.putField base offset v
    return [ops.base, ops.offset, ops.value]
  | binaryPre op left right => do
    let (left, right) ← Tracker.binaryPre op left right
    return [left, right]
  | binary op left right result => do
    let (left, right, result) ← Tracker.binary op left right result
    return [left, right, result]
  | unaryPre op operand => do return [← Tracker.unaryPre op operand]
  | unary op operand result => do
    let (operand, result) ← Tracker.unary op operand result
    return [operand, result]
  | callPre c => do return (← Tracker.callPre c).operands
  | callPost c result => do
    let (c, result) ← Tracker.callPost c result
    return result :: c.operands
  | enterFunction f => do
    Tracker.enterFunction f
    return []
  | exitFunction threw => do
    Tracker.exitFunction threw
    return []
  | codePre code internal => do
    let _ ← Tracker.codePre code internal
    return []
  | codePost code => do
    let _ ← Tracker.codePost code
    return []

end Hook

/-- The relation admits what the hooks of operations other than stores and calls do: identities are reserved
and used up, which taint that is recorded leaves as they are, and something is left for the next hook. -/
structure Memory.AdmitsStacks (R : Memory → Memory → Prop) : Prop where
  stacked : ∀ ids m m', m.Stacks ids m' → R m m'
  context : ∀ (m : Memory) (context : HookContext), R m { m with shadow := { m.shadow with context } }

theorem Memory.admitsStacks_keeps : AdmitsStacks Keeps where
  stacked _ _ _ := Stacks.toKeeps
  context m _ := (refl_of Keeps m).withShadow (fun _ _ h => h) (Nat.le_refl _) fun _ bounded => bounded

namespace Memory.AdmitsStacks

open CheckedM

variable {α : Type} {R : Memory → Memory → Prop} (admits : AdmitsStacks R) (levels : Levels)
include admits

theorem marks {x : MemoryM α} (h : Within Marks x) : Within R x :=
  fun m => admits.stacked _ _ _ (h m).spreads.stacked

theorem wrap (v : Value) : Within R (MemoryM.wrap levels v) :=
  fun m => admits.stacked _ _ _ (MemoryM.stacks_wrap levels v m)

theorem unwrap (v : Value) : Within R (MemoryM.unwrap v) := by
  intro m
  obtain ⟨id, -, stacked⟩ := MemoryM.stacks_unwrap v m
  exact admits.stacked _ _ _ stacked

theorem prepareStored (policy : Policy) (v : Value) : Within R (MemoryM.prepareStored policy v) := by
  intro m
  obtain ⟨r, ids, m', run, stacked, -⟩ := MemoryM.prepareStored_out policy v m
  rw [run]
  exact admits.stacked _ _ _ stacked

theorem checkCode (code : Value) (sink : Bool) (maxLength : Nat) :
    Within R (Tracker.checkCode code sink maxLength) := by
  intro m
  rcases checkCode_cases code sink maxLength m with ⟨m', run, marks⟩ | ⟨f, m', run, marks⟩
  · rw [run]
    exact admits.stacked _ _ _ marks.spreads.stacked
  · rw [run]
    exact admits.stacked _ _ _ marks.spreads.stacked

variable [IsPreorder Memory R]

theorem expectIdle (site : String) : Within R (CheckedM.expectIdle site) :=
  within_expectIdle (fun m => admits.stacked _ _ _ (MemoryM.stacks_discard m)) site

theorem literalBody (v : Value) : Within R (Tracker.literalBody v levels) :=
  .bind_except (admits.expectIdle _) fun _ => .bind_except (.lift (admits.wrap levels v)) fun _ =>
    .bind_except (within_checkPending _ _) fun _ => .pure_except _

theorem writeBody (v : Value) (inScope : Bool) : Within R (Tracker.writeBody v inScope levels) := by
  have rest (w : Value) : Within R (do
      CheckedM.checkPending "WWrite" 0
      MemoryM.modifyShadow fun s => { s with context := .unset }
      if inScope then taintWritten w
      return w : CheckedM Value) := by
    refine .bind_except (within_checkPending _ _) fun _ =>
      .bind_except (.lift fun m => admits.context m .unset) fun _ => ?_
    split
    · exact .bind_except (.lift (admits.marks (marks_taintWritten w))) fun _ => .pure_except _
    · exact .pure_except _
  refine .bind_except .get_except fun m => .bind_except (within_checkPending _ _) fun _ => ?_
  by_cases conditional : m.shadow.context = .conditional
  · simp only [if_pos conditional]
    exact .bind_except (.lift (admits.wrap levels v)) rest
  · simp only [if_neg conditional]
    exact .bind_except (.pure_except _) rest

theorem conditionalBody (v : Value) : Within R (Tracker.conditionalBody v) :=
  .bind_except (admits.expectIdle _) fun _ => .bind_except (.lift (admits.unwrap v)) fun _ =>
    .bind_except (within_checkPending _ _) fun _ => .pure_except _

theorem getFieldPreBody (base offset : Value) : Within R (Tracker.getFieldPreBody base offset) :=
  .bind_except (admits.expectIdle _) fun _ => .bind_except (.lift (admits.unwrap base)) fun _ =>
    .bind_except (.lift (admits.unwrap offset)) fun _ => .pure_except _

theorem getFieldBody (base offset v : Value) : Within R (Tracker.getFieldBody base offset v levels) := by
  refine .bind_except (.lift fun m => admits.stacked _ _ _ (spreads_nameFunction v offset m).stacked)
    fun _ => .bind_except (.lift (admits.wrap levels _)) fun _ =>
    .bind_except (.lift (admits.wrap levels _)) fun _ =>
    .bind_except (.lift (admits.wrap levels _)) fun _ =>
    .bind_except (within_checkPending _ _) fun _ => .bind_except .get_except fun m => ?_
  exact .bind_except (.lift (admits.marks (Policy.marks_getField _ _ _))) fun _ => .pure_except _

theorem putFieldPreBody (base offset v : Value) :
    Within R (Tracker.putFieldPreBody base offset v levels) :=
  .bind_except (admits.expectIdle _) fun _ => .bind_except (.lift (admits.unwrap _)) fun _ =>
    .bind_except (.lift (admits.unwrap _)) fun _ => .bind_except .get_except fun _ =>
      .bind_except (.lift (admits.prepareStored _ _)) fun _ => .pure_except _

theorem binaryPreBody (left right : Value) : Within R (Tracker.binaryPreBody left right) :=
  .bind_except (admits.expectIdle _) fun _ => .bind_except (.lift (admits.unwrap left)) fun _ =>
    .bind_except (.lift (admits.unwrap right)) fun _ => .pure_except _

theorem binaryBody (op : String) (left right result : Value) :
    Within R (Tracker.binaryBody op left right result levels) := by
  refine .bind_except (.lift (admits.wrap levels _)) fun _ =>
    .bind_except (.lift (admits.wrap levels _)) fun _ =>
    .bind_except (.lift (admits.wrap levels _)) fun _ =>
    .bind_except (within_checkPending _ _) fun _ => .bind_except .get_except fun m => ?_
  exact .bind_except (.lift (admits.marks (Policy.marks_binary _ _ _ _))) fun _ => .pure_except _

theorem unaryPreBody (operand : Value) : Within R (Tracker.unaryPreBody operand) :=
  .bind_except (admits.expectIdle _) fun _ => .lift (admits.unwrap operand)

theorem unaryBody (operand result : Value) : Within R (Tracker.unaryBody operand result levels) := by
  refine .bind_except (.lift (admits.wrap levels _)) fun _ =>
    .bind_except (.lift (admits.wrap levels _)) fun _ =>
    .bind_except (within_checkPending _ _) fun _ => .bind_except .get_except fun m => ?_
  exact .bind_except (.lift (admits.marks (Policy.marks_unary _ _ _ _))) fun _ => .pure_except _

theorem codeSource (code : Value) (internal : Bool) : Within R (Tracker.codeSource code internal) := by
  refine .bind_except (admits.expectIdle _) fun _ => .bind_except (.lift (admits.unwrap code))
    fun raw => ?_
  cases internal with
  | true =>
    exact .bind_except (.lift fun m => admits.stacked _ _ _ (MemoryM.stacks_discard m)) fun _ =>
      .bind_except .get_except fun _ => .pure_except _
  | false => exact .bind_except .get_except fun _ => .pure_except _

theorem codePreBody (code : Value) (internal sink : Bool) (maxLength : Nat) :
    Within R (Tracker.codePreBody code internal sink maxLength) := by
  rw [codePreBody_eq]
  refine .bind_except (admits.codeSource code internal) fun source => ?_
  split
  · exact .pure_except _
  · split
    · exact .bind_except (admits.checkCode _ _ _) fun _ => .pure_except _
    · refine .bind_except .get_except fun m => ?_
      split
      · exact .pure_except _
      · exact .pure_except _

theorem codePostBody (code : String) (sink : Bool) (maxLength : Nat) :
    Within R (Tracker.codePostBody code sink maxLength levels) :=
  .bind_except (.lift (admits.wrap levels _)) fun _ => .bind_except (within_checkPending _ _) fun _ =>
    .bind_except (admits.checkCode _ _ _) fun _ => .pure_except _

end Memory.AdmitsStacks

/-- A step that only records taint keeps the memory. -/
theorem Tracker.keeps_of_marks {α : Type} {x : MemoryM α} (h : Within Marks x) :
    Within Keeps (liftM x : CheckedM α) := .lift h.spreads.keeps

namespace Hook

/-- The hook after a store. -/
def IsStore : Hook → Prop
  | putField .. => True
  | _ => False

/-- The hook is one of an operation other than a call, and not the one after a store. -/
def Stacks : Hook → Prop
  | putField .. | callPre _ | callPost .. | enterFunction _ | exitFunction _ => False
  | _ => True

/-- Such a hook stays within every relation that admits what its body does. -/
theorem within_of_stacks {R : Memory → Memory → Prop} [IsPreorder Memory R] (admits : AdmitsStacks R)
    (h : Hook) (operation : h.Stacks) : Within (Follows R) h.run := by
  have ends (m : Memory) : R m m.ended := admits.context m .unset
  have step {α β : Type} {x : HookM α} {y : α → β} (hx : Within (Follows R) x) :
      Within (Follows R) (x >>= fun a => pure (y a) : HookM β) :=
    .bind_except hx fun _ => .pure_except _
  cases h with
  | literal v => exact step (HookM.follows_memoryHook ends _ _ fun _ => admits.literalBody _ v)
  | write target v =>
    exact step (HookM.follows_hook ends _ _ (.bind_except .get_except fun t =>
      HookM.follows_onMemory (admits.writeBody _ _ _)))
  | conditional v =>
    refine step (.bind_except (HookM.follows_memoryHook ends _ _ fun _ => admits.conditionalBody v)
      fun raw => .bind_except ?_ fun _ => .pure_except _)
    exact fun t => ⟨rfl, rfl, admits.context t.memory .conditional⟩
  | endExpression =>
    exact step (HookM.follows_memoryHook ends _ _ fun _ => admits.expectIdle _)
  | getFieldPre base offset =>
    exact step (HookM.follows_memoryHook ends _ _ fun _ => admits.getFieldPreBody _ _)
  | getField base offset v =>
    exact step (HookM.follows_memoryHook ends _ _ fun _ => admits.getFieldBody _ _ _ _)
  | putFieldPre base offset v =>
    exact step (HookM.follows_memoryHook ends _ _ fun _ => admits.putFieldPreBody _ _ _ _)
  | binaryPre op left right =>
    exact step (HookM.follows_memoryHook ends _ _ fun _ => admits.binaryPreBody _ _)
  | binary op left right result =>
    exact step (HookM.follows_memoryHook ends _ _ fun _ => admits.binaryBody _ _ _ _ _)
  | unaryPre op operand =>
    exact step (HookM.follows_memoryHook ends _ _ fun _ => admits.unaryPreBody _)
  | unary op operand result =>
    exact step (HookM.follows_memoryHook ends _ _ fun _ => admits.unaryBody _ _ _)
  | codePre code internal =>
    exact step (HookM.follows_hook ends _ _ (.bind_except .get_except fun t =>
      HookM.follows_onMemory (admits.codePreBody _ _ _ _)))
  | codePost code =>
    exact step (HookM.follows_hook ends _ _ (.bind_except .get_except fun t =>
      HookM.follows_onMemory (admits.codePostBody _ _ _ _)))
  | putField | callPre | callPost | enterFunction | exitFunction => exact operation.elim

/-- All hooks but the one after a store keep the memory. -/
theorem keeps (h : Hook) (other : ¬ h.IsStore) : Within (Follows Keeps) h.run := by
  have step {α β : Type} {x : HookM α} {y : α → β} (hx : Within (Follows Keeps) x) :
      Within (Follows Keeps) (x >>= fun a => pure (y a) : HookM β) :=
    .bind_except hx fun _ => .pure_except _
  cases h with
  | putField base offset v => exact absurd trivial other
  | callPre c =>
    exact step (.bind_except .get_except fun t =>
      HookM.follows_hook keeps_ended _ _ (follows_callPreBody _ _))
  | callPost c result =>
    exact step (.bind_except .get_except fun t =>
      HookM.follows_hook keeps_ended _ _ (follows_callPostBody _ _ _))
  | enterFunction f =>
    exact step (HookM.follows_memoryHook keeps_ended _ _ fun _ => keeps_enterFunctionBody f)
  | exitFunction threw =>
    exact step (HookM.follows_memoryHook keeps_ended _ _ fun _ => keeps_exitFunctionBody threw)
  | _ => exact within_of_stacks admitsStacks_keeps _ trivial

/-- Whatever the state is, a hook grows the memory. -/
theorem follows (h : Hook) : Within (Follows Grows) h.run := by
  by_cases store : h.IsStore
  · cases h with
    | putField base offset v =>
      exact .bind_except (HookM.follows_memoryHook (fun m => m.keeps_ended.toGrows) _ _
        fun _ => grows_putFieldBody _ _ _ _) fun _ => .pure_except _
    | _ => exact store.elim
  · exact (h.keeps store).mono fun _ _ h => h.mono fun _ _ h => h.toGrows

end Hook

/-- The states that a tracker can be in: hooks are called in any order and with any operands, whether
they succeed or fail, and in between the host does what it likes on the heap. -/
inductive Reachable : Tracker → Prop where
  | start (settings : Settings) (heap : Heap) : Reachable (.start settings heap)
  | hook {t : Tracker} (h : Hook) (reachable : Reachable t) : Reachable (h.run t).2
  | host {t : Tracker} (heap : Heap) (reachable : Reachable t) :
      Reachable { t with memory := { t.memory with heap } }

/-- Every identity that occurs in a reachable state was handed out. -/
theorem Reachable.bounded {t : Tracker} (h : Reachable t) : t.memory.shadow.Bounded := by
  induction h with
  | start settings heap =>
    intro id mention
    rcases mention with entry | ⟨raw, handle⟩ | (reserved | ⟨_, _, mention, _⟩) | ⟨_, _, hf, _⟩
    · cases entry
    · exact absurd handle (Array.not_mem_empty _)
    · exact nomatch reserved
    · cases mention
    · exact nomatch hf
  | hook h _ ih => exact (h.follows _).memory.bounded ih
  | host heap _ ih => exact ih

end ShadowTaint
