import ShadowTaint.Proofs.Methods
import ShadowTaint.Proofs.Rewrapping
/-!
# What hooks hand over

The hook before an operation reserves the identities of the operands, and the hook after it puts them back.
Between the two hooks of a call they wait in the frame of the caller, together with the trees that were
found for the arguments. The hook after the call can go by them if the callee leaves alone what it was
called on.

## Main definitions

- `Memory.Entrusts`: the frame that is saved for a call fits its operands.
- `Call.Intact`: what an external call leaves alone.
- `Memory.Recalls`: what the hook after a call needs.

## Main statements

- `Memory.Entrusts.recalls`: the hook after a call finds it, if the call leaves its operands alone.
- `Tracker.sorts_getFieldPreBody`, `Tracker.sorts_getFieldBody` and their like: the bodies of hooks.
-/

namespace ShadowTaint

open Memory

/-- An argument is an object for the function if it is one for the caller. -/
theorem Passing.object?_give (m : Memory) (passing : Passing) (args : List Value) :
    (passing.give m args).map Value.object? = args.map Value.object? := by
  have value (v : Value) : (m.valueOf v).object? = v.object? := objectOf?_eq m v
  cases passing with
  | stripped => simp [Passing.give, value]
  | wrapped => rfl
  | wrappedAfterKey => cases args <;> simp [Passing.give, value]

section Passing

variable {m m' : Memory} {f g v : Value}

/-- A function that has a name keeps it. -/
theorem Memory.functionName_evolves (evolves : m.heap.Evolves m'.heap)
    (named : m.functionName f ≠ "anonymous") : m'.functionName f = m.functionName f := by
  unfold functionName at named ⊢
  rcases function : m.heap.function? (m.valueOf f) with _ | fn <;> rw [function] at named
  · exact absurd rfl named
  · dsimp only at named ⊢
    split at named
    · exact absurd rfl named
    · rename_i nonempty
      obtain ⟨fn', function', -, -, name⟩ := evolves.function? function
      have same : m'.valueOf f = m.valueOf f := by
        rcases object : (m.valueOf f).object? with _ | o
        · rw [Heap.function?, object] at function
          cases function
        · rw [ShadowState.eq_object_of_valueOf object]
          rfl
      rw [same, function', if_neg nonempty]
      dsimp only
      rw [name nonempty, if_neg nonempty]

/-- What is on the heap does not become a native function. -/
theorem Memory.isNative_evolves (evolves : m.heap.Evolves m'.heap)
    (allocated : ∀ id, g.object? = some id → id < m.heap.objects.size)
    (script : m.isNative g = false) : m'.isNative g = false := by
  cases g with
  | object o =>
    have becomes := evolves.kind o (allocated o rfl)
    unfold isNative Heap.function? at script ⊢
    dsimp only [Memory.valueOf, ShadowState.valueOf, ShadowState.lookup?, Value.raw, Value.object?]
      at script ⊢
    cases kind : (m.heap.get o).kind <;> cases kind' : (m'.heap.get o).kind <;>
      simp_all [ObjectKind.Becomes, Function.isNative]
  | literal l => rfl
  | shadow handle identity l =>
    have plain : (m'.valueOf (.shadow handle identity l)).object? = none := objectOf?_eq m' _
    rw [isNative, Heap.function?, plain]
    rfl

/-- Arguments that keep their shadows keep them as long as the function, its receiver and the arguments
stay what they are. -/
theorem Levels.passing_evolves (levels : Levels) {args : List Value} (evolves : m.heap.Evolves m'.heap)
    (allocated : ∀ u ∈ v :: args, ∀ id, u.object? = some id → id < m.heap.objects.size)
    (tag : m'.heap.importTag? v = m.heap.importTag? v)
    (kept : (levels.policyFor m.heap v).passing m f args ≠ .stripped) :
    (levels.policyFor m'.heap v).passing m' f args ≠ .stripped := by
  have policy : levels.policyFor m'.heap v = levels.policyFor m.heap v := by
    rw [policyFor, policyFor, ValueKind.of_evolves evolves (allocated v List.mem_cons_self) tag]
  have same {name : String} (named : m.functionName f = name) (real : name ≠ "anonymous") :
      m'.functionName f = name :=
    (functionName_evolves evolves (named.symm ▸ real)).trans named
  rw [policy]
  unfold Policy.passing at kept ⊢
  split at kept
  · exact kept
  · have named := (ite_ne_right_iff.mp kept).1
    rw [if_pos (same named (by decide))]
    decide
  · have named := (ite_ne_right_iff.mp kept).1
    rw [if_pos (same named (by decide))]
    decide
  · have iterates := (ite_ne_right_iff.mp kept).1
    rw [if_pos]
    · decide
    · unfold iteratesScript at iterates ⊢
      rw [Bool.and_eq_true, Bool.not_eq_true'] at iterates ⊢
      obtain ⟨listed, script⟩ := iterates
      refine ⟨?_, ?_⟩
      · rw [same rfl fun anonymous => by rw [anonymous] at listed; exact absurd listed (by decide)]
        exact listed
      · rcases callback : args[1]? with _ | g <;> rw [callback] at script
        · rfl
        · exact isNative_evolves evolves
            (allocated g (List.mem_cons_of_mem _ (List.mem_of_getElem? callback))) script
  · exact absurd rfl kept

end Passing

/-- The operands of a call whose identities are reserved before it, the last one first. -/
def Call.handed (c : Call) : List Value :=
  (if c.external then c.args.reverse ++ (if c.method then [c.base] else []) else []) ++ [c.f]

/-- A frame was saved for a call: the identities reserved in it are marked for the operands, and where the
arguments were stripped, the trees in it fit. -/
def Memory.Entrusts (levels : Levels) (m₀ : Memory) (q : Call) (kinds : List Bool) (m : Memory) : Prop :=
  ∃ caller below, m.shadow.framesAt q.site = caller :: below ∧
    List.Forall₂ (Suits kinds) q.handed caller.reserved ∧
    (q.external = true → (levels.policyFor m₀.heap q.base).passing m₀ q.f q.args = .stripped →
      ∀ id trees, caller.trees.get? id = some trees →
        .object id ∈ q.args ∧ Suited m.Bared kinds id trees)

/-- What an external call leaves alone: it is called on objects that lie on the heap, the receiver is not
tagged anew, and what the properties and elements of all that the arguments reach stand for stays. The
three states are those before the hook before the call, after that hook, and before the hook after the
call. -/
structure Call.Intact (m m₁ m₂ : Memory) (q : Call) : Prop where
  allocated : ∀ v ∈ q.base :: q.args, ∀ id, v.object? = some id → id < m.heap.objects.size
  tag : m₂.heap.importTag? q.base = m.heap.importTag? q.base
  stays : ∀ id, m₁.heap.Leads q.args id → ∀ key, m₁.Stays m₂ id key

/-- The frame that was saved for a call fits: the identities reserved in it are marked for the operands,
and where the arguments were stripped, properties show what the trees in it fit. -/
def Memory.Recalls (levels : Levels) (q : Call) (kinds : List Bool) (m : Memory) : Prop :=
  ∃ caller below, m.shadow.framesAt q.site = caller :: below ∧
    List.Forall₂ (Suits kinds) q.handed caller.reserved ∧
    (q.external = true → (m.policyOf levels q.base).passing m q.f q.args = .stripped →
      ∀ id trees, caller.trees.get? id = some trees → Suited m.Shows kinds id trees)

section Calling

variable {levels : Levels} {m m₁ m₂ : Memory} {q : Call} {kinds kinds' : List Bool}

theorem Memory.Entrusts.ended (h : m.Entrusts levels q kinds m₁) : m.Entrusts levels q kinds m₁.ended := by
  obtain ⟨caller, below, saved, suits, suited⟩ := h
  refine ⟨caller, below, saved, suits, fun outside stripped id trees found => ?_⟩
  obtain ⟨arg, fits⟩ := suited outside stripped id trees found
  exact ⟨arg, fits.mono (fun _ _ _ bared => bared.sheds (sheds_of_heap rfl rfl)) (List.prefix_refl kinds)⟩

/-- What was handed over fits when the call is over, if the call leaves alone what it was called on. -/
theorem Memory.Entrusts.recalls (h : m.Entrusts levels q kinds m₁) (opened : m.Grows m₁)
    (inside : m₁.Grows m₂) (frames : m₂.shadow.framesAt q.site = m₁.shadow.framesAt q.site)
    (more : kinds <+: kinds') (intact : q.external = true → q.Intact m m₁ m₂) :
    m₂.Recalls levels q kinds' := by
  obtain ⟨caller, below, saved, suits, suited⟩ := h
  refine ⟨caller, below, frames.trans saved, suits.imp fun _ _ fits => fits.mono more,
    fun outside stripped id trees found => ?_⟩
  obtain ⟨allocated, tag, stays⟩ := intact outside
  -- arguments that are stripped after the call were stripped before it
  have before : (levels.policyFor m.heap q.base).passing m q.f q.args = .stripped := by
    by_contra kept
    refine levels.passing_evolves (opened.trans inside).evolves allocated tag kept ?_
    rw [← stripped]
    exact (levels.passing_congr (.refl m₂.heap) (objectOf?_eq m₂ q.base) rfl rfl).symm
  obtain ⟨arg, fits⟩ := suited outside before id trees found
  exact (fits.stays inside (.root arg) stays).mono (fun _ _ _ shows => shows) more

end Calling

namespace Tracker

variable (levels : Levels)

section Before

theorem sorts_getFieldPreBody (base offset : Value) :
    SortsIfOk Freely (getFieldPreBody base offset) fun r => Awaits [r.2, r.1] :=
  .bind (CheckedM.sorts_expectIdle _) fun _ => .bind (.lift (MemoryM.sorts_unwrap base [])) fun b =>
    .bind (.lift (MemoryM.sorts_unwrap offset [b])) fun _ => .pure fun _ _ h => h

theorem sorts_binaryPreBody (left right : Value) :
    SortsIfOk Freely (binaryPreBody left right) fun r => Awaits [r.2, r.1] :=
  .bind (CheckedM.sorts_expectIdle _) fun _ => .bind (.lift (MemoryM.sorts_unwrap left [])) fun l =>
    .bind (.lift (MemoryM.sorts_unwrap right [l])) fun _ => .pure fun _ _ h => h

theorem sorts_unaryPreBody (operand : Value) :
    SortsIfOk Freely (unaryPreBody operand) fun r => Awaits [r] :=
  .bind (CheckedM.sorts_expectIdle _) fun _ => .lift (MemoryM.sorts_unwrap operand [])

/-- A shadow is taken off while the heap stays. -/
theorem sorts_take (heap : Heap) (v : Value) (vs : List Value) :
    Sorts (fun kinds m => m.Awaits vs kinds ∧ m.heap = heap) (MemoryM.unwrap v)
      fun r kinds m => (m.Awaits (r :: vs) kinds ∧ m.heap = heap) ∧ r.object? = v.object? := by
  rintro kinds m sorted ⟨awaits, same⟩
  obtain ⟨kinds', more, sorted', awaits'⟩ := MemoryM.sorts_unwrap v vs kinds m sorted awaits
  exact ⟨kinds', more, sorted', ⟨awaits', (MemoryM.issues_unwrap v m).heap.trans same⟩,
    objectOf?_eq m v⟩

theorem issues_expectIdle (site : String) : Within Issues (CheckedM.expectIdle site) :=
  CheckedM.within_expectIdle MemoryM.issues_discard site

/-- A hook begins where nothing is reserved, and the heap stays. -/
theorem sorts_begin (heap : Heap) (site : String) :
    SortsIfOk (fun _ m => m.heap = heap) (CheckedM.expectIdle site)
      fun _ kinds m => m.Awaits [] kinds ∧ m.heap = heap :=
  ((CheckedM.sorts_expectIdle site).and (I := fun m => m.heap = heap) fun m same =>
    (issues_expectIdle site m).heap.trans same).mono (fun _ _ same => ⟨trivial, same⟩) fun _ _ _ h => h

/-- Between the hooks of a store: the identity of the value is reserved if the base is an array that is
tracked as a whole. -/
def AwaitsStore (heap : Heap) (base offset v : Value) (kinds : List Bool) (m : Memory) : Prop :=
  m.Awaits (if levels.policyFor heap base = .container .array .imprecise then [v, offset, base]
    else [offset, base]) kinds

/-- The value of a store keeps its shadow, or its identity is reserved. -/
theorem sorts_prepareStored (heap : Heap) (base offset v : Value) :
    Sorts (Awaits [offset, base]) (MemoryM.prepareStored (levels.policyFor heap base) v)
      fun r => AwaitsStore levels heap base offset r := by
  unfold AwaitsStore
  by_cases strips : levels.policyFor heap base = .container .array .imprecise
  · rw [MemoryM.prepareStored_of_strips strips]
    simp only [if_pos strips]
    exact MemoryM.sorts_unwrap v [offset, base]
  · rw [MemoryM.prepareStored_of_keeps strips]
    simp only [if_neg strips]
    exact .pure fun _ _ h => h

theorem sorts_putFieldPreBody (heap : Heap) (base offset v : Value) :
    SortsIfOk (fun _ m => m.heap = heap) (putFieldPreBody base offset v levels) fun ops =>
      AwaitsStore levels heap ops.base ops.offset ops.value := by
  refine .bind (sorts_begin heap _) fun _ => .bind (.lift (sorts_take heap base [])) fun b => ?_
  refine .mono (.bind (.lift (sorts_take heap offset [b])) fun o => .get_bind fun m => ?_)
    (fun _ _ h => h.1) fun _ _ _ h => h
  rintro kinds m' sorted ⟨rfl, ⟨awaits, rfl⟩, -⟩
  have prepared := SortsIfOk.lift (sorts_prepareStored levels m'.heap b o v)
  exact prepared.bind (R := fun ops : Operands => AwaitsStore levels m'.heap ops.base ops.offset ops.value)
    (fun _ => .pure fun _ _ h => h) kinds m' sorted awaits

theorem sorts_conditionalBody (v : Value) :
    SortsIfOk Freely (conditionalBody v) fun r => Awaits [r] :=
  .bind (CheckedM.sorts_expectIdle _) fun _ => .bind (.lift (MemoryM.sorts_unwrap v [])) fun _ =>
    .bind (CheckedM.sorts_checkPending _ _) fun _ => .pure fun _ _ h => h

/-- Code that is about to be evaluated is a string, as far as it has a shadow. -/
def OfText (code : Value) (m : Memory) : Prop :=
  ∀ id raw, m.shadow.lookup? code = some (id, raw) → raw.isText = true

/-- What is reserved for evaluated code can be put back as a string. -/
theorem sorts_codeSource (code : Value) (internal : Bool) :
    SortsIfOk (fun _ m => OfText code m) (codeSource code internal) fun _ kinds m =>
      ∀ text, m.Offers (.string text) kinds := by
  have idle := (CheckedM.sorts_expectIdle "WEvalPre").and (I := OfText code) fun m texts => by
    have handles := admitsStripping_sameHandles.expectIdle "WEvalPre" m
    unfold OfText
    rwa [lookup?_of_wraps handles]
  have taken : SortsIfOk (fun kinds m => m.Awaits [] kinds ∧ OfText code m)
      (liftM (MemoryM.unwrap code)) fun _ => Awaits [.string ""] := by
    refine .lift fun kinds m sorted ⟨awaits, texts⟩ => ?_
    obtain ⟨kinds', more, sorted', suits⟩ := MemoryM.sorted_identityOf code (w := .string "") sorted
      fun id raw l known literal => by cases literal; exact (texts id raw known).symm
    exact ⟨kinds', more, MemoryM.sorted_reserve code [] more sorted' suits awaits⟩
  refine .bind (idle.mono (fun _ _ texts => ⟨trivial, texts⟩) fun _ _ _ h => h) fun _ =>
    .bind taken fun raw => ?_
  cases internal with
  | true =>
    exact .bind (.lift (MemoryM.sorts_discard (.string "") [])) fun _ => .get_bind fun _ =>
      .pure fun kinds m awaits text => awaits.2.offers_of_nil _
  | false =>
    refine .get_bind fun _ => .pure fun kinds m awaits text id rest reserved raw literal => ?_
    cases literal
    exact awaits.2.offers id rest reserved (.string "") rfl

theorem marks_checkCode (code : Value) (sink : Bool) (maxLength : Nat) :
    Within Marks (checkCode code sink maxLength) := by
  intro m
  rcases checkCode_cases code sink maxLength m with ⟨m', run, marks⟩ | ⟨f, m', run, marks⟩
  · rwa [run]
  · rwa [run]

/-- Whatever is done with the text, its identity is offered to the hook after it. -/
theorem sorts_codePreBody (code : Value) (internal sink : Bool) (maxLength : Nat) :
    SortsIfOk (fun _ m => OfText code m) (codePreBody code internal sink maxLength)
      fun _ kinds m => ∀ text, m.Offers (.string text) kinds := by
  rw [codePreBody_eq]
  refine .bind (sorts_codeSource code internal) fun source => ?_
  have checked : SortsIfOk (fun kinds m => ∀ text, m.Offers (.string text) kinds)
      (checkCode code sink maxLength) fun _ kinds m => ∀ text, m.Offers (.string text) kinds := by
    intro kinds m sorted offers
    have marks := marks_checkCode code sink maxLength m
    refine ⟨kinds, List.prefix_refl kinds, sorted.congr marks.wraps marks.nextIdentity,
      fun _ _ text => ?_⟩
    unfold Offers
    rw [marks.frame]
    exact offers text
  split
  · exact .pure fun _ _ h => h
  · split
    · exact .bind checked fun _ => .pure fun _ _ h => h
    · refine .get_bind fun m => ?_
      split
      · exact .pure fun _ _ h => h.2
      · exact .pure fun _ _ h => h.2

end Before

section After

/-- The last part of a hook after an operation: when the result is wrapped, a rule records taint. -/
theorem sorts_record {α : Type} {x : CheckedM α} (site : String) (marks : Within Marks x) :
    SortsIfOk (Awaits []) (do
      CheckedM.checkPending site 0
      x) fun _ => Freely :=
  .bind (CheckedM.sorts_checkPending _ _) fun _ => (SortsIfOk.of_marks marks []).weaken

theorem sorts_getFieldBody (base offset v : Value) :
    SortsIfOk (Awaits [offset, base]) (getFieldBody base offset v levels) fun _ => Freely := by
  have named : Sorts (Awaits [offset, base]) (MemoryM.modifyHeap (nameFunction · v offset))
      fun _ => Awaits [offset, base] :=
    .of_adopts (fun _ => .of_same rfl rfl) (fun m => spreads_nameFunction v offset m) _
  refine .bind (.lift named) fun _ => .bind (.lift (MemoryM.sorts_wrap levels offset [base])) fun _ =>
    .bind (.lift (MemoryM.sorts_wrap levels base [])) fun _ =>
    .bind (.lift (MemoryM.sorts_wrap_result levels v)) fun _ => sorts_record _ ?_
  exact .bind_except .get_except fun _ => .bind_except (Policy.marks_getField _ _ _) fun _ =>
    .pure_except _

theorem sorts_binaryBody (op : String) (left right result : Value) :
    SortsIfOk (Awaits [right, left]) (binaryBody op left right result levels) fun _ => Freely := by
  refine .bind (.lift (MemoryM.sorts_wrap levels right [left])) fun _ =>
    .bind (.lift (MemoryM.sorts_wrap levels left [])) fun _ =>
    .bind (.lift (MemoryM.sorts_wrap_result levels result)) fun _ => sorts_record _ ?_
  exact .bind_except .get_except fun _ => .bind_except (Policy.marks_binary _ _ _ _) fun _ =>
    .pure_except _

theorem sorts_unaryBody (operand result : Value) :
    SortsIfOk (Awaits [operand]) (unaryBody operand result levels) fun _ => Freely := by
  refine .bind (.lift (MemoryM.sorts_wrap levels operand [])) fun _ =>
    .bind (.lift (MemoryM.sorts_wrap_result levels result)) fun _ => sorts_record _ ?_
  exact .bind_except .get_except fun _ => .bind_except (Policy.marks_unary _ _ _ _) fun _ =>
    .pure_except _

theorem sorts_literalBody (v : Value) : SortsIfOk Freely (literalBody v levels) fun _ => Freely :=
  .bind (CheckedM.sorts_expectIdle _) fun _ => .bind (.lift (MemoryM.sorts_wrap_result levels v))
    fun _ => sorts_record _ (.pure_except _)

/-- After a condition the value that is written is wrapped under the identity of the condition. -/
theorem sorts_writeBody (v : Value) (inScope : Bool) :
    SortsIfOk (fun kinds m => m.shadow.context = .conditional → m.Offers v kinds)
      (writeBody v inScope levels) fun _ => Freely := by
  have rest (w : Value) : SortsIfOk Freely (do
      CheckedM.checkPending "WWrite" 0
      MemoryM.modifyShadow fun s => { s with context := .unset }
      if inScope then taintWritten w
      return w : CheckedM Value) fun _ => Freely := by
    have adopts {α : Type} {x : MemoryM α} (marks : Within Marks x) :
        Within Adopts (liftM x : CheckedM α) := .lift (marks.mono fun _ _ h => h.adopts)
    refine .bind (CheckedM.sorts_checkPending _ _) fun _ => .freely ?_
    refine .bind_except (.lift fun _ => .of_same rfl rfl) fun _ => ?_
    split
    · exact .bind_except (adopts (marks_taintWritten w)) fun _ => .pure_except _
    · exact .pure_except _
  refine .get_bind fun m => .bind (CheckedM.sorts_checkPending _ _) fun _ => ?_
  by_cases conditional : m.shadow.context = .conditional
  · simp only [if_pos conditional]
    refine .bind (.lift fun kinds m' sorted ⟨same, offers⟩ => ?_) rest
    obtain ⟨kinds', more, sorted'⟩ := MemoryM.sorted_wrap levels v sorted (offers (same ▸ conditional))
    exact ⟨kinds', more, sorted', trivial⟩
  · simp only [if_neg conditional]
    exact .bind (Q := fun _ => Freely) (.pure fun _ _ _ => trivial) rest

/-- Code that has been prepared is wrapped as a string. -/
theorem sorts_codePostBody (code : String) (sink : Bool) (maxLength : Nat) :
    SortsIfOk (fun kinds m => m.Offers (.string code) kinds)
      (codePostBody code sink maxLength levels) fun _ => Freely := by
  refine .bind (Q := fun _ => Freely) (.lift fun kinds m sorted offers => ?_) fun w =>
    .bind (CheckedM.sorts_checkPending _ _) fun _ => .freely ?_
  · obtain ⟨kinds', more, sorted'⟩ := MemoryM.sorted_wrap levels (.string code) sorted offers
    exact ⟨kinds', more, sorted', trivial⟩
  · exact .bind_except ((marks_checkCode w sink maxLength).mono fun _ _ h => h.adopts) fun _ =>
      .pure_except _

/-- A store that is not refused wraps what was handed out for it. -/
theorem sorts_putFieldAttempt (base offset v : Value) :
    SortsIfOk (fun kinds m => AwaitsStore levels m.heap base offset v kinds m)
      (putFieldAttempt base offset v levels) fun _ => Freely := by
  have stored (w : Value) : SortsIfOk (Awaits [offset, base]) (do
      let offset ← MemoryM.wrap levels offset
      let base ← MemoryM.wrap levels base
      CheckedM.checkPending "WPutField" 0
      let ops : Operands := ⟨base, offset, w⟩
      ((← get).policyOf levels base).putField levels ops
      return ops : CheckedM Operands) fun _ => Freely := by
    refine .bind (.lift (MemoryM.sorts_wrap levels offset [base])) fun _ =>
      .bind (.lift (MemoryM.sorts_wrap levels base [])) fun b =>
      .bind (CheckedM.sorts_checkPending _ _) fun _ => .freely ?_
    refine .bind_except .get_except fun m => .bind_except (fun m' => ?_) fun _ => .pure_except _
    rcases (m.policyOf levels b).putField_cases levels _ m' with
      ⟨m'', run, marks⟩ | ⟨f, m'', run, count, rfl⟩
    · rw [run]
      exact marks.adopts
    · rw [run]
      exact .of_same rfl rfl
  refine .get_bind fun m => ?_
  dsimp only
  by_cases strips : levels.policyFor m.heap base = .container .array .imprecise
  · rw [MemoryM.restoreStored_of_strips levels strips]
    refine .bind (.lift ((MemoryM.sorts_wrap levels v [offset, base]).mono ?_ fun _ _ _ h => h)) stored
    rintro kinds m' ⟨rfl, awaits⟩
    rwa [AwaitsStore, if_pos strips] at awaits
  · rw [MemoryM.restoreStored_of_keeps levels strips]
    refine .bind (Q := fun _ => Awaits [offset, base]) (.pure ?_) stored
    rintro kinds m' ⟨rfl, awaits⟩
    rwa [AwaitsStore, if_neg strips] at awaits

/-- A store that is refused takes back what it has handed out. -/
theorem sorts_putFieldBody (base offset v : Value) :
    SortsIfOk (fun kinds m => AwaitsStore levels m.heap base offset v kinds m)
      (putFieldBody base offset v levels) fun _ => Freely := by
  intro kinds m sorted awaits
  rcases putFieldAttempt_cases levels base offset v m with
    ⟨ops, _, m', run, -⟩ | ⟨e, ids, m₁, m₂, run, stacked, same, used⟩
  · obtain ⟨kinds', more, sorted', -⟩ := sorts_putFieldAttempt levels base offset v kinds m sorted awaits
    rw [run] at sorted'
    rw [putFieldBody_of_ok run]
    exact ⟨kinds', more, sorted', fun _ _ => trivial⟩
  · rw [putFieldBody_of_error run]
    have refused := stacked.shadow_refused same used
    exact ⟨kinds, List.prefix_refl kinds, sorted.congr (by rw [refused]) (by rw [refused]),
      fun _ _ => trivial⟩

end After

section Bodies

theorem adopts_enterFunctionBody (f : Value) : Within Adopts (enterFunctionBody f) := by
  refine .bind_except .get_except fun m => ?_
  split
  · exact .bind_except (.lift fun _ => .of_same rfl rfl) fun _ =>
      (CheckedM.sorts_expectIdle _).adopts
  · exact .bind_except (.lift fun _ => .of_same rfl rfl) fun _ =>
      (CheckedM.sorts_expectIdle _).adopts

theorem adopts_exitFunctionBody (threw : Bool) : Within Adopts (exitFunctionBody threw) := by
  unfold exitFunctionBody
  cases threw with
  | true =>
    exact .bind_except (.lift fun _ => .of_same rfl rfl) fun _ => CheckedM.within_checkPending _ _
  | false =>
    rw [if_neg (by decide)]
    intro m
    rw [get_bind_apply]
    split
    · rcases ShadowState.restoreFrame_cases m.shadow functionEntrySite with
        ⟨frame, rest, saved, -, restored, -⟩ | failed
      · rw [restored]
        exact .of_same rfl rfl
      · rw [failed]
        exact refl_of Adopts m
    · exact refl_of Adopts m

end Bodies

section Opening

/-- A frame that is saved for a call holds what was reserved and found for its operands. -/
theorem sorts_save (m₀ : Memory) (q : Call) (callType : CallType) :
    SortsIfOk (fun kinds m => m.Awaits q.handed kinds ∧ (q.external = true →
        (levels.policyFor m₀.heap q.base).passing m₀ q.f q.args = .stripped →
        ∀ id trees, m.shadow.frame.trees.get? id = some trees →
          .object id ∈ q.args ∧ Suited m.Bared kinds id trees))
      (do
        MemoryM.modifyShadow (·.saveFrame callType q.site)
        return q : CheckedM Call)
      fun r => m₀.Entrusts levels r := by
  rintro kinds m sorted ⟨awaits, suited⟩
  refine ⟨kinds, List.prefix_refl kinds, sorted.congr rfl rfl, fun r ok => ?_⟩
  cases ok
  refine ⟨m.shadow.frame, _, (ShadowState.framesAt_saveFrame _ _ _ _).trans (if_pos rfl), awaits,
    fun outside stripped id trees found => ?_⟩
  obtain ⟨arg, fits⟩ := suited outside stripped id trees found
  exact ⟨arg, fits.mono (fun _ _ _ bared => bared.sheds (sheds_of_heap rfl rfl)) (List.prefix_refl kinds)⟩

/-- The hook before a call hands over marked identities. -/
theorem sorts_openCall (m₀ : Memory) (c : Call) (native : Bool) :
    SortsIfOk (fun _ m => m.heap = m₀.heap) (openCall c native levels)
      fun q => m₀.Entrusts levels q := by
  have opened (f base : Value) (below : List Value) (function : f.object? = c.f.object?)
      (outside : c.external = true)
      (handed : (if c.method then [base] else []) ++ [f] = below) :
      SortsIfOk (fun kinds m => m.Awaits below kinds ∧ m.heap = m₀.heap) (do
        let m ← get
        let args ← MemoryM.prepareArguments (levels.policyFor m.heap base) c.f c.args
        MemoryM.modifyShadow (·.saveFrame (.ofCall true native) c.site)
        return { c with f, base, args } : CheckedM Call)
      fun q => m₀.Entrusts levels q := by
    rintro kinds m sorted ⟨awaits, heap⟩
    let policy := levels.policyFor m.heap base
    obtain ⟨kinds', more, sorted', awaits', suited⟩ :=
      MemoryM.sorted_prepareArguments policy c.f c.args sorted awaits
    obtain ⟨args, m', run⟩ : ∃ args m', MemoryM.prepareArguments policy c.f c.args m = (args, m') :=
      ⟨_, _, rfl⟩
    rw [run] at sorted' awaits' suited
    have objects : args.map Value.object? = c.args.map Value.object? := by
      rw [show args = _ from (congrArg Prod.fst run).symm, MemoryM.prepareArguments_fst]
      exact Passing.object?_give m _ c.args
    have passes : (levels.policyFor m₀.heap base).passing m₀ f args = policy.passing m c.f c.args :=
      levels.passing_congr (heap ▸ .refl _) rfl function objects
    have operands : Call.handed { c with f, base, args } = args.reverse ++ below := by
      rw [Call.handed, if_pos outside, List.append_assoc, handed]
    rw [get_bind_apply, lift_bind_of run]
    obtain ⟨kinds'', more', sorted'', entrusts⟩ := sorts_save levels m₀ { c with f, base, args }
      (.ofCall true native) kinds' m' sorted'
      ⟨by rw [operands]; exact awaits', fun _ stripped => suited (passes.symm.trans stripped)⟩
    exact ⟨kinds'', more.trans more', sorted'', entrusts⟩
  refine .bind (sorts_begin m₀.heap _) fun _ => .bind (.lift (sorts_take m₀.heap c.f [])) fun f => ?_
  rcases Bool.eq_false_or_eq_true c.external with outside | inside
  · rw [if_neg (by rw [outside]; decide)]
    rcases Bool.eq_false_or_eq_true c.method with method | plain
    · rw [if_pos method]
      rintro kinds m sorted ⟨before, function⟩
      refine SortsIfOk.bind (.lift (sorts_take m₀.heap c.base [f])) (fun base => ?_) kinds m sorted before
      rintro kinds m sorted ⟨before, -⟩
      exact opened f base [base, f] function outside (by rw [method]; rfl) kinds m sorted before
    · rw [if_neg (by rw [plain]; decide)]
      rintro kinds m sorted ⟨before, function⟩
      exact opened f c.base [f] function outside (by rw [plain]; rfl) kinds m sorted before
  · rw [if_pos (by rw [inside]; decide)]
    rintro kinds m sorted ⟨⟨awaits, -⟩, -⟩
    refine sorts_save levels m₀ { c with f } .internal kinds m sorted ⟨?_, fun external => ?_⟩
    · rw [Call.handed, inside]
      exact awaits
    · rw [inside] at external
      cases external

end Opening

section Closing

theorem closeCall_of_saved {m : Memory} {c : Call} {caller : Frame} {below : List Frame}
    (saved : m.shadow.framesAt c.site = caller :: below) (result : Value) :
    ∃ table, closeCall c result levels m = rewrapCall c result levels
      { m with shadow := { m.shadow with frame := caller, saved := table } } := by
  obtain ⟨table, restored, -⟩ := ShadowState.restoreFrame_of_framesAt saved
  exact ⟨table, closeCall_of_restored restored result⟩

/-- Operands of a call get their shadows back, where properties show what the trees fit. -/
theorem sorts_rewrapCall (c : Call) (result : Value) :
    SortsIfOk (fun kinds m => m.Awaits c.handed kinds ∧ (c.external = true →
        (m.policyOf levels c.base).passing m c.f c.args = .stripped →
        ∀ id trees, m.shadow.frame.trees.get? id = some trees → Suited m.Shows kinds id trees))
      (rewrapCall c result levels) fun _ => Freely := by
  have last (c : Call) : SortsIfOk (Awaits [c.f]) (rewrapFunction levels result c) fun _ => Freely :=
    .bind (.lift (MemoryM.sorts_wrap levels c.f [])) fun _ =>
      .bind (.lift (MemoryM.sorts_wrap_result levels result)) fun _ =>
      sorts_record _ (.pure_except _)
  rcases Bool.eq_false_or_eq_true c.external with outside | inside
  · rintro kinds m sorted ⟨awaits, suited⟩
    rw [Call.handed, if_pos outside, List.append_assoc] at awaits
    obtain ⟨kinds₁, more₁, sorted₁, awaits₁⟩ := MemoryM.sorted_restoreArguments levels
      (m.policyOf levels c.base) c.f c.args sorted awaits (suited outside)
    obtain ⟨args, m₁, run⟩ : ∃ args m₁, MemoryM.restoreArguments levels (m.policyOf levels c.base) c.f
      c.args m = (args, m₁) := ⟨_, _, rfl⟩
    rw [run] at sorted₁ awaits₁
    have rest : SortsIfOk (Awaits ((if c.method then [c.base] else []) ++ [c.f]))
        (rewrapReceiver levels { c with args } >>= rewrapFunction levels result) fun _ => Freely := by
      unfold rewrapReceiver
      dsimp only
      split
      · rw [bind_assoc]
        exact .bind (.lift (MemoryM.sorts_wrap levels c.base [c.f])) fun base =>
          last { c with base, args }
      · exact last { c with args }
    obtain ⟨kinds₂, more₂, after⟩ := rest kinds₁ m₁ sorted₁ awaits₁
    refine ⟨kinds₂, more₁.trans more₂, ?_⟩
    rw [rewrapCall_of_outside outside run]
    exact after
  · rw [rewrapCall_of_inside inside]
    rintro kinds m sorted ⟨awaits, -⟩
    rw [Call.handed, inside] at awaits
    exact last c kinds m sorted awaits

/-- The hook after a call finds marked identities in the frame that was saved for the call. -/
theorem sorts_closeCall (c : Call) (result : Value) :
    SortsIfOk (fun kinds m => m.Recalls levels c kinds) (closeCall c result levels) fun _ => Freely := by
  rintro kinds m sorted ⟨caller, below, saved, suits, suited⟩
  obtain ⟨table, run⟩ := closeCall_of_saved levels saved result
  rw [run]
  have alone (m' : Memory) (heap : m'.heap = m.heap) (wraps : m'.shadow.wraps = m.shadow.wraps) :
      (m'.policyOf levels c.base).passing m' c.f c.args =
        (m.policyOf levels c.base).passing m c.f c.args := by
    refine levels.passing_congr (by rw [heap]; exact .refl _) ?_ rfl rfl
    rw [Memory.valueOf_of_wraps wraps]
  refine sorts_rewrapCall levels c result kinds _ (sorted.congr rfl rfl)
    ⟨suits, fun outside stripped id trees found => ?_⟩
  refine (suited outside ((alone _ rfl rfl).symm.trans stripped) id trees found).mono ?_
    (List.prefix_refl kinds)
  exact fun _ _ _ shows => (looks_of_heap rfl fun _ _ known => known).shows _ _ _ shows

end Closing

end Tracker

end ShadowTaint
