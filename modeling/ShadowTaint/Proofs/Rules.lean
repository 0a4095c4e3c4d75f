import ShadowTaint.Proofs.Native
import ShadowTaint.Proofs.Wrap
import ShadowTaint.Propagation
/-!
# What the taint rules keep

The rules record taint. The stack of the frame and the saved frames are none of their business: an
operation has wrapped its operands by the time its rule applies. Two rules reach further than the
recorded taint. Splitting a string gives the words shadows, and a native function that runs once more
may change the heap.

## Main statements

- `Policy.marks_getField`, `Policy.marks_binary`, `Policy.marks_unary`: most rules only record taint.
- `Policy.within_call`: the rules for native functions stay within a relation that admits what they do,
  such as that no frame changes.
- `Policy.putField_cases`: a store is recorded, or refused with a finding and nothing recorded.
-/

namespace ShadowTaint

open Memory

/-- The relation admits what the rules for native functions do: taint is recorded, a word gets a shadow,
an array gets elements that the tracker owns, and a function runs once more, on values without
shadows. -/
structure Memory.AdmitsRules (R : Memory → Memory → Prop) : Prop where
  marks : ∀ m m', m.Marks m' → R m m'
  fresh : ∀ v, Within R (MemoryM.wrapFresh v)
  elements : ∀ (m : Memory) (v : Value) (elements : List Value),
    (∀ w ∈ elements, w.OwnedBy m.shadow) → R m { m with heap := m.heap.setElements v elements }
  runs : ∀ (m : Memory) (native : Native) (this : Value) (args : List Value) (output : Value)
    (heap : Heap), (∀ w ∈ this :: args, w.raw = w) →
      native.run m.heap this args = .ok (output, heap) → R m { m with heap }

/-- A function that gets no shadows leaves none of its own on the heap. -/
theorem Memory.admitsRules_spreads : AdmitsRules Spreads where
  marks _ _ := Marks.spreads
  fresh := MemoryM.spreads_wrapFresh
  elements m _ _ owned := (refl_of Spreads m).withHeap (Heap.evolves_setElements _ _ _)
    fun _ sound => Heap.Holding.setElements sound _ owned
  runs m native this args output heap bare ran := by
    obtain ⟨evolves, holding⟩ := native.run_confined m.heap this args output heap ran
    refine (refl_of Spreads m).withHeap evolves fun sound _ => ?_
    exact (holding _ (fun w hw => Value.ownedBy_of_raw hw) sound fun w hw =>
      Value.ownedBy_of_raw (bare w hw)).2

namespace ObjectRule

theorem marks_getField (grain : Grain) (ops : Operands) : Within Marks (getField grain ops) := by
  refine .bind .get fun m => .bind (MemoryM.marks_entry _) fun base => ?_
  dsimp only
  split
  · exact MemoryM.marks_record _ _ _ _ _
  · exact MemoryM.marks_record _ _ _ _ _

theorem marks_binary (grain : Grain) (op : String) (ops : Operands) :
    Within Marks (binary grain op ops) :=
  .bind .get fun _ => .bind (MemoryM.marks_history _) fun _ => .bind (MemoryM.marks_history _)
    fun _ => MemoryM.marks_recordWhole _ _ _ _

theorem marks_unary (grain : Grain) (operand result : Value) :
    Within Marks (unary grain operand result) :=
  .bind .get fun _ => .bind (MemoryM.marks_entry _) fun _ => .bind (MemoryM.marks_node _ _ _)
    fun _ => MemoryM.marks_store _ _

theorem marks_call (receiver : Option Grain) (c : NativeCall) :
    Within Marks (call receiver c) := by
  refine .bind .get fun m => ?_
  dsimp only
  split
  · exact .bind (MemoryM.marks_history _) fun _ => MemoryM.marks_recordWhole _ _ _ _
  · refine .bind (.mapM MemoryM.marks_entry _) fun entries => ?_
    split
    · exact MemoryM.marks_recordWhole _ _ _ _
    · exact .pure _

end ObjectRule

namespace TextRule

theorem marks_storeBits (result : Value) (bits : List Bool) (label : String)
    (parents : List Provenance.Node) : Within Marks (storeBits result bits label parents) := by
  refine .bind .get fun m => ?_
  split
  · exact .pure _
  · exact .bind (MemoryM.marks_record _ _ _ _ _) fun _ => .pure _

theorem marks_blink (c : NativeCall) : Within Marks (blink c) := by
  unfold blink
  split
  · exact .pure _
  · exact .bind .get fun _ => .bind (MemoryM.marks_history _) fun _ => marks_storeBits _ _ _ _

theorem marks_substring (c : NativeCall) : Within Marks (substring c) := by
  unfold substring
  split
  · exact .pure _
  · exact .bind .get fun _ => .bind (MemoryM.marks_history _) fun _ => marks_storeBits _ _ _ _

theorem marks_concat (c : NativeCall) : Within Marks (concat c) := by
  unfold concat
  split
  · exact .pure _
  · exact .bind .get fun _ => .bind (.mapM MemoryM.marks_history _) fun _ =>
      marks_storeBits _ _ _ _

theorem marks_sameShape (c : NativeCall) : Within Marks (sameShape c) := by
  unfold sameShape
  split
  · exact .pure _
  · exact .bind .get fun _ => .bind (MemoryM.marks_history _) fun _ => marks_storeBits _ _ _ _

theorem marks_characterCode (c : NativeCall) : Within Marks (characterCode c) := by
  unfold characterCode
  split
  · exact .pure _
  · exact .bind .get fun _ => .bind (MemoryM.marks_history _) fun _ =>
      .bind (MemoryM.marks_record _ _ _ _ _) fun _ => .pure _

theorem marks_setBit (v : Value) : Within Marks (setBit v) :=
  .bind (MemoryM.marks_entry v) fun _ => MemoryM.marks_store _ _

variable {R : Memory → Memory → Prop} [IsPreorder Memory R]

theorem within_wrapWords (admits : AdmitsRules R) (base : List Bool) (path : Provenance.Node)
    (separator start : Nat) (words : List Value) :
    Within R (wrapWords base path separator start words) := by
  induction words generalizing start with
  | nil => exact .pure _
  | cons word rest ih =>
    exact .bind .get fun _ => .bind (admits.fresh _) fun _ =>
      .bind ((MemoryM.marks_record _ _ _ _ _).mono admits.marks) fun _ => .bind (ih _) fun _ =>
        .pure _

/-- The words of a split string lose nothing and gain shadows that are their own. -/
theorem ownedBy_wrapWords (base : List Bool) (path : Provenance.Node) (separator start : Nat)
    (words : List Value) (m : Memory) :
    ∀ w ∈ (wrapWords base path separator start words m).1.1,
      w.OwnedBy (wrapWords base path separator start words m).2.shadow := by
  induction words generalizing start m with
  | nil => exact fun _ hw => nomatch hw
  | cons word rest ih =>
    have first : (MemoryM.wrapFresh (m.valueOf word) m).1.OwnedBy
        (MemoryM.wrapFresh (m.valueOf word) m).2.shadow :=
      MemoryM.ownedBy_wrapFresh (Value.ownedBy_of_raw (m.shadow.raw_valueOf word))
    intro w hw
    rcases List.mem_cons.mp hw with rfl | hw
    · -- the record of the word and the words after it leave its handle alone
      exact (trans_of Spreads ((MemoryM.marks_record _ _ _ _ _).spreads _)
        (within_wrapWords admitsRules_spreads _ _ _ _ _ _)).toGrows.ownedBy first
    · exact ih _ _ w hw

theorem within_split (admits : AdmitsRules R) (levels : Levels) (c : NativeCall) :
    Within R (split levels c) := by
  have marked {α : Type} {x : MemoryM α} (h : Within Marks x) : Within R x := h.mono admits.marks
  unfold TextRule.split
  split
  · exact .pure _
  · refine .bind .get fun m => ?_
    dsimp only
    split
    · exact .pure _
    · split
      · split
        · exact .bind (marked (marks_setBit _)) fun _ => .pure _
        · exact .pure _
      · refine .bind (marked (MemoryM.marks_history _)) fun path m' => ?_
        refine Within.bind_apply (within_wrapWords admits _ _ _ _ _ m') ?_
        refine Within.bind_apply
          (admits.elements _ _ _ (ownedBy_wrapWords _ _ _ _ _ m')) ?_
        split
        · exact Within.bind (marked (marks_setBit _)) (fun _ => .pure _) _
        · exact refl_of R _

theorem raw_encodedArgument {m : Memory} {v w : Value} (h : encodedArgument m v = .ok w) :
    w.raw = w := by
  unfold encodedArgument at h
  split at h
  · rcases he : encoded m v with e | cs <;> rw [he] at h
    · cases h
    · cases h
      rfl
  · cases h
    exact m.shadow.raw_valueOf v

theorem raw_encodedArguments {m : Memory} {vs ws : List Value}
    (h : vs.mapM (encodedArgument m) = .ok ws) : ∀ w ∈ ws, w.raw = w := by
  induction vs generalizing ws with
  | nil =>
    cases h
    exact fun _ hw => nomatch hw
  | cons v rest ih =>
    rw [List.mapM_cons] at h
    rcases hv : encodedArgument m v with e | w <;> rw [hv] at h
    · cases h
    · rcases hr : rest.mapM (encodedArgument m) with e | rest' <;> rw [hr] at h
      · cases h
      · cases h
        intro u hu
        rcases List.mem_cons.mp hu with rfl | hu
        · exact raw_encodedArgument hv
        · exact ih hr u hu

/-- A second run gets no shadows. -/
theorem within_runEncoded (admits : AdmitsRules R) (c : NativeCall) : Within R (runEncoded c) := by
  intro m
  unfold runEncoded
  rw [bind_apply, get_apply]
  dsimp only
  split
  · exact refl_of R m
  · rcases (m.heap.function? (m.valueOf c.f)).bind (·.native) with _ | native
    · exact refl_of R m
    · rcases hbase : encodedArgument m c.base with e | base
      · exact refl_of R m
      · rcases hargs : c.args.mapM (encodedArgument m) with e | args
        · exact refl_of R m
        · dsimp only
          rcases ran : native.run m.heap base args with e | ⟨output, heap⟩
          · exact refl_of R m
          · refine admits.runs m native base args output heap (fun w hw => ?_) ran
            rcases List.mem_cons.mp hw with rfl | hw
            · exact raw_encodedArgument hbase
            · exact raw_encodedArguments hargs w hw

theorem within_rerun (admits : AdmitsRules R) (c : NativeCall) : Within R (rerun c) := by
  have marked {α : Type} {x : MemoryM α} (h : Within Marks x) : Within R x := h.mono admits.marks
  refine .bind .get fun m => .bind (.mapM (fun v => marked (MemoryM.marks_history v)) _)
    fun parents => .bind (within_runEncoded admits c) fun output => ?_
  cases output with
  | none => exact .pure _
  | some output =>
    dsimp only
    split
    · exact .pure _
    · exact marked (marks_storeBits _ _ _ _)

theorem marks_getField (levels : Levels) (ops : Operands) : Within Marks (getField levels ops) := by
  refine .bind .get fun m => .bind (MemoryM.marks_entry _) fun base => ?_
  split
  · exact ObjectRule.marks_getField _ _
  · exact MemoryM.marks_recordWhole _ _ _ _

theorem marks_concatenate (ops : Operands) : Within Marks (concatenate ops) := by
  refine .bind .get fun m => ?_
  split
  · dsimp only
    split
    · exact .pure _
    · exact .bind (.mapM MemoryM.marks_history _) fun _ => marks_storeBits _ _ _ _
  · exact .pure _

theorem marks_binary (levels : Levels) (op : String) (ops : Operands) :
    Within Marks (binary levels op ops) := by
  refine .bind .get fun m => ?_
  dsimp only
  split
  · refine .bind (marks_concatenate ops) fun done => ?_
    split
    · exact .pure _
    · exact ObjectRule.marks_binary _ _ _
  · exact ObjectRule.marks_binary _ _ _

theorem within_model (admits : AdmitsRules R) (levels : Levels) {name : String}
    {model : NativeCall → MemoryM Bool} (h : model? levels name = some model) (c : NativeCall) :
    Within R (model c) := by
  have marked {α : Type} {x : MemoryM α} (h : Within Marks x) : Within R x := h.mono admits.marks
  unfold model? at h
  split at h <;> cases h
  · exact marked (marks_blink c)
  · exact marked (marks_substring c)
  · exact marked (marks_concat c)
  · exact marked (marks_sameShape c)
  · exact marked (marks_sameShape c)
  · exact marked (marks_characterCode c)
  · exact marked (marks_characterCode c)
  · exact within_split admits levels c

theorem within_call (admits : AdmitsRules R) (levels : Levels) (c : NativeCall) :
    Within R (call levels c) := by
  have other : Within R (do
      if ← rerun c then return
      ObjectRule.call (some levels.objectGrain) c) := by
    refine .bind (within_rerun admits c) fun done => ?_
    split
    · exact .pure _
    · exact (ObjectRule.marks_call _ _).mono admits.marks
  refine .bind .get fun m => ?_
  split
  · rename_i model found
    refine .bind (within_model admits levels found c) fun done => ?_
    split
    · exact .pure _
    · exact other
  · exact other

end TextRule

namespace ContainerRule

theorem marks_taintWhole (label : String) (v : Value) : Within Marks (taintWhole label v) :=
  .bind (MemoryM.marks_entry v) fun _ => MemoryM.marks_record _ _ _ _ _

theorem marks_taintReceiver (label : String) (c : NativeCall) :
    Within Marks (taintReceiver label c) := by
  refine .bind .get fun m => ?_
  split
  · exact marks_taintWhole _ _
  · exact .pure _

theorem marks_taintRead (label : String) (c : NativeCall) : Within Marks (taintRead label c) :=
  .bind .get fun _ => .bind (MemoryM.marks_entry _) fun _ => MemoryM.marks_recordWhole _ _ _ _

end ContainerRule

namespace ArrayRule

theorem marks_push (c : NativeCall) : Within Marks (push c) := by
  refine .bind .get fun m => ?_
  split
  · exact .bind (ContainerRule.marks_taintWhole _ _) fun _ => .pure _
  · exact .pure _

theorem marks_join (c : NativeCall) : Within Marks (join c) := by
  unfold join
  split
  · exact .pure _
  · exact .bind .get fun _ => .bind (.mapM MemoryM.marks_history _) fun _ =>
      TextRule.marks_storeBits _ _ _ _

theorem marks_mapped (c : NativeCall) : Within Marks (mapped c) := by
  refine .bind .get fun m => ?_
  dsimp only
  split
  · exact .pure _
  · refine .bind (.forM (fun pair => ?_) _) fun _ => .pure _
    refine .bind .get fun m => .bind (MemoryM.marks_history _) fun path => ?_
    split
    · exact .bind (MemoryM.marks_history _) fun _ => MemoryM.marks_recordWhole _ _ _ _
    · exact .pure _

theorem marks_reduced (c : NativeCall) : Within Marks (reduced c) := by
  refine .bind .get fun m => ?_
  split
  · exact .pure _
  · exact .bind (.mapM MemoryM.marks_history _) fun _ =>
      .bind (MemoryM.marks_recordWhole _ _ _ _) fun _ => .pure _

theorem marks_model {grain : Grain} {name : String} {model : NativeCall → MemoryM Bool}
    (h : model? grain name = some model) (c : NativeCall) : Within Marks (model c) := by
  unfold model? at h
  split at h <;> cases h
  · exact marks_push c
  · exact marks_join c
  · exact marks_mapped c
  · exact marks_reduced c
  · exact marks_reduced c

end ArrayRule

namespace ContainerRule

theorem marks_model {kind : Container} {grain : Grain} {name : String}
    {model : NativeCall → MemoryM Unit} (h : model? kind grain name = some model)
    (c : NativeCall) : Within Marks (model c) := by
  unfold model? at h
  split at h <;> cases h
  · exact marks_taintReceiver _ c
  · exact marks_taintRead _ c
  · exact marks_taintReceiver _ c
  · exact marks_taintRead _ c
  all_goals exact .pure _

theorem marks_call (levels : Levels) (kind : Container) (grain : Grain) (c : NativeCall) :
    Within Marks (call levels kind grain c) := by
  have other : Within Marks (ObjectRule.call (some levels.objectGrain) c) :=
    ObjectRule.marks_call _ _
  refine .bind .get fun m => ?_
  dsimp only
  split
  · rename_i model found
    exact marks_model found c
  · split
    · split
      · rename_i model found
        refine .bind (ArrayRule.marks_model found c) fun done => ?_
        split
        · exact .pure _
        · exact other
      · exact other
    · exact other

end ContainerRule

namespace Policy

variable (policy : Policy) (levels : Levels)

theorem marks_getField (ops : Operands) : Within Marks (policy.getField levels ops) := by
  unfold Policy.getField
  split
  · exact TextRule.marks_getField _ _
  · exact ObjectRule.marks_getField _ _

theorem marks_binary (op : String) (ops : Operands) :
    Within Marks (policy.binary levels op ops) := by
  unfold Policy.binary
  split
  · exact TextRule.marks_binary _ _ _
  · exact ObjectRule.marks_binary _ _ _

theorem marks_unary (operand result : Value) :
    Within Marks (policy.unary levels operand result) :=
  ObjectRule.marks_unary _ _ _

/-- The rule for a native function stays within every relation that admits what such rules do. -/
theorem within_call {R : Memory → Memory → Prop} [IsPreorder Memory R] (admits : AdmitsRules R)
    (c : NativeCall) : Within R (policy.call levels c) := by
  unfold Policy.call
  split
  · exact TextRule.within_call admits _ _
  · exact (ContainerRule.marks_call _ _ _ _).mono admits.marks
  · exact (ObjectRule.marks_call _ _).mono admits.marks
  · exact (ObjectRule.marks_call _ _).mono admits.marks
  · exact (ObjectRule.marks_call _ _).mono admits.marks

/-- The memory after nothing happened but that numbers of nodes were used up. -/
def NodesUsed (m m' : Memory) : Prop :=
  ∃ count, m' = { m with shadow := { m.shadow with nextNode := m.shadow.nextNode + count } }

theorem checkPollution_cases (ops : Operands) (m : Memory) :
    ObjectRule.checkPollution ops m = (.ok (), m) ∨
      ∃ f m', ObjectRule.checkPollution ops m = (.error (.finding f), m') ∧ NodesUsed m m' := by
  unfold ObjectRule.checkPollution
  rw [get_bind_apply]
  split
  · exact .inr ⟨_, _, rfl, 1, rfl⟩
  · exact .inl rfl

/-- A store is recorded, or it is refused with a finding, and then nothing is recorded. -/
theorem putField_cases (ops : Operands) (m : Memory) :
    (∃ m', policy.putField levels ops m = (.ok (), m') ∧ m.Marks m') ∨
      ∃ f m', policy.putField levels ops m = (.error (.finding f), m') ∧ NodesUsed m m' := by
  have object (grain : Grain) : (∃ m', ObjectRule.putField grain ops m = (.ok (), m') ∧
      m.Marks m') ∨ ∃ f m', ObjectRule.putField grain ops m = (.error (.finding f), m') ∧
        NodesUsed m m' := by
    rcases checkPollution_cases ops m with passed | ⟨f, m', refused, used⟩
    · left
      unfold ObjectRule.putField
      rw [bind_apply_ok passed]
      cases grain with
      | precise => exact ⟨m, rfl, refl_of Marks m⟩
      | imprecise =>
        have recorded : Within Marks (do
            let base ← MemoryM.history ops.base
            let written ← MemoryM.history ops.value
            let tainted := m.isTainted ops.base || m.isTainted ops.value
            let path ← MemoryM.node "object.putField" [base, written] ops.value
            MemoryM.store ops.base { bit := tainted, chars := m.charMap? ops.base tainted, path }) :=
          .bind (MemoryM.marks_history _) fun _ => .bind (MemoryM.marks_history _) fun _ =>
            .bind (MemoryM.marks_node _ _ _) fun _ => MemoryM.marks_store _ _
        exact ⟨_, rfl, recorded m⟩
    · right
      refine ⟨f, m', ?_, used⟩
      unfold ObjectRule.putField
      exact bind_apply_error refused
  unfold Policy.putField
  split
  · unfold GlobalRule.putField
    rw [get_bind_apply]
    split
    · exact .inr ⟨_, _, rfl, 1, rfl⟩
    · exact .inl ⟨m, rfl, refl_of Marks m⟩
  · exact object _

end Policy

end ShadowTaint
