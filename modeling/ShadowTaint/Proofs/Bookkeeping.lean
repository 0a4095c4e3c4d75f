import ShadowTaint.Policy.Operands
import ShadowTaint.Proofs.Wrap
/-!
# What bookkeeping stays within

To take shadows off and to put them on, hooks mint identities, keep them in the current frame and add
handles. Whatever else they do with an operand repeats such steps: for the members of a container, for
the properties of an object, for the arguments of a call. So a relation between memories that admits
the steps admits all of it.

## Main definitions

- `Memory.AdmitsIdentities`: identities may be minted, and the current frame may change.
- `Memory.AdmitsHandles`: handles may be added as well.

## Main statements

- `Memory.AdmitsIdentities.unwrap`, `Memory.AdmitsHandles.wrap`: so a shadow may be taken off a value,
  and one may be put on.
- `Memory.AdmitsIdentities.unwrapObject`, `Memory.AdmitsIdentities.wrapTrees`: so it is for everything
  below an object.
- `Memory.AdmitsIdentities.prepareArguments`, `Memory.AdmitsIdentities.restoreArguments`: so it is for the
  arguments of a call.

## Design notes

The steps on containers and on properties are parameters of the lemmas, not parts of the structures.
Relations differ in what they say about them: some hold for whatever is stored, others for what a
traversal stores.
-/

namespace ShadowTaint

open Memory

namespace MemoryM

section Loops

variable {R : Memory → Memory → Prop} [IsPreorder Memory R] {levels : Levels}

theorem within_settle (holds : ∀ grain v, Within R (hold grain v))
    (stores : ∀ id values, Within R (modifyHeap (·.setHeld id values))) (policy : Policy) (v : Value) :
    Within R (settle policy v) := by
  intro m
  rcases settle_cases policy v m with ⟨c, grain, id, values, -, -, -, settled⟩ | ⟨same, -⟩
  · rw [settled]
    exact trans_of R (Within.mapM (holds grain) values m) (stores id _ _)
  · rw [same]
    exact refl_of R m

theorem within_stripProperties
    (strips : ∀ id key children child, Within R (stripProperty id key children child)) (depth : Nat)
    (id : ObjectId) (visited : List ObjectId) : Within R (stripProperties depth id visited) := by
  induction depth generalizing id visited with
  | zero => exact .pure _
  | succ depth ih =>
    rw [stripProperties]
    refine .bind .get fun m => .foldlM (fun acc key => ?_) _ _
    refine .bind .get fun m => ?_
    dsimp only
    split
    · exact .bind (strips _ _ _ _) fun _ => .pure _
    · split
      · exact .pure _
      · exact .bind (ih _ _) fun _ => .bind (strips _ _ _ _) fun _ => .pure _

theorem within_unwrapObject
    (strips : ∀ id key children child, Within R (stripProperty id key children child))
    (unwraps : ∀ v, Within R (unwrap v)) (v : Value) : Within R (unwrapObject v) := by
  refine .bind .get fun m => ?_
  split
  · exact .bind (unwraps v) fun _ => .pure _
  · exact .bind (within_stripProperties strips _ _ _) fun _ => .bind (unwraps v) fun _ => .pure _

theorem within_stripArgument (unwraps : ∀ v, Within R (unwrapObject v))
    (stores : ∀ id key v, Within R (modifyHeap (·.setProperty id key v))) (arg : Value)
    (kept : Option (ObjectId × Value)) : Within R (stripArgument arg kept) := by
  refine .bind (unwraps arg) fun _ => ?_
  cases kept with
  | none => exact .bind (.pure _) fun _ => .pure _
  | some kept => exact .bind (stores _ _ _) fun _ => .pure _

/-- Besides the identities of the arguments, trees are put into the frame at most. -/
theorem within_prepareArguments (reserves : ∀ v, Within R (reserve v))
    (unwraps : ∀ v, Within R (unwrap v)) (strips : ∀ f args, Within R (stripArguments f args))
    (policy : Policy) (f : Value) (args : List Value) : Within R (prepareArguments policy f args) := by
  refine .bind .get fun m => ?_
  split
  · exact .bind (.forM reserves _) fun _ => .pure _
  · split
    · exact .pure _
    · exact .bind (unwraps _) fun _ => .bind (.forM reserves _) fun _ => .pure _
  · exact strips f args

theorem within_mapLastFirst {action : Value → MemoryM Value} (h : ∀ v, Within R (action v))
    (vs : List Value) : Within R (mapLastFirst action vs) := by
  induction vs with
  | nil => exact .pure _
  | cons v rest ih => exact .bind ih fun _ => .bind (h v) fun _ => .pure _

theorem within_restoreArgument (wraps : ∀ v, Within R (wrap levels v))
    (trees : ∀ id trees, Within R (wrapTrees levels id trees)) (arg : Value) :
    Within R (restoreArgument levels arg) := by
  unfold restoreArgument
  rcases arg.object? with _ | id
  · exact wraps arg
  · refine .bind .get fun m => ?_
    rcases m.shadow.frame.trees.get? id with _ | found
    · exact wraps arg
    · exact .bind (trees id found) fun _ => wraps arg

theorem within_restoreArguments (wraps : ∀ v, Within R (wrap levels v))
    (trees : ∀ id trees, Within R (wrapTrees levels id trees)) (policy : Policy) (f : Value)
    (args : List Value) : Within R (restoreArguments levels policy f args) := by
  refine .bind .get fun m => ?_
  split
  · exact within_mapLastFirst (within_restoreArgument wraps trees) args
  · exact within_mapLastFirst wraps args

end Loops

end MemoryM

namespace Memory

variable {R : Memory → Memory → Prop}

/-- The relation admits that an identity is minted, and that the current frame changes. -/
structure AdmitsIdentities (R : Memory → Memory → Prop) : Prop where
  mint : ∀ m : Memory, R m { m with shadow := m.shadow.mint.2 }
  frame : ∀ (m : Memory) (frame : Frame), R m { m with shadow := { m.shadow with frame } }

/-- The relation admits that a handle is added as well. -/
structure AdmitsHandles (R : Memory → Memory → Prop) : Prop extends AdmitsIdentities R where
  handle : ∀ (m : Memory) (id : Identity) (raw : Literal),
    R m { m with shadow := (m.shadow.addHandle id raw).2 }

open MemoryM

namespace AdmitsIdentities

theorem takeIdentity (admits : AdmitsIdentities R) : Within R MemoryM.takeIdentity := by
  intro m
  rcases m.shadow.take_cases with ⟨id, rest, -, run⟩ | ⟨-, run⟩
  · rw [MemoryM.takeIdentity, stepShadow, run]
    exact admits.frame m _
  · rw [MemoryM.takeIdentity, stepShadow, run]
    exact admits.mint m

variable [IsPreorder Memory R] (admits : AdmitsIdentities R) {levels : Levels}
include admits

theorem discard : Within R MemoryM.discard := .bind admits.takeIdentity fun _ => .pure _

theorem identityOf (v : Value) : Within R (MemoryM.identityOf v) := by
  intro m
  rcases identityOf_cases v m with ⟨id, raw, -, run⟩ | ⟨-, run⟩
  · rw [run]
    exact refl_of R m
  · rw [run]
    exact admits.mint m

theorem reserve (v : Value) : Within R (MemoryM.reserve v) :=
  .bind (admits.identityOf v) fun _ m => admits.frame m _

theorem unwrap (v : Value) : Within R (MemoryM.unwrap v) :=
  .bind .get fun _ => .bind (admits.reserve v) fun _ => .pure _

theorem prepareStored (policy : Policy) (v : Value) : Within R (MemoryM.prepareStored policy v) := by
  unfold MemoryM.prepareStored
  split
  · exact admits.unwrap v
  · exact .pure v

section Properties

variable (stores : ∀ id key v, Within R (modifyHeap (·.setProperty id key v)))
include stores

theorem stripProperty (id : ObjectId) (key : String) (children : List TaintTree) (child : Value) :
    Within R (MemoryM.stripProperty id key children child) :=
  .bind (admits.identityOf child) fun _ => .bind .get fun _ => .bind (stores _ _ _) fun _ => .pure _

theorem unwrapObject (v : Value) : Within R (MemoryM.unwrapObject v) :=
  within_unwrapObject (admits.stripProperty stores) admits.unwrap v

theorem stripArgument (arg : Value) (kept : Option (ObjectId × Value)) :
    Within R (MemoryM.stripArgument arg kept) :=
  within_stripArgument (admits.unwrapObject stores) stores arg kept

theorem stripArguments (f : Value) (args : List Value) : Within R (MemoryM.stripArguments f args) :=
  .bind .get fun _ => .bind
    (.mapM (fun _ => .bind .get fun _ => admits.stripArgument stores _ _) _) fun _ =>
      .bind (fun m => admits.frame m _) fun _ => .pure _

theorem prepareArguments (policy : Policy) (f : Value) (args : List Value) :
    Within R (MemoryM.prepareArguments policy f args) :=
  within_prepareArguments admits.reserve admits.unwrap (admits.stripArguments stores) policy f args

end Properties

omit admits in
mutual

theorem wrapTree (admits : AdmitsIdentities R) (wraps : ∀ v, Within R (wrap levels v))
    (stores : ∀ id key v, Within R (modifyHeap (·.setProperty id key v))) (id : ObjectId) :
    ∀ tree : TaintTree, Within R (MemoryM.wrapTree levels id tree)
  | ⟨key, identity, children⟩ => by
    rw [MemoryM.wrapTree]
    refine .bind .get fun m => ?_
    split
    · refine .bind (fun m => admits.frame m _) fun _ => .bind .get fun m =>
        .bind (wraps _) fun wrapped => ?_
      rcases wrapped.object? with _ | child
      · exact stores _ _ _
      · exact .bind (admits.wrapTrees wraps stores child children) fun _ => stores _ _ _
    · exact .pure _

/-- Along trees every property is wrapped and stored again, under an identity that is reserved for
it. -/
theorem wrapTrees (admits : AdmitsIdentities R) (wraps : ∀ v, Within R (wrap levels v))
    (stores : ∀ id key v, Within R (modifyHeap (·.setProperty id key v))) (id : ObjectId) :
    ∀ trees : List TaintTree, Within R (MemoryM.wrapTrees levels id trees)
  | [] => by
    rw [MemoryM.wrapTrees]
    exact .pure _
  | tree :: rest => by
    rw [MemoryM.wrapTrees]
    exact .bind (admits.wrapTree wraps stores id tree) fun _ => admits.wrapTrees wraps stores id rest

end

theorem restoreArguments (wraps : ∀ v, Within R (wrap levels v))
    (stores : ∀ id key v, Within R (modifyHeap (·.setProperty id key v))) (policy : Policy) (f : Value)
    (args : List Value) : Within R (MemoryM.restoreArguments levels policy f args) :=
  within_restoreArguments wraps (admits.wrapTrees wraps stores) policy f args

end AdmitsIdentities

namespace AdmitsHandles

variable [IsPreorder Memory R] (admits : AdmitsHandles R)
include admits

theorem shadow (id : Identity) (raw : Literal) : Within R (MemoryM.shadow id raw) := by
  intro m
  rcases skips : m.shadow.frame.callType.skipsWrapping
  · rw [shadow_of_wraps skips]
    exact admits.handle m id raw
  · rw [shadow_of_skips skips]
    exact refl_of R m

theorem wrapFresh (v : Value) : Within R (MemoryM.wrapFresh v) := by
  cases v with
  | literal raw => exact .bind admits.mint fun id => admits.shadow id raw
  | object id => exact .pure _
  | shadow handle identity raw => exact .pure _

theorem hold (grain : Grain) (v : Value) : Within R (MemoryM.hold grain v) := by
  cases grain with
  | imprecise => exact .bind (admits.unwrap v) fun _ => .bind admits.discard fun _ => .pure _
  | precise => exact admits.wrapFresh v

theorem wrap (stores : ∀ id values, Within R (modifyHeap (·.setHeld id values))) (levels : Levels)
    (v : Value) : Within R (MemoryM.wrap levels v) := by
  have settles := within_settle admits.hold stores
  cases v with
  | literal raw => exact .bind admits.takeIdentity fun id => admits.shadow id raw
  | object id =>
    exact .bind .get fun m => .bind (settles _ _) fun _ => .bind admits.discard fun _ => .pure _
  | shadow handle identity raw =>
    exact .bind .get fun m => .bind (settles _ _) fun _ => .bind admits.discard fun _ => .pure _

end AdmitsHandles

end Memory

namespace MemoryM

section Issuing

theorem admitsHandles_issues : AdmitsHandles Issues where
  mint _ := ⟨rfl, rfl⟩
  frame _ _ := ⟨rfl, rfl⟩
  handle _ _ _ := ⟨rfl, rfl⟩

theorem issues_identityOf (v : Value) : Within Issues (identityOf v) :=
  admitsHandles_issues.identityOf v

theorem issues_unwrap (v : Value) : Within Issues (unwrap v) := admitsHandles_issues.unwrap v

theorem issues_takeIdentity : Within Issues takeIdentity := admitsHandles_issues.takeIdentity

theorem issues_discard : Within Issues discard := admitsHandles_issues.discard

theorem issues_shadow (id : Identity) (raw : Literal) : Within Issues (shadow id raw) :=
  admitsHandles_issues.shadow id raw

/-- Settling one member of a container only issues; that the container changes comes on top. -/
theorem issues_hold (grain : Grain) (v : Value) : Within Issues (hold grain v) :=
  admitsHandles_issues.hold grain v

end Issuing

end MemoryM

end ShadowTaint
