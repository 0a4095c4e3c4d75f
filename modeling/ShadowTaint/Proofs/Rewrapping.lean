import ShadowTaint.Proofs.Looks
import ShadowTaint.Proofs.Sorting
/-!
# Identities of properties

Before an external call the shadows are taken off everything that an argument reaches, and the identities
are kept as trees. After the call what the properties hold by then gets shadows under these identities.
This file follows the marks of the identities there and back: where the properties still show what they
showed, every identity is put on a literal of the kind that it is marked for.

## Main definitions

- `Memory.Sheds`: properties have lost shadows, and still show what they showed.
- `Memory.Suited`: the identities in trees are marked for what properties show.
- `Memory.Peels`: a walk has found trees whose identities are marked.

## Main statements

- `MemoryM.sorted_prepareArguments`: the trees that are found fit.
- `MemoryM.sorted_restoreArguments`: along trees that fit shadows can be put back.

## Design notes

The trees are walked back when every shadow has been taken off, and by then some may have been put on
again. So they fit a relation of properties and values, and it is a condition on the memory that the
properties show these values.
-/

namespace ShadowTaint

open Memory

/-- An object is reached from the roots through properties and elements. -/
inductive Heap.Leads (h : Heap) (roots : List Value) : ObjectId → Prop where
  | root {id : ObjectId} (mem : .object id ∈ roots) : Leads h roots id
  | property {id child : ObjectId} {key : String} (reached : Leads h roots id)
      (holds : h.getProperty id key = .object child) : Leads h roots child

namespace Memory

variable {m m' : Memory} {kinds kinds' : List Bool} {id : ObjectId} {key : String} {r v w : Value}
  {S S' : ObjectId → String → Value → Prop} {trees : List TaintTree}

/-- What properties show is the same, and elements that were bare are bare still. -/
structure Sheds (m m' : Memory) : Prop where
  wraps : m'.shadow.wraps = m.shadow.wraps
  value : ∀ id key,
    m'.valueOf (m'.heap.getProperty id key) = m.valueOf (m.heap.getProperty id key)
  bare : ∀ id key, Text.readIndex? key ≠ none →
    (m.heap.getProperty id key).raw = m.heap.getProperty id key →
    (m'.heap.getProperty id key).raw = m'.heap.getProperty id key
  inside : ∀ id key, m.heap.Inside id key → m'.heap.Inside id key

/-- The property stands for the value, and if it is an element it holds no shadow. -/
def Bared (m : Memory) (id : ObjectId) (key : String) (r : Value) : Prop :=
  m.valueOf (m.heap.getProperty id key) = r ∧
    (Text.readIndex? key ≠ none → (m.heap.getProperty id key).raw = m.heap.getProperty id key)

/-- The properties of an object along the trees are related to values, for which the identities in the
trees are marked. -/
inductive Suited (S : ObjectId → String → Value → Prop) (kinds : List Bool) :
    ObjectId → List TaintTree → Prop where
  | nil (id : ObjectId) : Suited S kinds id []
  | cons {id : ObjectId} {key : String} {identity : Identity} {children rest : List TaintTree}
      {r : Value} (shown : S id key r) (suits : Suits kinds r identity)
      (below : ∀ child, r.object? = some child → Suited S kinds child children)
      (later : Suited S kinds id rest) : Suited S kinds id (⟨key, identity, children⟩ :: rest)

instance : IsPreorder Memory Sheds where
  refl _ := ⟨rfl, fun _ _ => rfl, fun _ _ _ h => h, fun _ _ h => h⟩
  trans _ _ _ first second := ⟨second.wraps.trans first.wraps,
    fun id key => (second.value id key).trans (first.value id key),
    fun id key index h => second.bare id key index (first.bare id key index h),
    fun id key h => second.inside id key (first.inside id key h)⟩

theorem sheds_of_heap (heap : m'.heap = m.heap) (wraps : m'.shadow.wraps = m.shadow.wraps) :
    m.Sheds m' where
  wraps := wraps
  value id key := by rw [heap, Memory.valueOf_of_wraps wraps]
  bare := by
    rw [heap]
    exact fun _ _ _ h => h
  inside := by
    rw [heap]
    exact fun _ _ h => h

/-- What a property stands for may be stored in its place. -/
theorem sheds_setProperty (inside : m.heap.Inside id key)
    (same : m.valueOf w = m.valueOf (m.heap.getProperty id key))
    (bare : Text.readIndex? key ≠ none → w.raw = w) :
    m.Sheds { m with heap := m.heap.setProperty id key w } where
  wraps := rfl
  inside _ _ h := h.setProperty inside w
  value x name := by
    show m.valueOf ((m.heap.setProperty id key w).getProperty x name) = _
    rcases Heap.getProperty_setProperty inside w x name with unchanged | ⟨stored, old, -⟩
    · rw [unchanged]
    · rw [stored, old, same]
  bare x name index h := by
    show ((m.heap.setProperty id key w).getProperty x name).raw =
      (m.heap.setProperty id key w).getProperty x name
    rcases Heap.getProperty_setProperty inside w x name with unchanged | ⟨stored, -, index'⟩
    · rwa [unchanged]
    · rw [stored]
      exact bare (index' ▸ index)

theorem Sheds.valueOf (h : m.Sheds m') (v : Value) : m'.valueOf v = m.valueOf v :=
  Memory.valueOf_of_wraps h.wraps v

theorem Bared.sheds (h : m.Bared id key r) (sheds : m.Sheds m') : m'.Bared id key r :=
  ⟨(sheds.value id key).trans h.1, fun index => sheds.bare id key index (h.2 index)⟩

/-- A property without its shadow shows what it stands for. -/
theorem Bared.shows (h : m.Bared id key r) : m.Shows id key r := by
  obtain ⟨rfl, element⟩ := h
  by_cases bare : (m.heap.getProperty id key).raw = m.heap.getProperty id key
  · exact .inl ⟨.inl bare, rfl⟩
  · refine .inr ⟨bare, ?_, ?_⟩
    · cases property : m.heap.getProperty id key with
      | literal raw => rw [property] at bare; exact absurd rfl bare
      | object o => rw [property] at bare; exact absurd rfl bare
      | shadow handle identity raw =>
        exact Memory.objectOf?_eq (m := m) (.shadow handle identity raw)
    · by_contra index
      exact bare (element index)

theorem Suited.mono (h : Suited S kinds id trees) (imp : ∀ id key r, S id key r → S' id key r)
    (more : kinds <+: kinds') : Suited S' kinds' id trees := by
  induction h with
  | nil id => exact .nil id
  | cons shown suits _ _ below later =>
    exact .cons (imp _ _ _ shown) (suits.mono more) below later

theorem Suited.append {trees' : List TaintTree} (h : Suited S kinds id trees)
    (h' : Suited S kinds id trees') : Suited S kinds id (trees ++ trees') := by
  induction h with
  | nil id => exact h'
  | cons shown suits below _ _ later => exact .cons shown suits below (later h')

/-- A walk from an object has found trees, and it has taken off the shadows of the properties in them. -/
structure Peels (m₀ : Memory) (kinds₀ : List Bool) (id : ObjectId) (trees : List TaintTree)
    (m : Memory) (kinds : List Bool) : Prop where
  more : kinds₀ <+: kinds
  sorted : m.Sorted kinds
  sheds : m₀.Sheds m
  suited : Suited m.Bared kinds id trees

/-- Shadows were taken off arguments: the identities of the given values are reserved, and the trees that
were found for arguments fit. -/
structure Unpacks (m₀ : Memory) (kinds₀ : List Bool) (vs : List Value)
    (results : List (Value × List TaintTree)) (m : Memory) (kinds : List Bool) : Prop where
  more : kinds₀ <+: kinds
  sorted : m.Sorted kinds
  sheds : m₀.Sheds m
  awaits : m.Awaits vs kinds
  suited : ∀ r ∈ results, ∀ id, r.1.object? = some id → Suited m.Bared kinds id r.2

/-- What the property holds is the same, or it stands for what the property stood for. -/
def Stays (m m' : Memory) (id : ObjectId) (key : String) : Prop :=
  m'.heap.getProperty id key = m.heap.getProperty id key ∨
    m'.Stands (m'.heap.getProperty id key) (m.valueOf (m.heap.getProperty id key))

theorem Bared.stays (h : m.Bared id key r) (grows : m.Grows m') (stays : m.Stays m' id key) :
    m'.Shows id key r := by
  rcases stays with same | stands
  · rw [Shows, same]
    exact h.shows.imp_left fun stands => stands.of_known grows.known
  · rw [h.1] at stands
    exact .inl stands

/-- Trees fit as long as the properties of what is reached stay. -/
theorem Suited.stays {roots : List Value} (suited : Suited m.Bared kinds id trees)
    (grows : m.Grows m') (reached : m.heap.Leads roots id)
    (stays : ∀ id, m.heap.Leads roots id → ∀ key, m.Stays m' id key) :
    Suited m'.Shows kinds id trees := by
  induction suited with
  | nil id => exact .nil id
  | @cons id key identity children rest r shown suits _ _ below later =>
    refine .cons (shown.stays grows (stays id reached key)) suits (fun child object => ?_) (later reached)
    have property : m.heap.getProperty id key = .object child :=
      MemoryM.objectOf?_eq_some (m := m) ((congrArg Value.object? shown.1).trans object)
    exact below child object (.property reached property)

end Memory

namespace MemoryM

section Stripping

variable {m₀ m : Memory} {kinds₀ kinds : List Bool} {id : ObjectId} {key : String}
  {trees : List TaintTree} {child : Value}

/-- One more property loses its shadow. -/
theorem peels_stripProperty (children : List TaintTree)
    (peels : m₀.Peels kinds₀ id trees m kinds) (inside : m₀.heap.Inside id key)
    (shown : m.valueOf child = m.valueOf (m.heap.getProperty id key))
    (below : ∀ o, (m.valueOf child).object? = some o → Suited m.Bared kinds o children) :
    ∃ kinds', m₀.Peels kinds₀ id (trees ++ [(stripProperty id key children child m).1])
      (stripProperty id key children child m).2 kinds' := by
  obtain ⟨kinds', more, sorted, suits⟩ := sorted_identityOf_valueOf child peels.sorted
  have identified : m.Sheds (identityOf child m).2 := by
    refine sheds_of_heap (issues_identityOf child m).heap ?_
    rcases identityOf_cases child m with ⟨_, _, -, run⟩ | ⟨-, run⟩
    · rw [run]
    · rw [run]
      rfl
  have strip : stripProperty id key children child m =
      (⟨key, (identityOf child m).1, children⟩, { (identityOf child m).2 with
        heap := (identityOf child m).2.heap.setProperty id key
          ((identityOf child m).2.valueOf child) }) := rfl
  rw [strip, identified.valueOf]
  generalize (identityOf child m).1 = identity at suits
  generalize (identityOf child m).2 = m₁ at sorted identified
  have raw : (m.valueOf child).raw = m.valueOf child := m.shadow.raw_valueOf child
  have inside₁ : m₁.heap.Inside id key := identified.inside id key (peels.sheds.inside id key inside)
  have sheds : m.Sheds { m₁ with heap := m₁.heap.setProperty id key (m.valueOf child) } := by
    refine trans_of Sheds identified (sheds_setProperty inside₁ ?_ fun _ => raw)
    rw [valueOf_of_bare _ raw, shown, identified.value]
  have mono {o : ObjectId} {ts : List TaintTree} (suited : Suited m.Bared kinds o ts) :=
    suited.mono (fun _ _ _ bared => bared.sheds sheds) more
  have here : Bared { m₁ with heap := m₁.heap.setProperty id key (m.valueOf child) } id key
      (m.valueOf child) := by
    refine ⟨(sheds.value id key).trans shown.symm, fun _ => ?_⟩
    rcases Heap.getProperty_setProperty_self inside₁ (m.valueOf child) with same | bare
    · rw [same, raw]
    · exact bare
  exact ⟨kinds', peels.more.trans more, sorted.congr rfl rfl, trans_of Sheds peels.sheds sheds,
    (mono peels.suited).append (.cons here suits (fun o object => mono (below o object)) (.nil id))⟩

/-- Every turn of the loop over the keys finds one more tree or none. -/
theorem peels_foldlM {f : List TaintTree × List ObjectId → String →
      MemoryM (List TaintTree × List ObjectId)} (keys : List String)
    (step : ∀ key ∈ keys, ∀ acc m kinds, m₀.Peels kinds₀ id acc.1 m kinds →
      ∃ kinds', m₀.Peels kinds₀ id (f acc key m).1.1 (f acc key m).2 kinds')
    (acc : List TaintTree × List ObjectId) (peels : m₀.Peels kinds₀ id acc.1 m kinds) :
    ∃ kinds', m₀.Peels kinds₀ id (keys.foldlM f acc m).1.1 (keys.foldlM f acc m).2 kinds' := by
  induction keys generalizing acc m kinds with
  | nil => exact ⟨kinds, peels⟩
  | cons key rest ih =>
    rw [List.foldlM_cons]
    obtain ⟨kinds', peels'⟩ := step key List.mem_cons_self acc m kinds peels
    exact ih (fun key hkey => step key (List.mem_cons_of_mem _ hkey)) _ peels'

theorem peels_stripProperties (depth : Nat) (id : ObjectId) (visited : List ObjectId)
    (sorted : m.Sorted kinds) :
    ∃ kinds', m.Peels kinds id (stripProperties depth id visited m).1.1
      (stripProperties depth id visited m).2 kinds' := by
  have start (id : ObjectId) {m : Memory} {kinds : List Bool} (sorted : m.Sorted kinds) :
      m.Peels kinds id [] m kinds :=
    ⟨List.prefix_refl kinds, sorted, refl_of Sheds m, .nil id⟩
  induction depth generalizing id visited m kinds with
  | zero => exact ⟨kinds, start id sorted⟩
  | succ depth ih =>
    rw [stripProperties]
    refine peels_foldlM (m.heap.ownKeys id) ?_ _ (start id sorted)
    rintro key own ⟨trees, visited⟩ m' kinds' peels
    have inside := Heap.inside_of_mem_ownKeys own
    dsimp only
    rw [bind_apply, get_apply]
    dsimp only
    rcases object : m'.objectOf? (m'.heap.getProperty id key) with _ | child
    · exact peels_stripProperty [] peels inside rfl fun o there => by
        rw [show m'.objectOf? _ = _ from there] at object
        cases object
    · dsimp only
      by_cases seen : child ∈ visited
      · rw [if_pos seen]
        exact ⟨kinds', peels⟩
      · rw [if_neg seen]
        -- the level below starts from here, and its trees become children of this one
        obtain ⟨kinds'', below⟩ := ih child (child :: visited) peels.sorted
        refine peels_stripProperty (stripProperties depth child (child :: visited) m').1.1
          ⟨peels.more.trans below.more, below.sorted, trans_of Sheds peels.sheds below.sheds,
            peels.suited.mono (fun _ _ _ bared => bared.sheds below.sheds) below.more⟩ inside ?_ ?_
        · rw [below.sheds.valueOf, below.sheds.value]
        · intro o there
          rw [below.sheds.valueOf] at there
          rw [show m'.objectOf? _ = _ from there] at object
          cases object
          exact below.suited

/-- The shadow of an argument is taken off after those of its properties. -/
theorem unpacks_unwrapObject (arg : Value) {vs : List Value} (sorted : m.Sorted kinds)
    (awaits : m.Awaits vs kinds) :
    ∃ kinds', m.Unpacks kinds ((unwrapObject arg m).1.1 :: vs) [(unwrapObject arg m).1]
      (unwrapObject arg m).2 kinds' := by
  have sheds (m : Memory) : m.Sheds (unwrap arg m).2 :=
    sheds_of_heap (issues_unwrap arg m).heap (admitsStripping_sameHandles.unwrap arg m)
  unfold unwrapObject
  rw [bind_apply, get_apply]
  dsimp only
  rcases object : m.objectOf? arg with _ | id
  · obtain ⟨kinds', more, sorted', awaits'⟩ := sorts_unwrap arg vs kinds m sorted awaits
    refine ⟨kinds', more, sorted', sheds m, awaits', fun r hr id here => ?_⟩
    rw [List.mem_singleton.mp hr] at here
    rw [show m.objectOf? arg = some id from here] at object
    cases object
  · obtain ⟨kinds₁, peels⟩ := peels_stripProperties m.heap.objects.size id [id] sorted
    have frame := (strips_stripProperties m.heap.objects.size id [id] m).1.frame
    obtain ⟨kinds', more, sorted', awaits'⟩ := sorts_unwrap arg vs kinds₁ _ peels.sorted
      (awaits.mono peels.more (congrArg Frame.reserved frame))
    refine ⟨kinds', peels.more.trans more, sorted', trans_of Sheds peels.sheds (sheds _), awaits',
      fun r hr id' found => ?_⟩
    rw [List.mem_singleton.mp hr] at found ⊢
    have here : m.objectOf? arg = some id' :=
      (congrArg Value.object? (peels.sheds.valueOf arg)).symm.trans found
    rw [object] at here
    cases here
    exact peels.suited.mono (fun _ _ _ bared => bared.sheds (sheds _)) more

/-- The value of a descriptor is put back as it was. -/
theorem unpacks_stripArgument (arg : Value) {kept : Option (ObjectId × Value)} {vs : List Value}
    (own : ∀ id v, kept = some (id, v) → v = m.heap.getProperty id "value") (sorted : m.Sorted kinds)
    (awaits : m.Awaits vs kinds) :
    ∃ kinds', m.Unpacks kinds ((stripArgument arg kept m).1.1 :: vs) [(stripArgument arg kept m).1]
      (stripArgument arg kept m).2 kinds' := by
  obtain ⟨kinds', stripped⟩ := unpacks_unwrapObject arg sorted awaits
  rcases kept with _ | ⟨id, v⟩
  · exact ⟨kinds', stripped⟩
  · have named : Text.readIndex? "value" = none := by decide +kernel
    have put : (unwrapObject arg m).2.Sheds { (unwrapObject arg m).2 with
        heap := (unwrapObject arg m).2.heap.setProperty id "value" v } := by
      refine sheds_setProperty (Heap.inside_of_name named) ?_ fun index => absurd named index
      rw [stripped.sheds.value, stripped.sheds.valueOf, own id v rfl]
    exact ⟨kinds', stripped.more, stripped.sorted.congr rfl rfl, trans_of Sheds stripped.sheds put,
      stripped.awaits, fun r hr o object => (stripped.suited r hr o object).mono
        (fun _ _ _ bared => bared.sheds put) (List.prefix_refl kinds')⟩

/-- What is done to one argument is done to all of them. -/
theorem unpacks_mapM {α : Type} {f : α → MemoryM (Value × List TaintTree)}
    (step : ∀ a (m : Memory) kinds vs, m.Sorted kinds → m.Awaits vs kinds →
      ∃ kinds', m.Unpacks kinds ((f a m).1.1 :: vs) [(f a m).1] (f a m).2 kinds')
    (as : List α) {vs : List Value} (sorted : m.Sorted kinds) (awaits : m.Awaits vs kinds) :
    ∃ kinds', m.Unpacks kinds (((as.mapM f m).1.map (·.1)).reverse ++ vs) (as.mapM f m).1
      (as.mapM f m).2 kinds' := by
  induction as generalizing m kinds vs with
  | nil => exact ⟨kinds, List.prefix_refl kinds, sorted, refl_of Sheds m, awaits, fun _ hr => nomatch hr⟩
  | cons a rest ih =>
    obtain ⟨kinds₁, first⟩ := step a m kinds vs sorted awaits
    obtain ⟨kinds₂, later⟩ := ih first.sorted first.awaits
    rw [List.mapM_cons]
    refine ⟨kinds₂, first.more.trans later.more, later.sorted, trans_of Sheds first.sheds later.sheds,
      ?_, fun r hr id object => ?_⟩
    · show Awaits ((((f a m).1.1 :: _).reverse) ++ vs) kinds₂ _
      rw [List.reverse_cons, List.append_assoc]
      exact later.awaits
    · rcases List.mem_cons.mp hr with rfl | hr
      · exact (first.suited _ (List.mem_singleton_self _) id object).mono
          (fun _ _ _ bared => bared.sheds later.sheds) later.more
      · exact later.suited r hr id object

/-- The trees that are kept fit, and they are those of objects among the arguments. -/
theorem sorted_stripArguments (f : Value) (args : List Value) {vs : List Value} (sorted : m.Sorted kinds)
    (awaits : m.Awaits vs kinds) :
    ∃ kinds', kinds <+: kinds' ∧ (stripArguments f args m).2.Sorted kinds' ∧
      (stripArguments f args m).2.Awaits ((stripArguments f args m).1.reverse ++ vs) kinds' ∧
      ∀ id trees, (stripArguments f args m).2.shadow.frame.trees.get? id = some trees →
        .object id ∈ (stripArguments f args m).1 ∧
          Suited (stripArguments f args m).2.Bared kinds' id trees := by
  obtain ⟨kinds', stripped⟩ := unpacks_mapM (f := fun p : Value × Nat => do
      let m' ← get
      stripArgument p.1 (if m.functionName f == "defineProperty" && p.2 == 2 then
        descriptorValue? m' p.1 else none))
    (fun p m' kinds vs sorted awaits => unpacks_stripArgument p.1 (fun id v kept => by
      split at kept
      · unfold descriptorValue? at kept
        obtain ⟨object, -, kept⟩ := Option.bind_eq_some_iff.mp kept
        dsimp only at kept
        split at kept
        · cases kept
        · cases kept
          rfl
      · cases kept) sorted awaits) args.zipIdx sorted awaits
  refine ⟨kinds', stripped.more, stripped.sorted.congr rfl rfl, stripped.awaits,
    fun id trees found => ?_⟩
  obtain ⟨⟨raw, trees'⟩, mem, eq⟩ := List.mem_filterMap.mp (Table.mem_of_ofList found)
  dsimp only at eq
  split at eq
  · rename_i o object
    split at eq
    · cases eq
    · cases eq
      have same : raw = .object id := by
        cases raw <;> cases object
        rfl
      exact ⟨List.mem_map.mpr ⟨_, mem, same⟩, stripped.suited _ mem id object⟩
  · cases eq

theorem sorts_forM_reserve (args vs : List Value) :
    Sorts (Awaits vs) (args.forM reserve) fun _ => Awaits (args.reverse ++ vs) := by
  induction args generalizing vs with
  | nil => exact .pure fun _ _ h => h
  | cons v rest ih =>
    rw [List.reverse_cons, List.append_assoc]
    exact .bind (sorts_reserve v vs) fun _ => ih (v :: vs)

/-- However arguments are passed, the identities that are reserved for them are marked, and where they
are stripped the trees fit. -/
theorem sorted_prepareArguments (policy : Policy) (f : Value) (args : List Value) {vs : List Value}
    (sorted : m.Sorted kinds) (awaits : m.Awaits vs kinds) :
    ∃ kinds', kinds <+: kinds' ∧ (prepareArguments policy f args m).2.Sorted kinds' ∧
      (prepareArguments policy f args m).2.Awaits
        ((prepareArguments policy f args m).1.reverse ++ vs) kinds' ∧
      (policy.passing m f args = .stripped → ∀ id trees,
        (prepareArguments policy f args m).2.shadow.frame.trees.get? id = some trees →
        .object id ∈ (prepareArguments policy f args m).1 ∧
          Suited (prepareArguments policy f args m).2.Bared kinds' id trees) := by
  unfold prepareArguments
  rw [bind_apply, get_apply]
  dsimp only
  cases policy.passing m f args with
  | wrapped =>
    obtain ⟨kinds', more, sorted', awaits'⟩ := sorts_forM_reserve args vs kinds m sorted awaits
    exact ⟨kinds', more, sorted', awaits', nofun⟩
  | wrappedAfterKey =>
    cases args with
    | nil => exact ⟨kinds, List.prefix_refl kinds, sorted, awaits, nofun⟩
    | cons key rest =>
      obtain ⟨kinds₁, more₁, sorted₁, awaits₁⟩ := sorts_unwrap key vs kinds m sorted awaits
      obtain ⟨kinds', more, sorted', awaits'⟩ := sorts_forM_reserve rest (m.valueOf key :: vs) kinds₁
        (unwrap key m).2 sorted₁ awaits₁
      refine ⟨kinds', more₁.trans more, sorted', ?_, nofun⟩
      show Awaits ((m.valueOf key :: rest).reverse ++ vs) kinds' _
      rw [List.reverse_cons, List.append_assoc]
      exact awaits'
  | stripped =>
    obtain ⟨kinds', more, sorted', awaits', suited⟩ := sorted_stripArguments f args sorted awaits
    exact ⟨kinds', more, sorted', awaits', fun _ => suited⟩

end Stripping

section Restoring

variable {m : Memory} {kinds kinds₀ : List Bool} {id : ObjectId} {key : String} {r : Value}
  {trees : List TaintTree} {identity : Identity} {S : ObjectId → String → Value → Prop}
  {T : Table ObjectId (List TaintTree)}

/-- A literal comes back as it is, or with a shadow that stands for it. -/
theorem stands_wrap_literal (levels : Levels) (raw : Literal) (m : Memory) :
    (wrap levels (.literal raw) m).2.Stands (wrap levels (.literal raw) m).1 (.literal raw) := by
  rw [wrap_bare]
  generalize (takeIdentity m).1 = id
  generalize (takeIdentity m).2 = m
  rcases skips : m.shadow.frame.callType.skipsWrapping
  · obtain ⟨handle, wrapped, known⟩ := lookup_shadow id raw skips
    rw [wrapped]
    exact stands_of_lookup known
  · rw [shadow_of_skips skips]
    exact stands_of_bare rfl

/-- What wrapping makes an object was that object. -/
theorem eq_object_of_wrap (levels : Levels) {v : Value} {child : ObjectId}
    (object : (wrap levels v m).1.object? = some child) : v = .object child := by
  cases v with
  | object o =>
    cases object
    rfl
  | shadow handle identity raw => cases object
  | literal raw =>
    obtain ⟨-, value⟩ := stands_wrap_literal levels raw m
    rw [← objectOf?_eq (wrap levels (.literal raw) m).2, objectOf?, value] at object
    cases object

/-- The value of a property is wrapped, and then, after more that changes nothing that properties show,
it is stored there. -/
theorem looks_putBack (levels : Levels) (m₁ : Memory) {m₂ : Memory} (inside : m.heap.Inside id key)
    (heap : m₁.heap = m.heap) (looks : m.Looks m₂) {w : Value}
    (wrapped : (wrap levels (m.heap.getProperty id key) m₁).1 = w)
    (last : w.object? = none → (wrap levels (m.heap.getProperty id key) m₁).2 = m₂) :
    m₂.Looks { m₂ with heap := m₂.heap.setProperty id key w } := by
  refine looks_setProperty (looks.inside id key inside) ?_
  subst wrapped
  cases property : m.heap.getProperty id key with
  | object child =>
    -- an object that a property shows stays what the property holds
    have stands : m.Shows id key (.object child) := by
      rw [Shows, property]
      exact .inl (stands_of_bare rfl)
    exact .inl (looks.shows id key _ stands).object.symm
  | literal raw =>
    have plain : (wrap levels (.literal raw) m₁).1.object? = none := by
      rcases object : (wrap levels (.literal raw) m₁).1.object? with _ | child
      · rfl
      · cases eq_object_of_wrap levels object
    rw [property] at last
    rw [← last plain]
    refine .inr ⟨raw, ?_, stands_wrap_literal levels raw m₁⟩
    have same : (wrap levels (.literal raw) m₁).2.heap = m.heap :=
      ((issues_shadow _ raw _).heap.trans (issues_takeIdentity m₁).heap).trans heap
    rw [same, property]
  | shadow handle identity raw =>
    rw [property] at last
    rw [← last rfl]
    rcases heap_wrap_cases levels (.shadow handle identity raw) m₁ with
      ⟨_, _, _, _, impossible, -⟩ | ⟨unchanged, -⟩
    · cases impossible
    · rw [unchanged, heap, property]
      exact .inl rfl

/-- A property gets a shadow under an identity that is marked for what it shows. -/
theorem sorted_wrapTree (levels : Levels) (children : List TaintTree) (sorted : m.Sorted kinds)
    (shows : m.Shows id key r) (suits : Suits kinds r identity)
    (below : ∀ child, r.object? = some child → ∀ (m' : Memory) kinds', kinds <+: kinds' →
      m'.Sorted kinds' → m.Looks m' →
      ∃ kinds'', kinds' <+: kinds'' ∧ (wrapTrees levels child children m').2.Sorted kinds'' ∧
        m'.Looks (wrapTrees levels child children m').2) :
    ∃ kinds', kinds <+: kinds' ∧ (wrapTree levels id ⟨key, identity, children⟩ m).2.Sorted kinds' ∧
      m.Looks (wrapTree levels id ⟨key, identity, children⟩ m).2 := by
  by_cases own : m.heap.hasOwnKey id key = true
  · have inside := Heap.inside_of_hasOwnKey own
    let m₁ : Memory := { m with shadow := m.shadow.push identity }
    let v := m.heap.getProperty id key
    have offers : m₁.Offers v kinds := by
      intro top rest reserved raw literal
      cases reserved
      rcases shows with ⟨-, value⟩ | ⟨shadow, -⟩
      · rw [show m.heap.getProperty id key = .literal raw from literal] at value
        exact suits raw value.symm
      · exact absurd (by rw [show m.heap.getProperty id key = .literal raw from literal]; rfl) shadow
    obtain ⟨kinds₁, more₁, sorted₁⟩ := sorted_wrap levels v
      (sorted.congr rfl rfl : m₁.Sorted kinds) offers
    have looks₁ : m.Looks (wrap levels v m₁).2 :=
      trans_of Looks (looks_of_heap rfl fun _ _ h => h : m.Looks m₁) (looks_wrap levels v m₁)
    rcases object : (wrap levels v m₁).1.object? with _ | child
    · rw [wrapTree_of_literal own rfl object]
      have put := looks_putBack levels m₁ inside rfl looks₁ rfl fun _ => rfl
      exact ⟨kinds₁, more₁, sorted₁.congr rfl rfl, trans_of Looks looks₁ put⟩
    · rw [wrapTree_of_object own rfl object]
      have property : m.heap.getProperty id key = .object child := eq_object_of_wrap levels object
      have shown : r.object? = some child := by
        rcases shows with ⟨-, rfl⟩ | ⟨shadow, -⟩
        · rw [property]
          rfl
        · exact absurd (by rw [property]; rfl) shadow
      obtain ⟨kinds₂, more₂, sorted₂, looks₂⟩ := below child shown _ kinds₁ more₁ sorted₁ looks₁
      have looks := trans_of Looks looks₁ looks₂
      have put := looks_putBack levels m₁ inside rfl looks rfl fun missing => by
        rw [object] at missing
        cases missing
      exact ⟨kinds₂, more₁.trans more₂, sorted₂.congr rfl rfl, trans_of Looks looks put⟩
  · rw [wrapTree_of_missing levels identity children own]
    exact ⟨kinds, List.prefix_refl kinds, sorted, refl_of Looks m⟩

/-- Along trees that fit shadows can be put back. -/
theorem sorted_wrapTrees (levels : Levels) (suited : Suited S kinds₀ id trees) {m : Memory}
    {kinds : List Bool} (more : kinds₀ <+: kinds) (sorted : m.Sorted kinds)
    (shows : ∀ id key r, S id key r → m.Shows id key r) :
    ∃ kinds', kinds <+: kinds' ∧ (wrapTrees levels id trees m).2.Sorted kinds' ∧
      m.Looks (wrapTrees levels id trees m).2 := by
  -- on the trees: one property leaves every property showing what it showed
  induction suited generalizing m kinds with
  | nil id =>
    rw [wrapTrees]
    exact ⟨kinds, List.prefix_refl kinds, sorted, refl_of Looks m⟩
  | @cons id key identity children rest r shown suits _ _ below later =>
    rw [wrapTrees, bind_apply]
    obtain ⟨kinds₁, more₁, sorted₁, looks₁⟩ := sorted_wrapTree levels children sorted
      (shows id key r shown) (suits.mono more) fun child object m' kinds' more' sorted' looks =>
        below child object (more.trans more') sorted' fun x name v related =>
          looks.shows x name v (shows x name v related)
    obtain ⟨kinds₂, more₂, sorted₂, looks₂⟩ := later (more.trans more₁) sorted₁
      fun x name v related => looks₁.shows x name v (shows x name v related)
    exact ⟨kinds₂, more₁.trans more₂, sorted₂, trans_of Looks looks₁ looks₂⟩

/-- Before an argument gets its shadow back: the identities of the given values are reserved, the trees
are in the frame, and the properties show what they have to. -/
structure Restoring (S : ObjectId → String → Value → Prop) (T : Table ObjectId (List TaintTree))
    (kinds₀ : List Bool) (vs : List Value) (kinds : List Bool) (m : Memory) : Prop where
  more : kinds₀ <+: kinds
  awaits : m.Awaits vs kinds
  shows : ∀ id key r, S id key r → m.Shows id key r
  trees : m.shadow.frame.trees = T

/-- The properties of an argument get their shadows back, and then the argument itself. -/
theorem sorts_restoreArgument (levels : Levels)
    (suited : ∀ id trees, T.get? id = some trees → Suited S kinds₀ id trees) (arg : Value)
    (vs : List Value) :
    Sorts (Restoring S T kinds₀ (arg :: vs)) (restoreArgument levels arg)
      fun _ => Restoring S T kinds₀ vs := by
  intro kinds m sorted before
  have wrapped {m : Memory} {kinds : List Bool} (sorted : m.Sorted kinds)
      (before : Restoring S T kinds₀ (arg :: vs) kinds m) :
      ∃ kinds', kinds <+: kinds' ∧ (wrap levels arg m).2.Sorted kinds' ∧
        Restoring S T kinds₀ vs kinds' (wrap levels arg m).2 := by
    obtain ⟨kinds', more, sorted', awaits⟩ := sorts_wrap levels arg vs kinds m sorted before.awaits
    refine ⟨kinds', more, sorted', before.more.trans more, awaits, fun id key r related =>
      (looks_wrap levels arg m).shows id key r (before.shows id key r related), ?_⟩
    rw [(stacks_wrap levels arg m).frame]
    exact before.trees
  unfold restoreArgument
  rcases arg.object? with _ | id
  · exact wrapped sorted before
  · rcases found : m.shadow.frame.trees.get? id with _ | trees
    · dsimp only
      rw [bind_apply, get_apply]
      dsimp only
      rw [found]
      exact wrapped sorted before
    · dsimp only
      rw [bind_apply, get_apply]
      dsimp only
      rw [found]
      obtain ⟨kinds₁, more, sorted₁, looks⟩ := sorted_wrapTrees levels
        (suited id trees (before.trees ▸ found)) before.more sorted before.shows
      have spreads := (spreads_wrapTrees levels id trees m ⟨refl_of Spreads m, fun bounded other mention =>
        bounded other (ShadowState.mentions_of_tree found mention)⟩).1
      obtain ⟨kinds₂, more₂, sorted₂, after⟩ := wrapped sorted₁
        ⟨before.more.trans more, before.awaits.mono more (congrArg Frame.reserved spreads.frame),
          fun x key r related => looks.shows x key r (before.shows x key r related),
          (congrArg Frame.trees spreads.frame).trans before.trees⟩
      exact ⟨kinds₂, more.trans more₂, sorted₂, after⟩

/-- Arguments get their shadows back, the last one first. -/
theorem sorts_mapLastFirst {P : List Value → List Bool → Memory → Prop} {action : Value → MemoryM Value}
    (step : ∀ v vs, Sorts (P (v :: vs)) (action v) fun _ => P vs) (args vs : List Value) :
    Sorts (P (args.reverse ++ vs)) (mapLastFirst action args) fun _ => P vs := by
  induction args generalizing vs with
  | nil => exact .pure fun _ _ h => h
  | cons v rest ih =>
    rw [List.reverse_cons, List.append_assoc]
    exact .bind (ih (v :: vs)) fun _ => .bind (step v vs) fun _ => .pure fun _ _ h => h

/-- However arguments were passed, they get their shadows back under identities that are marked for them,
if where they were stripped the properties show what the trees fit. -/
theorem sorted_restoreArguments (levels : Levels) (policy : Policy) (f : Value) (args : List Value)
    {vs : List Value} (sorted : m.Sorted kinds) (awaits : m.Awaits (args.reverse ++ vs) kinds)
    (suited : policy.passing m f args = .stripped → ∀ id trees,
      m.shadow.frame.trees.get? id = some trees → Suited m.Shows kinds id trees) :
    ∃ kinds', kinds <+: kinds' ∧ (restoreArguments levels policy f args m).2.Sorted kinds' ∧
      (restoreArguments levels policy f args m).2.Awaits vs kinds' := by
  have wrapped := sorts_mapLastFirst (P := Awaits) (sorts_wrap levels) args vs kinds m sorted awaits
  unfold restoreArguments
  rw [bind_apply, get_apply]
  dsimp only
  cases passing : policy.passing m f args with
  | stripped =>
    obtain ⟨kinds', more, sorted', after⟩ := sorts_mapLastFirst
      (P := Restoring m.Shows m.shadow.frame.trees kinds)
      (sorts_restoreArgument levels (suited passing)) args vs kinds m sorted
      ⟨List.prefix_refl kinds, awaits, fun _ _ _ h => h, rfl⟩
    exact ⟨kinds', more, sorted', after.awaits⟩
  | wrapped => exact wrapped
  | wrappedAfterKey => exact wrapped

end Restoring

end MemoryM

end ShadowTaint
