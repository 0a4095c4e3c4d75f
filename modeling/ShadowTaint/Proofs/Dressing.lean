import ShadowTaint.Proofs.Sparing
import ShadowTaint.Proofs.Stripping
/-!
# How arguments get their shadows back

After an external call the trees that were kept for the arguments are worked off, those of the last
argument first. A property that is bare by then gets a shadow under the identity in the first tree
that names it; one that holds a shadow or an object stays as it is. The trees are looked up by the
object that an argument is, and of two arguments that are the same object only the trees of the later
one were kept.

## Main definitions

- `Memory.Dresses`: some properties got shadows under the listed identities.
- `MemoryM.dressing`: the identities under which the properties of some arguments are wrapped.

## Main statements

- `MemoryM.dresses_restoring`: what putting the shadows back does to properties.
- `Memory.Stripped.find_dressing`: a property is wrapped under the identity that the last argument
  which reaches it has found.
-/

namespace ShadowTaint

open Memory TaintTree

/-- The listed properties got shadows where they held bare literals; the first entry for a property
counts. -/
structure Memory.Dresses (m : Memory) (slots : List Slot) (m' : Memory) : Prop where
  plain : ∀ x, m.heap.IsPlain x → m'.heap.IsPlain x
  known : ∀ (i : Nat) x, m.shadow.wraps[i]? = some x → m'.shadow.wraps[i]? = some x
  callType : m'.shadow.frame.callType = m.shadow.frame.callType
  trees : m'.shadow.frame.trees = m.shadow.frame.trees
  absent : ∀ x key, m.heap.named? x key = none → m'.heap.named? x key = none
  stays : ∀ x key v, m.heap.named? x key = some v → v.isBareLiteral = false →
    m'.heap.named? x key = some v
  bare : ∀ x key raw, m.heap.named? x key = some (.literal raw) →
    Table.find (x, key) slots = none → m'.heap.named? x key = some (.literal raw)
  dressed : ∀ x key raw id, m.heap.named? x key = some (.literal raw) →
    Table.find (x, key) slots = some id → ∃ handle,
      m'.heap.named? x key = some (.shadow handle id raw) ∧
        m'.shadow.lookup? (.shadow handle id raw) = some (id, raw)

namespace Memory.Dresses

variable {m m' m'' : Memory} {slots slots' : List Slot} {x id : ObjectId} {key : String} {v : Value}

/-- No property is different. -/
theorem of_same (plain : ∀ x, m.heap.IsPlain x → m'.heap.IsPlain x)
    (named : ∀ x key, m'.heap.named? x key = m.heap.named? x key)
    (known : ∀ (i : Nat) x, m.shadow.wraps[i]? = some x → m'.shadow.wraps[i]? = some x)
    (callType : m'.shadow.frame.callType = m.shadow.frame.callType)
    (trees : m'.shadow.frame.trees = m.shadow.frame.trees) : m.Dresses [] m' where
  plain := plain
  known := known
  callType := callType
  trees := trees
  absent x key missing := by rw [named, missing]
  stays x key v holds _ := by rw [named, holds]
  bare x key raw holds _ := by rw [named, holds]
  dressed _ _ _ _ _ found := nomatch found

theorem refl (m : Memory) : m.Dresses [] m :=
  .of_same (fun _ h => h) (fun _ _ => rfl) (fun _ _ h => h) rfl rfl

theorem trans (first : m.Dresses slots m') (second : m'.Dresses slots' m'') :
    m.Dresses (slots ++ slots') m'' where
  plain x h := second.plain x (first.plain x h)
  known i x h := second.known i x (first.known i x h)
  callType := second.callType.trans first.callType
  trees := second.trees.trans first.trees
  absent x key missing := second.absent x key (first.absent x key missing)
  stays x key v holds notBare := second.stays x key v (first.stays x key v holds notBare) notBare
  bare x key raw holds missing := by
    rw [Table.find_append, Option.or_eq_none_iff] at missing
    exact second.bare x key raw (first.bare x key raw holds missing.1) missing.2
  dressed x key raw id holds found := by
    rw [Table.find_append] at found
    rcases early : Table.find (x, key) slots with _ | id'
    · rw [early, Option.none_or] at found
      exact second.dressed x key raw id (first.bare x key raw holds early) found
    · rw [early, Option.some_or] at found
      cases found
      obtain ⟨handle, named, stands⟩ := first.dressed x key raw id holds early
      exact ⟨handle, second.stays x key _ named rfl, second.known _ _ stands⟩

/-- No property holds another object than before. -/
theorem link (dresses : m.Dresses slots m') (x : ObjectId) (key : String) :
    m'.heap.link? x key = m.heap.link? x key := by
  rw [Heap.link?, Heap.link?]
  rcases named : m.heap.named? x key with _ | v
  · rw [dresses.absent x key named]
  · cases v with
    | literal raw =>
      rcases found : Table.find (x, key) slots with _ | id
      · rw [dresses.bare x key raw named found]
      · obtain ⟨handle, named', -⟩ := dresses.dressed x key raw id named found
        rw [named']
        rfl
    | object o => rw [dresses.stays x key _ named rfl]
    | shadow handle identity raw => rw [dresses.stays x key _ named rfl]

theorem lookup? (dresses : m.Dresses slots m') {found : Identity × Literal}
    (known : m.shadow.lookup? v = some found) : m'.shadow.lookup? v = some found := by
  cases v with
  | shadow handle identity raw => exact dresses.known _ _ known
  | literal l => cases known
  | object o => cases known

/-- Storing what a property holds changes nothing. -/
theorem put (dresses : m.Dresses slots m') (plain : m'.heap.IsPlain id)
    (named : m'.heap.named? id key = some v) :
    m.Dresses slots { m' with heap := m'.heap.setProperty id key v } := by
  have same : m'.Dresses [] { m' with heap := m'.heap.setProperty id key v } := by
    refine .of_same (fun x here => ?_) (fun x other => ?_) (fun _ _ h => h) rfl rfl
    · exact (Heap.Alike.setProperty plain named rfl).plain here
    · show (m'.heap.setProperty id key v).named? x other = _
      rw [Heap.named?_setProperty plain]
      split
      · rename_i at'
        rw [at'.1, ← at'.2, named]
      · rfl
  exact List.append_nil slots ▸ dresses.trans same

/-- A tree for a property that holds no bare literal has no effect. -/
theorem idle (dresses : m.Dresses [] m')
    (named : ∀ raw, m.heap.named? id key ≠ some (.literal raw)) (identity : Identity) :
    m.Dresses [((id, key), identity)] m' :=
  { dresses with
    bare := fun x other raw holds _ => dresses.bare x other raw holds rfl
    dressed := fun x other raw own holds found => by
      rw [Table.find] at found
      split at found
      · rename_i same
        cases same
        exact absurd holds (named raw)
      · cases found }

/-- A bare literal is replaced by a shadow. -/
theorem dress (dresses : m.Dresses [] m') (plain : m.heap.IsPlain id) {raw : Literal}
    {handle : Handle} {identity : Identity} (named : m.heap.named? id key = some (.literal raw))
    (stands : m'.shadow.lookup? (.shadow handle identity raw) = some (identity, raw)) :
    m.Dresses [((id, key), identity)]
      { m' with heap := m'.heap.setProperty id key (.shadow handle identity raw) } := by
  have plain' := dresses.plain id plain
  have named' := dresses.bare id key raw named rfl
  -- one property is written, and every other one reads as before
  have after (x : ObjectId) (other : String) : Heap.named?
      (m'.heap.setProperty id key (.shadow handle identity raw)) x other =
        if x = id ∧ key = other then some (.shadow handle identity raw)
        else m'.heap.named? x other := Heap.named?_setProperty plain' _ _ _ _
  have elsewhere {x : ObjectId} {other : String} (ne : m.heap.named? x other ≠ some (.literal raw)) :
      ¬ (x = id ∧ key = other) := by
    rintro ⟨rfl, rfl⟩
    exact ne named
  have find (x : ObjectId) (other : String) : Table.find (x, other) [((id, key), identity)] =
      if x = id ∧ key = other then some identity else none := by
    rw [Table.find]
    exact if_congr (by rw [Prod.mk.injEq, @eq_comm _ id]) rfl rfl
  refine ⟨fun x here => ?_, dresses.known, dresses.callType, dresses.trees, fun x other missing => ?_,
    fun x other v holds notBare => ?_, fun x other raw' holds missing => ?_,
    fun x other raw' own holds found => ?_⟩
  · exact (Heap.Alike.setProperty (w := .shadow handle identity raw) plain' named' rfl).plain
      (dresses.plain x here)
  · refine (after x other).trans ?_
    rw [if_neg (elsewhere (by rw [missing]; exact (Option.some_ne_none _).symm)), dresses.absent x other missing]
  · refine (after x other).trans ?_
    rw [if_neg (elsewhere (by rintro eq; rw [holds] at eq; cases eq; cases notBare)),
      dresses.stays x other v holds notBare]
  · refine (after x other).trans ?_
    rw [find] at missing
    split at missing
    · cases missing
    · rename_i other'
      rw [if_neg other', dresses.bare x other raw' holds rfl]
  · rw [find] at found
    split at found
    · rename_i at'
      cases found
      rw [at'.1, ← at'.2, named] at holds
      cases holds
      refine ⟨handle, ?_, stands⟩
      exact (after x other).trans (if_pos at')
    · cases found

end Memory.Dresses

namespace MemoryM

variable {levels : Levels}

/-- Wrapping a value changes no property. -/
theorem dresses_wrap (levels : Levels) (v : Value) (m : Memory) :
    m.Dresses [] (wrap levels v m).2 := by
  have stacked := stacks_wrap levels v m
  refine .of_same (fun x plain => ?_) (fun x key => ?_) stacked.known stacked.callType ?_
  · obtain ⟨allocated, name, kind⟩ := plain
    refine ⟨Nat.lt_of_lt_of_le allocated stacked.evolves.size, name, ?_⟩
    have becomes := stacked.evolves.kind x allocated
    rw [kind] at becomes
    rcases after : ((wrap levels v m).2.heap.get x).kind <;> rw [after] at becomes <;>
      simp only [ObjectKind.Becomes] at becomes
    rw [becomes]
  · rw [Heap.named?, Heap.named?, (spares_wrap levels v m).properties]
  · rw [stacked.frame]
    rfl

section Trees

variable {h : Heap}

mutual

/-- One property is wrapped under the identity in its tree, and so is what lies below it. -/
theorem dresses_wrapTree (levels : Levels) (id : ObjectId) : ∀ (tree : TaintTree) (m : Memory),
    (∀ x, h.IsPlain x → m.heap.IsPlain x) → (∀ x key, m.heap.link? x key = h.link? x key) →
    m.shadow.frame.callType.skipsWrapping = false → Along h id tree →
      m.Dresses (slots h id tree) (wrapTree levels id tree m).2
  | ⟨key, identity, children⟩, m, plains, links, wraps, along => by
    have plain := plains id along.1
    have own := Heap.hasOwnKey_of_plain plain key
    rcases named : m.heap.named? id key with _ | v <;> rw [named] at own
    · have link : h.link? id key = none := by
        rw [← links, Heap.link?, named]
        rfl
      rw [wrapTree_of_missing levels identity children (by rw [own]; exact Bool.false_ne_true), slots, link]
      exact (Dresses.refl m).idle (by rw [named]; exact nofun) identity
    · have link : h.link? id key = v.object? := by
        rw [← links, Heap.link?, named]
        rfl
      have value : m.heap.getProperty id key = v := by
        rw [Heap.getProperty_of_plain plain, named]
        rfl
      -- the identity of the tree lies on top when the property is wrapped, and only a literal takes it
      let m₁ : Memory := { m with shadow := m.shadow.push identity }
      have pushed : m.Dresses [] m₁ :=
        .of_same (fun _ h => h) (fun _ _ => rfl) (fun _ _ h => h) rfl rfl
      have wrapped : m.Dresses [] (wrap levels v m₁).2 := pushed.trans (dresses_wrap levels v m₁)
      have run : wrap levels (m.heap.getProperty id key) { m with shadow := m.shadow.push identity } =
          ((wrap levels v m₁).1, (wrap levels v m₁).2) := congrArg (wrap levels · m₁) value
      cases v with
      | literal raw =>
        obtain ⟨handle, eq, stands⟩ := wrap_literal levels (m := m₁) rfl wraps raw
        rw [wrapTree_of_literal own run (by rw [eq]; rfl), eq, slots, link]
        exact wrapped.dress plain named stands
      | shadow handle own raw =>
        rw [wrapTree_of_literal own run (by rw [wrap_of_not_bare levels rfl]; rfl),
          wrap_of_not_bare levels rfl, slots, link]
        exact (wrapped.put (wrapped.plain id plain) (wrapped.stays id key _ named rfl)).idle
          (by rw [named]; exact nofun) identity
      | object child =>
        rw [wrapTree_of_object own run (by rw [wrap_of_not_bare levels rfl]; rfl),
          wrap_of_not_bare levels rfl, slots, link]
        have below := dresses_wrapTrees levels child children (wrap levels (.object child) m₁).2
          (fun x here => wrapped.plain x (plains x here))
          (fun x other => (wrapped.link x other).trans (links x other))
          (by rw [wrapped.callType, wraps]) (along.2 child link)
        have both := wrapped.trans below
        exact both.put (both.plain id plain) (both.stays id key _ named rfl)

/-- The properties in some trees are wrapped under their identities. -/
theorem dresses_wrapTrees (levels : Levels) (id : ObjectId) :
    ∀ (trees : List TaintTree) (m : Memory), (∀ x, h.IsPlain x → m.heap.IsPlain x) →
    (∀ x key, m.heap.link? x key = h.link? x key) →
    m.shadow.frame.callType.skipsWrapping = false → AlongAll h id trees →
      m.Dresses (slotsAll h id trees) (wrapTrees levels id trees m).2
  | [], m, _, _, _, _ => by
    rw [wrapTrees]
    exact .refl m
  | tree :: rest, m, plains, links, wraps, along => by
    rw [wrapTrees, bind_apply]
    have first := dresses_wrapTree levels id tree m plains links wraps along.1
    exact first.trans (dresses_wrapTrees levels id rest _ (fun x here => first.plain x (plains x here))
      (fun x key => (first.link x key).trans (links x key)) (by rw [first.callType, wraps]) along.2)

end

end Trees

section Arguments

variable {h : Heap}

/-- The identities in the trees that were kept for an argument, with the properties they are for. -/
def given (h : Heap) (trees : Table ObjectId (List TaintTree)) (v : Value) : List Slot :=
  v.slots h ((v.object?.bind trees.get?).getD [])

theorem given_of_kept {trees : Table ObjectId (List TaintTree)} {v w : Value} {id : ObjectId}
    {kept : List TaintTree} (object : v.object? = some id) (same : w.object? = some id)
    (found : trees.get? id = some kept) : given h trees v = w.slots h kept := by
  rw [given, Value.slots, Value.slots, object, same, Option.bind_some, found]
  rfl

/-- The identities under which what some arguments reach is wrapped, those of the last argument
first. -/
def dressing (h : Heap) (trees : Table ObjectId (List TaintTree)) : List Value → List Slot
  | [] => []
  | v :: rest => dressing h trees rest ++ given h trees v

theorem dressing_append (trees : Table ObjectId (List TaintTree)) (vs ws : List Value) :
    dressing h trees (vs ++ ws) = dressing h trees ws ++ dressing h trees vs := by
  induction vs with
  | nil => exact (List.append_nil _).symm
  | cons v rest ih => rw [List.cons_append, dressing, dressing, ih, List.append_assoc]

theorem find_dressing_eq_none {trees : Table ObjectId (List TaintTree)} {slot : ObjectId × String}
    {vs : List Value} (out : ∀ v ∈ vs, Table.find slot (given h trees v) = none) :
    Table.find slot (dressing h trees vs) = none := by
  induction vs with
  | nil => rfl
  | cons v rest ih =>
    rw [dressing, Table.find_append, ih fun w hw => out w (List.mem_cons_of_mem _ hw),
      out v List.mem_cons_self]
    rfl

/-- The trees that were kept go along plain objects. -/
def KeptAlong (h : Heap) (trees : Table ObjectId (List TaintTree)) : Prop :=
  ∀ id kept, trees.get? id = some kept → AlongAll h id kept

theorem dresses_restoreArgument (levels : Levels) (arg : Value) (m : Memory)
    (plains : ∀ x, h.IsPlain x → m.heap.IsPlain x)
    (links : ∀ x key, m.heap.link? x key = h.link? x key)
    (wraps : m.shadow.frame.callType.skipsWrapping = false)
    (along : KeptAlong h m.shadow.frame.trees) :
    m.Dresses (given h m.shadow.frame.trees arg) (restoreArgument levels arg m).2 := by
  unfold restoreArgument
  rcases object : arg.object? with _ | id
  · have bare : given h m.shadow.frame.trees arg = [] := by
      rw [given, Value.slots, object]
    rw [bare]
    exact dresses_wrap levels arg m
  · have slots : given h m.shadow.frame.trees arg =
        slotsAll h id ((m.shadow.frame.trees.get? id).getD []) := by
      rw [given, Value.slots, object]
      rfl
    rw [slots]
    dsimp only
    rw [bind_apply, get_apply]
    dsimp only
    rcases kept : m.shadow.frame.trees.get? id with _ | trees
    · exact dresses_wrap levels arg m
    · have below := dresses_wrapTrees levels id trees m plains links wraps (along id trees kept)
      exact List.append_nil (slotsAll h id trees) ▸ below.trans (dresses_wrap levels arg _)

theorem dresses_restoring (levels : Levels) (args : List Value) (m : Memory)
    (plains : ∀ x, h.IsPlain x → m.heap.IsPlain x)
    (links : ∀ x key, m.heap.link? x key = h.link? x key)
    (wraps : m.shadow.frame.callType.skipsWrapping = false)
    (along : KeptAlong h m.shadow.frame.trees) :
    m.Dresses (dressing h m.shadow.frame.trees args)
      (mapLastFirst (restoreArgument levels) args m).2 := by
  induction args with
  | nil => exact .refl m
  | cons arg rest ih =>
    have own := dresses_restoreArgument levels arg (mapLastFirst (restoreArgument levels) rest m).2
      (fun x here => ih.plain x (plains x here)) (fun x key => (ih.link x key).trans (links x key))
      (by rw [ih.callType, wraps]) (by rw [ih.trees]; exact along)
    rw [ih.trees] at own
    exact ih.trans own

theorem dresses_wrapping (levels : Levels) (args : List Value) (m : Memory) :
    m.Dresses [] (mapLastFirst (wrap levels) args m).2 := by
  induction args with
  | nil => exact .refl m
  | cons arg rest ih => exact ih.trans (dresses_wrap levels arg _)

end Arguments

end MemoryM

namespace Memory.Stripped

open MemoryM

variable {m₀ m m' : Memory} {f : Value} {l : List (Value × Nat)}
  {results : List (Value × List TaintTree)} {x : ObjectId} {key : String}

theorem exists_of_kept (stripped : m₀.Stripped f l m results m') {id : ObjectId}
    {trees : List TaintTree} (kept : (keptTrees results).get? id = some trees) :
    ∃ a ∈ l, a.1.object? = some id ∧ m₀.heap.Finds a.1 trees := by
  obtain ⟨⟨raw, trees'⟩, mem, eq⟩ := List.mem_filterMap.mp (Table.mem_of_ofList kept)
  obtain ⟨a, ha, value, finds⟩ := stripped.exists_of_mem mem
  dsimp only at eq value finds
  have object : raw.object? = a.1.object? := by rw [value, ← objectOf?, objectOf?_eq]
  rw [object] at eq
  split at eq
  · rename_i object'
    split at eq
    · cases eq
    · cases eq
      exact ⟨a, ha, object', finds⟩
  · cases eq

theorem keptAlong (stripped : m₀.Stripped f l m results m') :
    KeptAlong m₀.heap (keptTrees results) := by
  intro id trees kept
  obtain ⟨a, -, object, finds⟩ := stripped.exists_of_kept kept
  exact finds.along id object

/-- The trees that are kept for a value name only what the value reaches. -/
theorem uncovers_of_given (stripped : m₀.Stripped f l m results m') {v : Value}
    (found : (Table.find (x, key) (given m₀.heap (keptTrees results) v)).isSome = true) :
    m₀.heap.Uncovers v x key := by
  rcases object : v.object? with _ | id
  · rw [given, Value.slots, object] at found
    cases found
  · rcases kept : (keptTrees results).get? id with _ | trees
    · rw [given, Value.slots, object, Option.bind_some, kept] at found
      cases found
    · obtain ⟨a, -, object', finds⟩ := stripped.exists_of_kept kept
      rw [given_of_kept object object' kept] at found
      exact (Heap.uncovers_iff object).mpr
        ((Heap.uncovers_iff object').mp ((finds.slots x key).mp found))

/-- The trees of an argument are kept if they say anything and no later argument is the same object. -/
theorem get?_keptTrees {r₁ r₂ : List (Value × List TaintTree)} {raw : Value} {trees : List TaintTree}
    {o : ObjectId} (object : raw.object? = some o) (nonempty : trees.isEmpty = false)
    (last : ∀ r ∈ r₂, r.1.object? ≠ some o) :
    (keptTrees (r₁ ++ (raw, trees) :: r₂)).get? o = some trees := by
  rw [keptTrees, List.filterMap_append, List.filterMap_cons_some (b := (o, trees))
    (by simp only [object, nonempty]; rfl)]
  refine Table.get?_ofList_append _ _ fun e he same => ?_
  obtain ⟨⟨later, kept⟩, hr, eq⟩ := List.mem_filterMap.mp he
  dsimp only at eq
  split at eq
  · rename_i other
    split at eq
    · cases eq
    · cases eq
      exact last (later, kept) hr (same ▸ other)
  · cases eq

/-- A property that no later argument reaches is wrapped under the identity that this argument has
found for it. -/
theorem find_dressing {r₁ r₂ : List (Value × List TaintTree)} {a : Value × Nat}
    {trees : List TaintTree} {id : Identity}
    (stripped : m₀.Stripped f l m (r₁ ++ (m₀.valueOf a.1, trees) :: r₂) m')
    (uncovers : m₀.heap.Uncovers a.1 x key)
    (last : ∀ r ∈ r₂, ¬ m₀.heap.Uncovers r.1 x key)
    (found : Table.find (x, key) (a.1.slots m₀.heap trees) = some id) :
    Table.find (x, key) (dressing m₀.heap (keptTrees (r₁ ++ (m₀.valueOf a.1, trees) :: r₂))
      ((r₁ ++ (m₀.valueOf a.1, trees) :: r₂).map (·.1))) = some id := by
  obtain ⟨o, object, reaches⟩ := uncovers
  have object' : (m₀.valueOf a.1).object? = some o := by rw [← objectOf?, objectOf?_eq, object]
  have nonempty : trees.isEmpty = false := by
    rcases trees with _ | ⟨tree, rest⟩
    · rw [Value.slots, object] at found
      cases found
    · rfl
  have kept : (keptTrees (r₁ ++ (m₀.valueOf a.1, trees) :: r₂)).get? o = some trees :=
    get?_keptTrees object' nonempty fun r hr same => last r hr ⟨o, same, reaches⟩
  have later : Table.find (x, key) (dressing m₀.heap
      (keptTrees (r₁ ++ (m₀.valueOf a.1, trees) :: r₂)) (r₂.map (·.1))) = none := by
    refine find_dressing_eq_none fun v hv => ?_
    obtain ⟨r, hr, rfl⟩ := List.mem_map.mp hv
    exact Option.not_isSome_iff_eq_none.mp fun covers =>
      last r hr (stripped.uncovers_of_given covers)
  rw [List.map_append, List.map_cons, dressing_append, dressing, given_of_kept object' object kept,
    Table.find_append, Table.find_append, later, found]
  rfl

end Memory.Stripped

end ShadowTaint
