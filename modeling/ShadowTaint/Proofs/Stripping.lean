import ShadowTaint.Proofs.Operands
import ShadowTaint.Proofs.Reach
/-!
# How arguments lose their shadows

The trees that are kept for an argument name the properties from which shadows were taken, with the
identities found there. Each argument is walked on its own, so an object that two arguments reach is
walked twice, and the second walk finds no shadow any more where the first one has taken it.

## Main definitions

- `TaintTree.slotsAll`: the properties that hold no object, as trees list them.
- `Memory.Bares`: some properties lost their shadows, and the identities that were found.
- `Memory.Stripped`: arguments that were walked one after the other.

## Main statements

- `MemoryM.bares_stripProperties`: a walk finds the properties that `Heap.Visits` comes to.
- `MemoryM.stripArguments_apply`: what is left on the heap and in the frame when the shadows are taken
  off the arguments of a call.
-/

namespace ShadowTaint

open Memory

/-- A property of an object with an identity for its value. -/
abbrev Slot := (ObjectId × String) × Identity

namespace TaintTree

mutual

/-- The properties in a tree that hold no object, in the order in which they are wrapped. -/
def slots (h : Heap) (id : ObjectId) : TaintTree → List Slot
  | ⟨key, identity, children⟩ => match h.link? id key with
    | none => [((id, key), identity)]
    | some child => slotsAll h child children

/-- The properties in some trees that hold no object. -/
def slotsAll (h : Heap) (id : ObjectId) : List TaintTree → List Slot
  | [] => []
  | tree :: rest => slots h id tree ++ slotsAll h id rest

end

mutual

/-- The tree goes along plain objects. -/
def Along (h : Heap) (id : ObjectId) : TaintTree → Prop
  | ⟨key, _, children⟩ => h.IsPlain id ∧ ∀ child, h.link? id key = some child →
    AlongAll h child children

/-- All trees go along plain objects. -/
def AlongAll (h : Heap) (id : ObjectId) : List TaintTree → Prop
  | [] => True
  | tree :: rest => Along h id tree ∧ AlongAll h id rest

end

variable {h : Heap} {id : ObjectId}

theorem slotsAll_append (trees trees' : List TaintTree) :
    slotsAll h id (trees ++ trees') = slotsAll h id trees ++ slotsAll h id trees' := by
  induction trees with
  | nil => rfl
  | cons tree rest ih => rw [List.cons_append, slotsAll, slotsAll, ih, List.append_assoc]

theorem AlongAll.append {trees trees' : List TaintTree} (first : AlongAll h id trees)
    (second : AlongAll h id trees') : AlongAll h id (trees ++ trees') := by
  induction trees with
  | nil => exact second
  | cons tree rest ih => exact ⟨first.1, ih first.2⟩

end TaintTree

open TaintTree

namespace Memory

/-- An identity that is found for a value: that of a known shadow, or a new one. -/
structure Reads (m : Memory) (v : Value) (id : Identity) : Prop where
  known : ∀ own raw, m.shadow.lookup? v = some (own, raw) → id = own
  fresh : m.shadow.lookup? v = none → m.shadow.nextIdentity ≤ id.index

/-- The listed properties lost their shadows, but for some whose values stay, and the listed
identities were found for their values; the first entry for a property counts. -/
structure BaresBut (stays : ObjectId → String → Prop) (m : Memory) (slots : List Slot)
    (m' : Memory) : Prop where
  alike : m.heap.Alike m'.heap
  wraps : m'.shadow.wraps = m.shadow.wraps
  minted : m.shadow.nextIdentity ≤ m'.shadow.nextIdentity
  away : ∀ x key, Table.find (x, key) slots = none → m'.heap.named? x key = m.heap.named? x key
  bared : ∀ x key id, Table.find (x, key) slots = some id → ∃ v, m.heap.named? x key = some v ∧
    m.Reads v id ∧ (stays x key → m'.heap.named? x key = some v) ∧
      (¬ stays x key → m'.heap.named? x key = some (m.valueOf v))

/-- The listed properties lost their shadows. -/
abbrev Bares (m : Memory) (slots : List Slot) (m' : Memory) : Prop :=
  m.BaresBut (fun _ _ => False) slots m'

variable {m m' m'' : Memory} {v : Value} {id : Identity}

theorem objectOf?_eq (m : Memory) (v : Value) : m.objectOf? v = v.object? := by
  cases v with
  | shadow handle identity raw =>
    rw [objectOf?, valueOf, ShadowState.valueOf]
    split <;> rfl
  | _ => rfl

theorem valueOf_valueOf (m m' : Memory) (v : Value) : m'.valueOf (m.valueOf v) = m.valueOf v := by
  have raw := m.shadow.raw_valueOf v
  rw [← valueOf] at raw
  rcases value : m.valueOf v with l | o | ⟨handle, identity, l⟩
  · rfl
  · rfl
  · rw [value] at raw
    cases raw

theorem Reads.mono (reads : m'.Reads v id) (same : m'.shadow.wraps = m.shadow.wraps)
    (minted : m.shadow.nextIdentity ≤ m'.shadow.nextIdentity) : m.Reads v id where
  known own raw found := reads.known own raw (by rw [lookup?_of_wraps same, found])
  fresh missing := Nat.le_trans minted (reads.fresh (by rw [lookup?_of_wraps same, missing]))

/-- A property that holds an object keeps it. -/
theorem BaresBut.object {stays : ObjectId → String → Prop} {slots : List Slot}
    (bares : m.BaresBut stays slots m') {x y : ObjectId} {key : String}
    (named : m.heap.named? x key = some (.object y)) :
    m'.heap.named? x key = some (.object y) := by
  rcases found : Table.find (x, key) slots with _ | id
  · rw [bares.away x key found, named]
  · obtain ⟨v, named', -, stay, bare⟩ := bares.bared x key id found
    rw [named] at named'
    cases named'
    by_cases stays : stays x key
    · exact stay stays
    · exact bare stays

/-- A property that holds a bare literal keeps it. -/
theorem BaresBut.literal {stays : ObjectId → String → Prop} {slots : List Slot}
    (bares : m.BaresBut stays slots m') {x : ObjectId} {key : String} {raw : Literal}
    (named : m.heap.named? x key = some (.literal raw)) :
    m'.heap.named? x key = some (.literal raw) := by
  rcases found : Table.find (x, key) slots with _ | id
  · rw [bares.away x key found, named]
  · obtain ⟨v, named', -, stay, bare⟩ := bares.bared x key id found
    rw [named] at named'
    cases named'
    by_cases stays : stays x key
    · exact stay stays
    · exact bare stays

namespace Bares

variable {slots slots' : List Slot}

/-- Nothing happened but that identities were given out. -/
theorem of_issues (heap : m'.heap = m.heap) (wraps : m'.shadow.wraps = m.shadow.wraps)
    (minted : m.shadow.nextIdentity ≤ m'.shadow.nextIdentity) : m.Bares [] m' where
  alike := by
    rw [heap]
    exact .refl _
  wraps := wraps
  minted := minted
  away _ _ _ := by rw [heap]
  bared _ _ _ found := nomatch found

theorem trans (first : m.Bares slots m') (second : m'.Bares slots' m'') :
    m.Bares (slots ++ slots') m'' where
  alike := first.alike.trans second.alike
  wraps := second.wraps.trans first.wraps
  minted := Nat.le_trans first.minted second.minted
  away x key missing := by
    rw [Table.find_append, Option.or_eq_none_iff] at missing
    rw [second.away x key missing.2, first.away x key missing.1]
  bared x key id found := by
    rw [Table.find_append] at found
    rcases early : Table.find (x, key) slots with _ | id'
    · rw [early, Option.none_or] at found
      obtain ⟨v, named, reads, -, bare⟩ := second.bared x key id found
      rw [first.away x key early] at named
      refine ⟨v, named, reads.mono first.wraps first.minted, False.elim, fun no => ?_⟩
      rw [bare no, valueOf_of_wraps first.wraps]
    · rw [early, Option.some_or] at found
      cases found
      obtain ⟨v, named, reads, -, bare⟩ := first.bared x key id early
      refine ⟨v, named, reads, False.elim, fun no => ?_⟩
      -- a later entry finds the value without its shadow and leaves it so
      rcases late : Table.find (x, key) slots' with _ | id''
      · rw [second.away x key late, bare no]
      · obtain ⟨w, named', -, -, bare'⟩ := second.bared x key id'' late
        rw [bare no] at named'
        cases named'
        rw [bare' no, valueOf_valueOf]

end Bares

end Memory

namespace MemoryM

variable {h : Heap} {m : Memory} {id : ObjectId} {key : String} {v : Value}

theorem reads_identityOf (v : Value) (m : Memory) : m.Reads v (identityOf v m).1 := by
  rcases identityOf_cases v m with ⟨own, raw, found, run⟩ | ⟨missing, run⟩
  · rw [run]
    refine ⟨fun own' raw' found' => ?_, fun missing => ?_⟩
    · rw [found] at found'
      cases found'
      rfl
    · rw [found] at missing
      cases missing
  · rw [run]
    refine ⟨fun own raw found => ?_, fun _ => Nat.le_refl _⟩
    rw [missing] at found
    cases found

theorem bares_identityOf (v : Value) (m : Memory) : m.Bares [] (identityOf v m).2 := by
  rcases identityOf_cases v m with ⟨own, raw, found, run⟩ | ⟨missing, run⟩
  · rw [run]
    exact .of_issues rfl rfl (Nat.le_refl _)
  · rw [run]
    exact .of_issues rfl rfl (Nat.le_succ _)

theorem bares_unwrap (v : Value) (m : Memory) : m.Bares [] (unwrap v m).2 := by
  have found := bares_identityOf v m
  have stacked : (identityOf v m).2.Bares [] (unwrap v m).2 := .of_issues rfl rfl (Nat.le_refl _)
  exact found.trans stacked

/-- A property loses its shadow. -/
theorem bares_stripProperty (plain : m.heap.IsPlain id) (named : m.heap.named? id key = some v)
    (children : List TaintTree) : m.Bares [((id, key), (stripProperty id key children v m).1.identity)]
      (stripProperty id key children v m).2 := by
  have found := bares_identityOf v m
  have heap : (identityOf v m).2.heap = m.heap := (issues_identityOf v m).heap
  have after : (stripProperty id key children v m).2.heap =
      m.heap.setProperty id key (m.valueOf v) := by
    show (identityOf v m).2.heap.setProperty id key ((identityOf v m).2.valueOf v) = _
    rw [heap, valueOf_of_wraps found.wraps]
  refine ⟨?_, found.wraps, found.minted, fun x other missing => ?_, fun x other own found => ?_⟩
  · rw [after]
    exact .setProperty plain named (by rw [← objectOf?, objectOf?_eq])
  · rw [after, Heap.named?_setProperty plain, if_neg]
    rintro ⟨rfl, rfl⟩
    rw [Table.find, if_pos rfl] at missing
    cases missing
  · rw [Table.find] at found
    split at found
    · rename_i same
      cases same
      cases found
      refine ⟨v, named, reads_identityOf v m, False.elim, fun _ => ?_⟩
      rw [after, Heap.named?_setProperty plain, if_pos ⟨rfl, rfl⟩]
    · cases found

/-- A property that holds an object has none to lose. -/
theorem bares_stripProperty_object (plain : m.heap.IsPlain id)
    (named : m.heap.named? id key = some v) {child : ObjectId} (object : v.object? = some child)
    (children : List TaintTree) : m.Bares [] (stripProperty id key children v m).2 := by
  have found := bares_identityOf v m
  have heap : (identityOf v m).2.heap = m.heap := (issues_identityOf v m).heap
  have same : (identityOf v m).2.valueOf v = v := by
    cases v <;> cases object
    rfl
  have after : (stripProperty id key children v m).2.heap = m.heap.setProperty id key v := by
    show (identityOf v m).2.heap.setProperty id key ((identityOf v m).2.valueOf v) = _
    rw [heap, same]
  refine ⟨?_, found.wraps, found.minted, fun x other _ => ?_, fun _ _ _ found => nomatch found⟩
  · rw [after]
    exact .setProperty plain named rfl
  · rw [after, Heap.named?_setProperty plain]
    split
    · rename_i at'
      rw [at'.1, ← at'.2, named]
    · rfl

end MemoryM

/-- The remembered objects are on the heap, each is remembered once, and a walk that goes down as many
levels remembers all objects before it gets to the last level. -/
structure Heap.Room (h : Heap) (depth : Nat) (visited : List ObjectId) : Prop where
  within : ∀ x ∈ visited, x < h.objects.size
  once : visited.Nodup
  enough : h.objects.size < depth + visited.length

namespace Heap.Room

variable {h : Heap} {depth : Nat} {id child : ObjectId} {visited visited' : List ObjectId}
  {keys : List String} {slots : List (ObjectId × String)}

theorem not_zero (room : h.Room 0 visited) : False := by
  have within : visited ⊆ List.range h.objects.size := fun x hx =>
    List.mem_range.mpr (room.within x hx)
  have few := (List.subperm_of_subset room.once within).length_le
  rw [List.length_range] at few
  have enough := room.enough
  omega

theorem after (room : h.Room depth visited) (visits : h.Visits id keys visited slots visited')
    (plain : ∀ x, h.Reaches id x → h.IsPlain x) (own : ∀ key ∈ keys, key ∈ h.ownKeys id) :
    h.Room depth visited' where
  within x hx := ((visits.sound plain own).2 x hx).elim (room.within x) fun reached =>
    (plain x reached).1
  once := visits.remembers.2.1 room.once
  enough := by
    have more := visits.remembers.2.2
    have enough := room.enough
    omega

theorem below (room : h.Room (depth + 1) visited) (allocated : child < h.objects.size)
    (fresh : child ∉ visited) : h.Room depth (child :: visited) where
  within x hx := (List.mem_cons.mp hx).elim (fun same => same ▸ allocated) (room.within x)
  once := List.nodup_cons.mpr ⟨fresh, room.once⟩
  enough := by
    have enough := room.enough
    rw [List.length_cons]
    omega

end Heap.Room

theorem Heap.Visits.cons {h : Heap} {id : ObjectId} {key : String} {keys : List String}
    {visited visited' visited'' : List ObjectId} {slots slots' : List (ObjectId × String)}
    (first : h.Visits id [key] visited slots visited')
    (rest : h.Visits id keys visited' slots' visited'') :
    h.Visits id (key :: keys) visited (slots ++ slots') visited'' := by
  cases first with
  | value valued done =>
    cases done
    exact .value valued rest
  | seen link seen done =>
    cases done
    exact .seen link seen rest
  | child link fresh inside done =>
    cases done
    rw [List.append_nil]
    exact .child link fresh inside rest

namespace MemoryM

section Walking

variable {h : Heap}

/-- The properties of the trees are those that a walk comes to, and they lost their shadows. -/
structure Walked (h : Heap) (id : ObjectId) (keys : List String) (m : Memory)
    (visited : List ObjectId) (trees : List TaintTree) (visited' : List ObjectId) (m' : Memory) :
    Prop where
  visits : h.Visits id keys visited ((slotsAll h id trees).map (·.1)) visited'
  along : AlongAll h id trees
  bares : m.Bares (slotsAll h id trees) m'

/-- The loop over the keys, from what each turn does. -/
theorem walked_foldlM {f : List TaintTree × List ObjectId → String →
      MemoryM (List TaintTree × List ObjectId)} {id : ObjectId} {depth : Nat}
    (plain : ∀ x, h.Reaches id x → h.IsPlain x)
    (turn : ∀ key ∈ h.ownKeys id, ∀ trees visited m, h.Alike m.heap → h.Room depth visited →
      ∃ more visited' m', f (trees, visited) key m = ((trees ++ more, visited'), m') ∧
        Walked h id [key] m visited more visited' m')
    (keys : List String) (own : ∀ key ∈ keys, key ∈ h.ownKeys id) (trees : List TaintTree)
    (visited : List ObjectId) (m : Memory) (alike : h.Alike m.heap) (room : h.Room depth visited) :
    ∃ more visited' m', keys.foldlM f (trees, visited) m = ((trees ++ more, visited'), m') ∧
      Walked h id keys m visited more visited' m' := by
  induction keys generalizing trees visited m with
  | nil =>
    refine ⟨[], visited, m, ?_, .done id visited, trivial, .of_issues rfl rfl (Nat.le_refl _)⟩
    rw [List.append_nil]
    rfl
  | cons key rest ih =>
    obtain ⟨more, visited₁, m₁, run, first⟩ := turn key (own key List.mem_cons_self) trees visited m
      alike room
    have room₁ := room.after first.visits plain fun k hk => own k (by
      rw [List.mem_singleton.mp hk]
      exact List.mem_cons_self)
    obtain ⟨more', visited₂, m₂, run', later⟩ := ih (fun k hk => own k (List.mem_cons_of_mem _ hk))
      (trees ++ more) visited₁ m₁ (alike.trans first.bares.alike) room₁
    refine ⟨more ++ more', visited₂, m₂, ?_, ?_, first.along.append later.along, ?_⟩
    · rw [List.foldlM_cons, bind_apply, run, ← List.append_assoc]
      exact run'
    · rw [slotsAll_append, List.map_append]
      exact first.visits.cons later.visits
    · rw [slotsAll_append]
      exact first.bares.trans later.bares

/-- A property that holds no object makes a tree without children. -/
theorem walked_value {m : Memory} {id : ObjectId} {key : String} {v : Value} (alike : h.Alike m.heap)
    (here : h.IsPlain id) (named : m.heap.named? id key = some v) (link : h.link? id key = none)
    (visited : List ObjectId) : Walked h id [key] m visited [(stripProperty id key [] v m).1] visited
      (stripProperty id key [] v m).2 := by
  have slots : slotsAll h id [(stripProperty id key [] v m).1] =
      [((id, key), (stripProperty id key [] v m).1.identity)] := by
    show slots h id ⟨key, _, []⟩ ++ [] = _
    rw [slots, link]
    rfl
  refine ⟨?_, ⟨⟨here, fun child linked => ?_⟩, trivial⟩, ?_⟩
  · rw [slots]
    exact .value link (.done id visited)
  · rw [link] at linked
    cases linked
  · rw [slots]
    exact bares_stripProperty (alike.plain here) named []

/-- A property that holds an object makes a tree whose children are the trees of the object. -/
theorem walked_child {m m' : Memory} {id child : ObjectId} {key : String} {v : Value}
    {visited visited' : List ObjectId} {children : List TaintTree} (alike : h.Alike m.heap)
    (here : h.IsPlain id) (named : m.heap.named? id key = some v) (object : v.object? = some child)
    (link : h.link? id key = some child) (fresh : child ∉ visited)
    (below : Walked h child (h.ownKeys child) m (child :: visited) children visited' m') :
    Walked h id [key] m visited [(stripProperty id key children v m').1] visited'
      (stripProperty id key children v m').2 := by
  have slots : slotsAll h id [(stripProperty id key children v m').1] =
      slotsAll h child children := by
    show slots h id ⟨key, _, children⟩ ++ [] = _
    rw [slots, link, List.append_nil]
  have named' : m'.heap.named? id key = some v := by
    cases v <;> cases object
    exact below.bares.object named
  refine ⟨?_, ⟨⟨here, fun other linked => ?_⟩, trivial⟩, ?_⟩
  · rw [slots]
    exact List.append_nil (List.map _ _) ▸ .child link fresh below.visits (.done id visited')
  · rw [link] at linked
    cases linked
    exact below.along
  · rw [slots]
    have plain := below.bares.alike.plain (alike.plain here)
    have last := bares_stripProperty_object plain named' object children
    exact List.append_nil (slotsAll h child children) ▸ below.bares.trans last

/-- A walk comes to the properties that `Heap.Visits` says, and takes the shadows off them. By
induction on the depth, which never runs out because every level remembers one more object. -/
theorem walked_stripProperties (depth : Nat) (id : ObjectId) (visited : List ObjectId) (m : Memory)
    (alike : h.Alike m.heap) (plain : ∀ x, h.Reaches id x → h.IsPlain x)
    (room : h.Room depth visited) :
    ∃ trees visited' m', stripProperties depth id visited m = ((trees, visited'), m') ∧
      Walked h id (h.ownKeys id) m visited trees visited' m' := by
  -- on the depth, which has room for every object that was not visited, so zero is not reached
  induction depth generalizing id visited m with
  | zero => exact room.not_zero.elim
  | succ depth ih =>
    rw [stripProperties, bind_apply, get_apply, alike.keys]
    refine walked_foldlM plain ?_ (h.ownKeys id) (fun _ h => h) [] visited m alike room
    intro key own trees visited m alike room
    have here := plain id .self
    have plain' := alike.plain here
    obtain ⟨visible, isSome⟩ := (Heap.mem_ownKeys_iff plain').mp (alike.keys id ▸ own)
    obtain ⟨v, named⟩ := Option.isSome_iff_exists.mp isSome
    have link : h.link? id key = v.object? := by
      rw [← alike.link, Heap.link?, named]
      rfl
    have value : m.heap.getProperty id key = v := by
      rw [Heap.getProperty_of_plain plain', named]
      rfl
    dsimp only
    rw [bind_apply, get_apply]
    dsimp only
    rw [value, objectOf?_eq]
    rcases object : v.object? with _ | child
    · exact ⟨_, visited, _, rfl, walked_value alike here named (link.trans object) visited⟩
    · have link := link.trans object
      dsimp only
      by_cases seen : child ∈ visited
      · rw [if_pos seen]
        exact ⟨[], visited, m, by rw [List.append_nil]; rfl, .seen link seen (.done id visited),
          trivial, .of_issues rfl rfl (Nat.le_refl _)⟩
      · rw [if_neg seen]
        have reached : h.Reaches id child := .step .self visible link
        obtain ⟨children, visited', m', run, below⟩ := ih child (child :: visited) m alike
          (fun x hx => plain x (hx.through visible link)) (room.below (plain child reached).1 seen)
        refine ⟨_, visited', _, ?_, walked_child alike here named object link seen below⟩
        rw [bind_apply, run]
        rfl

end Walking

end MemoryM

section Arguments

/-- The properties in the trees of an argument that hold no object. -/
def Value.slots (h : Heap) (v : Value) (trees : List TaintTree) : List Slot :=
  match v.object? with
  | none => []
  | some id => slotsAll h id trees

/-- An argument reaches the property, and it holds no object. -/
def Heap.Uncovers (h : Heap) (v : Value) (x : ObjectId) (key : String) : Prop :=
  ∃ id, v.object? = some id ∧ h.Reaches id x ∧ key ∈ h.ownKeys x ∧ h.link? x key = none

theorem Heap.uncovers_iff {h : Heap} {v : Value} {id x : ObjectId} {key : String}
    (object : v.object? = some id) :
    h.Uncovers v x key ↔ h.Reaches id x ∧ key ∈ h.ownKeys x ∧ h.link? x key = none := by
  refine ⟨fun ⟨other, held, found⟩ => ?_, fun found => ⟨id, object, found⟩⟩
  rw [object] at held
  cases held
  exact found

theorem Heap.not_uncovers {h : Heap} {v : Value} {x : ObjectId} {key : String}
    (literal : v.object? = none) : ¬ h.Uncovers v x key := by
  rintro ⟨id, held, -⟩
  rw [literal] at held
  cases held

/-- Everything that the value reaches is a plain object. -/
def Heap.PlainBelow (h : Heap) (v : Value) : Prop :=
  ∀ id, v.object? = some id → ∀ x, h.Reaches id x → h.IsPlain x

/-- The trees of an argument name exactly the properties that it reaches and that hold no object. -/
structure Heap.Finds (h : Heap) (v : Value) (trees : List TaintTree) : Prop where
  along : ∀ id, v.object? = some id → AlongAll h id trees
  slots : ∀ x key, (Table.find (x, key) (v.slots h trees)).isSome = true ↔ h.Uncovers v x key

namespace Memory

variable {m m' : Memory}

theorem functionName_congr (alike : m.heap.Alike m'.heap) {f f' : Value}
    (same : f'.object? = f.object?) : m'.functionName f' = m.functionName f := by
  have object : (m'.valueOf f').object? = (m.valueOf f).object? := by
    rw [← objectOf?, ← objectOf?, objectOf?_eq, objectOf?_eq, same]
  simp only [functionName, Heap.function?, object, alike.kind]

theorem isNative_congr (alike : m.heap.Alike m'.heap) {f f' : Value}
    (same : f'.object? = f.object?) : m'.isNative f' = m.isNative f := by
  have object : (m'.valueOf f').object? = (m.valueOf f).object? := by
    rw [← objectOf?, ← objectOf?, objectOf?_eq, objectOf?_eq, same]
  simp only [isNative, Heap.function?, object, alike.kind]

/-- What is put back when the shadows were taken off an argument: the value of the descriptor that the
function that defines properties gets as its third argument. -/
def kept? (m : Memory) (f : Value) (a : Value × Nat) : Option (ObjectId × Value) :=
  if m.functionName f == "defineProperty" && a.2 == 2 then MemoryM.descriptorValue? m a.1 else none

/-- The value of the property is put back. -/
def PutsBack (m : Memory) (f : Value) (a : Value × Nat) (x : ObjectId) (key : String) : Prop :=
  key = "value" ∧ ∃ v, m.kept? f a = some (x, v)

theorem kept?_inv {f : Value} {a : Value × Nat} {id : ObjectId} {v : Value}
    (kept : m.kept? f a = some (id, v)) :
    a.1.object? = some id ∧ v = m.heap.getProperty id "value" ∧ v.isUndefined = false := by
  unfold kept? at kept
  split at kept
  · obtain ⟨o, object, value⟩ := Option.bind_eq_some_iff.mp kept
    rw [objectOf?_eq] at object
    dsimp only at value
    split at value
    · cases value
    · rename_i defined
      cases value
      exact ⟨object, rfl, Bool.eq_false_iff.mpr defined⟩
  · cases kept

/-- What is put back is what the property held. -/
theorem named?_kept {f : Value} {a : Value × Nat} {id : ObjectId} {v : Value}
    (plain : m.heap.IsPlain id) (kept : m.kept? f a = some (id, v)) :
    m.heap.named? id "value" = some v := by
  obtain ⟨-, value, defined⟩ := kept?_inv kept
  rw [Heap.getProperty_of_plain plain] at value
  rcases named : m.heap.named? id "value" with _ | w
  · rw [named] at value
    rw [value] at defined
    cases defined
  · rw [named] at value
    rw [value]
    rfl

/-- Whether a value is put back depends on the value of the property only. -/
theorem PutsBack.congr (alike : m.heap.Alike m'.heap) {f : Value} {a : Value × Nat} {x : ObjectId}
    {key : String} (plain : m.heap.IsPlain x)
    (same : m'.heap.named? x key = m.heap.named? x key) :
    m'.PutsBack f a x key ↔ m.PutsBack f a x key := by
  refine and_congr_right fun value => exists_congr fun v => ?_
  subst value
  rw [kept?, kept?, functionName_congr alike rfl]
  split
  · rw [MemoryM.descriptorValue?, MemoryM.descriptorValue?, objectOf?_eq, objectOf?_eq]
    rcases a.1.object? with _ | id
    · rfl
    · by_cases here : id = x
      · simp only [here, Option.bind_some, Heap.getProperty_of_plain plain,
          Heap.getProperty_of_plain (alike.plain plain), same]
      · -- another object is described
        dsimp only [Option.bind_some]
        constructor <;> intro found <;> split at found <;> cases found <;> exact absurd rfl here
  · rfl

/-- Arguments were walked one after the other. Every walk found the properties that its argument
reaches in the heap as it was at first. -/
inductive Stripped (m₀ : Memory) (f : Value) : List (Value × Nat) → Memory →
    List (Value × List TaintTree) → Memory → Prop where
  | nil (m : Memory) : Stripped m₀ f [] m [] m
  | cons {a : Value × Nat} {l : List (Value × Nat)} {m m' m'' : Memory} {trees : List TaintTree}
      {results : List (Value × List TaintTree)} (finds : m₀.heap.Finds a.1 trees)
      (bares : m.BaresBut (m.PutsBack f a) (a.1.slots m₀.heap trees) m')
      (rest : Stripped m₀ f l m' results m'') :
      Stripped m₀ f (a :: l) m ((m₀.valueOf a.1, trees) :: results) m''

end Memory

namespace MemoryM

variable {h : Heap}

/-- The shadows are taken off everything that an argument reaches, and its trees say where. -/
theorem unwrapObject_apply (arg : Value) (m : Memory) (alike : h.Alike m.heap)
    (plain : h.PlainBelow arg) :
    ∃ trees m', unwrapObject arg m = ((m.valueOf arg, trees), m') ∧ h.Finds arg trees ∧
      m.Bares (arg.slots h trees) m' := by
  unfold unwrapObject
  rw [bind_apply, get_apply]
  dsimp only
  rw [objectOf?_eq]
  rcases object : arg.object? with _ | id
  · have slots (trees : List TaintTree) : arg.slots h trees = [] := by rw [Value.slots, object]
    refine ⟨[], (unwrap arg m).2, rfl, ⟨fun _ object' => ?_, fun x key => ?_⟩, ?_⟩
    · rw [object] at object'
      cases object'
    · rw [slots]
      exact iff_of_false Bool.false_ne_true (Heap.not_uncovers object)
    · rw [slots]
      exact bares_unwrap arg m
  · have start := plain id object
    have room : h.Room m.heap.objects.size [id] := by
      refine ⟨fun x hx => ?_, List.pairwise_singleton _ id, ?_⟩
      · rw [List.mem_singleton.mp hx]
        exact (start id .self).1
      · rw [alike.size]
        exact Nat.lt_succ_self _
    obtain ⟨trees, visited, m', run, walked⟩ :=
      walked_stripProperties m.heap.objects.size id [id] m alike start room
    have slots : arg.slots h trees = slotsAll h id trees := by rw [Value.slots, object]
    refine ⟨trees, (unwrap arg m').2, ?_, ⟨fun other object' => ?_, fun x key => ?_⟩, ?_⟩
    · dsimp only
      rw [bind_apply, run]
      show ((m'.valueOf arg, trees), _) = _
      rw [valueOf_of_wraps walked.bares.wraps]
      rfl
    · rw [object] at object'
      cases object'
      exact walked.along
    · rw [slots, Table.isSome_find_iff, walked.visits.mem_iff start, Heap.uncovers_iff object]
    · rw [slots]
      exact List.append_nil (slotsAll h id trees) ▸ walked.bares.trans (bares_unwrap arg m')

/-- What is put back afterwards stays on the heap. -/
theorem stripArgument_apply (f : Value) (a : Value × Nat) (m : Memory) (alike : h.Alike m.heap)
    (plain : h.PlainBelow a.1) :
    ∃ trees m', stripArgument a.1 (m.kept? f a) m = ((m.valueOf a.1, trees), m') ∧
      h.Finds a.1 trees ∧ m.BaresBut (m.PutsBack f a) (a.1.slots h trees) m' := by
  obtain ⟨trees, m', run, finds, bares⟩ := unwrapObject_apply a.1 m alike plain
  unfold stripArgument
  rw [bind_apply, run]
  rcases kept : m.kept? f a with _ | ⟨id, w⟩
  · refine ⟨trees, m', rfl, finds, { bares with bared := fun x key own found => ?_ }⟩
    obtain ⟨v, named, reads, -, bare⟩ := bares.bared x key own found
    refine ⟨v, named, reads, ?_, fun _ => bare id⟩
    rintro ⟨-, w, kept'⟩
    rw [kept] at kept'
    cases kept'
  · have here : m.heap.IsPlain id := alike.plain (plain id (kept?_inv kept).1 id .self)
    have held := named?_kept here kept
    have here' := bares.alike.plain here
    obtain ⟨u, named', same⟩ : ∃ u, m'.heap.named? id "value" = some u ∧ w.object? = u.object? := by
      rcases found : Table.find (id, "value") (a.1.slots h trees) with _ | own
      · exact ⟨w, by rw [bares.away _ _ found, held], rfl⟩
      · obtain ⟨v, named, -, -, bare⟩ := bares.bared _ _ _ found
        rw [held] at named
        cases named
        exact ⟨_, bare not_false, by rw [← objectOf?, objectOf?_eq]⟩
    refine ⟨trees, { m' with heap := m'.heap.setProperty id "value" w }, rfl, finds,
      bares.alike.trans (.setProperty here' named' same), bares.wraps, bares.minted,
      fun x key missing => ?_, fun x key own found => ?_⟩
    · show (m'.heap.setProperty id "value" w).named? x key = _
      rw [Heap.named?_setProperty here', bares.away x key missing]
      split
      · rename_i at'
        rw [at'.1, ← at'.2, held]
      · rfl
    · obtain ⟨v, named, reads, -, bare⟩ := bares.bared x key own found
      refine ⟨v, named, reads, ?_, fun stripped => ?_⟩
      · rintro ⟨rfl, w', kept'⟩
        rw [kept] at kept'
        cases kept'
        show (m'.heap.setProperty id "value" w).named? id "value" = _
        rw [Heap.named?_setProperty here', if_pos ⟨rfl, rfl⟩, ← held, named]
      · show (m'.heap.setProperty id "value" w).named? x key = _
        rw [Heap.named?_setProperty here', if_neg, bare not_false]
        rintro ⟨rfl, rfl⟩
        exact stripped ⟨rfl, w, kept⟩

theorem stripped_mapM (m₀ : Memory) (f : Value) (l : List (Value × Nat)) (m : Memory)
    (alike : m₀.heap.Alike m.heap) (wraps : m.shadow.wraps = m₀.shadow.wraps)
    (plain : ∀ a ∈ l, m₀.heap.PlainBelow a.1) :
    ∃ results m', (l.mapM fun (arg, i) => do
        let m ← get
        stripArgument arg (if m₀.functionName f == "defineProperty" && i == 2
          then descriptorValue? m arg else none)) m = (results, m') ∧
      m₀.Stripped f l m results m' := by
  induction l generalizing m with
  | nil => exact ⟨[], m, rfl, .nil m⟩
  | cons a rest ih =>
    obtain ⟨arg, i⟩ := a
    obtain ⟨trees, m₁, run, finds, bares⟩ := stripArgument_apply f (arg, i) m alike
      (plain (arg, i) List.mem_cons_self)
    obtain ⟨results, m₂, run', stripped⟩ := ih m₁ (alike.trans bares.alike)
      (bares.wraps.trans wraps) fun b hb => plain b (List.mem_cons_of_mem _ hb)
    refine ⟨(m₀.valueOf arg, trees) :: results, m₂, ?_, .cons finds bares stripped⟩
    have turn : (do
        let m ← get
        stripArgument arg (if m₀.functionName f == "defineProperty" && i == 2
          then descriptorValue? m arg else none) : MemoryM _) m = ((m₀.valueOf arg, trees), m₁) := by
      rw [bind_apply, get_apply, ← functionName_congr alike rfl, ← valueOf_of_wraps wraps]
      exact run
    rw [List.mapM_cons, bind_apply]
    dsimp only
    rw [turn, bind_apply, run']
    rfl

/-- The trees that are kept for arguments, by the object that each argument is. -/
def keptTrees (results : List (Value × List TaintTree)) : Table ObjectId (List TaintTree) :=
  .ofList (results.filterMap fun (raw, trees) =>
    match raw.object? with
    | some id => if trees.isEmpty then none else some (id, trees)
    | none => none)

theorem stripArguments_apply (f : Value) (args : List Value) (m : Memory)
    (plain : ∀ arg ∈ args, m.heap.PlainBelow arg) :
    ∃ results m', m.Stripped f args.zipIdx m results m' ∧
      stripArguments f args m = (results.map (·.1),
        { m' with shadow.frame.trees := keptTrees results }) := by
  obtain ⟨results, m', run, stripped⟩ := stripped_mapM m f args.zipIdx m (.refl _) rfl fun a ha =>
    plain a.1 (List.fst_mem_of_mem_zipIdx ha)
  refine ⟨results, m', stripped, ?_⟩
  unfold stripArguments
  rw [bind_apply, get_apply]
  dsimp only
  rw [bind_apply, run]
  rfl

end MemoryM

namespace Memory.Stripped

variable {m₀ m m' : Memory} {f : Value} {a : Value × Nat} {l l₁ l₂ : List (Value × Nat)}
  {results : List (Value × List TaintTree)} {x : ObjectId} {key : String} {v : Value}
  {own : Identity} {raw : Literal}

theorem alike (stripped : m₀.Stripped f l m results m') : m.heap.Alike m'.heap := by
  induction stripped with
  | nil => exact .refl _
  | cons _ bares _ ih => exact bares.alike.trans ih

theorem wraps (stripped : m₀.Stripped f l m results m') :
    m'.shadow.wraps = m.shadow.wraps := by
  induction stripped with
  | nil => rfl
  | cons _ bares _ ih => exact ih.trans bares.wraps

theorem minted (stripped : m₀.Stripped f l m results m') :
    m.shadow.nextIdentity ≤ m'.shadow.nextIdentity := by
  induction stripped with
  | nil => exact Nat.le_refl _
  | cons _ bares _ ih => exact Nat.le_trans bares.minted ih

theorem object (stripped : m₀.Stripped f l m results m') {y : ObjectId}
    (named : m.heap.named? x key = some (.object y)) :
    m'.heap.named? x key = some (.object y) := by
  induction stripped with
  | nil => exact named
  | cons _ bares _ ih => exact ih (bares.object named)

theorem literal (stripped : m₀.Stripped f l m results m')
    (named : m.heap.named? x key = some (.literal raw)) :
    m'.heap.named? x key = some (.literal raw) := by
  induction stripped with
  | nil => exact named
  | cons _ bares _ ih => exact ih (bares.literal named)

theorem away (stripped : m₀.Stripped f l m results m')
    (out : ∀ a ∈ l, ¬ m₀.heap.Uncovers a.1 x key) :
    m'.heap.named? x key = m.heap.named? x key := by
  induction stripped with
  | nil => rfl
  | cons finds bares _ ih =>
    have missing := Option.not_isSome_iff_eq_none.mp
      (mt (finds.slots x key).mp (out _ List.mem_cons_self))
    rw [ih fun b hb => out b (List.mem_cons_of_mem _ hb), bares.away x key missing]

/-- A value stays where every argument that reaches its property puts it back. -/
theorem keeps (stripped : m₀.Stripped f l m results m') (alike₀ : m₀.heap.Alike m.heap)
    (plain : m₀.heap.IsPlain x) (named₀ : m₀.heap.named? x key = some v)
    (named : m.heap.named? x key = some v)
    (puts : ∀ a ∈ l, m₀.heap.Uncovers a.1 x key → m₀.PutsBack f a x key) :
    m'.heap.named? x key = some v := by
  induction stripped with
  | nil => exact named
  | @cons a l m m₁ m₂ trees results finds bares _ ih =>
    refine ih (alike₀.trans bares.alike) ?_ fun b hb => puts b (List.mem_cons_of_mem _ hb)
    rcases found : Table.find (x, key) (a.1.slots m₀.heap trees) with _ | id
    · rw [bares.away x key found, named]
    · obtain ⟨w, named', -, stay, -⟩ := bares.bared x key id found
      have uncovers := (finds.slots x key).mp (by rw [found]; rfl)
      rw [stay ((PutsBack.congr alike₀ plain (named.trans named₀.symm)).mpr
        (puts a List.mem_cons_self uncovers)), ← named', named]

/-- A known shadow is gone once an argument that reaches its property did not put it back. -/
theorem sheds (stripped : m₀.Stripped f l m results m') (alike₀ : m₀.heap.Alike m.heap)
    (wraps₀ : m.shadow.wraps = m₀.shadow.wraps) (plain : m₀.heap.IsPlain x)
    (named₀ : m₀.heap.named? x key = some v) (named : m.heap.named? x key = some v)
    (known : m₀.shadow.lookup? v = some (own, raw))
    (shed : ∃ a ∈ l, m₀.heap.Uncovers a.1 x key ∧ ¬ m₀.PutsBack f a x key) :
    m'.heap.named? x key = some (.literal raw) := by
  induction stripped with
  | nil =>
    obtain ⟨a, ha, -⟩ := shed
    exact nomatch ha
  | @cons a l m m₁ m₂ trees results finds bares rest ih =>
    have congr := PutsBack.congr alike₀ (f := f) (a := a) plain (named.trans named₀.symm)
    -- the first argument that does not put the value back leaves it bare, and it stays bare
    by_cases sheds : m₀.heap.Uncovers a.1 x key ∧ ¬ m₀.PutsBack f a x key
    · refine rest.literal ?_
      obtain ⟨id, found⟩ := Option.isSome_iff_exists.mp ((finds.slots x key).mpr sheds.1)
      obtain ⟨w, named', -, -, bare⟩ := bares.bared x key id found
      rw [named] at named'
      cases named'
      rw [bare (mt congr.mp sheds.2), valueOf_of_wraps wraps₀]
      exact congrArg some (ShadowState.valueOf_of_lookup known)
    · refine ih (alike₀.trans bares.alike) (bares.wraps.trans wraps₀) ?_ ?_
      · rcases found : Table.find (x, key) (a.1.slots m₀.heap trees) with _ | id
        · rw [bares.away x key found, named]
        · obtain ⟨w, named', -, stay, -⟩ := bares.bared x key id found
          have uncovers := (finds.slots x key).mp (by rw [found]; rfl)
          have puts := not_not.mp fun no => sheds ⟨uncovers, no⟩
          rw [stay (congr.mpr puts), ← named', named]
      · obtain ⟨b, hb, shed⟩ := shed
        rcases List.mem_cons.mp hb with rfl | hb
        · exact absurd shed sheds
        · exact ⟨b, hb, shed⟩

theorem split (stripped : m₀.Stripped f (l₁ ++ a :: l₂) m results m') :
    ∃ r₁ trees r₂ m₁ m₂, results = r₁ ++ (m₀.valueOf a.1, trees) :: r₂ ∧
      m₀.Stripped f l₁ m r₁ m₁ ∧ m₀.heap.Finds a.1 trees ∧
      m₁.BaresBut (m₁.PutsBack f a) (a.1.slots m₀.heap trees) m₂ ∧
      m₀.Stripped f l₂ m₂ r₂ m' := by
  induction l₁ generalizing m results with
  | nil =>
    cases stripped with
    | cons finds bares rest => exact ⟨[], _, _, _, _, rfl, .nil _, finds, bares, rest⟩
  | cons b l₁ ih =>
    cases stripped with
    | cons finds bares rest =>
      obtain ⟨r₁, trees, r₂, m₁, m₂, rfl, before, finds', here, after⟩ := ih rest
      exact ⟨_ :: r₁, trees, r₂, m₁, m₂, rfl, .cons finds bares before, finds', here, after⟩

/-- What is kept for an argument comes from an argument that was walked. -/
theorem exists_of_mem (stripped : m₀.Stripped f l m results m')
    {r : Value × List TaintTree} (mem : r ∈ results) :
    ∃ a ∈ l, r.1 = m₀.valueOf a.1 ∧ m₀.heap.Finds a.1 r.2 := by
  induction stripped with
  | nil => exact nomatch mem
  | @cons a _ _ _ _ trees _ finds _ _ ih =>
    rcases List.mem_cons.mp mem with rfl | mem
    · exact ⟨a, List.mem_cons_self, rfl, finds⟩
    · obtain ⟨b, hb, found⟩ := ih mem
      exact ⟨b, List.mem_cons_of_mem _ hb, found⟩

/-- The last argument that reaches the property of a known shadow finds its identity if every argument
before it that reaches the property put the shadow back, and else finds a new one. -/
theorem recorded (stripped : m₀.Stripped f (l₁ ++ a :: l₂) m₀ results m')
    (uncovers : m₀.heap.Uncovers a.1 x key) (last : ∀ b ∈ l₂, ¬ m₀.heap.Uncovers b.1 x key)
    (plain : m₀.heap.IsPlain x) (named : m₀.heap.named? x key = some v)
    (known : m₀.shadow.lookup? v = some (own, raw)) :
    ∃ r₁ trees r₂ id, results = r₁ ++ (m₀.valueOf a.1, trees) :: r₂ ∧
      (∀ r ∈ r₂, ∃ b ∈ l₂, r.1 = m₀.valueOf b.1) ∧
      Table.find (x, key) (a.1.slots m₀.heap trees) = some id ∧
      ((∀ b ∈ l₁, m₀.heap.Uncovers b.1 x key → m₀.PutsBack f b x key) → id = own ∧
        (m'.heap.named? x key = some v ∨ m'.heap.named? x key = some (.literal raw))) ∧
      ((∃ b ∈ l₁, m₀.heap.Uncovers b.1 x key ∧ ¬ m₀.PutsBack f b x key) →
        m₀.shadow.nextIdentity ≤ id.index ∧ m'.heap.named? x key = some (.literal raw)) := by
  obtain ⟨r₁, trees, r₂, m₁, m₂, split, before, finds, bares, after⟩ := stripped.split
  obtain ⟨id, found⟩ := Option.isSome_iff_exists.mp ((finds.slots x key).mpr uncovers)
  obtain ⟨w, named₁, reads, stay, bare⟩ := bares.bared x key id found
  -- the given argument is the last one that uncovers the property: either those before it have all put
  -- the value back, or one of them has left it bare
  refine ⟨r₁, trees, r₂, id, split, fun r hr => ?_, found, fun puts => ?_, fun shed => ?_⟩
  · obtain ⟨b, hb, value, -⟩ := after.exists_of_mem hr
    exact ⟨b, hb, value⟩
  · have kept := before.keeps (.refl _) plain named named puts
    rw [kept] at named₁
    cases named₁
    refine ⟨reads.known own raw (by rw [lookup?_of_wraps before.wraps, known]), ?_⟩
    rw [after.away last]
    by_cases stays : m₁.PutsBack f a x key
    · exact .inl (stay stays)
    · right
      rw [bare stays, valueOf_of_wraps before.wraps]
      exact congrArg some (ShadowState.valueOf_of_lookup known)
  · have gone := before.sheds (.refl _) rfl plain named named known shed
    rw [gone] at named₁
    cases named₁
    refine ⟨Nat.le_trans before.minted (reads.fresh rfl), ?_⟩
    rw [after.away last]
    exact bares.literal gone

end Memory.Stripped

end Arguments

end ShadowTaint
