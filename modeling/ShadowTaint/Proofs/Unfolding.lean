import Mathlib.Data.List.Forall2
import ShadowTaint.Provenance.Export
/-!
# Histories as trees

The walk that exports a history keeps a stack of the histories that wait for a number, and it adds the
number of a history to the node that it flows into, which was numbered before. What comes out is the
history as a tree: its nodes from the root on, parents from left to right, and an ancestor once for every
way that leads to it.

## Main definitions

- `Node.preorder`: the nodes of a history in the order of their numbers.
- `Node.parentIds`: the numbers of the parents of a node.
- `Export.Unfolds`: an export is the tree of a history.

## Main statements

- `walk_tree`: the walk numbers a history and all above it before it turns to what waits behind.
- `Export.ofNode_unfolds`: the export of a history is its tree.
-/

namespace ShadowTaint.Provenance

section Numbered

variable {α β : Type}

theorem numbered_append (first : Nat) (l l' : List α) :
    numbered first (l ++ l') = numbered first l ++ numbered (first + l.length) l' := by
  induction l generalizing first with
  | nil => rfl
  | cons a rest ih =>
    simp only [List.cons_append, numbered, ih, List.length_cons]
    congr 3
    omega

theorem map_fst_numbered (first : Nat) (l : List α) :
    (numbered first l).map (·.1) = List.range' first l.length := by
  induction l generalizing first with
  | nil => rfl
  | cons a rest ih => simp [numbered, ih, List.range'_succ]

/-- A number belongs to the member at its place. -/
theorem mem_numbered_iff {first id : Nat} {l : List α} {a : α} :
    (id, a) ∈ numbered first l ↔ first ≤ id ∧ l[id - first]? = some a := by
  induction l generalizing first with
  | nil => simp [numbered]
  | cons b rest ih =>
    simp only [numbered, List.mem_cons, Prod.mk.injEq, ih]
    constructor
    · rintro (⟨rfl, rfl⟩ | ⟨le, found⟩)
      · simp
      · have next : id - first = id - (first + 1) + 1 := by omega
        exact ⟨by omega, by rw [next]; exact found⟩
    · rintro ⟨le, found⟩
      by_cases same : id = first
      · subst same
        simp only [Nat.sub_self, List.getElem?_cons_zero, Option.some.injEq] at found
        exact .inl ⟨rfl, found.symm⟩
      · have next : id - first = id - (first + 1) + 1 := by omega
        rw [next] at found
        exact .inr ⟨by omega, found⟩

end Numbered

namespace Node

mutual

/-- The nodes of a history as a tree: every node comes before its parents, and the parents follow from
left to right, each with all that is above it. -/
def preorder : Node → List Node
  | ⟨uid, label, parents, value, tainted⟩ => ⟨uid, label, parents, value, tainted⟩ :: preorders parents

/-- The nodes of several trees, one after the other. -/
def preorders : List Node → List Node
  | [] => []
  | n :: rest => preorder n ++ preorders rest

end

theorem preorder_eq (n : Node) : n.preorder = n :: preorders n.parents := by
  cases n
  rw [preorder]

mutual

theorem length_preorder : (n : Node) → n.preorder.length = n.size
  | ⟨_, _, parents, _, _⟩ => by
    rw [preorder, size, List.length_cons, length_preorders parents]

theorem length_preorders : (ns : List Node) → (preorders ns).length = sizes ns
  | [] => by rw [preorders, sizes, List.length_nil]
  | n :: rest => by
    rw [preorders, sizes, List.length_append, length_preorder n, length_preorders rest]

end

/-- The numbers of parents, where `id` is the first number that is free: between a parent and the next
one lie all the nodes above the first of them. -/
def parentIds (id : Nat) : List Node → List Nat
  | [] => []
  | n :: rest => id :: parentIds (id + n.size) rest

/-- The node with a number. -/
def at? (root : Node) : Nat → Option Node
  | 0 => none
  | id + 1 => root.preorder[id]?

theorem at?_eq_some_iff {root n : Node} {id : Nat} :
    root.at? id = some n ↔ (id, n) ∈ numbered 1 root.preorder := by
  rw [mem_numbered_iff]
  cases id with
  | zero => simp [at?]
  | succ id => simp [at?]

/-- The tree of a node is numbered from `id` on. -/
def HasTreeAt (root : Node) (id : Nat) (n : Node) : Prop :=
  ∃ before after, root.preorder = before ++ (n.preorder ++ after) ∧ id = before.length + 1

mutual

/-- Every node stands at the beginning of its own tree. -/
theorem exists_preorder_split : (n m : Node) → (i : Nat) → n.preorder[i]? = some m →
    ∃ before after, n.preorder = before ++ (m.preorder ++ after) ∧ i = before.length
  | ⟨uid, label, parents, value, tainted⟩, m, 0, found => by
    rw [preorder, List.getElem?_cons_zero, Option.some.injEq] at found
    exact ⟨[], [], by rw [found, List.append_nil, List.nil_append], rfl⟩
  | ⟨uid, label, parents, value, tainted⟩, m, i + 1, found => by
    rw [preorder, List.getElem?_cons_succ] at found
    obtain ⟨before, after, split, rfl⟩ := exists_preorders_split parents m i found
    exact ⟨_ :: before, after, by rw [preorder, split, List.cons_append], rfl⟩

theorem exists_preorders_split : (ns : List Node) → (m : Node) → (i : Nat) →
    (preorders ns)[i]? = some m →
    ∃ before after, preorders ns = before ++ (m.preorder ++ after) ∧ i = before.length
  | [], m, i, found => by
    rw [preorders, List.getElem?_nil] at found
    cases found
  | n :: ns, m, i, found => by
    rw [preorders] at found ⊢
    by_cases inside : i < n.preorder.length
    · rw [List.getElem?_append_left inside] at found
      obtain ⟨before, after, split, rfl⟩ := exists_preorder_split n m i found
      exact ⟨before, after ++ preorders ns, by rw [split]; simp only [List.append_assoc], rfl⟩
    · rw [List.getElem?_append_right (by omega)] at found
      obtain ⟨before, after, split, place⟩ := exists_preorders_split ns m _ found
      refine ⟨n.preorder ++ before, after, by rw [split, List.append_assoc], ?_⟩
      rw [List.length_append]
      omega

end

theorem hasTreeAt_of_at? {root n : Node} {id : Nat} (found : root.at? id = some n) :
    root.HasTreeAt id n := by
  cases id with
  | zero => cases found
  | succ i =>
    obtain ⟨before, after, split, rfl⟩ := exists_preorder_split root n i found
    exact ⟨before, after, split, rfl⟩

theorem HasTreeAt.at? {root n : Node} {id : Nat} (h : root.HasTreeAt id n) : root.at? id = some n := by
  obtain ⟨before, after, split, rfl⟩ := h
  rw [Node.at?, split, List.getElem?_append_right (Nat.le_refl _), Nat.sub_self, preorder_eq]
  rfl

/-- The trees of several histories stand one behind the other. -/
theorem hasTreeAt_preorders {root : Node} (ns : List Node) {before after : List Node}
    (split : root.preorder = before ++ (preorders ns ++ after)) :
    List.Forall₂ root.HasTreeAt (parentIds (before.length + 1) ns) ns := by
  induction ns generalizing before with
  | nil => exact .nil
  | cons n rest ih =>
    rw [preorders, List.append_assoc] at split
    refine .cons ⟨before, _, split, rfl⟩ ?_
    have next := ih (show root.preorder = (before ++ n.preorder) ++ (preorders rest ++ after) by
      rw [split, List.append_assoc])
    rw [List.length_append, length_preorder, Nat.add_right_comm] at next
    exact next

/-- The parents of a node have the numbers at which their trees begin. -/
theorem HasTreeAt.parents {root n : Node} {id : Nat} (h : root.HasTreeAt id n) :
    List.Forall₂ root.HasTreeAt (parentIds (id + 1) n.parents) n.parents := by
  obtain ⟨before, after, split, rfl⟩ := h
  rw [preorder_eq n, List.cons_append] at split
  have above := hasTreeAt_preorders n.parents
    (show root.preorder = (before ++ [n]) ++ (preorders n.parents ++ after) by
      rw [split, List.append_assoc, List.singleton_append])
  rwa [List.length_append, List.length_singleton] at above

/-- A number that a node lists is that of a parent. -/
theorem HasTreeAt.exists_parent {root n : Node} {id : Nat} (h : root.HasTreeAt id n) {parent : Nat}
    (mem : parent ∈ parentIds (id + 1) n.parents) : ∃ p ∈ n.parents, root.HasTreeAt parent p := by
  obtain ⟨i, bound, rfl⟩ := List.getElem_of_mem mem
  have length := h.parents.length_eq
  exact ⟨_, List.getElem_mem (length ▸ bound), h.parents.get bound (length ▸ bound)⟩

theorem lt_of_mem_parentIds {ns : List Node} {id parent : Nat} (mem : parent ∈ parentIds id ns) :
    id ≤ parent := by
  induction ns generalizing id with
  | nil => cases mem
  | cons n rest ih =>
    rcases List.mem_cons.mp mem with rfl | mem
    · exact Nat.le_refl _
    · have := ih mem
      omega

/-- What numbered nodes list as the numbers of their parents. -/
def listedIds (first : Nat) (ns : List Node) : List Nat :=
  (numbered first ns).flatMap fun p => parentIds (p.1 + 1) p.2.parents

theorem listedIds_cons (first : Nat) (n : Node) (ns : List Node) :
    listedIds first (n :: ns) = parentIds (first + 1) n.parents ++ listedIds (first + 1) ns := rfl

theorem listedIds_append (first : Nat) (ns ns' : List Node) :
    listedIds first (ns ++ ns') = listedIds first ns ++ listedIds (first + ns.length) ns' := by
  rw [listedIds, numbered_append, List.flatMap_append]
  rfl

mutual

/-- In a tree every number but that of the root is listed once. -/
theorem listedIds_preorder : (n : Node) → (id : Nat) →
    (listedIds id n.preorder).Perm (List.range' (id + 1) (sizes n.parents))
  | ⟨_, _, parents, _, _⟩, id => by
    rw [preorder, listedIds_cons]
    exact listedIds_preorders parents (id + 1)

theorem listedIds_preorders : (ns : List Node) → (id : Nat) →
    (parentIds id ns ++ listedIds id (preorders ns)).Perm (List.range' id (sizes ns))
  | [], id => .nil
  | n :: ns, id => by
    have size : sizes (n :: ns) = sizes n.parents + sizes ns + 1 := by
      rw [sizes, size_eq]
      omega
    have first := listedIds_preorder n id
    have others := listedIds_preorders ns (id + n.size)
    rw [preorders, parentIds, listedIds_append, length_preorder, size, List.range'_succ, List.cons_append]
    refine .cons id ?_
    rw [← List.range'_append_1]
    refine .trans ?_ (first.append (.trans others (.of_eq ?_)))
    · rw [← List.append_assoc, ← List.append_assoc]
      exact List.perm_append_comm.append_right _
    · rw [size_eq]
      congr 1
      omega

end

end Node

namespace ExportNode

/-- What a history with a number is in an export, with the numbers of its parents. -/
def ofNumbered (id : Nat) (n : Node) : ExportNode :=
  { ofNode n with flowsFrom := (Node.parentIds (id + 1) n.parents).map toString }

/-- The node with several more parents. -/
def addParents (n : ExportNode) (ids : List Nat) : ExportNode :=
  { n with flowsFrom := n.flowsFrom ++ ids.map toString }

theorem addParents_nil (n : ExportNode) : n.addParents [] = n := by simp [addParents]

theorem addParents_cons (n : ExportNode) (id : Nat) (ids : List Nat) :
    n.addParents (id :: ids) = (n.addParent id).addParents ids := by
  simp [addParents, addParent]

end ExportNode

/-- The nodes of an export that numbered histories become. -/
def describe (first : Nat) (ns : List Node) : List ExportNode :=
  (numbered first ns).map fun p => .ofNumbered p.1 p.2

theorem describe_cons (first : Nat) (n : Node) (ns : List Node) :
    describe first (n :: ns) = .ofNumbered first n :: describe (first + 1) ns := rfl

theorem describe_append (first : Nat) (ns ns' : List Node) :
    describe first (ns ++ ns') = describe first ns ++ describe (first + ns.length) ns' := by
  rw [describe, numbered_append, List.map_append]
  rfl

theorem length_describe (first : Nat) (ns : List Node) : (describe first ns).length = ns.length := by
  have numbers := congrArg List.length (map_fst_numbered first ns)
  rw [List.length_map, List.length_range'] at numbers
  rw [describe, List.length_map, numbers]

/-- A parent is added to the node with the number, wherever it stands. -/
theorem link_at (before after : List ExportNode) (x : ExportNode) (id : Nat) :
    link (before ++ x :: after).toArray (some (before.length + 1)) id =
      (before ++ x.addParent id :: after).toArray := by
  rw [link, Nat.add_sub_cancel, List.modify_toArray]
  congr 1
  induction before with
  | nil => rfl
  | cons y before ih => simp [ih]

theorem length_link (nodes : Array ExportNode) (consumer : Option Nat) (id : Nat) :
    (link nodes consumer id).toList.length = nodes.size := by
  cases consumer with
  | none => rfl
  | some c => rw [link, Array.length_toList, Array.size_modify]

/-- A history that gets its number is put behind what was numbered before, and its parents come next. -/
theorem walk_cons (nodes : Array ExportNode) (w : Waiting) (rest : List Waiting) :
    walk nodes (w :: rest) =
      walk ((link nodes w.consumer (nodes.size + 1)).toList ++ ExportNode.ofNode w.node :: []).toArray
        (waiting ((link nodes w.consumer (nodes.size + 1)).toList.length + 1) w.node.parents ++ rest) := by
  rw [walk, length_link, ← Array.toList_push]

mutual

/-- The walk numbers a history and everything above it, and only then goes on with what waits behind.
Nothing is changed in what was numbered before, but for the node that the history flows into. -/
theorem walk_tree : (n : Node) → (nodes : Array ExportNode) → (consumer : Option Nat) →
    (rest : List Waiting) →
    walk nodes (⟨n, consumer⟩ :: rest) =
      walk ((link nodes consumer (nodes.size + 1)).toList ++
        describe (nodes.size + 1) n.preorder).toArray rest
  | ⟨uid, label, parents, value, tainted⟩, nodes, consumer, rest => by
    have numbers := length_link nodes consumer (nodes.size + 1)
    rw [walk_cons, walk_trees parents, Node.preorder, describe_cons, List.append_assoc, List.cons_append,
      List.nil_append]
    simp only [List.length_append, List.length_cons, List.length_nil, numbers]
    rfl

/-- The walk numbers the parents of a node from left to right, each with everything above it. -/
theorem walk_trees : (ns : List Node) → (before after : List ExportNode) → (x : ExportNode) →
    (rest : List Waiting) →
    walk (before ++ x :: after).toArray (waiting (before.length + 1) ns ++ rest) =
      walk (before ++ x.addParents (Node.parentIds ((before ++ x :: after).length + 1) ns) :: after ++
        describe ((before ++ x :: after).length + 1) (Node.preorders ns)).toArray rest
  | [], before, after, x, rest => by
    rw [Node.parentIds, ExportNode.addParents_nil, Node.preorders]
    simp [describe, numbered, waiting]
  | n :: ns, before, after, x, rest => by
    have size : (before ++ x :: after).toArray.size = (before ++ x :: after).length := List.size_toArray
    -- the next parent is numbered behind the whole tree of this one
    have next (id : Nat) : (before ++ x.addParent id :: (after ++ describe id n.preorder)).length + 1 =
        (before ++ x :: after).length + 1 + n.size := by
      simp only [List.length_append, List.length_cons, length_describe, Node.length_preorder]
      omega
    show walk _ (⟨n, some (before.length + 1)⟩ :: (waiting (before.length + 1) ns ++ rest)) = _
    rw [walk_tree n, size, link_at, List.append_assoc, List.cons_append,
      walk_trees ns before, Node.preorders, describe_append, Node.length_preorder, Node.parentIds,
      ExportNode.addParents_cons, next]
    simp only [List.append_assoc, List.cons_append]

end

theorem toList_walk (root : Node) : (walk #[] [⟨root, none⟩]).toList = describe 1 root.preorder := by
  rw [walk_tree, walk]
  rfl

theorem numbered_describe (first : Nat) (ns : List Node) :
    numbered first (describe first ns) = (numbered first ns).map fun p => (p.1, .ofNumbered p.1 p.2) := by
  induction ns generalizing first with
  | nil => rfl
  | cons n rest ih =>
    rw [describe_cons, numbered, ih]
    rfl

namespace Export

/-- The node with a number is the one that has it. -/
theorem get?_eq_some_iff {e : Export} {id : Nat} {x : ExportNode} :
    e.get? id = some x ↔ (id, x) ∈ e.nodes := by
  obtain ⟨nodes, sorted, bounded⟩ := e
  show (nodes.find? fun n => n.1 == id).map (·.2) = some x ↔ (id, x) ∈ nodes
  clear bounded
  induction nodes with
  | nil => simp
  | cons y rest ih =>
    obtain ⟨id', x'⟩ := y
    obtain ⟨smaller, sorted⟩ := List.pairwise_cons.mp sorted
    by_cases same : id' = id
    · subst same
      rw [List.find?_cons_of_pos (by simp), List.mem_cons, Option.map_some, Option.some.injEq,
        Prod.mk.injEq]
      refine ⟨fun h => .inl ⟨rfl, h.symm⟩, ?_⟩
      rintro (⟨-, rfl⟩ | later)
      · rfl
      · exact absurd (smaller _ later) (Nat.lt_irrefl _)
    · rw [List.find?_cons_of_neg (by simpa using same), ih sorted, List.mem_cons, Prod.mk.injEq]
      exact ⟨.inr, fun h => h.resolve_left fun ⟨eq, _⟩ => same eq.symm⟩

variable {root : Node}

/-- As long as there are enough numbers, the export of a history consists of its numbered nodes. -/
theorem nodes_ofNode (small : root.size < idBound) : (ofNode root).nodes =
    (numbered 1 root.preorder).map fun p => (p.1, .ofNumbered p.1 p.2) := by
  have all : (describe 1 root.preorder).take (idBound - 1) = describe 1 root.preorder := by
    refine List.take_of_length_le ?_
    rw [length_describe, Node.length_preorder]
    omega
  show numbered 1 ((walk #[] [⟨root, none⟩]).toList.take (idBound - 1)) = _
  rw [toList_walk, all, numbered_describe]

theorem get?_ofNode (small : root.size < idBound) {id : Nat} {x : ExportNode} :
    (ofNode root).get? id = some x ↔ ∃ n, root.at? id = some n ∧ x = .ofNumbered id n := by
  rw [get?_eq_some_iff, nodes_ofNode small, List.mem_map]
  constructor
  · rintro ⟨⟨id', n⟩, mem, same⟩
    cases same
    exact ⟨n, Node.at?_eq_some_iff.mpr mem, rfl⟩
  · rintro ⟨n, found, rfl⟩
    exact ⟨(id, n), Node.at?_eq_some_iff.mp found, rfl⟩

theorem flowsFrom_ofNode (small : root.size < idBound) :
    (ofNode root).nodes.flatMap (·.2.flowsFrom) = (Node.listedIds 1 root.preorder).map toString := by
  rw [nodes_ofNode small, List.flatMap_map, Node.listedIds, List.map_flatMap]
  rfl

theorem map_fst_ofNode (small : root.size < idBound) :
    (ofNode root).nodes.map (·.1) = List.range' 1 root.size := by
  rw [nodes_ofNode small, List.map_map, ← Node.length_preorder, ← map_fst_numbered]
  rfl

/-- An export is the tree of a history. -/
structure Unfolds (e : Export) (root : Node) : Prop where
  /-- The numbers run from one on, and there is one for every node of the tree. -/
  ids : e.nodes.map (·.1) = List.range' 1 root.size
  /-- A number stands for the node at that place of the tree. -/
  node : ∀ id n, root.at? id = some n → ∃ x, e.get? id = some x ∧ x.operation = n.label ∧
    x.value.toList = n.value.toList.filter (fun c => c ≠ '"' ∧ c ≠ '\x60') ∧ x.tainted = n.tainted ∧
    x.flowsFrom = (Node.parentIds (id + 1) n.parents).map toString
  /-- The numbers of the parents are those at which their trees begin. -/
  parents : ∀ id n, root.at? id = some n →
    List.Forall₂ root.HasTreeAt (Node.parentIds (id + 1) n.parents) n.parents
  /-- Every number but that of the root is listed once, and no other text is. -/
  once : (e.nodes.flatMap (·.2.flowsFrom)).Perm ((List.range' 2 (root.size - 1)).map toString)
  /-- A parent has a larger number than the node that lists it. -/
  later : ∀ id x, e.get? id = some x → ∀ s ∈ x.flowsFrom, ∃ parent, s = toString parent ∧ id < parent

/-- The export of a history with less than `2 ^ 32` nodes is its tree: numbered from the root on, every
node before its parents and these from left to right, with shared ancestors once for every occurrence. -/
theorem ofNode_unfolds (small : root.size < idBound) : (ofNode root).Unfolds root where
  ids := map_fst_ofNode small
  node id n found := by
    refine ⟨_, (get?_ofNode small).mpr ⟨n, found, rfl⟩, rfl, ?_, rfl, rfl⟩
    show (withoutQuotes n.value).toList = _
    rw [withoutQuotes, String.toList_ofList]
    refine List.filter_congr fun c _ => ?_
    rw [bne, bne, Bool.decide_and, decide_not, decide_not, Bool.beq_eq_decide_eq, Bool.beq_eq_decide_eq]
  parents id n found := (Node.hasTreeAt_of_at? found).parents
  once := by
    rw [flowsFrom_ofNode small, Node.size_eq]
    exact (Node.listedIds_preorder root 1).map toString
  later id x found s mem := by
    obtain ⟨n, -, rfl⟩ := (get?_ofNode small).mp found
    obtain ⟨parent, listed, rfl⟩ := List.mem_map.mp mem
    exact ⟨parent, rfl, Node.lt_of_mem_parentIds listed⟩

/-- A text that was tainted, joined with itself as it was before: the root of the text occurs twice. -/
def sharedRoot : Node :=
  let text := Node.leaf 0 "'a'"
  .join 3 "binary:+" [.join 1 taintedLabel [text] "'a'", text] "'aa'"

theorem ofNode_unfolds_sharedRoot : sharedRoot.size < idBound ∧ sharedRoot.size = 4 ∧
    (ofNode sharedRoot).Unfolds sharedRoot :=
  ⟨by decide, by decide, ofNode_unfolds (by decide)⟩

end Export

end ShadowTaint.Provenance
