import Mathlib.Order.Bounds.Basic
import ShadowTaint.Proofs.Unfolding
import ShadowTaint.Provenance.Triage
/-!
# Summaries of histories

A summary is made from the flat nodes of an export, whose parents are texts: it finds the users of a node
by going through all nodes, and the longest chain by going through the numbers downwards. Since a parent
has a larger number than the node that lists it, this finds what the history itself has.

## Main definitions

- `Node.Ascends`: a chain of ancestors.
- `Node.Uses`: a node with a number lists another number as that of a parent.
- `Triage.Describes`: a summary says of a history what is the case.

## Main statements

- `Export.lookup_depths`: the sweep finds the height above every number.
- `Triage.ofExport_describes`: the summary of the export of a history describes the history.
-/

namespace ShadowTaint.Provenance

namespace Node

mutual

/-- How many nodes the longest chain from a node up has. -/
def height : Node → Nat
  | ⟨_, _, parents, _, _⟩ => heights parents + 1

/-- The largest height of several nodes. -/
def heights : List Node → Nat
  | [] => 0
  | n :: rest => max (height n) (heights rest)

end

theorem height_eq (n : Node) : n.height = heights n.parents + 1 := by
  cases n
  rw [height]

theorem height_le_heights {n : Node} {ns : List Node} (mem : n ∈ ns) : n.height ≤ heights ns := by
  induction ns with
  | nil => cases mem
  | cons m rest ih =>
    rw [heights]
    rcases List.mem_cons.mp mem with rfl | mem
    · exact Nat.le_max_left _ _
    · exact Nat.le_trans (ih mem) (Nat.le_max_right _ _)

/-- The nodes are ancestors of a node, each of them a parent of the one before it. -/
def Ascends (n : Node) (above : List Node) : Prop :=
  List.IsChain (fun n parent => parent ∈ n.parents) (n :: above)

theorem Ascends.length_lt {n : Node} {above : List Node} (chain : n.Ascends above) :
    above.length + 1 ≤ n.height := by
  induction above generalizing n with
  | nil =>
    rw [height_eq]
    simp
  | cons p above ih =>
    obtain ⟨parent, chain⟩ := List.isChain_cons_cons.mp chain
    have := ih chain
    have := height_le_heights parent
    rw [height_eq, List.length_cons]
    omega

mutual

theorem exists_ascends : (n : Node) → ∃ above, n.Ascends above ∧ above.length + 1 = n.height
  | ⟨_, _, [], _, _⟩ => ⟨[], .singleton _, by rw [height, heights, List.length_nil]⟩
  | ⟨_, _, p :: rest, _, _⟩ => by
    obtain ⟨parent, mem, above, chain, highest⟩ := exists_highest (p :: rest) (List.cons_ne_nil _ _)
    exact ⟨parent :: above, List.isChain_cons_cons.mpr ⟨mem, chain⟩, by
      rw [height, List.length_cons, highest]⟩

theorem exists_highest : (ns : List Node) → ns ≠ [] →
    ∃ n ∈ ns, ∃ above, n.Ascends above ∧ above.length + 1 = heights ns
  | [], nonempty => absurd rfl nonempty
  | n :: rest, _ => by
    rw [heights]
    by_cases le : heights rest ≤ n.height
    · obtain ⟨above, chain, length⟩ := exists_ascends n
      exact ⟨n, List.mem_cons_self, above, chain, by omega⟩
    · have nonempty : rest ≠ [] := by
        rintro rfl
        rw [heights] at le
        omega
      obtain ⟨m, mem, above, chain, length⟩ := exists_highest rest nonempty
      exact ⟨m, List.mem_cons_of_mem _ mem, above, chain, by omega⟩

end

/-- The height is the number of nodes of the longest chain. -/
theorem isGreatest_height (n : Node) :
    IsGreatest {k | ∃ above, n.Ascends above ∧ k = above.length + 1} n.height := by
  constructor
  · obtain ⟨above, chain, length⟩ := exists_ascends n
    exact ⟨above, chain, length.symm⟩
  · rintro k ⟨above, chain, rfl⟩
    exact chain.length_lt

/-- The node has the number `consumer` and lists the number `id` as that of a parent. -/
def Uses (root : Node) (consumer : Nat) (n : Node) (id : Nat) : Prop :=
  root.at? consumer = some n ∧ id ∈ parentIds (consumer + 1) n.parents

end Node

namespace Export

variable {root : Node}

section Sweep

variable {nodes : List (Nat × ExportNode)} {height : Nat → Nat}

/-- One step of the sweep, where the heights of all parents were found before. -/
theorem foldl_longest {above : List (Nat × Nat)} {id : Nat} {ids : List Nat}
    (found : ∀ parent ∈ ids, id < parent ∧ above.lookup parent = some (height parent)) (start : Nat) :
    ids.foldl (fun longest parent =>
      if id < parent then max longest ((above.lookup parent).getD 0) else longest) start =
    ids.foldl (fun longest parent => max longest (height parent)) start := by
  induction ids generalizing start with
  | nil => rfl
  | cons parent rest ih =>
    obtain ⟨larger, known⟩ := found parent List.mem_cons_self
    rw [List.foldl_cons, List.foldl_cons, if_pos larger, known, Option.getD_some]
    exact ih (fun p mem => found p (List.mem_cons_of_mem _ mem)) _

/-- The sweep finds, for every number, what the numbers of the parents determine, if these are larger
and among the nodes. -/
theorem lookup_depths (sorted : nodes.Pairwise fun a b => a.1 < b.1)
    (above : ∀ n ∈ nodes, ∀ parent ∈ n.2.parentIds, n.1 < parent ∧ parent ∈ nodes.map (·.1))
    (step : ∀ n ∈ nodes, height n.1 =
      n.2.parentIds.foldl (fun longest parent => max longest (height parent)) 0 + 1) :
    ∀ id ∈ nodes.map (·.1), (depths nodes).lookup id = some (height id) := by
  induction nodes with
  | nil => exact fun _ mem => nomatch mem
  | cons n rest ih =>
    obtain ⟨id, x⟩ := n
    obtain ⟨smaller, sorted⟩ := List.pairwise_cons.mp sorted
    -- no node lists the first one, whose number is the smallest
    have later : ∀ m ∈ (id, x) :: rest, ∀ parent ∈ m.2.parentIds, parent ∈ rest.map (·.1) := by
      intro m mem parent listed
      obtain ⟨larger, member⟩ := above m mem parent listed
      refine (List.mem_cons.mp member).resolve_left ?_
      rcases List.mem_cons.mp mem with rfl | mem
      · exact Nat.ne_of_gt larger
      · exact Nat.ne_of_gt (Nat.lt_trans (smaller m mem) larger)
    have found := ih sorted
      (fun m mem parent listed => ⟨(above m (List.mem_cons_of_mem _ mem) parent listed).1,
        later m (List.mem_cons_of_mem _ mem) parent listed⟩)
      (fun m mem => step m (List.mem_cons_of_mem _ mem))
    intro id' mem
    rw [depths, List.lookup_cons]
    rcases List.mem_cons.mp mem with same | mem
    · obtain rfl : id = id' := same.symm
      rw [beq_self_eq_true, step (id, x) List.mem_cons_self]
      refine congrArg (fun n => some (n + 1)) (foldl_longest (fun parent listed => ?_) 0)
      exact ⟨(above (id, x) List.mem_cons_self parent listed).1,
        found parent (later (id, x) List.mem_cons_self parent listed)⟩
    · obtain ⟨m, member, rfl⟩ := List.mem_map.mp mem
      rw [beq_false_of_ne (Nat.ne_of_gt (smaller m member))]
      exact found m.1 mem

end Sweep

/-- The number of a node is that of one of its nodes. -/
theorem le_size_of_at? {n : Node} {id : Nat} (found : root.at? id = some n) : id ≤ root.size := by
  have bound := (le_of_mem_numbered (Node.at?_eq_some_iff.mp found)).2
  rw [Node.length_preorder] at bound
  omega

/-- The texts that a node lists are read back as the numbers of its parents. -/
theorem parentIds_ofNumbered (small : root.size < idBound) {n : Node} {id : Nat}
    (found : root.at? id = some n) :
    (ExportNode.ofNumbered id n).parentIds = Node.parentIds (id + 1) n.parents := by
  have read : ∀ parent ∈ Node.parentIds (id + 1) n.parents,
      Text.readNodeId? (toString parent) = some parent := by
    intro parent listed
    obtain ⟨p, mem, tree⟩ := (Node.hasTreeAt_of_at? found).exists_parent listed
    have := le_size_of_at? tree.at?
    exact Text.readNodeId?_toString (Nat.lt_of_le_of_lt this small)
  show ((Node.parentIds (id + 1) n.parents).map toString).filterMap Text.readNodeId? = _
  rw [List.filterMap_map]
  exact (List.filterMap_congr read).trans List.filterMap_some

/-- The height of the node with a number. -/
def heightAt (root : Node) (id : Nat) : Nat := ((root.at? id).map Node.height).getD 0

theorem heightAt_of_at? {n : Node} {id : Nat} (found : root.at? id = some n) :
    heightAt root id = n.height := by
  rw [heightAt, found, Option.map_some, Option.getD_some]

theorem foldl_heightAt {ids : List Nat} {ns : List Node} (trees : List.Forall₂ root.HasTreeAt ids ns)
    (start : Nat) : ids.foldl (fun longest parent => max longest (heightAt root parent)) start =
      max start (Node.heights ns) := by
  induction trees generalizing start with
  | nil => rw [List.foldl_nil, Node.heights, Nat.max_zero]
  | cons tree _ ih => rw [List.foldl_cons, ih, heightAt_of_at? tree.at?, Node.heights, Nat.max_assoc]

/-- The sweep over the export of a history finds the height of the history. -/
theorem longestPath_ofNode (small : root.size < idBound) : (ofNode root).longestPath = root.height := by
  -- every node of the export is a numbered node of the history
  have node (m : Nat × ExportNode) (mem : m ∈ (ofNode root).nodes) :
      ∃ n, root.at? m.1 = some n ∧ m.2.parentIds = Node.parentIds (m.1 + 1) n.parents := by
    obtain ⟨n, found, same⟩ := (get?_ofNode small).mp (get?_eq_some_iff.mpr mem)
    exact ⟨n, found, by rw [same, parentIds_ofNumbered small found]⟩
  have found : (depths (ofNode root).nodes).lookup 1 = some (heightAt root 1) := lookup_depths
    (ofNode root).sorted
    (fun m mem parent listed => by
      obtain ⟨n, found, parents⟩ := node m mem
      rw [parents] at listed
      obtain ⟨p, -, tree⟩ := (Node.hasTreeAt_of_at? found).exists_parent listed
      have larger := Node.lt_of_mem_parentIds listed
      have bound := le_size_of_at? tree.at?
      refine ⟨larger, ?_⟩
      rw [map_fst_ofNode small, List.mem_range'_1]
      omega)
    (fun m mem => by
      obtain ⟨n, found, parents⟩ := node m mem
      rw [parents, foldl_heightAt (Node.hasTreeAt_of_at? found).parents, heightAt_of_at? found,
        Node.height_eq, Nat.zero_max])
    1 (by
      rw [map_fst_ofNode small, List.mem_range'_1, Node.size_eq]
      omega)
  have first : root.at? 1 = some root := by
    rw [Node.at?, Node.preorder_eq]
    rfl
  rw [longestPath, found, heightAt_of_at? first, Option.getD_some]

theorem mem_leafIds_ofNode (small : root.size < idBound) {id : Nat} :
    id ∈ (ofNode root).leafIds ↔ ∃ n, root.at? id = some n ∧ n.parents = [] := by
  have isEmpty (id : Nat) (n : Node) :
      (ExportNode.ofNumbered id n).flowsFrom.isEmpty = true ↔ n.parents = [] := by
    show ((Node.parentIds (id + 1) n.parents).map toString).isEmpty = true ↔ _
    cases n.parents <;> simp [Node.parentIds]
  constructor
  · intro mem
    obtain ⟨⟨id, x⟩, leaf, rfl⟩ := List.mem_map.mp mem
    obtain ⟨mem, empty⟩ := List.mem_filter.mp leaf
    obtain ⟨n, found, rfl⟩ := (get?_ofNode small).mp (get?_eq_some_iff.mpr mem)
    exact ⟨n, found, (isEmpty id n).mp empty⟩
  · rintro ⟨n, found, parentless⟩
    have mem := get?_eq_some_iff.mp ((get?_ofNode small).mpr ⟨n, found, rfl⟩)
    exact List.mem_map.mpr ⟨_, List.mem_filter.mpr ⟨mem, (isEmpty id n).mpr parentless⟩, rfl⟩

theorem mem_consumers_ofNode (small : root.size < idBound) {id consumer : Nat} :
    consumer ∈ (ofNode root).consumers id ↔ ∃ n, root.Uses consumer n id := by
  simp only [consumers, List.mem_flatMap, List.mem_map, List.mem_filter, beq_iff_eq]
  constructor
  · rintro ⟨⟨consumer, x⟩, mem, _, ⟨listed, rfl⟩, rfl⟩
    obtain ⟨n, found, rfl⟩ := (get?_ofNode small).mp (get?_eq_some_iff.mpr mem)
    rw [parentIds_ofNumbered small found] at listed
    exact ⟨n, found, listed⟩
  · rintro ⟨n, found, listed⟩
    have mem := get?_eq_some_iff.mp ((get?_ofNode small).mpr ⟨n, found, rfl⟩)
    exact ⟨_, mem, id, ⟨by rwa [parentIds_ofNumbered small found], rfl⟩, rfl⟩

/-- No node is used more than once, and all but the root are used. -/
theorem length_consumers_ofNode (small : root.size < idBound) (id : Nat) :
    ((ofNode root).consumers id).length = if 2 ≤ id ∧ id ≤ root.size then 1 else 0 := by
  have listed : ((ofNode root).consumers id).length = (Node.listedIds 1 root.preorder).count id := by
    rw [consumers, nodes_ofNode small, List.flatMap_map, List.length_flatMap, Node.listedIds, List.count_flatMap]
    refine congrArg List.sum (List.map_congr_left fun p mem => ?_)
    rw [List.length_map, parentIds_ofNumbered small (Node.at?_eq_some_iff.mpr mem), Function.comp_apply,
      List.count_eq_length_filter]
  have once := Node.listedIds_preorder root 1
  have inside : id ∈ List.range' (1 + 1) (Node.sizes root.parents) ↔ 2 ≤ id ∧ id ≤ root.size := by
    rw [List.mem_range'_1, Node.size_eq]
    omega
  rw [listed, once.count_eq, List.Nodup.count List.nodup_range']
  exact if_congr inside rfl rfl

theorem consumers_eq_singleton (small : root.size < idBound) {id consumer : Nat}
    (mem : consumer ∈ (ofNode root).consumers id) : (ofNode root).consumers id = [consumer] := by
  have length := length_consumers_ofNode small id
  rcases found : (ofNode root).consumers id with _ | ⟨other, rest⟩
  · rw [found] at mem
    cases mem
  · rw [found, List.length_cons] at length
    have last : rest = [] := List.eq_nil_of_length_eq_zero (by split at length <;> omega)
    rw [found, last, List.mem_singleton] at mem
    rw [last, mem]

/-- A leaf is controllable if the node that uses it taints it. -/
theorem isControllable_ofNode (small : root.size < idBound) {id : Nat} :
    (ofNode root).isControllable id = true ↔
      ∃ consumer n, root.Uses consumer n id ∧ controlMarker.toList <:+: n.label.toList := by
  have taints {consumer : Nat} {n : Node} (uses : root.Uses consumer n id) :
      (((ofNode root).get? consumer).any fun x =>
        Text.occursIn controlMarker.toList x.operation.toList) = true ↔
        controlMarker.toList <:+: n.label.toList := by
    rw [(get?_ofNode small).mpr ⟨n, uses.1, rfl⟩, Option.any_some, Text.occursIn_iff_infix]
    rfl
  unfold isControllable
  constructor
  · intro control
    split at control
    · rename_i consumer only
      obtain ⟨n, uses⟩ := (mem_consumers_ofNode small).mp (only ▸ List.mem_singleton_self consumer)
      exact ⟨consumer, n, uses, (taints uses).mp control⟩
    · cases control
  · rintro ⟨consumer, n, uses, marked⟩
    rw [consumers_eq_singleton small ((mem_consumers_ofNode small).mpr ⟨n, uses⟩)]
    exact (taints uses).mpr marked

end Export

/-- A summary says of a history what is the case. -/
structure Triage.Describes (t : Triage) (root : Node) : Prop where
  /-- Nodes are counted once for every way that leads to them. -/
  nodeCount : t.nodeCount = root.size
  /-- The longest path is the longest chain of ancestors, with the root itself. -/
  longestPath : IsGreatest {k | ∃ above, root.Ascends above ∧ k = above.length + 1} t.longestPath
  /-- The leaves are listed by their numbers. -/
  sorted : t.leafIds.Pairwise (· < ·)
  /-- The leaves are the nodes without parents. -/
  leaves : ∀ id, id ∈ t.leafIds ↔ ∃ n, root.at? id = some n ∧ n.parents = []
  /-- Every leaf is used by one node, unless it is all of the history. -/
  consumer : ∀ id ∈ t.leafIds, id ≠ 1 → ∃! consumer, ∃ n, root.Uses consumer n id
  /-- The controllable leaves are in the same order as the others. -/
  sublist : t.controllableLeafIds.Sublist t.leafIds
  /-- A leaf is controllable if the node that uses it sets its taint. -/
  controllable : ∀ id, id ∈ t.controllableLeafIds ↔
    id ∈ t.leafIds ∧ ∃ consumer n, root.Uses consumer n id ∧ "set_taint".toList <:+: n.label.toList

/-- The summary of the export of a history with less than `2 ^ 32` nodes describes the history. -/
theorem Triage.ofExport_describes {root : Node} (small : root.size < idBound) :
    (Triage.ofExport (.ofNode root)).Describes root where
  nodeCount := by
    have numbers := congrArg List.length (Export.map_fst_ofNode small)
    rwa [List.length_map, List.length_range'] at numbers
  longestPath := by
    rw [show (ofExport (.ofNode root)).longestPath = root.height from Export.longestPath_ofNode small]
    exact root.isGreatest_height
  sorted := ((Export.ofNode root).sorted.filter _).map _ fun _ _ lt => lt
  leaves _ := Export.mem_leafIds_ofNode small
  consumer id leaf other := by
    obtain ⟨n, found, -⟩ := (Export.mem_leafIds_ofNode small).mp leaf
    have number := le_of_mem_numbered (Node.at?_eq_some_iff.mp found)
    rw [Node.length_preorder] at number
    have length := Export.length_consumers_ofNode small id
    rw [if_pos (by omega)] at length
    obtain ⟨consumer, only⟩ := List.length_eq_one_iff.mp length
    have uses (j : Nat) : (∃ n, root.Uses j n id) ↔ j = consumer := by
      rw [← Export.mem_consumers_ofNode small, only, List.mem_singleton]
    exact ⟨consumer, (uses consumer).mpr rfl, fun j => (uses j).mp⟩
  sublist := List.filter_sublist
  controllable id := by
    show id ∈ (Export.ofNode root).leafIds.filter (Export.ofNode root).isControllable ↔ _
    rw [List.mem_filter, Export.isControllable_ofNode small]
    rfl

/-- A command that was put together from a tainted text and one that was left alone. -/
def command : Node :=
  let text := Node.leaf 0 "'x'"
  let source := Node.join 1 "call:__jalangi_set_taint__" [text] "'x'"
  .join 7 "call:exec" [.join 5 "binary:+" [.leaf 4 "'ls '", .join 3 taintedLabel [source] "'x'"] "'ls x'"]
    "'ls x'"

theorem Triage.ofExport_describes_command : command.size < idBound ∧ command.size = 6 ∧
    (Triage.ofExport (.ofNode command)).Describes command :=
  ⟨by decide, by decide, Triage.ofExport_describes (by decide)⟩

end ShadowTaint.Provenance
