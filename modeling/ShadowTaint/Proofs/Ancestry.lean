import Mathlib.Data.List.Nodup
import ShadowTaint.Proofs.Histories
/-!
# What a node says of its ancestors

Nodes are made one after the other, each over nodes that there are already, and none is changed later. Whether a node
is tainted is settled when it is made, from its operation and from what its parents say of themselves: nobody looks at
the history again. This is right for any graph that can be made, however often its nodes are shared, as long as no node
is said to taint a value without being made over another one.

A node is known by its number. So the same node can be given several times to a node that is made over it, and it is
listed once, in the place where it was given first.

## Main definitions

- `Making`: how a node is made.
- `Graph.makeAll`: the graph that nodes make up which are made one after the other.
- `Graph.Possible`: they are made over nodes of the graph, with new numbers.
- `Graph.Truthful`: the nodes of a graph say of themselves what is true of their ancestors.
- `Graph.Records`: a graph has the node that was to be made.

## Main statements

- `Node.map_uid_distinct`: of nodes with the same number the first one is kept.
- `Node.tainted_join_iff`: a node tells the truth if those tell it over which it is made.
- `Graph.Truthful.make`, `Graph.Truthful.makeAll`: the nodes of a graph tell it after one more was made, and after any
  number of them.
- `Graph.tells_ancestry`: what is so of every graph.
-/

namespace ShadowTaint.Provenance

namespace Node

variable {ns : List Node} {n : Node}

theorem leadsBack_iff : n.LeadsBack ↔ n.label = taintedLabel ∨ ∃ p ∈ n.parents, p.LeadsBack := by
  constructor
  · rintro (label | ⟨mem, back⟩)
    · exact .inl label
    · exact .inr ⟨_, mem, back⟩
  · rintro (label | ⟨p, mem, back⟩)
    · exact .here label
    · exact .through mem back

theorem not_leadsBack_leaf (uid : Nat) (shown : String) : ¬ (leaf uid shown).LeadsBack := by
  rw [leadsBack_iff]
  rintro (label | ⟨p, mem, -⟩)
  · exact absurd (show untaintedLabel = taintedLabel from label) (by decide)
  · cases mem

theorem join_nil (uid : Nat) (label shown : String) :
    join uid label [] shown = ⟨uid, label, [leaf (uid + 1) shown], snapshot shown, false⟩ := rfl

theorem map_uid_distinctFrom (seen : List Nat) (ns : List Node) :
    (distinctFrom seen ns).map (·.uid) = ((ns.map (·.uid)).filter (· ∉ seen)).eraseDups := by
  induction ns generalizing seen with
  | nil => rfl
  | cons n rest ih =>
    rw [distinctFrom, List.map_cons, List.filter_cons]
    by_cases old : n.uid ∈ seen
    · rw [if_pos old, if_neg (by simpa using old), ih]
    · rw [if_neg old, if_pos (by simpa using old), List.map_cons, ih, List.eraseDups_cons, List.filter_filter]
      congr 2
      refine List.filter_congr fun uid _ => Bool.eq_iff_iff.mpr ?_
      simp

/-- Every number is listed once, and the numbers stand in the order in which they first come up. -/
theorem map_uid_distinct (ns : List Node) : (distinct ns).map (·.uid) = (ns.map (·.uid)).eraseDups := by
  rw [distinct, map_uid_distinctFrom]
  simp

/-- A node says that it is tainted exactly if it leads back to one that tainted a value, provided that it is so
of the nodes over which it is made, and that it is made over any if it taints. -/
theorem tainted_join_iff {label : String} (uid : Nat) (shown : String) (agree : Agree ns)
    (truthful : ∀ n ∈ ns, (n.tainted = true ↔ n.LeadsBack)) (grounded : label = taintedLabel → ns ≠ []) :
    (join uid label ns shown).tainted = true ↔ (join uid label ns shown).LeadsBack := by
  refine ⟨fun tainted => leadsBack_join tainted fun n mem => (truthful n mem).mp, fun back => ?_⟩
  by_cases alone : ns = []
  · -- the only ancestor is a new root
    rw [alone, join_nil, leadsBack_iff] at back
    rcases back with taints | ⟨p, mem, back⟩
    · exact absurd alone (grounded taints)
    · rw [List.mem_singleton.mp mem] at back
      exact absurd back (not_leadsBack_leaf _ _)
  · rw [join_of_ne_nil _ _ _ alone, leadsBack_iff] at back
    rcases back with taints | ⟨p, kept, back⟩
    · rw [show label = taintedLabel from taints]
      exact tainted_join_label uid shown alone
    · have mem := mem_of_mem_distinctFrom kept
      exact tainted_join uid label shown agree mem ((truthful p mem).mpr back)

end Node

/-- How a node is made. The nodes over which it is made are given by their numbers. -/
inductive Making where
  | leaf (uid : Nat) (value : String)
  | join (uid : Nat) (label : String) (parents : List Nat) (value : String)

namespace Making

/-- The numbers of the nodes over which the node is made. -/
def parents : Making → List Nat
  | leaf _ _ => []
  | join _ _ parents _ => parents

/-- If the operation taints, the node is made over another one. -/
def Grounded : Making → Prop
  | leaf _ _ => True
  | join _ label parents _ => label = taintedLabel → parents ≠ []

instance : DecidablePred Grounded
  | leaf _ _ => .isTrue trivial
  | join _ label parents _ => inferInstanceAs (Decidable (label = taintedLabel → parents ≠ []))

end Making

/-- The nodes that there are, the latest ones first. -/
abbrev Graph := List Node

namespace Graph

variable {g g' : Graph} {m : Making} {makings : List Making}

def numbers (g : Graph) : List Nat := g.map (·.uid)

/-- The node with a number. -/
def node? (g : Graph) (uid : Nat) : Option Node := g.find? (·.uid == uid)

/-- The nodes with these numbers, as often as they are asked for. -/
def nodes (g : Graph) (uids : List Nat) : List Node := uids.filterMap g.node?

/-- The nodes that come up when one is made. A node that is made over no other brings a root along. -/
def born (g : Graph) : Making → List Node
  | .leaf uid value => [.leaf uid value]
  | .join uid label parents value =>
    let n := Node.join uid label (g.nodes parents) value
    if parents = [] then n :: n.parents else [n]

/-- The graph after a node was made. -/
def make (g : Graph) (m : Making) : Graph := g.born m ++ g

/-- The graph after several nodes were made, one after the other. -/
def makeAll (g : Graph) (makings : List Making) : Graph := makings.foldl make g

/-- A node is made over nodes that there are, and what comes up has numbers that no node has. -/
def Allows (g : Graph) (m : Making) : Prop :=
  (∀ uid ∈ m.parents, uid ∈ g.numbers) ∧ ∀ n ∈ g.born m, n.uid ∉ g.numbers

instance (g : Graph) (m : Making) : Decidable (g.Allows m) := inferInstanceAs (Decidable (_ ∧ _))

/-- The nodes can be made one after the other. -/
def Possible (g : Graph) : List Making → Prop
  | [] => True
  | m :: rest => g.Allows m ∧ (g.make m).Possible rest

instance decidablePossible : (g : Graph) → (makings : List Making) → Decidable (g.Possible makings)
  | _, [] => .isTrue trivial
  | g, m :: rest =>
    have := decidablePossible (g.make m) rest
    inferInstanceAs (Decidable (g.Allows m ∧ _))

/-- Every node of the graph says of itself what is true of its ancestors. -/
structure Truthful (g : Graph) : Prop where
  /-- Different nodes have different numbers. -/
  distinct : g.numbers.Nodup
  /-- The ancestors of a node belong to the graph. -/
  closed : ∀ n ∈ g, ∀ p ∈ n.parents, p ∈ g
  /-- A node is tainted exactly if the node itself or one of its ancestors tainted a value. -/
  tainted : ∀ n ∈ g, (n.tainted = true ↔ n.LeadsBack)
  /-- A node without parents is an untainted root. -/
  leaves : ∀ n ∈ g, n.parents = [] → ∃ uid value, n = .leaf uid value

/-- The graph has the node that was to be made, with each node that was given for it as a parent: no
node is listed twice, and they are listed in the order in which they were first given. -/
def Records (g : Graph) : Making → Prop
  | .leaf uid value => .leaf uid value ∈ g
  | .join uid label parents value => ∃ n ∈ g, n.uid = uid ∧ n.label = label ∧ n.value = Node.snapshot value ∧
      if parents = [] then ∃ root, n.parents = [.leaf root value]
      else n.parents.map (·.uid) = parents.eraseDups

section Nodes

theorem mem_of_mem_nodes {n : Node} {uids : List Nat} (mem : n ∈ g.nodes uids) : n ∈ g := by
  obtain ⟨uid, -, found⟩ := List.mem_filterMap.mp mem
  exact List.mem_of_find?_eq_some found

theorem exists_node? {uid : Nat} (known : uid ∈ g.numbers) : ∃ n, g.node? uid = some n ∧ n.uid = uid := by
  obtain ⟨n, mem, same⟩ := List.mem_map.mp known
  rw [node?]
  cases found : g.find? (·.uid == uid) with
  | none => exact absurd (beq_of_eq same) (List.find?_eq_none.mp found n mem)
  | some k =>
    have numbered := List.find?_some found
    exact ⟨k, rfl, eq_of_beq numbered⟩

theorem map_uid_nodes {uids : List Nat} (known : ∀ uid ∈ uids, uid ∈ g.numbers) :
    (g.nodes uids).map (·.uid) = uids := by
  induction uids with
  | nil => rfl
  | cons uid rest ih =>
    obtain ⟨first, later⟩ := List.forall_mem_cons.mp known
    obtain ⟨n, found, same⟩ := exists_node? first
    rw [nodes, List.filterMap_cons_some found, List.map_cons, same]
    exact congrArg _ (ih later)

theorem nodes_ne_nil {uids : List Nat} (known : ∀ uid ∈ uids, uid ∈ g.numbers) (nonempty : uids ≠ []) :
    g.nodes uids ≠ [] := by
  intro empty
  have := map_uid_nodes known
  rw [empty] at this
  exact nonempty this.symm

end Nodes

namespace Truthful

theorem agree (h : g.Truthful) {ns : List Node} (known : ∀ n ∈ ns, n ∈ g) : Node.Agree ns :=
  fun a ha b hb same => by rw [List.inj_on_of_nodup_map h.distinct (known a ha) (known b hb) same]

theorem nil : Truthful [] where
  distinct := .nil
  closed := nofun
  tainted := nofun
  leaves := nofun

section Step

variable (h : g.Truthful)
include h

/-- A node with a new number that is put over nodes of the graph, and that tells the truth itself. -/
theorem cons {n : Node} (fresh : n.uid ∉ g.numbers) (above : ∀ p ∈ n.parents, p ∈ g)
    (tainted : n.tainted = true ↔ n.LeadsBack) (leaf : n.parents = [] → ∃ uid value, n = .leaf uid value) :
    Truthful (n :: g) where
  distinct := List.nodup_cons.mpr ⟨fresh, h.distinct⟩
  closed k mem p parent := by
    rcases List.mem_cons.mp mem with rfl | old
    · exact List.mem_cons_of_mem _ (above p parent)
    · exact List.mem_cons_of_mem _ (h.closed k old p parent)
  tainted := List.forall_mem_cons.mpr ⟨tainted, h.tainted⟩
  leaves := List.forall_mem_cons.mpr ⟨leaf, h.leaves⟩

theorem leaf {uid : Nat} (value : String) (fresh : uid ∉ g.numbers) : Truthful (.leaf uid value :: g) := by
  refine h.cons fresh nofun (iff_of_false ?_ (Node.not_leadsBack_leaf uid value)) fun _ => ⟨uid, value, rfl⟩
  exact Bool.false_ne_true

/-- A node that is made over nodes of the graph. -/
theorem join {ns : List Node} {uid : Nat} (label value : String) (known : ∀ n ∈ ns, n ∈ g) (nonempty : ns ≠ [])
    (fresh : uid ∉ g.numbers) : Truthful (.join uid label ns value :: g) := by
  have parents : (Node.join uid label ns value).parents = Node.distinct ns := by rw [Node.join_of_ne_nil _ _ _ nonempty]
  refine h.cons (by rwa [Node.uid_join]) (fun p mem => ?_) ?_ fun empty => ?_
  · rw [parents] at mem
    exact known p (Node.mem_of_mem_distinctFrom mem)
  · exact Node.tainted_join_iff uid value (h.agree known) (fun n mem => h.tainted n (known n mem)) fun _ => nonempty
  · -- of the nodes that are given at least one is kept
    obtain ⟨n, mem⟩ := List.exists_mem_of_ne_nil ns nonempty
    obtain ⟨p, kept, -⟩ := Node.exists_mem_distinctFrom [] mem List.not_mem_nil
    rw [parents, Node.distinct] at empty
    rw [empty] at kept
    cases kept

/-- A node that is made over no other hangs off a root of its own. -/
theorem alone {uid : Nat} {label : String} (value : String) (other : label ≠ taintedLabel)
    (fresh : uid ∉ g.numbers) (rootFresh : uid + 1 ∉ g.numbers) :
    Truthful (.join uid label [] value :: .leaf (uid + 1) value :: g) := by
  refine (h.leaf value rootFresh).cons (fun mem => ?_) (fun p mem => ?_) ?_ nofun
  · rcases List.mem_cons.mp mem with same | old
    · exact absurd same (Nat.ne_of_lt (Nat.lt_succ_self uid))
    · exact fresh old
  · rw [List.mem_singleton.mp mem]
    exact List.mem_cons_self
  · exact Node.tainted_join_iff uid value nofun nofun fun taints => absurd taints other

/-- The graph stays truthful when a node is made. -/
theorem make (allowed : g.Allows m) (grounded : m.Grounded) : (g.make m).Truthful := by
  obtain ⟨known, fresh⟩ := allowed
  cases m with
  | leaf uid value => exact h.leaf value (fresh _ List.mem_cons_self)
  | join uid label parents value =>
    rw [Graph.make]
    by_cases empty : parents = []
    · subst empty
      exact h.alone value (fun taints => grounded taints rfl) (fresh _ List.mem_cons_self)
        (fresh (.leaf (uid + 1) value) (List.mem_cons_of_mem _ List.mem_cons_self))
    · rw [born, if_neg empty] at fresh ⊢
      have fresh := fresh _ List.mem_cons_self
      rw [Node.uid_join] at fresh
      exact h.join label value (fun n mem => mem_of_mem_nodes mem) (nodes_ne_nil known empty) fresh

end Step

/-- It stays so however many nodes are made. -/
theorem makeAll (h : g.Truthful) (possible : g.Possible makings) (grounded : ∀ m ∈ makings, m.Grounded) :
    (g.makeAll makings).Truthful := by
  induction makings generalizing g with
  | nil => exact h
  | cons m rest ih =>
    obtain ⟨allowed, possible⟩ := possible
    obtain ⟨first, later⟩ := List.forall_mem_cons.mp grounded
    exact ih (h.make allowed first) possible later

end Truthful

theorem subset_make (g : Graph) (m : Making) : g ⊆ g.make m := List.subset_append_right _ _

theorem subset_makeAll (g : Graph) (makings : List Making) : g ⊆ g.makeAll makings := by
  induction makings generalizing g with
  | nil => exact List.Subset.refl g
  | cons m rest ih => exact List.Subset.trans (g.subset_make m) (ih (g.make m))

theorem Records.mono (records : g.Records m) (more : g ⊆ g') : g'.Records m := by
  cases m with
  | leaf uid value => exact more records
  | join uid label parents value =>
    obtain ⟨n, mem, made⟩ := records
    exact ⟨n, more mem, made⟩

/-- The node that was to be made is in the graph. -/
theorem records_make (known : ∀ uid ∈ m.parents, uid ∈ g.numbers) : (g.make m).Records m := by
  cases m with
  | leaf uid value => exact List.mem_cons_self
  | join uid label parents value =>
    replace known : ∀ uid ∈ parents, uid ∈ g.numbers := known
    by_cases empty : parents = []
    · subst empty
      exact ⟨.join uid label [] value, List.mem_cons_self, rfl, rfl, rfl, uid + 1, rfl⟩
    · refine ⟨.join uid label (g.nodes parents) value, ?_, ?_⟩
      · rw [make, born, if_neg empty]
        exact List.mem_cons_self
      · rw [Node.join_of_ne_nil _ _ _ (nodes_ne_nil known empty), if_neg empty]
        refine ⟨rfl, rfl, rfl, ?_⟩
        rw [Node.map_uid_distinct, map_uid_nodes known]

/-- It is still there when others have been made. -/
theorem records_makeAll (possible : g.Possible makings) : ∀ m ∈ makings, (g.makeAll makings).Records m := by
  induction makings generalizing g with
  | nil => exact nofun
  | cons m rest ih =>
    obtain ⟨⟨known, -⟩, possible⟩ := possible
    exact List.forall_mem_cons.mpr ⟨(records_make known).mono (subset_makeAll _ rest), ih possible⟩

/-- However nodes are made, as long as every one that taints a value is made over another one: a node is tainted
exactly if the node itself or one of its ancestors tainted a value, the ancestors of a node belong to the graph, those
without parents are untainted roots, and the parents of a node are the nodes that were given for it, without
repetitions and in the order in which they were first given. -/
theorem tells_ancestry (possible : Possible [] makings) (grounded : ∀ m ∈ makings, m.Grounded) :
    (makeAll [] makings).Truthful ∧ ∀ m ∈ makings, (makeAll [] makings).Records m :=
  ⟨Truthful.nil.makeAll possible grounded, records_makeAll possible⟩

/-- A text is tainted. Another one comes out of a call without arguments. The two are joined, and the result is joined
again with what it was made of, some of it given twice. -/
def sharing : List Making :=
  [.leaf 0 "'x'", .join 1 taintedLabel [0] "'x'", .join 2 "call:now" [] "'p'", .join 4 "binary:+" [2, 1] "'px'",
    .join 5 "call:concat" [3, 4, 2, 4, 1, 3] "'ppxpx'"]

theorem tells_ancestry_sharing : Possible [] sharing ∧ (∀ m ∈ sharing, m.Grounded) ∧
    (makeAll [] sharing).Truthful ∧ (∀ m ∈ sharing, (makeAll [] sharing).Records m) ∧
    (makeAll [] sharing).map (fun n => (n.uid, n.tainted, n.parents.map (·.uid))) =
      [(5, true, [3, 4, 2, 1]), (4, true, [2, 1]), (2, false, [3]), (3, false, []), (1, true, [0]), (0, false, [])] := by
  have possible : Possible [] sharing := by decide
  have grounded : ∀ m ∈ sharing, m.Grounded := by decide
  obtain ⟨truthful, records⟩ := tells_ancestry possible grounded
  exact ⟨possible, grounded, truthful, records, by decide⟩

/-- A node that is said to taint a value but is made over no other one is not tainted. -/
example : (Node.join 0 taintedLabel [] "'x'").tainted = false ∧ (Node.join 0 taintedLabel [] "'x'").LeadsBack :=
  ⟨rfl, .here rfl⟩

end Graph

end ShadowTaint.Provenance
