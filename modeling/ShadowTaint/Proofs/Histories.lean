import ShadowTaint.Proofs.Lasting
import ShadowTaint.Proofs.Texts
/-!
# Where taint comes from

The history of a tainted value is to show how the taint came about: somewhere in it there is a node that
tainted a value. A node says of itself whether taint went into it, and a new node is believed to be
tainted as soon as one of its parents is. Parents are listed once for each number, so what a node says
can only be relied on if nodes with the same number say the same.

## Main definitions

- `Provenance.Node.LeadsBack`: a node that tainted a value is in the history.
- `Memory.taintedHistory`: taint went into the history of a value.
- `Memory.Traced`: the histories of all tainted values lead back.

## Main statements

- `Memory.Traced.records`: an entry that is stored over a history with taint in it.
- `Memory.Traced.derives`, `Memory.Traced.setBit`: the rules of strings.
- `Memory.Traced.relabel`, `Memory.outlasts_traced`: notes, and what ghost functions write.
-/

namespace ShadowTaint

open Memory Policy

namespace Provenance.Node

/-- A node that tainted a value is the node itself or in its history. -/
inductive LeadsBack : Node → Prop where
  | here {n : Node} (label : n.label = taintedLabel) : LeadsBack n
  | through {n p : Node} (mem : p ∈ n.parents) (h : LeadsBack p) : LeadsBack n

/-- Nodes with the same number are both tainted or both untainted. -/
def Agree (ns : List Node) : Prop := ∀ a ∈ ns, ∀ b ∈ ns, a.uid = b.uid → a.tainted = b.tainted

variable {ns : List Node} {n : Node}

theorem mem_of_mem_distinctFrom {seen : List Nat} (h : n ∈ distinctFrom seen ns) : n ∈ ns := by
  induction ns generalizing seen with
  | nil => cases h
  | cons a rest ih =>
    rw [distinctFrom] at h
    split at h
    · exact List.mem_cons_of_mem _ (ih h)
    · rcases List.mem_cons.mp h with rfl | later
      · exact List.mem_cons_self
      · exact List.mem_cons_of_mem _ (ih later)

/-- For every number that was not seen before, the first node with it is kept. -/
theorem exists_mem_distinctFrom (seen : List Nat) (mem : n ∈ ns) (new : n.uid ∉ seen) :
    ∃ p ∈ distinctFrom seen ns, p.uid = n.uid := by
  induction ns generalizing seen with
  | nil => cases mem
  | cons a rest ih =>
    rw [distinctFrom]
    rcases List.mem_cons.mp mem with rfl | later
    · rw [if_neg new]
      exact ⟨n, List.mem_cons_self, rfl⟩
    · split
      · exact ih seen later new
      · by_cases same : n.uid = a.uid
        · exact ⟨a, List.mem_cons_self, same.symm⟩
        · obtain ⟨p, kept, uid⟩ := ih (a.uid :: seen) later fun h =>
            (List.mem_cons.mp h).elim same new
          exact ⟨p, List.mem_cons_of_mem _ kept, uid⟩

theorem join_of_ne_nil (uid : Nat) (label shown : String) (h : ns ≠ []) :
    join uid label ns shown = ⟨uid, label, distinct ns, snapshot shown,
      label == taintedLabel || (distinct ns).any (·.tainted)⟩ := by
  rw [join, if_neg (by simpa using h)]

/-- The operation that taints makes a tainted node out of any history. -/
theorem tainted_join_label (uid : Nat) (shown : String) (h : ns ≠ []) :
    (join uid taintedLabel ns shown).tainted = true := by
  rw [join_of_ne_nil _ _ _ h, beq_self_eq_true, Bool.true_or]

/-- A node over a tainted one is tainted. -/
theorem tainted_join (uid : Nat) (label shown : String) (agree : Agree ns) (mem : n ∈ ns)
    (tainted : n.tainted = true) : (join uid label ns shown).tainted = true := by
  obtain ⟨p, kept, same⟩ := exists_mem_distinctFrom [] mem List.not_mem_nil
  have also := (agree p (mem_of_mem_distinctFrom kept) n mem same).trans tainted
  rw [join_of_ne_nil _ _ _ (List.ne_nil_of_mem mem)]
  exact Bool.or_eq_true _ _ |>.mpr (.inr (List.any_eq_true.mpr ⟨p, kept, also⟩))

/-- The history of a tainted node leads back if those of its tainted parents do. -/
theorem leadsBack_join {uid : Nat} {label shown : String}
    (tainted : (join uid label ns shown).tainted = true)
    (back : ∀ n ∈ ns, n.tainted = true → n.LeadsBack) : (join uid label ns shown).LeadsBack := by
  by_cases empty : ns = []
  · subst empty
    cases tainted
  · rw [join_of_ne_nil _ _ _ empty] at tainted ⊢
    rcases (Bool.or_eq_true _ _).mp tainted with label | parent
    · exact .here (eq_of_beq label)
    · obtain ⟨p, kept, also⟩ := List.any_eq_true.mp parent
      exact .through kept (back p (mem_of_mem_distinctFrom kept) also)

end Provenance.Node

namespace Memory

/-- Taint went into the history of the value. -/
def taintedHistory (m : Memory) (v : Value) : Bool := (m.entryOf v).path.tainted

/-- No taint went into the history of any of the values. -/
def Blank (m : Memory) (vs : List Value) : Prop := ∀ v ∈ vs, m.taintedHistory v = false

/-- The histories of all tainted values have taint in them, and where there is taint in a history, it
leads back to a node that tainted a value. -/
structure Traced (m : Memory) : Prop where
  tainted : ∀ key e, m.shadow.entries.get? key = some e → e.isTainted = true → e.path.tainted = true
  back : ∀ key e, m.shadow.entries.get? key = some e → e.path.tainted = true → e.path.LeadsBack
  numbered : ∀ key e, m.shadow.entries.get? key = some e → e.path.uid < m.shadow.nextNode
  agree : ∀ key e key' e', m.shadow.entries.get? key = some e →
    m.shadow.entries.get? key' = some e' → e.path.uid = e'.path.uid → e.path.tainted = e'.path.tainted

section Histories

variable {m m₁ : Memory} {v : Value} {n : Provenance.Node}

theorem HistoryAt.tainted_eq (h : m.HistoryAt v n) : n.tainted = m.taintedHistory v := by
  rw [HistoryAt] at h
  rw [taintedHistory, Memory.entryOf]
  rcases stored : m.stored? v with _ | e <;> rw [stored] at h
  · obtain ⟨uid, shown, -, rfl⟩ := h
    exact (rfl : _ = false).trans rfl
  · rw [h]

/-- The history of a value is recorded under its key, or it is an untainted root with a new number. -/
theorem HistoryAt.cases (h : m.HistoryAt v n) :
    (∃ key e, m.shadow.keyOf v = some key ∧ m.shadow.entries.get? key = some e ∧ n = e.path) ∨
      m.shadow.nextNode ≤ n.uid ∧ n.tainted = false := by
  rw [HistoryAt] at h
  rcases stored : m.stored? v with _ | e <;> rw [stored] at h
  · obtain ⟨uid, shown, fresh, rfl⟩ := h
    exact .inr ⟨fresh, rfl⟩
  · obtain ⟨key, own, found⟩ := Option.bind_eq_some_iff.mp stored
    exact .inl ⟨key, e, own, found, h⟩

theorem exists_of_forall₂ {sources : List Value} {ns : List Provenance.Node}
    (histories : List.Forall₂ m.HistoryAt sources ns) :
    (∀ n ∈ ns, ∃ v ∈ sources, m.HistoryAt v n) ∧ ∀ v ∈ sources, ∃ n ∈ ns, m.HistoryAt v n := by
  induction histories with
  | nil => exact ⟨nofun, nofun⟩
  | @cons v n sources ns history _ ih =>
    refine ⟨fun k mem => ?_, fun w mem => ?_⟩
    · rcases List.mem_cons.mp mem with rfl | later
      · exact ⟨v, List.mem_cons_self, history⟩
      · obtain ⟨w, mem, history⟩ := ih.1 k later
        exact ⟨w, List.mem_cons_of_mem _ mem, history⟩
    · rcases List.mem_cons.mp mem with rfl | later
      · exact ⟨n, List.mem_cons_self, history⟩
      · obtain ⟨k, mem, history⟩ := ih.2 w later
        exact ⟨k, List.mem_cons_of_mem _ mem, history⟩

theorem taintedHistory_used (used : NodesUsed m m₁) (v : Value) :
    m₁.taintedHistory v = m.taintedHistory v :=
  (MemoryM.entryOf_used used v).2.2.tainted_eq

theorem blank_used (used : NodesUsed m m₁) (vs : List Value) : m₁.Blank vs ↔ m.Blank vs := by
  unfold Blank
  simp only [taintedHistory_used used]

theorem taintedHistory_beside (m : Memory) (heap : Heap) (v : Value) :
    taintedHistory { m with heap } v = m.taintedHistory v := by
  rw [taintedHistory, taintedHistory, Memory.entryOf, Memory.entryOf,
    show stored? { m with heap } v = m.stored? v from rfl]
  cases m.stored? v with
  | none => exact (rfl : _ = false).trans rfl
  | some e => rfl

theorem blank_beside (m : Memory) (heap : Heap) (vs : List Value) :
    Blank { m with heap } vs ↔ m.Blank vs := by
  unfold Blank
  simp only [taintedHistory_beside]

theorem taintedHistory_of_not_blank (h : ¬ m.Blank [v]) : m.taintedHistory v = true := by
  by_contra clean
  refine h fun w mem => ?_
  rw [List.mem_singleton.mp mem, Bool.not_eq_true _ |>.mp clean]

end Histories

namespace Traced

variable {m m' : Memory} {v : Value}

theorem quiet (h : m.Traced) (quiet : m.Quiet m') : m'.Traced where
  tainted key e found := h.tainted key e (by rwa [← quiet.entries])
  back key e found := h.back key e (by rwa [← quiet.entries])
  numbered key e found :=
    Nat.lt_of_lt_of_le (h.numbered key e (by rwa [← quiet.entries])) quiet.nodes
  agree key e key' e' found found' :=
    h.agree key e key' e' (by rwa [← quiet.entries]) (by rwa [← quiet.entries])

theorem used (h : m.Traced) (used : NodesUsed m m') : m'.Traced := h.quiet used.quiet

/-- Nothing is said about the heap. -/
theorem beside (h : m.Traced) (heap : Heap) : Traced { m with heap } := h.quiet ⟨rfl, Nat.le_refl _⟩

theorem taintedHistory (h : m.Traced) (own : m.ownTaint v = true) : m.taintedHistory v = true := by
  rcases stored : m.stored? v with _ | e
  · rw [ownTaint_of_none stored] at own
    cases own
  · obtain ⟨key, -, found⟩ := Option.bind_eq_some_iff.mp stored
    rw [Memory.taintedHistory, Memory.entryOf, stored]
    exact h.tainted key e found ((ownTaint_of_stored stored).symm.trans own)

theorem leadsBack (h : m.Traced) {n : Provenance.Node} (history : m.HistoryAt v n)
    (tainted : n.tainted = true) : n.LeadsBack := by
  rcases history.cases with ⟨key, e, -, found, rfl⟩ | ⟨-, clean⟩
  · exact h.back key e found tainted
  · cases clean.symm.trans tainted

/-- Histories that were read since agree, recorded ones having old numbers and roots new ones. -/
theorem agree_histories (h : m.Traced) {sources : List Value} {ns : List Provenance.Node}
    (histories : List.Forall₂ m.HistoryAt sources ns) : Provenance.Node.Agree ns := by
  have cases (n : Provenance.Node) (mem : n ∈ ns) :
      (∃ key e, m.shadow.entries.get? key = some e ∧ n = e.path) ∨
        m.shadow.nextNode ≤ n.uid ∧ n.tainted = false := by
    obtain ⟨v, -, history⟩ := (exists_of_forall₂ histories).1 n mem
    exact history.cases.imp_left fun ⟨key, e, _, found, same⟩ => ⟨key, e, found, same⟩
  intro a ha b hb same
  rcases cases a ha with ⟨key, e, found, rfl⟩ | ⟨new, clean⟩
  · rcases cases b hb with ⟨key', e', found', rfl⟩ | ⟨new, -⟩
    · exact h.agree key e key' e' found found' same
    · have old := h.numbered key e found
      omega
  · rcases cases b hb with ⟨key', e', found', rfl⟩ | ⟨-, clean'⟩
    · have old := h.numbered key' e' found'
      omega
    · rw [clean, clean']

/-- An entry that takes the place of another one. -/
theorem stores (h : m.Traced) {e : TaintEntry}
    (entries : ∀ key, m'.shadow.entries.get? key =
      if m.shadow.keyOf v = some key then some e else m.shadow.entries.get? key)
    (nodes : m.shadow.nextNode ≤ m'.shadow.nextNode) (numbered : e.path.uid < m'.shadow.nextNode)
    (tainted : e.isTainted = true → e.path.tainted = true)
    (back : e.path.tainted = true → e.path.LeadsBack)
    (agree : ∀ key e', m.shadow.entries.get? key = some e' → e'.path.uid = e.path.uid →
      e'.path.tainted = e.path.tainted) : m'.Traced := by
  have cases (key : TaintKey) (e' : TaintEntry) (found : m'.shadow.entries.get? key = some e') :
      e' = e ∨ m.shadow.entries.get? key = some e' := by
    rw [entries] at found
    split at found
    · exact .inl (Option.some.inj found).symm
    · exact .inr found
  refine ⟨fun key e' found => ?_, fun key e' found => ?_, fun key e' found => ?_,
    fun key a key' b found found' => ?_⟩
  · rcases cases key e' found with rfl | old
    · exact tainted
    · exact h.tainted key e' old
  · rcases cases key e' found with rfl | old
    · exact back
    · exact h.back key e' old
  · rcases cases key e' found with rfl | old
    · exact numbered
    · exact Nat.lt_of_lt_of_le (h.numbered key e' old) nodes
  · rcases cases key a found with rfl | old <;> rcases cases key' b found' with rfl | old'
    · exact fun _ => rfl
    · exact fun same => (agree key' b old' same.symm).symm
    · exact fun same => agree key a old same
    · exact h.agree key a key' b old old'

/-- A new node over histories whose taint leads back. -/
theorem stores_join (h : m.Traced) {e : TaintEntry} (label shown : String)
    (ns : List Provenance.Node)
    (entries : ∀ key, m'.shadow.entries.get? key =
      if m.shadow.keyOf v = some key then some e else m.shadow.entries.get? key)
    (fresh : m.shadow.nextNode ≤ e.path.uid) (numbered : e.path.uid < m'.shadow.nextNode)
    (path : e.path = .join e.path.uid label ns shown) (agree : Provenance.Node.Agree ns)
    (back : ∀ n ∈ ns, n.tainted = true → n.LeadsBack)
    (grounded : e.isTainted = true →
      label = Provenance.taintedLabel ∧ ns ≠ [] ∨ ∃ n ∈ ns, n.tainted = true) : m'.Traced := by
  refine h.stores entries (by omega) numbered (fun tainted => ?_) (fun tainted => ?_)
    fun key e' found same => ?_
  · rw [path]
    rcases grounded tainted with ⟨rfl, nonempty⟩ | ⟨n, mem, tainted⟩
    · exact Provenance.Node.tainted_join_label _ _ nonempty
    · exact Provenance.Node.tainted_join _ _ _ agree mem tainted
  · rw [path] at tainted ⊢
    exact Provenance.Node.leadsBack_join tainted back
  · have old := h.numbered key e' found
    omega

/-- An entry is stored. If it is tainted, it is because its operation taints or because taint went into
the history of one of its sources. -/
theorem records (h : m.Traced) {tainted : Bool} {label : String} {sources : List Value}
    (recorded : m.Records m' v tainted label sources)
    (grounded : tainted = true → label = Provenance.taintedLabel ∧ sources ≠ [] ∨
      ∃ s ∈ sources, m.taintedHistory s = true) : m'.Traced := by
  obtain ⟨e, isTainted, ⟨fresh, numbered, ns, shown, path, histories⟩, entries⟩ := recorded.get?
  obtain ⟨sourceOf, historyOf⟩ := exists_of_forall₂ histories
  refine h.stores_join label shown ns entries fresh numbered path (h.agree_histories histories)
    (fun n mem tainted => ?_) fun counts => ?_
  · obtain ⟨s, -, history⟩ := sourceOf n mem
    exact h.leadsBack history tainted
  · rcases grounded (isTainted.symm.trans counts) with ⟨same, nonempty⟩ | ⟨s, mem, tainted⟩
    · refine .inl ⟨same, ?_⟩
      obtain ⟨s, mem⟩ := List.exists_mem_of_ne_nil _ nonempty
      obtain ⟨n, mem, -⟩ := historyOf s mem
      exact List.ne_nil_of_mem mem
    · obtain ⟨n, mem, history⟩ := historyOf s mem
      exact .inr ⟨n, mem, history.tainted_eq.trans tainted⟩

/-- An entry is stored, and it is not a tainted one over histories without taint. -/
theorem records_unless (h : m.Traced) {tainted : Bool} {label : String} {sources : List Value}
    (recorded : m.Records m' v tainted label sources) (spared : tainted = true → ¬ m.Blank sources) :
    m'.Traced := by
  refine h.records recorded fun counts => .inr ?_
  by_contra sourceless
  exact spared counts fun s mem => Bool.not_eq_true _ |>.mp fun history => sourceless ⟨s, mem, history⟩

theorem not_blank (h : m.Traced) {vs : List Value} (mem : v ∈ vs) (own : m.ownTaint v = true) :
    ¬ m.Blank vs := fun blank => Bool.false_ne_true ((blank v mem).symm.trans (h.taintedHistory own))

/-- An entry is stored over the history of one value, which is tainted if the entry is. -/
theorem records_own (h : m.Traced) {w : Value} {tainted : Bool} {label : String}
    (recorded : m.Records m' v tainted label [w]) (own : tainted = true → m.ownTaint w = true) :
    m'.Traced :=
  h.records_unless recorded fun counts => h.not_blank (List.mem_singleton_self w) (own counts)

theorem derives (h : m.Traced) {run : Bool × Memory} (derived : m.Derives run v) : run.2.Traced := by
  cases derived with
  | nothing used => exact h.used used
  | entry _ recorded grounded =>
    refine h.records_unless recorded fun tainted => ?_
    obtain ⟨s, mem, own⟩ := grounded tainted
    exact h.not_blank mem own

theorem relabel (h : m.Traced) (v : Value) (label : String) :
    (MemoryM.relabel v label m).2.Traced := h.records_own (MemoryM.records_relabel v label m) id

/-- An entry is stored over a single history, with taint in it if the entry is tainted. -/
theorem record_over (h : m.Traced) (v : Value) (bit : Bool) (chars : Option CharMap) (label : String)
    {path : Provenance.Node} (back : path.tainted = true → path.LeadsBack)
    (grounded : (bit || chars.any CharMap.any) = true → path.tainted = true) :
    (MemoryM.record v bit chars label [path] m).2.Traced := by
  have next : (MemoryM.record v bit chars label [path] m).2.shadow.nextNode = m.shadow.nextNode + 2 := by
    show (ShadowState.store _ v _).nextNode = _
    unfold ShadowState.store
    split <;> rfl
  have uid := Provenance.Node.uid_join m.shadow.nextNode label [path] (m.snapshot v)
  refine h.stores_join label (m.snapshot v) [path]
    (e := ⟨bit, chars, .join m.shadow.nextNode label [path] (m.snapshot v)⟩)
    (ShadowState.get?_store _ v _) (Nat.le_of_eq uid.symm) ?_ ?_ ?_ ?_ ?_
  · show Provenance.Node.uid (.join m.shadow.nextNode label [path] (m.snapshot v)) < _
    rw [next, uid]
    omega
  · show Provenance.Node.join m.shadow.nextNode label [path] (m.snapshot v) =
      .join (Provenance.Node.join m.shadow.nextNode label [path] (m.snapshot v)).uid label [path] _
    rw [uid]
  · intro a ha b hb _
    rw [List.mem_singleton.mp ha, List.mem_singleton.mp hb]
  · intro n mem
    rwa [List.mem_singleton.mp mem]
  · exact fun tainted => .inr ⟨path, List.mem_singleton_self path, grounded tainted⟩

/-- The bit of a value is set in its entry, whose history stays. -/
theorem setBit (h : m.Traced) (history : m.taintedHistory v = true) :
    (TextRule.setBit v m).2.Traced := by
  have at_v := (MemoryM.entryOf_used (.refl m) v).2.2
  rcases at_v.cases with ⟨key, e, own, found, path⟩ | ⟨-, clean⟩
  · have used := (NodesUsed.refl m).more 1
    refine (h.used used).stores (v := v) (e := { m.entryOf v with bit := true })
      (ShadowState.get?_store _ v _) ?_ ?_ (fun _ => history) ?_ fun key' e' found' same => ?_
    · show _ ≤ (ShadowState.store _ v _).nextNode
      unfold ShadowState.store
      split <;> exact Nat.le_refl _
    · show (m.entryOf v).path.uid < (ShadowState.store _ v _).nextNode
      have old := (h.used used).numbered key e found
      rw [path]
      unfold ShadowState.store
      split <;> exact old
    · intro tainted
      rw [show (_ : TaintEntry).path = e.path from path] at tainted ⊢
      exact h.back key e found tainted
    · rw [show (_ : TaintEntry).path = e.path from path] at same ⊢
      exact h.agree key' e' key e found' found same
  · cases clean.symm.trans history

end Traced

/-- Histories lead back whatever becomes of the program's own memory, and notes leave them so. -/
theorem lasting_traced : Lasting Traced where
  quiet quiet h := h.quiet quiet
  relabel v label _ h := h.relabel v label

/-- To taint a value starts a history, and to clear one goes on with it. -/
theorem outlasts_traced (tainted : Bool) : Outlasts Traced tainted where
  whole v m h := by
    refine h.records (MemoryM.records_setTaint v tainted m) ?_
    rintro rfl
    exact .inl ⟨rfl, nofun⟩
  property v key m h := by
    rcases MemoryM.records_setPropertyTaint v key tainted m with
      ⟨e, m', run, used⟩ | ⟨map, m', set, run, recorded⟩
    · rw [run]
      exact h.used used
    · rw [run]
      refine h.records recorded fun any => ?_
      cases tainted with
      | true => exact .inl ⟨rfl, nofun⟩
      | false =>
        exact .inr ⟨v, List.mem_singleton_self v, h.taintedHistory (ownTaint_of_cleared set any)⟩

end Memory

end ShadowTaint
