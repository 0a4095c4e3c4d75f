/-!
# Finite maps that remember insertion order

A `Table α β` is a list of entries with at most one entry per key. Looking a key up finds its entry,
storing under a key that is already there keeps the key's place, and a new key goes to the end.
Everything that answers depend on the order of (object properties, recorded levels) is kept in such a
table.

## Main statements

- `Table.get?_insert`: a table answers a key with what was stored last under it.
- `Table.get?_erase`: an erased key is gone and every other key is as before.
- `Table.get?_eq_some_iff`: the entries of a table are what it answers.
- `Table.erase_insert_of_get?_none`, `Table.insert_insert_of_get?`: ways back to a table.
-/

namespace ShadowTaint

/-- A finite map whose entries are kept in the order in which their keys first came. -/
structure Table (α β : Type) where
  entries : List (α × β)
  distinct : (entries.map (·.1)).Nodup
deriving Repr

namespace Table

variable {α β : Type}

/-- The table without entries. -/
def empty : Table α β := ⟨[], .nil⟩

instance : Inhabited (Table α β) := ⟨empty⟩

/-- How many keys the table has. -/
def size (t : Table α β) : Nat := t.entries.length

/-- The keys, in order. -/
def keys (t : Table α β) : List α := t.entries.map (·.1)

/-- Whether the table has no entry. -/
def isEmpty (t : Table α β) : Bool := t.entries.isEmpty

theorem eq_of_entries_eq {t t' : Table α β} (same : t.entries = t'.entries) : t = t' := by
  cases t
  cases t'
  cases same
  rfl

theorem nodup_filter {l : List (α × β)} (distinct : (l.map (·.1)).Nodup) (p : α × β → Bool) :
    ((l.filter p).map (·.1)).Nodup :=
  distinct.sublist (List.filter_sublist.map _)

section Keyed

variable [DecidableEq α]

/-- The value in the first entry of a list that has the key. -/
def find (k : α) : List (α × β) → Option β
  | [] => none
  | (k', v) :: rest => if k' = k then some v else find k rest

/-- Puts a value in place of the key's, or at the end. -/
def store (k : α) (v : β) : List (α × β) → List (α × β)
  | [] => [(k, v)]
  | (k', v') :: rest => if k' = k then (k, v) :: rest else (k', v') :: store k v rest

variable {k k' : α} {v w : β} {l : List (α × β)}

/-! ## Lists of entries -/

theorem find_store (k k' : α) (v : β) (l : List (α × β)) :
    find k' (store k v l) = if k = k' then some v else find k' l := by
  induction l with
  | nil => by_cases h : k = k' <;> simp [store, find, h]
  | cons e rest ih =>
    obtain ⟨a, b⟩ := e
    by_cases ha : a = k
    · subst ha
      by_cases h : a = k' <;> simp [store, find, h]
    · by_cases h : a = k'
      · subst h
        have hk : k ≠ a := fun e => ha e.symm
        simp [store, find, ha, hk]
      · simp [store, find, ha, h, ih]

theorem find_filter (k k' : α) (l : List (α × β)) :
    find k' (l.filter fun e => !decide (e.1 = k)) = if k = k' then none else find k' l := by
  induction l with
  | nil => simp [find]
  | cons e rest ih =>
    obtain ⟨a, b⟩ := e
    by_cases ha : a = k
    · subst ha
      by_cases h : a = k'
      · subst h
        simpa [find] using ih
      · simpa [find, h] using ih
    · by_cases h : a = k'
      · subst h
        have hk : k ≠ a := fun e => ha e.symm
        simp [find, ha, hk]
      · simpa [find, ha, h] using ih

theorem find_append (k : α) (l l' : List (α × β)) :
    find k (l ++ l') = (find k l).or (find k l') := by
  induction l with
  | nil => rfl
  | cons e rest ih =>
    rw [List.cons_append, find, find]
    split
    · rfl
    · exact ih

theorem isSome_find_iff : (find k l).isSome = true ↔ k ∈ l.map (·.1) := by
  induction l with
  | nil => exact iff_of_false Bool.false_ne_true List.not_mem_nil
  | cons e rest ih =>
    rw [find, List.map_cons, List.mem_cons]
    split
    · rename_i same
      exact iff_of_true rfl (.inl same.symm)
    · rename_i other
      rw [ih, or_iff_right fun same => other same.symm]

theorem mem_of_find (found : find k l = some v) : (k, v) ∈ l := by
  induction l with
  | nil => cases found
  | cons e rest ih =>
    rw [find] at found
    split at found
    · rename_i same
      cases found
      subst same
      exact List.mem_cons_self
    · exact List.mem_cons_of_mem _ (ih found)

/-- With one entry per key, every entry is the one that is found. -/
theorem find_of_mem (distinct : (l.map (·.1)).Nodup) (mem : (k, v) ∈ l) : find k l = some v := by
  induction l with
  | nil => cases mem
  | cons e rest ih =>
    rw [List.map_cons, List.nodup_cons] at distinct
    rw [find]
    rcases List.mem_cons.mp mem with rfl | later
    · rw [if_pos rfl]
    · have other : e.1 ≠ k := fun same => distinct.1 (same ▸ List.mem_map_of_mem later)
      rw [if_neg other, ih distinct.2 later]

theorem mem_store {e : α × β} (mem : e ∈ store k v l) : e = (k, v) ∨ e ∈ l := by
  induction l with
  | nil => simpa [store] using mem
  | cons first rest ih =>
    rw [store] at mem
    split at mem
    · rcases List.mem_cons.mp mem with rfl | mem
      · exact .inl rfl
      · exact .inr (List.mem_cons_of_mem _ mem)
    · rcases List.mem_cons.mp mem with rfl | mem
      · exact .inr List.mem_cons_self
      · exact (ih mem).imp_right (List.mem_cons_of_mem _)

/-- Storing under a key that is there leaves the keys as they are. -/
theorem keys_store (found : (find k l).isSome = true) (v : β) :
    (store k v l).map (·.1) = l.map (·.1) := by
  induction l with
  | nil => cases found
  | cons e rest ih =>
    rw [find] at found
    rw [store]
    split
    · rename_i same
      rw [List.map_cons, List.map_cons, same]
    · rename_i other
      rw [if_neg other] at found
      rw [List.map_cons, List.map_cons, ih found]

theorem store_of_find_none (missing : find k l = none) (v : β) : store k v l = l ++ [(k, v)] := by
  induction l with
  | nil => rfl
  | cons e rest ih =>
    rw [find] at missing
    rw [store]
    split at missing
    · cases missing
    · rename_i other
      rw [if_neg other, ih missing, List.cons_append]

theorem filter_of_find_none (missing : find k l = none) :
    l.filter (fun e => !decide (e.1 = k)) = l := by
  induction l with
  | nil => rfl
  | cons e rest ih =>
    rw [find] at missing
    split at missing
    · cases missing
    · rename_i other
      rw [List.filter_cons_of_pos (by simpa using other), ih missing]

theorem store_store_of_find (found : find k l = some w) (v : β) : store k w (store k v l) = l := by
  induction l with
  | nil => cases found
  | cons e rest ih =>
    obtain ⟨k', v'⟩ := e
    rw [find] at found
    rw [store]
    split at found
    · rename_i same
      cases found
      rw [if_pos same, store, if_pos rfl, same]
    · rename_i other
      rw [if_neg other, store, if_neg other, ih found]

/-- Storing keeps one entry per key. -/
theorem nodup_store (distinct : (l.map (·.1)).Nodup) (k : α) (v : β) :
    ((store k v l).map (·.1)).Nodup := by
  rcases missing : find k l with _ | w
  · have new : k ∉ l.map (·.1) := fun mem => by
      rw [← isSome_find_iff, missing] at mem
      cases mem
    rw [store_of_find_none missing, List.map_append, List.nodup_append]
    refine ⟨distinct, List.nodup_cons.mpr ⟨List.not_mem_nil, .nil⟩, fun a mem b here same => ?_⟩
    rw [same, List.mem_singleton.mp here] at mem
    exact new mem
  · rw [keys_store (by rw [missing]; rfl)]
    exact distinct

/-! ## Tables -/

/-- What is stored under the key. -/
def get? (t : Table α β) (k : α) : Option β := find k t.entries

/-- Whether something is stored under the key. -/
def contains (t : Table α β) (k : α) : Bool := (t.get? k).isSome

/-- Stores a value under a key: a known key keeps its place, a new one goes to the end. -/
def insert (t : Table α β) (k : α) (v : β) : Table α β := ⟨store k v t.entries, nodup_store t.distinct k v⟩

/-- The table without the key. -/
def erase (t : Table α β) (k : α) : Table α β :=
  ⟨t.entries.filter fun e => !decide (e.1 = k), nodup_filter t.distinct _⟩

/-- The table that results from storing the entries one after the other. -/
def ofList (entries : List (α × β)) : Table α β :=
  entries.foldl (fun t e => t.insert e.1 e.2) empty

/-- A table answers a key with what was stored last under it, and nothing else changes. -/
@[simp] theorem get?_insert (t : Table α β) (k k' : α) (v : β) :
    (t.insert k v).get? k' = if k = k' then some v else t.get? k' :=
  find_store k k' v t.entries

/-- An erased key is gone, and every other key is as before. -/
@[simp] theorem get?_erase (t : Table α β) (k k' : α) :
    (t.erase k).get? k' = if k = k' then none else t.get? k' :=
  find_filter k k' t.entries

/-- The entries of a table are what it answers. -/
theorem get?_eq_some_iff {t : Table α β} : t.get? k = some v ↔ (k, v) ∈ t.entries :=
  ⟨mem_of_find, find_of_mem t.distinct⟩

/-- A new key that is erased again leaves nothing behind. -/
theorem erase_insert_of_get?_none {t : Table α β} (missing : t.get? k = none) (v : β) :
    (t.insert k v).erase k = t := by
  refine eq_of_entries_eq ?_
  rw [erase, insert]
  dsimp only
  rw [store_of_find_none missing, List.filter_append, filter_of_find_none missing]
  simp

/-- A key that gets its value back leaves the table as it was. -/
theorem insert_insert_of_get? {t : Table α β} (found : t.get? k = some w) (v : β) :
    (t.insert k v).insert k w = t :=
  eq_of_entries_eq (store_store_of_find found v)

/-- Every entry of a table that is built from a list stands in the list. -/
theorem mem_of_ofList {entries : List (α × β)} (found : (ofList entries).get? k = some v) :
    (k, v) ∈ entries := by
  have stored (entries : List (α × β)) (t : Table α β) :
      ∀ e ∈ (entries.foldl (fun t e => t.insert e.1 e.2) t).entries, e ∈ t.entries ∨ e ∈ entries := by
    induction entries generalizing t with
    | nil => exact fun e mem => .inl mem
    | cons first rest ih =>
      intro e mem
      rcases ih _ e mem with mem | mem
      · rcases mem_store mem with rfl | mem
        · exact .inr List.mem_cons_self
        · exact .inl mem
      · exact .inr (List.mem_cons_of_mem _ mem)
  exact (stored entries empty _ (get?_eq_some_iff.mp found)).resolve_left List.not_mem_nil

/-- A table that is built from a list answers a key with the last entry that has it. -/
theorem get?_ofList_append (before after : List (α × β)) (last : ∀ e ∈ after, e.1 ≠ k) :
    (ofList (before ++ (k, v) :: after)).get? k = some v := by
  have later (t : Table α β) (stored : t.get? k = some v) :
      (after.foldl (fun t e => t.insert e.1 e.2) t).get? k = some v := by
    induction after generalizing t with
    | nil => exact stored
    | cons e rest ih =>
      refine ih (fun e' mem => last e' (List.mem_cons_of_mem _ mem)) _ ?_
      rw [get?_insert, if_neg (last e List.mem_cons_self), stored]
  rw [ofList, List.foldl_append]
  exact later _ (by rw [get?_insert, if_pos rfl])

end Keyed

end Table

end ShadowTaint
