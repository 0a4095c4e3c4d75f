import ShadowTaint.Proofs.SinkGrowth
/-!
# Finding the pattern of a sink

Patterns of single functions are kept twice: among all patterns, and under their function. A function is
looked up under itself first, and only then are the patterns gone through that recognise functions by what they
are. Both places are kept in step however sinks come to be registered, so a value is found exactly if some
pattern describes it, whatever has become of the heap since.

## Main definitions

- `Sinks.Indexed`: the patterns of single functions are those that are kept under functions.
- `Registering`: a registry and the heap that its functions lie on, with what happens to them.
- `Registration.Spares`: a pattern of a single function is added only by making the function a sink.

## Main statements

- `Sinks.Indexed.isSink_iff`: in such a registry a value is a sink exactly if a pattern describes it.
- `Sinks.Indexed.register?_isSome_iff`: an object is made a sink exactly if no pattern describes it.
- `Registering.lookup_agrees`: so it is in every registry, and a function that was made a sink keeps its pattern.
-/

namespace ShadowTaint

namespace Sinks

variable {s s' : Sinks} {h : Heap} {v : Value} {p : SinkPattern} {id : ObjectId} {kind : SinkKind}
  {category : SinkCategory}

/-- What is kept under a function is one of the patterns, and it is a pattern of that function; and for every
pattern of a function something is kept under the function. -/
structure Indexed (s : Sinks) : Prop where
  listed : ∀ id p, s.byFunction.get? id = some p → p ∈ s.patterns ∧ p.target = .function id
  kept : ∀ p ∈ s.patterns, ∀ id, p.target = .function id → (s.byFunction.get? id).isSome = true

theorem indexed_none : Indexed {} := ⟨nofun, nofun⟩

/-- A pattern that is added is listed last, and it takes the place of what was kept under its function. -/
theorem Indexed.add (h : s.Indexed) (p : SinkPattern) : (s.add p).Indexed := by
  have last : p ∈ s.patterns ++ [p] := List.mem_append_right _ List.mem_cons_self
  constructor
  · intro id q found
    by_cases own : p.target = .function id
    · rw [Sinks.add, own] at found
      simp only [Table.get?_insert, if_true] at found
      cases found
      exact ⟨last, own⟩
    · have old : s.byFunction.get? id = some q := by
        rw [← found, Sinks.add]
        dsimp only
        split
        · rename_i other target
          rw [Table.get?_insert, if_neg]
          rintro rfl
          exact own target
        · rfl
      exact ⟨List.mem_append_left _ (h.listed id q old).1, (h.listed id q old).2⟩
  · intro q mem id target
    rw [Sinks.add]
    dsimp only
    rcases List.mem_append.mp mem with old | new
    · have kept := h.kept q old id target
      split
      · rw [Table.get?_insert]
        split
        · rfl
        · exact kept
      · exact kept
    · cases List.mem_singleton.mp new
      rw [target]
      simp

theorem indexed_builtIn : builtIn.Indexed := by
  unfold builtIn
  generalize builtInPatterns = patterns
  have all (s : Sinks) (indexed : s.Indexed) : (patterns.foldl Sinks.add s).Indexed := by
    induction patterns generalizing s with
    | nil => exact indexed
    | cons p rest ih => exact ih _ (indexed.add p)
  exact all {} indexed_none

/-- A pattern of a function describes that function only. -/
theorem describes_function (target : p.target = .function id) :
    p.describes h v = true ↔ v.object? = some id := by
  rw [SinkPattern.describes, target]
  exact beq_iff_eq

theorem target_of_isFunction (single : p.isFunction = true) : ∃ id, p.target = .function id := by
  unfold SinkPattern.isFunction at single
  split at single
  · exact ⟨_, ‹_›⟩
  · cases single

/-- A value is found in a registry exactly if one of all its patterns describes the value. -/
theorem Indexed.isSink_iff (indexed : s.Indexed) :
    s.isSink h v = true ↔ ∃ p ∈ s.patterns, p.describes h v = true := by
  rw [Sinks.isSink_iff]
  constructor
  · rintro (⟨id, object, own⟩ | ⟨p, mem, -, described⟩)
    · obtain ⟨p, found⟩ := Option.isSome_iff_exists.mp own
      obtain ⟨mem, target⟩ := indexed.listed id p found
      exact ⟨p, mem, (describes_function target).mpr object⟩
    · exact ⟨p, mem, described⟩
  · rintro ⟨p, mem, described⟩
    rcases single : p.isFunction
    · exact .inr ⟨p, mem, single, described⟩
    · obtain ⟨id, target⟩ := target_of_isFunction single
      exact .inl ⟨id, (describes_function target).mp described, indexed.kept p mem id target⟩

/-- To make an object a sink is to add a pattern of that object. -/
theorem register?_eq_some : s.register? h v kind category = some s' ↔ ∃ id, v = .object id ∧
    s.isSink h v = false ∧
    s' = s.add ⟨.function id, kind, category, s!"{kind.name} sink {calleeName h v}"⟩ := by
  rw [register?]
  cases v with
  | object id =>
    show (if _ then _ else _) = _ ↔ _
    rcases sink : s.isSink h (.object id)
    · rw [if_neg Bool.false_ne_true]
      exact ⟨fun added => ⟨id, rfl, rfl, (Option.some.inj added).symm⟩, by
        rintro ⟨_, same, -, rfl⟩
        cases same
        rfl⟩
    · rw [if_pos rfl]
      exact ⟨nofun, by rintro ⟨_, -, impossible, -⟩; cases impossible⟩
  | literal l => exact ⟨nofun, by rintro ⟨_, impossible, -⟩; cases impossible⟩
  | shadow handle identity l => exact ⟨nofun, by rintro ⟨_, impossible, -⟩; cases impossible⟩

/-- A value is made a sink exactly if it is an object and no pattern describes it yet. -/
theorem Indexed.register?_isSome_iff (indexed : s.Indexed) :
    (s.register? h v kind category).isSome = true ↔
      (∃ id, v = .object id) ∧ ∀ p ∈ s.patterns, p.describes h v = false := by
  have unknown : s.isSink h v = false ↔ ∀ p ∈ s.patterns, p.describes h v = false := by
    rw [← Bool.not_eq_true, indexed.isSink_iff]
    simp
  rw [Option.isSome_iff_exists, ← unknown]
  simp only [register?_eq_some]
  constructor
  · rintro ⟨_, id, object, unknown, -⟩
    exact ⟨⟨id, object⟩, unknown⟩
  · rintro ⟨⟨id, object⟩, unknown⟩
    exact ⟨_, id, object, unknown, rfl⟩

/-- What is kept under a function is what is found for it. -/
theorem find?_of_kept (kept : s.byFunction.get? id = some p) : s.find? h (.object id) = some p := by
  have own : (Value.object id).object?.bind s.byFunction.get? = some p := kept
  rw [find?, own]

/-- The functions have at most one pattern of their own each. -/
def Sole (s : Sinks) : Prop := ∀ id, s.patterns.countP (fun p => p.target = .function id) ≤ 1

theorem countP_add (id : ObjectId) : (s.add p).patterns.countP (fun q => q.target = .function id) =
    s.patterns.countP (fun q => q.target = .function id) + if p.target = .function id then 1 else 0 := by
  rw [add, List.countP_append]
  by_cases own : p.target = .function id <;> simp [own]

/-- A pattern that is not of a single function leaves what is kept under functions alone. -/
theorem byFunction_add (shared : p.isFunction = false) : (s.add p).byFunction = s.byFunction := by
  rw [add]
  dsimp only
  split
  · rename_i target
    simp [SinkPattern.isFunction, target] at shared
  · rfl

theorem Sole.add (sole : s.Sole) (shared : p.isFunction = false) : (s.add p).Sole := by
  intro id
  rw [countP_add, if_neg, Nat.add_zero]
  · exact sole id
  · intro target
    simp [SinkPattern.isFunction, target] at shared

/-- An object that is made a sink has no pattern of its own before. -/
theorem Sole.register? (sole : s.Sole) (indexed : s.Indexed)
    (registered : s.register? h v kind category = some s') : s'.Sole := by
  have unknown := (indexed.register?_isSome_iff.mp (Option.isSome_of_eq_some registered)).2
  obtain ⟨id, rfl, -, rfl⟩ := register?_eq_some.mp registered
  intro other
  rw [countP_add]
  split
  · rename_i same
    cases same
    rw [List.countP_eq_zero.mpr]
    intro p mem own
    have described : p.describes h (.object id) = true :=
      (describes_function (of_decide_eq_true own)).mpr rfl
    rw [unknown p mem] at described
    cases described
  · exact sole other

end Sinks

/-- A registry, and the heap that its functions lie on. -/
structure Registering where
  sinks : Sinks
  heap : Heap

/-- What happens to a registry and to the heap: a pattern is added, an object is made a sink, or there is another
heap, on which objects were added, functions have other names, or anything else is different. -/
inductive Registration where
  | pattern (p : SinkPattern)
  | object (v : Value) (kind : SinkKind) (category : SinkCategory)
  | heap (h : Heap)

/-- The pattern that is added as such, if one is, is not of a single function. -/
def Registration.Spares : Registration → Prop
  | .pattern p => p.isFunction = false
  | _ => True

namespace Registering

open Sinks

variable {r : Registering} {e : Registration}

/-- Registry and heap afterwards. -/
def after (r : Registering) : Registration → Registering
  | .pattern p => { r with sinks := r.sinks.add p }
  | .object v kind category =>
    { r with sinks := (r.sinks.register? r.heap v kind category).getD r.sinks }
  | .heap heap => { r with heap }

/-- Registry and heap after several things have happened. -/
def run (r : Registering) (events : List Registration) : Registering := events.foldl after r

/-- To make a value a sink adds patterns of it, or it does nothing. -/
theorem object_cases (r : Registering) (v : Value) (kind : SinkKind) (category : SinkCategory) :
    r.after (.object v kind category) = r ∨ ∃ s, r.sinks.register? r.heap v kind category = some s ∧
      r.after (.object v kind category) = { r with sinks := s } := by
  rcases registered : r.sinks.register? r.heap v kind category with _ | s
  · refine .inl ?_
    rw [after, registered]
    rfl
  · refine .inr ⟨s, rfl, ?_⟩
    rw [after, registered]
    rfl

theorem indexed_after (indexed : r.sinks.Indexed) (e : Registration) : (r.after e).sinks.Indexed := by
  cases e with
  | pattern p => exact indexed.add p
  | heap h => exact indexed
  | object v kind category =>
    rcases r.object_cases v kind category with same | ⟨s, registered, added⟩
    · rwa [same]
    · obtain ⟨id, -, -, rfl⟩ := register?_eq_some.mp registered
      rw [added]
      exact indexed.add _

theorem indexed_run (indexed : r.sinks.Indexed) (events : List Registration) :
    (r.run events).sinks.Indexed := by
  induction events generalizing r with
  | nil => exact indexed
  | cons e rest ih => exact ih (indexed_after indexed e)

theorem sole_after (sole : r.sinks.Sole) (indexed : r.sinks.Indexed) (spares : e.Spares) :
    (r.after e).sinks.Sole := by
  cases e with
  | pattern p => exact sole.add spares
  | heap h => exact sole
  | object v kind category =>
    rcases r.object_cases v kind category with same | ⟨s, registered, added⟩
    · rwa [same]
    · rw [added]
      exact sole.register? indexed registered

theorem sole_run (sole : r.sinks.Sole) (indexed : r.sinks.Indexed) {events : List Registration}
    (spare : ∀ e ∈ events, e.Spares) : (r.run events).sinks.Sole := by
  induction events generalizing r with
  | nil => exact sole
  | cons e rest ih =>
    obtain ⟨first, later⟩ := List.forall_mem_cons.mp spare
    exact ih (sole_after sole indexed first) (indexed_after indexed e) later

/-- A function keeps its pattern as long as no other one is added for it. -/
theorem kept_after {id : ObjectId} {p : SinkPattern} (kept : r.sinks.byFunction.get? id = some p)
    (spares : e.Spares) : (r.after e).sinks.byFunction.get? id = some p := by
  cases e with
  | pattern q => exact (congrArg (·.get? id) (byFunction_add spares)).trans kept
  | heap h => exact kept
  | object v kind category =>
    rcases r.object_cases v kind category with same | ⟨s, registered, added⟩
    · rwa [same]
    · obtain ⟨other, rfl, unknown, rfl⟩ := register?_eq_some.mp registered
      have different : other ≠ id := by
        rintro rfl
        rw [isSink, find?_of_kept kept] at unknown
        cases unknown
      rw [added]
      show (Table.insert _ _ _).get? id = _
      rw [Table.get?_insert, if_neg different, kept]

theorem kept_run {id : ObjectId} {p : SinkPattern} (kept : r.sinks.byFunction.get? id = some p)
    {events : List Registration} (spare : ∀ e ∈ events, e.Spares) :
    (r.run events).sinks.byFunction.get? id = some p := by
  induction events generalizing r with
  | nil => exact kept
  | cons e rest ih =>
    obtain ⟨first, later⟩ := List.forall_mem_cons.mp spare
    exact ih (kept_after kept first) later

/-- In every registry, from none or from that of the built-in sinks on, through registrations in any order and
with anything happening to the heap in between, a value is a sink exactly if some pattern describes it, and it
is made one exactly if it is an object that none describes. If it is, then the pattern that it is given is found
for it ever after, as long as patterns of functions are added in no other way; and if they never were, no
function has two. -/
theorem lookup_agrees {r : Registering} (starts : r.sinks = {} ∨ r.sinks = .builtIn)
    (events : List Registration) {s : Sinks} {h : Heap} (ran : r.run events = ⟨s, h⟩) :
    (∀ v, s.isSink h v = true ↔ ∃ p ∈ s.patterns, p.describes h v = true) ∧
    (∀ v kind category, (s.register? h v kind category).isSome = true ↔
      (∃ id, v = .object id) ∧ ∀ p ∈ s.patterns, p.describes h v = false) ∧
    (∀ v kind category s', s.register? h v kind category = some s' →
      ∃ p ∈ s'.patterns, p.kind = kind ∧ p.category = category ∧
        ∀ later, (∀ e ∈ later, e.Spares) →
          ((⟨s', h⟩ : Registering).run later).sinks.find? ((⟨s', h⟩ : Registering).run later).heap v =
            some p) ∧
    ((∀ e ∈ events, e.Spares) → ∀ id, s.patterns.countP (fun p => p.target = .function id) ≤ 1) := by
  have indexed : r.sinks.Indexed := by
    rcases starts with empty | builtIn
    · rw [empty]
      exact indexed_none
    · rw [builtIn]
      exact indexed_builtIn
  have sole : r.sinks.Sole := by
    have shared : ∀ p ∈ r.sinks.patterns, p.isFunction = false := by
      rcases starts with empty | builtIn
      · rw [empty]
        exact nofun
      · rw [builtIn]
        decide
    intro id
    refine Nat.le_trans (Nat.le_of_eq (List.countP_eq_zero.mpr fun p mem own => ?_)) (Nat.zero_le 1)
    have single := shared p mem
    simp [SinkPattern.isFunction, of_decide_eq_true own] at single
  have now : s.Indexed := by
    have := indexed_run indexed events
    rwa [ran] at this
  refine ⟨fun v => now.isSink_iff, fun v kind category => now.register?_isSome_iff, ?_, fun spare => ?_⟩
  · intro v kind category s' registered
    obtain ⟨id, rfl, -, rfl⟩ := register?_eq_some.mp registered
    refine ⟨_, List.mem_append_right _ List.mem_cons_self, rfl, rfl, fun later spare => find?_of_kept ?_⟩
    refine kept_run (r := ⟨_, h⟩) ?_ spare
    show (Table.insert _ _ _).get? id = _
    rw [Table.get?_insert, if_pos rfl]
  · have := sole_run sole indexed spare
    rwa [ran] at this

/-- The initial heap with a program starter of the host, under a name. -/
def starter (name : String) : Heap := (Heap.initial.allocNative name (.process .exec)).2

/-- A program starter of another name is made a sink, and gets the name of a built-in sink later. -/
def renamed : List Registration :=
  [.heap (starter "run"), .object (.object 3) .custom .custom, .heap (starter "exec")]

/-- The renamed starter is described by two patterns, one of which is its own, and is not made a sink again; the
one that is made a sink keeps its pattern through the change of its name. -/
theorem lookup_agrees_renamed :
    (∀ e ∈ renamed, e.Spares) ∧
    (∃ s, (⟨.builtIn, .initial⟩ : Registering).run renamed = ⟨s, starter "exec"⟩ ∧
      s.isSink (starter "exec") (.object 3) = true ∧
      (∃ p ∈ s.patterns, p.describes (starter "exec") (.object 3) = true) ∧
      (s.register? (starter "exec") (.object 3) .custom .custom).isSome = false ∧
      s.patterns.countP (fun p => p.target = .function 3) ≤ 1) ∧
    ∃ s, Sinks.builtIn.register? (starter "run") (.object 3) .custom .custom = some s ∧
      ∃ p ∈ s.patterns, p.kind = .custom ∧ s.find? (starter "exec") (.object 3) = some p := by
  have spare : ∀ e ∈ renamed, e.Spares := by simp [renamed, Registration.Spares]
  refine ⟨spare, ⟨_, rfl, ?_⟩, ?_⟩
  · obtain ⟨sink, registers, -, sole⟩ :=
      lookup_agrees (r := ⟨.builtIn, .initial⟩) (.inr rfl) renamed rfl
    have found := (sink (.object 3)).mp (by decide +kernel)
    refine ⟨(sink _).mpr found, found, ?_, sole spare 3⟩
    rw [Bool.eq_false_iff, ne_eq, registers]
    rintro ⟨-, unknown⟩
    obtain ⟨p, mem, described⟩ := found
    rw [unknown p mem] at described
    cases described
  · obtain ⟨-, -, keeps, -⟩ :=
      lookup_agrees (r := ⟨.builtIn, .initial⟩) (.inr rfl) [.heap (starter "run")] rfl
    obtain ⟨p, mem, kind, -, ever⟩ := keeps (.object 3) .custom .custom _ rfl
    exact ⟨_, rfl, p, mem, kind, ever [.heap (starter "exec")] (by simp [Registration.Spares])⟩

end Registering

end ShadowTaint
