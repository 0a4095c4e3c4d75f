import ShadowTaint.Proofs.ContainerTaint
import ShadowTaint.Proofs.Keys
import ShadowTaint.Proofs.Methods
import ShadowTaint.Proofs.Persistence
/-!
# Taint in maps

A literal that was put into a map is tainted when it is taken out again, whichever way maps are tracked. One
that is tracked member by member holds the literal with its shadow, and the taint is that of the shadow. One
that is tracked as a whole holds the bare literal, and it is itself tainted, which taints whatever is taken
out. Both survive accesses of other maps, and accesses of the same map under other keys.

## Main definitions

- `Tracker.Accesses`: a call of a method of a map.
- `Tracker.MapRun`: complete calls of methods of maps that succeed, one after the other.
- `Memory.Stores`: a map holds a value under a key as it has values of its kind.
- `Memory.Whole`: a map is tainted as a whole, and it holds bare values only.

## Main statements

- `Tracker.MapRun.keeps_taint`: what is taken out of a map is tainted if what was put in was.
-/

namespace ShadowTaint

open Memory Tracker

/-- What a call of a method of a map does: the method, the map, and the key without its shadow. -/
structure MapAccess where
  method : MapMethod
  map : ObjectId
  key : Value

namespace Tracker

/-- The call is an access of a map. -/
structure Accesses (t : Tracker) (c : Call) (a : MapAccess) : Prop extends
    t.CallsMethod c a.method.name (.map a.method) a.map where
  object : (t.memory.heap.held? .map a.map).isSome = true
  key : t.memory.valueOf (c.args.headD .undefined) = a.key

/-- Complete accesses of maps that succeed, one after the other. -/
inductive MapRun : Tracker → List MapAccess → Tracker → Prop where
  | nil {t : Tracker} : MapRun t [] t
  | cons {t t₁ t' : Tracker} {c c' : Call} {r : Value} {a : MapAccess} {accesses : List MapAccess}
      (access : t.Accesses c a) (succeeds : invoke c none t = (.ok (c', r), t₁))
      (rest : MapRun t₁ accesses t') : MapRun t (a :: accesses) t'

end Tracker

/-- The access puts something under the key, or under one that is equal to it. -/
def MapAccess.Overwrites (map : ObjectId) (key : Value) (a : MapAccess) : Prop :=
  a.method = .set ∧ a.map = map ∧ a.key.sameKey key = true

namespace Memory

/-- The map holds the value under the key, and the value suits it. -/
def Stores (levels : Levels) (map : ObjectId) (key v : Value) (m : Memory) : Prop :=
  ∃ entries, (m.heap.get map).kind = .map entries ∧ entryUnder? key entries = some v ∧
    (levels.grainOf .map).Suits v

/-- The map is tainted as a whole, and it holds no shadows. -/
structure Whole (map : ObjectId) (m : Memory) : Prop where
  bit : m.taintBit (.object map) = true
  bare : ∃ values, m.heap.held? .map map = some values ∧ ∀ v ∈ values, Grain.imprecise.Suits v

theorem map_ne_array : Container.map ≠ .array := nofun

theorem held?_of_map {h : Heap} {map : ObjectId} {entries : List (Value × Value)}
    (kind : (h.get map).kind = .map entries) : h.held? .map map = some (entries.map (·.2)) := by
  rw [Heap.held?, kind]
  rfl

theorem map_of_held? {h : Heap} {map : ObjectId} {values : List Value}
    (held : h.held? .map map = some values) :
    ∃ entries, (h.get map).kind = .map entries ∧ values = entries.map (·.2) := by
  rw [Heap.held?] at held
  rcases kind : (h.get map).kind <;> rw [kind] at held <;> cases held
  exact ⟨_, rfl, rfl⟩

theorem mem_of_entryUnder? {key v : Value} {entries : List (Value × Value)}
    (found : entryUnder? key entries = some v) : v ∈ entries.map (·.2) := by
  induction entries with
  | nil => cases found
  | cons e rest ih =>
    by_cases here : e.1.sameKey key = true
    · simp only [entryUnder?, here, if_true] at found
      cases found
      exact List.mem_cons_self
    · simp only [entryUnder?, here, Bool.false_eq_true, if_false] at found
      exact List.mem_cons_of_mem _ (ih found)

end Memory

namespace Tracker

variable {t t' : Tracker} {c c' : Call} {a : MapAccess} {r result : Value} {given : List Value}
  {m₁ m₂ m₃ m : Memory}

theorem MapMethod.name_ne (method : MapMethod) : method.name ≠ "" := by
  cases method <;> decide

namespace Accesses

theorem exists_entries (acc : t.Accesses c a) :
    ∃ entries, (t.memory.heap.get a.map).kind = .map entries := by
  obtain ⟨values, held⟩ := Option.isSome_iff_exists.mp acc.object
  obtain ⟨entries, kind, -⟩ := map_of_held? held
  exact ⟨entries, kind⟩

/-- How the arguments of an access are passed. -/
theorem given_eq (acc : t.Accesses c a)
    (h : MethodRun t c (.map a.method) a.map c' r t' given result m₁ m₂ m₃ m) :
    given = match t.settings.policies.grainOf .map, a.method with
      | .precise, .set => c.args.modifyHead t.memory.valueOf
      | _, _ => c.args.map t.memory.valueOf := by
  obtain ⟨entries, kind⟩ := acc.exists_entries
  have name : t.memory.functionName c.f = a.method.name := by
    rw [functionName, acc.native.function_valueOf]
    exact if_neg (MapMethod.name_ne _)
  rw [h.given_eq, t.settings.policies.policyFor_of_held map_ne_array (held?_of_map kind)]
  cases t.settings.policies.grainOf .map with
  | imprecise => rfl
  | precise =>
    rw [Policy.passing, name]
    cases a.method <;> rfl

theorem given_key (acc : t.Accesses c a)
    (h : MethodRun t c (.map a.method) a.map c' r t' given result m₁ m₂ m₃ m) :
    given.headD .undefined = a.key := by
  rw [acc.given_eq h, ← acc.key]
  cases c.args <;> split <;> rfl

theorem given_value (acc : t.Accesses c a)
    (h : MethodRun t c (.map a.method) a.map c' r t' given result m₁ m₂ m₃ m) (set : a.method = .set)
    {v : Value} (stored : c.args[1]? = some v) : given.getD 1 .undefined =
      match t.settings.policies.grainOf .map with
      | .precise => v
      | .imprecise => t.memory.valueOf v := by
  rw [acc.given_eq h, set]
  rcases args : c.args with _ | ⟨key, _ | ⟨w, rest⟩⟩ <;> rw [args] at stored <;> cases stored
  cases t.settings.policies.grainOf .map <;> rfl

/-- What an access does to the heap between the hooks. -/
theorem ran (acc : t.Accesses c a)
    (h : MethodRun t c (.map a.method) a.map c' r t' given result m₁ m₂ m₃ m) :
    ∃ entries, (t.memory.heap.get a.map).kind = .map entries ∧
      (∀ map values, map ≠ a.map → t.memory.heap.held? .map map = some values →
        (m₂.heap.get map).kind = (t.memory.heap.get map).kind) ∧
      match a.method with
      | .get => result = (entryUnder? a.key entries).getD .undefined ∧
          (m₂.heap.get a.map).kind = .map entries
      | .set => result = .object a.map ∧ (m₂.heap.get a.map).kind =
          .map (putEntryUnder a.key (given.getD 1 .undefined) entries) := by
  have ran : a.method.invoke m₁.heap (.object a.map) given = .ok (result, m₂.heap) := by
    rw [← h.ran, Native.run, Native.runWithin]
  obtain ⟨entries, kind⟩ := acc.exists_entries
  have contents := h.undresses.contents
  have kind₁ : (m₁.heap.get a.map).kind = .map entries := by
    rw [contents .map _ _ map_ne_array (held?_of_map kind), kind]
  have found : m₁.heap.mapEntries? (.object a.map) = some (a.map, entries) := by
    rw [Heap.mapEntries?, Value.object?]
    dsimp only
    rw [kind₁]
  rw [MapMethod.invoke, found] at ran
  dsimp only at ran
  rw [acc.given_key h] at ran
  refine ⟨entries, kind, ?_⟩
  cases method : a.method <;> rw [method] at ran <;>
    obtain ⟨returned, heap⟩ := Prod.mk.inj (Except.ok.inj ran)
  · refine ⟨fun map values _ held => ?_, returned.symm, by rw [← heap, kind₁]⟩
    rw [← heap, contents .map map values map_ne_array held]
  · refine ⟨fun map values other held => ?_, returned.symm, ?_⟩
    · rw [← heap, Heap.setKind, Heap.get_modify_ne _ other, contents .map map values map_ne_array held]
    · rw [← heap, Heap.setKind, Heap.get_modify_self (Heap.allocated_of_held (held?_of_map kind₁))]

/-- The map is one still when the method has run. -/
theorem held (acc : t.Accesses c a)
    (h : MethodRun t c (.map a.method) a.map c' r t' given result m₁ m₂ m₃ m) :
    ∃ values, m₂.heap.held? .map a.map = some values := by
  obtain ⟨entries, -, -, step⟩ := acc.ran h
  cases method : a.method <;> rw [method] at step <;> exact ⟨_, held?_of_map step.2⟩

/-- What a map stores under a key it stores after any access but one that puts something under the key. -/
theorem stores (acc : t.Accesses c a)
    (h : MethodRun t c (.map a.method) a.map c' r t' given result m₁ m₂ m₃ m) {map : ObjectId}
    {key v : Value} (spared : ¬ a.Overwrites map key)
    (stores : t.memory.Stores t.settings.policies map key v) :
    t'.memory.Stores t.settings.policies map key v := by
  obtain ⟨entries, kind, found, suits⟩ := stores
  obtain ⟨here, kind', others, step⟩ := acc.ran h
  obtain ⟨entries₂, kind₂, found₂⟩ : ∃ entries, (m₂.heap.get map).kind = .map entries ∧
      entryUnder? key entries = some v := by
    by_cases same : map = a.map
    · subst same
      rw [kind] at kind'
      cases kind'
      cases method : a.method <;> rw [method] at step
      · exact ⟨entries, step.2, found⟩
      · refine ⟨_, step.2, ?_⟩
        rw [entryUnder?_putEntryUnder, if_neg fun equal => spared ⟨method, rfl, equal⟩, found]
    · exact ⟨entries, by rw [others map _ same (held?_of_map kind), kind], found⟩
  obtain ⟨values, held⟩ := acc.held h
  obtain ⟨entries', kind', found'⟩ :=
    (h.retains acc.toCallsMethod map_ne_array held).entryUnder? kind₂ found₂ suits
  exact ⟨entries', kind', found', suits⟩

/-- What was put under a key is stored there, as the map has it. -/
theorem stores_set (acc : t.Accesses c a)
    (h : MethodRun t c (.map a.method) a.map c' r t' given result m₁ m₂ m₃ m) (set : a.method = .set)
    (suits : (t.settings.policies.grainOf .map).Suits (given.getD 1 .undefined)) :
    t'.memory.Stores t.settings.policies a.map a.key (given.getD 1 .undefined) := by
  obtain ⟨entries, -, -, step⟩ := acc.ran h
  rw [set] at step
  have found : entryUnder? a.key (putEntryUnder a.key (given.getD 1 .undefined) entries) =
      some (given.getD 1 .undefined) := by
    rw [entryUnder?_putEntryUnder, if_pos ((Value.sameKey_iff _ _).mpr rfl)]
  obtain ⟨entries', kind', found'⟩ := (h.retains acc.toCallsMethod map_ne_array
    (held?_of_map step.2)).entryUnder? step.2 found suits
  exact ⟨entries', kind', found', suits⟩

/-- What is stored under a key is what the method takes out under it. -/
theorem result_get (acc : t.Accesses c a)
    (h : MethodRun t c (.map a.method) a.map c' r t' given result m₁ m₂ m₃ m) (get : a.method = .get)
    {key v : Value} (equal : key.sameKey a.key = true)
    (stores : t.memory.Stores t.settings.policies a.map key v) : result = v := by
  obtain ⟨entries, kind, found, suits⟩ := stores
  obtain ⟨here, kind', -, step⟩ := acc.ran h
  rw [kind] at kind'
  cases kind'
  rw [get] at step
  rw [step.1, ← entryUnder?_congr _ equal, found]
  rfl

/-- The rule that applies after an access. -/
theorem rule (acc : t.Accesses c a)
    (h : MethodRun t c (.map a.method) a.map c' r t' given result m₁ m₂ m₃ m) :
    t'.memory = Memory.ended (if (m.valueOf r).isUndefined then m else
      match t.settings.policies.grainOf .map, a.method with
      | .precise, _ => m
      | .imprecise, .set =>
        (ContainerRule.taintReceiver "model:map.set" ⟨c'.f, c'.base, c'.args, r⟩ m).2
      | .imprecise, .get =>
        (ContainerRule.taintRead "model:map.get" ⟨c'.f, c'.base, c'.args, r⟩ m).2) := by
  obtain ⟨values, held⟩ := acc.held h
  cases grain : t.settings.policies.grainOf .map <;> cases method : a.method <;>
    exact h.rule_of_model acc.toCallsMethod (MapMethod.name_ne _) map_ne_array held
      (by rw [grain, method]; rfl)

/-- The rule that applies after an access knows the handles that there are afterwards. -/
theorem wraps_eq (acc : t.Accesses c a)
    (h : MethodRun t c (.map a.method) a.map c' r t' given result m₁ m₂ m₃ m) :
    t'.memory.shadow.wraps = m.shadow.wraps := by
  obtain ⟨values, held⟩ := acc.held h
  exact (h.unchanged acc.toCallsMethod map_ne_array held).2

/-- A shadow that is known stays known. -/
theorem known (acc : t.Accesses c a)
    (h : MethodRun t c (.map a.method) a.map c' r t' given result m₁ m₂ m₃ m) {v : Value}
    {x : Identity × Literal} (known : t.memory.shadow.lookup? v = some x) :
    t'.memory.shadow.lookup? v = some x := by
  obtain ⟨values, held⟩ := acc.held h
  exact h.known acc.toCallsMethod map_ne_array held known

/-- No access of a map that is tracked member by member forgets taint. -/
theorem holds_of_precise (acc : t.Accesses c a)
    (h : MethodRun t c (.map a.method) a.map c' r t' given result m₁ m₂ m₃ m)
    (precise : t.settings.policies.grainOf .map = .precise) {key : TaintKey} (holds : t.memory.Holds key) :
    t'.memory.Holds key := by
  obtain ⟨values, held⟩ := acc.held h
  refine h.holds_of_model acc.toCallsMethod (MapMethod.name_ne _) map_ne_array held ?_ holds
  rw [precise]
  cases a.method <;> rfl

/-- No access clears the bit of a map. -/
theorem bit (acc : t.Accesses c a)
    (h : MethodRun t c (.map a.method) a.map c' r t' given result m₁ m₂ m₃ m) {map : ObjectId}
    (bit : t.memory.taintBit (.object map) = true) : t'.memory.taintBit (.object map) = true := by
  have lasts : m.taintBit (.object map) = true := h.lasts (lasting_bit map) bit
  rw [acc.rule h]
  split
  · exact lasts
  cases t.settings.policies.grainOf .map with
  | precise => exact lasts
  | imprecise =>
    cases a.method with
    | get => exact ContainerRule.taintBit_taintRead _ _ lasts
    | set => exact ContainerRule.taintBit_taintReceiver _ _ lasts

/-- A map that is tracked as a whole holds no shadows after an access. -/
theorem bare (acc : t.Accesses c a)
    (h : MethodRun t c (.map a.method) a.map c' r t' given result m₁ m₂ m₃ m)
    (imprecise : t.settings.policies.grainOf .map = .imprecise) {map : ObjectId}
    (bare : map = a.map ∨ ∃ values, t.memory.heap.held? .map map = some values ∧
      ∀ v ∈ values, Grain.imprecise.Suits v) :
    ∃ values, t'.memory.heap.held? .map map = some values ∧ ∀ v ∈ values, Grain.imprecise.Suits v := by
  obtain ⟨values, held⟩ := acc.held h
  by_cases same : map = a.map
  · have settled := h.settled acc.toCallsMethod map_ne_array held
    rwa [imprecise, ← same] at settled
  · obtain ⟨others, held', suits⟩ := bare.resolve_left same
    have suits' : ∀ v ∈ others, (t.settings.policies.grainOf .map).Suits v := by
      rw [imprecise]
      exact suits
    obtain ⟨-, -, untouched, -⟩ := acc.ran h
    have held₂ : m₂.heap.held? .map map = some others := by
      rw [Heap.held?, untouched map others same held']
      exact held'
    have kind := (h.retains acc.toCallsMethod map_ne_array held).kind_of_suits map_ne_array held₂ suits'
    refine ⟨others, ?_, suits⟩
    rw [Heap.held?, kind]
    exact held₂

theorem whole (acc : t.Accesses c a)
    (h : MethodRun t c (.map a.method) a.map c' r t' given result m₁ m₂ m₃ m)
    (imprecise : t.settings.policies.grainOf .map = .imprecise) {map : ObjectId}
    (whole : t.memory.Whole map) : t'.memory.Whole map :=
  ⟨acc.bit h whole.bit, acc.bare h imprecise (.inr whole.bare)⟩

/-- A map that is tracked as a whole is tainted when something tainted is put in. -/
theorem whole_set (acc : t.Accesses c a)
    (h : MethodRun t c (.map a.method) a.map c' r t' given result m₁ m₂ m₃ m)
    (imprecise : t.settings.policies.grainOf .map = .imprecise) (set : a.method = .set) {v : Value}
    {id : Identity} {raw : Literal} (mem : v ∈ c.args)
    (known : t.memory.shadow.lookup? v = some (id, raw)) (tainted : t.memory.isTainted v = true) :
    t'.memory.Whole a.map := by
  refine ⟨?_, acc.bare h imprecise (.inl rfl)⟩
  -- the result is the map, so there is a rule that applies
  obtain ⟨entries, -, -, step⟩ := acc.ran h
  rw [set] at step
  have result : r = .object a.map := by
    have wrapped := congrArg Prod.fst h.wrapped
    rw [step.1] at wrapped
    exact wrapped.symm
  have defined : (m.valueOf r).isUndefined = false := by rw [result]; rfl
  rw [acc.rule h, defined, imprecise, set]
  obtain ⟨values, held⟩ := acc.held h
  obtain ⟨w, mem', tainted'⟩ := h.tainted_arg acc.toCallsMethod map_ne_array held mem known tainted
  refine ContainerRule.taintBit_of_argument "model:map.set" ?_ mem' tainted'
  rw [h.call]
  exact acc.base

/-- What is taken out of a map that is tainted as a whole is tainted. -/
theorem tainted_get (acc : t.Accesses c a)
    (h : MethodRun t c (.map a.method) a.map c' r t' given result m₁ m₂ m₃ m)
    (wraps : t.memory.shadow.frame.callType.skipsWrapping = false)
    (imprecise : t.settings.policies.grainOf .map = .imprecise) (get : a.method = .get)
    (whole : t.memory.Whole a.map) (defined : (t'.memory.valueOf r).isUndefined = false) :
    t'.memory.isTainted r = true := by
  obtain ⟨values, held, suits⟩ := whole.bare
  obtain ⟨entries, kind, -, step⟩ := acc.ran h
  rw [get] at step
  rw [held?_of_map kind, Option.some_inj] at held
  subst held
  have bare : result.raw = result := by
    rw [step.1]
    rcases found : entryUnder? a.key entries with _ | v
    · rfl
    · exact suits v (mem_of_entryUnder? found)
  obtain ⟨key, own⟩ := exists_keyOf_wrap t.settings.policies (.inl bare) (m := m₃) (by rw [h.callType, wraps])
  rw [h.wrapped] at own
  rw [valueOf_of_wraps (acc.wraps_eq h)] at defined
  have bit : m.taintBit (.object a.map) = true := h.lasts (lasting_bit _) whole.bit
  have base : c'.base = .object a.map := by
    rw [h.call]
    exact acc.base
  have tainted := ContainerRule.taintBit_result "model:map.get" (c := ⟨c'.f, c'.base, c'.args, r⟩)
    (by rw [base, bit]) own
  have read : t'.memory.taintBit r = true := by
    rw [acc.rule h, defined, imprecise, get]
    exact tainted
  rw [isTainted, read, Bool.true_or]

end Accesses

namespace MapRun

variable {accesses : List MapAccess} {levels : Levels} {map : ObjectId} {key key' v w : Value}
  {id : Identity} {raw : Literal}

/-- What every access keeps, a run of accesses keeps, from code in which literals get shadows. -/
theorem preserves {P : Memory → Prop} {Q : MapAccess → Prop}
    (step : ∀ {t t' : Tracker} {c c' : Call} {a : MapAccess} {r result : Value} {given : List Value}
      {m₁ m₂ m₃ m : Memory}, t.Accesses c a →
      MethodRun t c (.map a.method) a.map c' r t' given result m₁ m₂ m₃ m →
      t.settings.policies = levels → Q a → P t.memory → P t'.memory)
    (run : MapRun t accesses t') (policies : t.settings.policies = levels)
    (wraps : t.memory.shadow.frame.callType.skipsWrapping = false) (spared : ∀ a ∈ accesses, Q a)
    (start : P t.memory) : P t'.memory ∧ t'.settings.policies = levels ∧
      t'.memory.shadow.frame.callType.skipsWrapping = false := by
  induction run with
  | nil => exact ⟨start, policies, wraps⟩
  | cons access succeeds rest ih =>
    obtain ⟨given, result, m₁, m₂, m₃, m, h⟩ :=
      methodRun_of_invoke access.toCallsMethod (MapMethod.name_ne _) wraps succeeds
    refine ih (by rw [h.settings, policies]) (by rw [h.sameFrames.callType, wraps])
      (fun a mem => spared a (List.mem_cons_of_mem _ mem))
      (step access h policies (spared _ List.mem_cons_self) start)

section

variable (run : MapRun t accesses t') (policies : t.settings.policies = levels)
  (wraps : t.memory.shadow.frame.callType.skipsWrapping = false)
include run policies wraps

theorem context : t'.settings.policies = levels ∧
    t'.memory.shadow.frame.callType.skipsWrapping = false :=
  (run.preserves (P := fun _ => True) (Q := fun _ => True) (fun _ _ _ _ _ => trivial) policies wraps
    (fun _ _ => trivial) trivial).2

/-- What a map stores under a key it stores until something is put under the key. -/
theorem stores (spared : ∀ a ∈ accesses, ¬ a.Overwrites map key)
    (stores : t.memory.Stores levels map key v) : t'.memory.Stores levels map key v := by
  refine (run.preserves (fun acc h policies spared stores => ?_) policies wraps spared stores).1
  rw [← policies] at stores ⊢
  exact acc.stores h spared stores

/-- A map that is tracked as a whole stays tainted. -/
theorem whole (imprecise : levels.grainOf .map = .imprecise) (whole : t.memory.Whole map) :
    t'.memory.Whole map := by
  refine (run.preserves (Q := fun _ => True) (fun acc h policies _ whole => ?_) policies wraps
    (fun _ _ => trivial) whole).1
  exact acc.whole h (by rw [policies, imprecise]) whole

/-- Where maps are tracked member by member, a literal that is held keeps its shadow and its taint. -/
theorem holds (precise : levels.grainOf .map = .precise)
    (known : t.memory.shadow.lookup? v = some (id, raw)) (holds : t.memory.Holds (.identity id)) :
    t'.memory.shadow.lookup? v = some (id, raw) ∧ t'.memory.Holds (.identity id) := by
  refine (run.preserves (P := fun m => m.shadow.lookup? v = some (id, raw) ∧ m.Holds (.identity id))
    (Q := fun _ => True) (fun acc h policies _ held => ⟨acc.known h held.1, ?_⟩) policies wraps
    (fun _ _ => trivial) ⟨known, holds⟩).1
  exact acc.holds_of_precise h (by rw [policies, precise]) held.2

end

section Between

variable {t₁ t₂ t₃ : Tracker} {c c₁ d d₁ : Call} {r result result' : Value} {given given' : List Value}
  {m₁ m₂ m₃ m n₁ n₂ n₃ n : Memory} (wraps : t.memory.shadow.frame.callType.skipsWrapping = false)
  (set : t.Accesses c ⟨.set, map, key⟩)
  (h : MethodRun t c (.map .set) map c₁ w t₁ given result m₁ m₂ m₃ m) (run : MapRun t₁ accesses t₂)
  (get : t₂.Accesses d ⟨.get, map, key'⟩)
  (h' : MethodRun t₂ d (.map .get) map d₁ r t₃ given' result' n₁ n₂ n₃ n)

include wraps h in
theorem context_set : t₁.settings.policies = t.settings.policies ∧
    t₁.memory.shadow.frame.callType.skipsWrapping = false :=
  ⟨by rw [h.settings], by rw [h.sameFrames.callType, wraps]⟩

include wraps set h run get h' in
/-- What the map was given is what comes out of it under an equal key. -/
theorem result_between (suits : (t.settings.policies.grainOf .map).Suits (given.getD 1 .undefined))
    (equal : key.sameKey key' = true) (spared : ∀ a ∈ accesses, ¬ a.Overwrites map key) :
    result' = given.getD 1 .undefined := by
  obtain ⟨policies₁, wraps₁⟩ := context_set wraps h
  have stores := run.stores policies₁ wraps₁ spared (set.stores_set h rfl suits)
  rw [← (run.context policies₁ wraps₁).1] at stores
  exact get.result_get h' rfl equal stores

variable (stored : c.args[1]? = some v) (known : t.memory.shadow.lookup? v = some (id, raw))
  (tainted : t.memory.isTainted v = true)

include wraps set h run get h' stored known tainted in
/-- Whatever is taken out of a map that is tracked as a whole is tainted, once something tainted was put in. -/
theorem tainted_whole (imprecise : t.settings.policies.grainOf .map = .imprecise)
    (defined : (t₃.memory.valueOf r).isUndefined = false) : t₃.memory.isTainted r = true := by
  obtain ⟨policies₁, wraps₁⟩ := context_set wraps h
  obtain ⟨policies₂, wraps₂⟩ := run.context policies₁ wraps₁
  have whole := run.whole policies₁ wraps₁ imprecise
    (set.whole_set h imprecise rfl (List.mem_of_getElem? stored) known tainted)
  exact get.tainted_get h' wraps₂ (by rw [policies₂, imprecise]) rfl whole defined

include wraps set h run get h' stored known in
/-- A map that is tracked as a whole gives the literal back, with a shadow. -/
theorem known_whole (imprecise : t.settings.policies.grainOf .map = .imprecise)
    (equal : key.sameKey key' = true) (spared : ∀ a ∈ accesses, ¬ a.Overwrites map key) :
    ∃ id', t₃.memory.shadow.lookup? r = some (id', raw) := by
  have value := set.given_value h rfl stored
  rw [imprecise] at value
  have bare : given.getD 1 .undefined = .literal raw := value.trans (ShadowState.valueOf_of_lookup known)
  obtain rfl : result' = .literal raw := by
    rw [← bare]
    refine result_between wraps set h run get h' ?_ equal spared
    rw [imprecise, bare]
    rfl
  obtain ⟨policies₁, wraps₁⟩ := context_set wraps h
  obtain ⟨id', known'⟩ := MemoryM.lookup_wrap t₂.settings.policies raw (m := n₃)
    (by rw [h'.callType, (run.context policies₁ wraps₁).2])
  rw [h'.wrapped, ← lookup?_of_wraps (get.wraps_eq h')] at known'
  exact ⟨id', known'⟩

include wraps set h run get h' stored known tainted in
/-- A map that is tracked member by member gives the shadow back that was put in, and it is still tainted. -/
theorem tainted_member (precise : t.settings.policies.grainOf .map = .precise)
    (equal : key.sameKey key' = true) (spared : ∀ a ∈ accesses, ¬ a.Overwrites map key) :
    t₃.memory.shadow.lookup? r = some (id, raw) ∧ t₃.memory.isTainted r = true := by
  obtain ⟨policies₁, wraps₁⟩ := context_set wraps h
  obtain ⟨policies₂, wraps₂⟩ := run.context policies₁ wraps₁
  have shadowed : v.isBareLiteral = false := by
    cases v with
    | literal l => cases known
    | object o => rfl
    | shadow handle identity l => rfl
  have value := set.given_value h rfl stored
  rw [precise] at value
  obtain rfl : result' = v := by
    rw [← show given.getD 1 .undefined = v from value]
    refine result_between wraps set h run get h' ?_ equal spared
    rw [precise, value]
    exact shadowed
  obtain rfl : result' = r := by
    have wrapped := congrArg Prod.fst h'.wrapped
    rwa [MemoryM.wrap_of_not_bare _ shadowed] at wrapped
  -- the literal was held all the time with the shadow that it had
  rw [isTainted_of_lookup known, Option.any_eq_true] at tainted
  obtain ⟨known₂, holds⟩ := run.holds policies₁ wraps₁ precise (set.known h known)
    (set.holds_of_precise h precise tainted)
  obtain ⟨e, found, bit⟩ := get.holds_of_precise h' (by rw [policies₂, precise]) holds
  have known₃ := get.known h' known₂
  refine ⟨known₃, ?_⟩
  rw [isTainted_of_lookup known₃, found]
  exact bit

end Between

/-- A tainted literal that was put into a map is tainted when it is taken out under an equal key, unless
something else was put under such a key in between. From a map that is tracked as a whole, whatever is
taken out is tainted, even then. -/
theorem keeps_taint {t₁ t₂ t₃ : Tracker} {c c₁ d d₁ : Call} {r : Value}
    (caller : t.memory.shadow.frame.callType = .internal ∨ t.memory.shadow.frame.callType = .external)
    (set : t.Accesses c ⟨.set, map, key⟩) (stored : c.args[1]? = some v)
    (known : t.memory.shadow.lookup? v = some (id, raw)) (defined : raw ≠ .undefined)
    (tainted : t.memory.isTainted v = true) (puts : invoke c none t = (.ok (c₁, w), t₁))
    (run : MapRun t₁ accesses t₂) (get : t₂.Accesses d ⟨.get, map, key'⟩)
    (takes : invoke d none t₂ = (.ok (d₁, r), t₃)) :
    (key.sameKey key' = true → (∀ a ∈ accesses, ¬ a.Overwrites map key) →
      ∃ id', t₃.memory.shadow.lookup? r = some (id', raw) ∧ t₃.memory.isTainted r = true) ∧
    (t.settings.policies.precision .map ≠ .precise → (t₃.memory.valueOf r).isUndefined = false →
      t₃.memory.isTainted r = true) := by
  have wraps := CallType.skipsWrapping_eq_false_iff.mpr caller
  obtain ⟨given, result, m₁, m₂, m₃, m, h⟩ :=
    methodRun_of_invoke set.toCallsMethod (MapMethod.name_ne _) wraps puts
  obtain ⟨policies₁, wraps₁⟩ := context_set wraps h
  obtain ⟨policies₂, wraps₂⟩ := run.context policies₁ wraps₁
  obtain ⟨given', result', n₁, n₂, n₃, n, h'⟩ :=
    methodRun_of_invoke get.toCallsMethod (MapMethod.name_ne _) wraps₂ takes
  -- one bit for the map, or one shadow for the literal: each keeps the taint in its own way
  cases grain : t.settings.policies.grainOf .map with
  | imprecise =>
    have comes := tainted_whole wraps set h run get h' stored known tainted grain
    refine ⟨fun equal spared => ?_, fun _ => comes⟩
    obtain ⟨id', known'⟩ := known_whole wraps set h run get h' stored known grain equal spared
    refine ⟨id', known', comes ?_⟩
    rw [Memory.valueOf, ShadowState.valueOf_of_lookup known']
    cases raw with
    | undefined => exact absurd rfl defined
    | _ => rfl
  | precise =>
    refine ⟨fun equal spared => ⟨id, ?_⟩, fun coarse _ => ?_⟩
    · exact tainted_member wraps set h run get h' stored known tainted grain equal spared
    · exact absurd (Levels.grainOf_eq_precise_iff.mp grain) coarse

/-- A heap with a map, its methods, and the function that taints values. -/
def mapAndMethods : Heap :=
  ⟨#[{ kind := .map [] }, { kind := .function { name := "set", native := some (.map .set) } },
    { kind := .function { name := "get", native := some (.map .get) } },
    { kind := .function { name := "__jalangi_set_taint__" } }]⟩

/-- A literal is tainted. -/
def taintedLiteral : Tracker :=
  (Session.run (Session.start {} ⟨#[]⟩) [.host mapAndMethods, .hook (.literal (.string "evil")),
    .hook (.callPre { f := .object 3, base := .undefined, args := [Session.firstShadow], site := 1 })]).tracker

/-- A call of one of the methods of the map. -/
def onMap (f : ObjectId) (args : List Value) : Call :=
  { f := .object f, base := .object 0, method := true, args, site := 2 }

/-- The literal is put into the map. -/
def putIn : Call := onMap 1 [.string "key", Session.firstShadow]

/-- Another one is put in under another key. -/
def putBeside : Call := onMap 1 [.string "other", .string "good"]

/-- The literal is taken out. -/
def takeOut : Call := onMap 2 [.string "key"]

/-- What was put in is taken out of the map, and it is tainted. -/
theorem keeps_taint_takeOut : ∃ d r, invoke takeOut none (after putBeside (after putIn taintedLiteral)) =
    (.ok (d, r), after takeOut (after putBeside (after putIn taintedLiteral))) ∧
    (∃ id, (after takeOut (after putBeside (after putIn taintedLiteral))).memory.shadow.lookup? r =
      some (id, .string "evil")) ∧
    (after takeOut (after putBeside (after putIn taintedLiteral))).memory.isTainted r = true := by
  obtain ⟨c₁, w, puts⟩ := invoke_of_isOk (c := putIn) (t := taintedLiteral) (by decide +kernel)
  obtain ⟨c₂, w₂, beside⟩ := invoke_of_isOk (c := putBeside) (t := after putIn taintedLiteral)
    (by decide +kernel)
  obtain ⟨d, r, takes⟩ := invoke_of_isOk (c := takeOut)
    (t := after putBeside (after putIn taintedLiteral)) (by decide +kernel)
  have set : taintedLiteral.Accesses putIn ⟨.set, 0, .string "key"⟩ :=
    ⟨⟨by decide +kernel, rfl, rfl⟩, by decide +kernel, rfl⟩
  have set₂ : (after putIn taintedLiteral).Accesses putBeside ⟨.set, 0, .string "other"⟩ :=
    ⟨⟨by decide +kernel, rfl, rfl⟩, by decide +kernel, rfl⟩
  have get : (after putBeside (after putIn taintedLiteral)).Accesses takeOut ⟨.get, 0, .string "key"⟩ :=
    ⟨⟨by decide +kernel, rfl, rfl⟩, by decide +kernel, rfl⟩
  have known : taintedLiteral.memory.shadow.lookup? Session.firstShadow = some (⟨0⟩, .string "evil") :=
    rfl
  have spared : ∀ a ∈ [⟨.set, 0, .string "other"⟩], ¬ MapAccess.Overwrites 0 (.string "key") a := by
    intro a mem
    rw [List.mem_singleton.mp mem]
    rintro ⟨-, -, same⟩
    revert same
    decide +kernel
  obtain ⟨id, known', tainted⟩ := (keeps_taint (.inl (by decide +kernel)) set rfl known nofun
    (by decide +kernel) puts (.cons set₂ beside .nil) get takes).1 (by decide +kernel) spared
  exact ⟨d, r, takes, ⟨id, known'⟩, tainted⟩

end MapRun

end Tracker

end ShadowTaint
