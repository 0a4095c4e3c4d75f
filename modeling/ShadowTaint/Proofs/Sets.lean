import ShadowTaint.Proofs.Elements
import ShadowTaint.Proofs.Methods
/-!
# Taint in sets

A tainted literal that was added to a set is among its values, which the runtime lists as a new array. A set
that is tracked as a whole is tainted itself, and so is the array. A set that is tracked member by member holds
the literal with its shadow, and it is the shadow that is tainted. The array then must be tracked member by
member as well: one that is tracked as a whole drops the shadows when it is wrapped, and it is not tainted
instead.

## Main definitions

- `Value.SoleIn`: a list holds a value, and no other one that is the same key.
- `Memory.Carries`: the values of a set hold a literal with its taint.
- `Memory.Yields`: what an array shows of a literal is tainted.

## Main statements

- `Tracker.values_tainted`: where sets are tracked as a whole, or arrays member by member, what is read of
  the values of a set is tainted if it was so when it was added.
- `Tracker.member_untainted`: where sets are tracked member by member and arrays as a whole, it is not.
-/

namespace ShadowTaint

open Memory Tracker

/-- The value is in the list, and nothing else there is the same key. -/
def Value.SoleIn (v : Value) (values : List Value) : Prop :=
  v ∈ values ∧ ∀ w ∈ values, w.sameKey v = true → w = v

theorem Value.soleIn_append {v : Value} {values : List Value}
    (fresh : ∀ w ∈ values, w.sameKey v = false) : v.SoleIn (values ++ [v]) := by
  refine ⟨List.mem_append_right _ (List.mem_singleton_self v), fun w mem same => ?_⟩
  rcases List.mem_append.mp mem with mem | mem
  · rw [fresh w mem] at same
    cases same
  · exact List.mem_singleton.mp mem

/-- What suits the container is in it afterwards. -/
theorem Grain.Keeps.mem {grain : Grain} {values values' : List Value} (h : grain.Keeps values values')
    {v : Value} (mem : v ∈ values) (suits : grain.Suits v) : v ∈ values' := by
  induction h with
  | nil => cases mem
  | cons head _ ih =>
    rcases List.mem_cons.mp mem with rfl | mem
    · rw [head.1 suits]
      exact List.mem_cons_self
    · exact List.mem_cons_of_mem _ (ih mem)

/-- Where members are tracked, nothing becomes the same key as a shadow in the container. -/
theorem Grain.Keeps.soleIn {values values' : List Value} (h : Grain.precise.Keeps values values')
    {v : Value} (sole : v.SoleIn values) (suits : Grain.precise.Suits v) : v.SoleIn values' := by
  refine ⟨h.mem sole.1 suits, fun w mem same => ?_⟩
  obtain ⟨i, bound, rfl⟩ := List.mem_iff_getElem.mp mem
  have bound' : i < values.length := by rwa [h.length_eq]
  obtain ⟨stays, key⟩ := h.get bound' bound
  -- the value at the same place was the same key, so it was the shadow
  have before : values[i].sameKey v = true := by
    rw [Value.sameKey_iff] at same ⊢
    exact (key rfl).symm.trans same
  have here := sole.2 _ (List.getElem_mem bound') before
  exact (stays (by rw [List.get_eq_getElem, here]; exact suits)).trans here

namespace Memory

theorem set_ne_array : Container.set ≠ .array := nofun

theorem kind_of_set {h : Heap} {set : ObjectId} {members : List Value}
    (held : h.held? .set set = some members) : (h.get set).kind = .set members := by
  rw [Heap.held?] at held
  rcases kind : (h.get set).kind <;> rw [kind] at held <;> cases held
  rfl

theorem setMembers?_of_held {h : Heap} {set : ObjectId} {members : List Value}
    (held : h.held? .set set = some members) : h.setMembers? (.object set) = some (set, members) := by
  rw [Heap.setMembers?, Value.object?]
  dsimp only
  rw [kind_of_set held]

/-- The values of a set hold a literal with its taint: the set is tainted as a whole, or the literal is there
as a tainted shadow, and nothing else is the same key. -/
def Carries (grain : Grain) (set : ObjectId) (values : List Value) (raw : Literal) (m : Memory) : Prop :=
  match grain with
  | .imprecise => .literal raw ∈ values ∧ m.taintBit (.object set) = true
  | .precise => ∃ handle id, Value.SoleIn (.shadow handle id raw) values ∧
      m.shadow.lookup? (.shadow handle id raw) = some (id, raw) ∧ m.Holds (.identity id)

/-- The array holds something that is the same key as the given one, and all of that is tainted when it is
read. -/
structure Yields (levels : Levels) (array : ObjectId) (elements : List Value) (key : Value) (m : Memory) :
    Prop where
  policy : levels.policyFor m.heap (.object array) = .container .array (levels.grainOf .array)
  held : m.heap.held? .array array = some elements
  found : ∃ w ∈ elements, w.sameKey key = true
  tracks : ∀ w ∈ elements, w.sameKey key = true → m.Tracks w
  tainted : ∀ w ∈ elements, w.sameKey key = true → m.TaintedIn array w

end Memory

namespace Tracker

variable {t t' : Tracker} {c c' : Call} {set : ObjectId} {r result v : Value} {given members : List Value}
  {m₁ m₂ m₃ m : Memory}

section Adding

variable (add : t.CallsMethod c "add" (.set .add) set)
  (h : MethodRun t c (.set .add) set c' r t' given result m₁ m₂ m₃ m)
  (held : t.memory.heap.held? .set set = some members)

include add h held in
/-- What a set is given. -/
theorem given_add (added : c.args.head? = some v) : given.headD .undefined =
    match t.settings.policies.grainOf .set with
    | .precise => v
    | .imprecise => t.memory.valueOf v := by
  have name : t.memory.functionName c.f = "add" := by
    rw [functionName, add.native.function_valueOf]
    rfl
  obtain ⟨rest, args⟩ := List.head?_eq_some_iff.mp added
  rw [h.given_eq, t.settings.policies.policyFor_of_held set_ne_array held]
  cases t.settings.policies.grainOf .set with
  | imprecise =>
    show (c.args.map t.memory.valueOf).headD .undefined = _
    rw [args]
    rfl
  | precise =>
    rw [Policy.passing, name, args]
    rfl

variable (fresh : ∀ w ∈ members, w.sameKey (given.headD .undefined) = false)

include h held fresh in
/-- A value that is not in the set yet is in it when the method has run. -/
theorem ran_add : result = .object set ∧
    m₂.heap.held? .set set = some (members ++ [given.headD .undefined]) := by
  have ran : SetMethod.add.invoke m₁.heap (.object set) given = .ok (result, m₂.heap) := by
    rw [← h.ran, Native.run, Native.runWithin]
  have held₁ := h.undresses.contents.held? set_ne_array held
  have absent : ¬ (members.any fun w => w.sameKey (given.headD .undefined)) = true := by
    rw [List.any_eq_true]
    rintro ⟨w, mem, same⟩
    rw [fresh w mem] at same
    cases same
  rw [SetMethod.invoke, setMembers?_of_held held₁] at ran
  dsimp only at ran
  rw [if_neg absent] at ran
  obtain ⟨returned, heap⟩ := Prod.mk.inj (Except.ok.inj ran)
  refine ⟨returned.symm, ?_⟩
  rw [← heap, Heap.held?, Heap.setKind, Heap.get_modify_self (Heap.allocated_of_held held₁)]
  rfl

include add h held fresh

/-- After the call the set holds the value, and only what suits it. -/
theorem held_add : ∃ values, t'.memory.heap.held? .set set = some values ∧
    (t.settings.policies.grainOf .set).Keeps (members ++ [given.headD .undefined]) values ∧
      ∀ w ∈ values, (t.settings.policies.grainOf .set).Suits w := by
  obtain ⟨-, held₂⟩ := ran_add h held fresh
  obtain ⟨values, held', kept⟩ := (h.retains add set_ne_array held₂).held? set_ne_array held₂
  obtain ⟨values', settled, suits⟩ := h.settled add set_ne_array held₂
  rw [held'] at settled
  cases settled
  exact ⟨values, held', kept, suits⟩

/-- A set that is tracked as a whole is tainted when a tainted literal is added. -/
theorem bit_add (imprecise : t.settings.policies.grainOf .set = .imprecise) {id : Identity}
    {raw : Literal} (mem : v ∈ c.args) (known : t.memory.shadow.lookup? v = some (id, raw))
    (tainted : t.memory.isTainted v = true) : t'.memory.taintBit (.object set) = true := by
  obtain ⟨returned, held₂⟩ := ran_add h held fresh
  have result : r = .object set := by
    have wrapped := congrArg Prod.fst h.wrapped
    rw [returned] at wrapped
    exact wrapped.symm
  have defined : (m.valueOf r).isUndefined = false := by rw [result]; rfl
  have base : c'.base = .object set := by rw [h.call]; exact add.base
  obtain ⟨w, mem', tainted'⟩ := h.tainted_arg add set_ne_array held₂ mem known tainted
  rw [h.rule_of_model add (by decide) set_ne_array held₂ (by rw [imprecise]; rfl), defined]
  exact ContainerRule.taintBit_of_argument "model:set.add" base mem' tainted'

omit fresh in
/-- After the call the set holds the literal with its taint. -/
theorem carries_add {handle : Handle} {id : Identity} {raw : Literal}
    (added : c.args.head? = some (.shadow handle id raw))
    (known : t.memory.shadow.lookup? (.shadow handle id raw) = some (id, raw))
    (tainted : t.memory.isTainted (.shadow handle id raw) = true)
    (fresh : ∀ w ∈ members, w.sameKey (.literal raw) = false) :
    ∃ values, t'.memory.heap.held? .set set = some values ∧
      (∀ w ∈ values, (t.settings.policies.grainOf .set).Suits w) ∧
      t'.memory.Carries (t.settings.policies.grainOf .set) set values raw := by
  have value := given_add add h held added
  rw [Memory.valueOf, ShadowState.valueOf_of_lookup known] at value
  have fresh' : ∀ w ∈ members, w.sameKey (given.headD .undefined) = false := by
    rw [value]
    cases t.settings.policies.grainOf .set <;> exact fresh
  obtain ⟨values, held', kept, suits⟩ := held_add add h held fresh'
  refine ⟨values, held', suits, ?_⟩
  cases grain : t.settings.policies.grainOf .set with
  | imprecise =>
    rw [grain] at value kept
    rw [value] at kept
    exact ⟨kept.mem (List.mem_append_right _ (List.mem_singleton_self _)) rfl,
      bit_add add h held fresh' grain (List.mem_of_mem_head? added) known tainted⟩
  | precise =>
    rw [grain] at value kept
    rw [value] at kept
    obtain ⟨key, own, holds⟩ := ownTaint_iff.mp (ownTaint_of_plain rfl tainted)
    rw [ShadowState.keyOf, known, Option.some_inj] at own
    subst own
    obtain ⟨-, held₂⟩ := ran_add h held fresh'
    exact ⟨handle, id, kept.soleIn (Value.soleIn_append fresh) rfl, h.known add set_ne_array held₂ known,
      h.holds_of_model add (by decide) set_ne_array held₂ (by rw [grain]; rfl) holds⟩

end Adding

section Listing

variable (lists : t.CallsMethod c "values" (.set .values) set)
  (h : MethodRun t c (.set .values) set c' r t' given result m₁ m₂ m₃ m)
  (held : t.memory.heap.held? .set set = some members)

include h held in
/-- The values of a set are listed in a new array. -/
theorem ran_values : ∃ array, array ≠ set ∧ result = .object array ∧
    m₂.heap.held? .set set = some members ∧ m₂.heap.get array = { kind := .array members } := by
  have ran : SetMethod.values.invoke m₁.heap (.object set) given = .ok (result, m₂.heap) := by
    rw [← h.ran, Native.run, Native.runWithin]
  have held₁ := h.undresses.contents.held? set_ne_array held
  rw [SetMethod.invoke, setMembers?_of_held held₁] at ran
  obtain ⟨returned, heap⟩ := Prod.mk.inj (Except.ok.inj ran)
  have allocated := Heap.allocated_of_held held₁
  refine ⟨m₁.heap.objects.size, Nat.ne_of_gt allocated, returned.symm, ?_, ?_⟩
  · rw [Heap.held?, ← heap]
    show ((m₁.heap.alloc { kind := .array members }).2.get set).kind.held? .set = _
    rw [Heap.get_alloc_of_lt _ _ allocated]
    exact held₁
  · rw [← heap]
    exact m₁.heap.get_alloc_self { kind := .array members }

variable (empty : c.args = []) (wraps : t.memory.shadow.frame.callType.skipsWrapping = false)

include lists h held empty wraps in
/-- The array that is returned holds what the set holds, as it has values of its kind. -/
theorem array_values : ∃ array elements, r = .object array ∧
    t.settings.policies.policyFor t'.memory.heap (.object array) =
      .container .array (t.settings.policies.grainOf .array) ∧
    t'.memory.heap.held? .array array = some elements ∧
    (t.settings.policies.grainOf .array).Keeps members elements ∧
    ((∀ v ∈ members, v.raw = v) → ∀ w ∈ elements, t'.memory.Tracks w) := by
  obtain ⟨array, other, returned, held₂, listed⟩ := ran_values h held
  have untouched : m₃.heap.get array = { kind := .array members } := by
    rw [h.others empty array other, listed]
  have held₃ : m₃.heap.held? .array array = some members := by
    rw [Heap.held?, untouched]
    rfl
  have policy : t.settings.policies.policyFor m₃.heap (.object array) =
      .container .array (t.settings.policies.grainOf .array) := by
    refine t.settings.policies.policyFor_of_array ?_ held₃
    show (m₃.heap.get array).importTag = none
    rw [untouched]
  have wrapped := h.wrapped
  rw [returned] at wrapped
  obtain ⟨heap, handles⟩ := h.unchanged lists set_ne_array held₂
  have settled := MemoryM.heap_wrap_of_held policy held₃
  have kept := MemoryM.keeps_mapM_hold (t.settings.policies.grainOf .array) members m₃
  have tracked := MemoryM.tracks_wrap policy held₃
  rw [wrapped] at settled tracked
  refine ⟨array, _, (congrArg Prod.fst wrapped).symm, ?_, ?_, kept, fun bare w mem => ?_⟩
  · rw [heap, settled, Levels.policyFor_setHeld, policy]
  · rw [heap, settled]
    exact Heap.held?_setHeld held₃ kept.length_eq.symm
  · have tracks := tracked (fun v mem => .inl (bare v mem)) (by rw [h.callType, wraps]) w mem
    exact tracks.imp_right fun ⟨x, known⟩ => ⟨x, by rw [lookup?_of_wraps handles, known]⟩

include lists h held in
/-- The array that a set which is tainted as a whole returns is tainted. -/
theorem bit_values (imprecise : t.settings.policies.grainOf .set = .imprecise)
    (bit : t.memory.taintBit (.object set) = true) {array : ObjectId} (result : r = .object array) :
    t'.memory.taintBit (.object array) = true := by
  subst result
  obtain ⟨-, -, -, held₂, -⟩ := ran_values h held
  have lasts : m.taintBit (.object set) = true := h.lasts (lasting_bit set) bit
  have defined : (m.valueOf (.object array)).isUndefined = false := rfl
  have base : c'.base = .object set := by rw [h.call]; exact lists.base
  rw [← base] at lasts
  rw [h.rule_of_model lists (by decide) set_ne_array held₂ (by rw [imprecise]; rfl), defined]
  exact ContainerRule.taintBit_result "model:set.values" (c := ⟨c'.f, c'.base, c'.args, .object array⟩)
    lasts rfl

include lists h held empty wraps in
/-- Where sets are tracked as a whole, all values of a tainted set are tainted. -/
theorem yields_whole (imprecise : t.settings.policies.grainOf .set = .imprecise)
    (bit : t.memory.taintBit (.object set) = true) (bare : ∀ w ∈ members, w.raw = w)
    (mem : v ∈ members) : ∃ array elements, r = .object array ∧
      t'.memory.Yields t.settings.policies array elements v := by
  obtain ⟨array, elements, result, policy, held', kept, tracks⟩ := array_values lists h held empty wraps
  have marked := bit_values lists h held imprecise bit result
  have keys := kept.keys fun coarse w mem => by
    rw [coarse]
    exact bare w mem
  have listed : v.key ∈ elements.map Value.key := by
    rw [keys]
    exact List.mem_map_of_mem mem
  obtain ⟨w, mem', same⟩ := List.mem_map.mp listed
  exact ⟨array, elements, result, policy, held', ⟨w, mem', (Value.sameKey_iff w v).mpr same⟩,
    fun w mem' _ => tracks bare w mem', fun _ _ _ => .inl marked⟩

include lists h held empty wraps in
/-- Where both sets and arrays are tracked member by member, a tainted shadow in a set is listed. -/
theorem yields_member (precise : t.settings.policies.grainOf .set = .precise)
    (alike : t.settings.policies.grainOf .array = .precise)
    (suits : ∀ w ∈ members, Grain.precise.Suits w) (sole : v.SoleIn members) {id : Identity}
    {raw : Literal} (known : t.memory.shadow.lookup? v = some (id, raw))
    (holds : t.memory.Holds (.identity id)) : ∃ array elements, r = .object array ∧
      t'.memory.Yields t.settings.policies array elements v := by
  obtain ⟨array, elements, result, policy, held', kept, -⟩ := array_values lists h held empty wraps
  obtain ⟨-, -, -, held₂, -⟩ := ran_values h held
  rw [alike] at kept
  obtain rfl : elements = members := kept.eq_of_suits suits
  have known' := h.known lists set_ne_array held₂ known
  have holds' := h.holds_of_model lists (by decide) set_ne_array held₂ (by rw [precise]; rfl) holds
  refine ⟨array, elements, result, policy, held', ⟨v, sole.1, (Value.sameKey_iff v v).mpr rfl⟩, ?_, ?_⟩
  · intro w mem same
    rw [sole.2 w mem same]
    exact .inr ⟨_, known'⟩
  · intro w mem same
    rw [sole.2 w mem same]
    exact .inr ⟨.identity id, by rw [ShadowState.keyOf, known'], holds'⟩

include lists held empty in
/-- At rest the values of a set can be listed. -/
theorem exists_values (rest : t.memory.shadow.AtRest) :
    ∃ c' r t', invoke c none t = (.ok (c', r), t') :=
  invoke_of_runs rest lists (by decide) empty fun m undresses => by
    have still := undresses.contents.held? set_ne_array held
    refine ⟨(m.heap.allocArray members).1, (m.heap.allocArray members).2, ?_⟩
    show SetMethod.values.invoke m.heap (.object set) [] = _
    rw [SetMethod.invoke, setMembers?_of_held still]

include lists h held empty wraps in
/-- The values of a set that holds a literal with its taint show the taint, unless it is the shadow that is
tainted and the array drops it. -/
theorem yields_values (apart : t.settings.policies.precision .set ≠ .precise ∨
      t.settings.policies.precision .array = .precise)
    (suits : ∀ w ∈ members, (t.settings.policies.grainOf .set).Suits w) {raw : Literal}
    (carries : t.memory.Carries (t.settings.policies.grainOf .set) set members raw) :
    ∃ array elements, r = .object array ∧
      t'.memory.Yields t.settings.policies array elements (.literal raw) := by
  -- the array gets its taint from the bit of the set, or with the shadow that the set holds
  cases grain : t.settings.policies.grainOf .set with
  | imprecise =>
    rw [grain] at suits carries
    exact yields_whole lists h held empty wraps grain carries.2 suits carries.1
  | precise =>
    rw [grain] at suits carries
    have alike : t.settings.policies.grainOf .array = .precise :=
      Levels.grainOf_eq_precise_iff.mpr
        (apart.resolve_left fun coarse => coarse (Levels.grainOf_eq_precise_iff.mp grain))
    obtain ⟨handle, id, sole, known, holds⟩ := carries
    obtain ⟨array, elements, result, yields⟩ :=
      yields_member lists h held empty wraps grain alike suits sole known holds
    exact ⟨array, elements, result, yields.policy, yields.held, yields.found, yields.tracks,
      yields.tainted⟩

end Listing

/-- What is the same key as the literal is tainted when it is read from the array. -/
theorem readField_yields (rest : t.memory.shadow.AtRest)
    (wraps : t.memory.shadow.frame.callType.skipsWrapping = false) {array : ObjectId}
    {elements : List Value} {raw : Literal}
    (yields : t.memory.Yields t.settings.policies array elements (.literal raw)) {i : Nat}
    {w offset : Value} (here : elements[i]? = some w) (same : w.sameKey (.literal raw) = true)
    (spelled : Text.readIndex? (t.memory.keyText offset) = some i) :
    ∃ ops t', readField (.object array) offset none t = (.ok ops, t') ∧
      t'.memory.isTainted ops.value = true := by
  have plain : w.object? = none := by
    cases w with
    | object o => cases same
    | literal l => rfl
    | shadow handle identity l => rfl
  have mem := List.mem_of_getElem? here
  exact readField_element rest wraps yields.policy yields.held here plain (yields.tracks w mem same)
    spelled (yields.tainted w mem same)

/-- A tainted literal that was added to a set is listed among its values, and it is tainted when it is read
from there, where sets are tracked as a whole or arrays member by member. -/
theorem values_tainted {t₁ : Tracker} {d : Call} {handle : Handle} {id : Identity} {raw : Literal}
    (apart : t.settings.policies.precision .set ≠ .precise ∨
      t.settings.policies.precision .array = .precise)
    (caller : t.memory.shadow.frame.callType = .internal ∨ t.memory.shadow.frame.callType = .external)
    (add : t.CallsMethod c "add" (.set .add) set)
    (held : t.memory.heap.held? .set set = some members)
    (added : c.args.head? = some (.shadow handle id raw))
    (known : t.memory.shadow.lookup? (.shadow handle id raw) = some (id, raw))
    (tainted : t.memory.isTainted (.shadow handle id raw) = true)
    (fresh : ∀ w ∈ members, w.sameKey (.literal raw) = false)
    (adds : invoke c none t = (.ok (c', r), t₁))
    (lists : t₁.CallsMethod d "values" (.set .values) set) (empty : d.args = []) :
    ∃ d' array t₂ elements, invoke d none t₁ = (.ok (d', .object array), t₂) ∧
      t₂.memory.heap.held? .array array = some elements ∧
      (∃ w ∈ elements, w.sameKey (.literal raw) = true) ∧
      ∀ i w offset, elements[i]? = some w → w.sameKey (.literal raw) = true →
        Text.readIndex? (t₂.memory.keyText offset) = some i →
          ∃ ops t₃, readField (.object array) offset none t₂ = (.ok ops, t₃) ∧
            t₃.memory.isTainted ops.value = true := by
  have wraps := CallType.skipsWrapping_eq_false_iff.mpr caller
  obtain ⟨given, result, m₁, m₂, m₃, m, h⟩ := methodRun_of_invoke add (by decide) wraps adds
  obtain ⟨values, held₁, suits, carries⟩ := carries_add add h held added known tainted fresh
  -- the second call starts where the first one ended, under the same levels
  have wraps₁ : t₁.memory.shadow.frame.callType.skipsWrapping = false := by
    rw [h.sameFrames.callType, wraps]
  rw [← h.settings] at suits carries apart
  obtain ⟨d', r', t₂, run⟩ := exists_values lists held₁ empty h.rest
  obtain ⟨given', result', n₁, n₂, n₃, n, h'⟩ := methodRun_of_invoke lists (by decide) wraps₁ run
  obtain ⟨array, elements, rfl, yields⟩ := yields_values lists h' held₁ empty wraps₁ apart suits carries
  have wraps₂ : t₂.memory.shadow.frame.callType.skipsWrapping = false := by
    rw [h'.sameFrames.callType, wraps₁]
  refine ⟨d', array, t₂, elements, run, yields.held, yields.found, fun i w offset here same spelled => ?_⟩
  rw [← h'.settings] at yields
  exact readField_yields h'.rest wraps₂ yields here same spelled

/-- A heap with a set, its methods, and the function that taints values. -/
def setAndMethods : Heap :=
  ⟨#[{ kind := .set [] }, { kind := .function { name := "add", native := some (.set .add) } },
    { kind := .function { name := "values", native := some (.set .values) } },
    { kind := .function { name := "__jalangi_set_taint__" } }]⟩

/-- A literal is tainted. -/
def taintedMember (settings : Settings) : Tracker :=
  (Session.run (Session.start settings ⟨#[]⟩) [.host setAndMethods, .hook (.literal (.string "evil")),
    .hook (.callPre { f := .object 3, base := .undefined, args := [Session.firstShadow], site := 1 })]).tracker

/-- The literal is added to the set. -/
def addTo : Call :=
  { f := .object 1, base := .object 0, method := true, args := [Session.firstShadow], site := 2 }

/-- The values of the set are listed. -/
def listOf : Call := { f := .object 2, base := .object 0, method := true, args := [], site := 2 }

/-- The literal is listed, and it is tainted when it is read. -/
theorem values_tainted_listOf : ∃ d array t elements,
    invoke listOf none (after addTo (taintedMember {})) = (.ok (d, .object array), t) ∧
    t.memory.heap.held? .array array = some elements ∧
    (∃ w ∈ elements, w.sameKey (.string "evil") = true) ∧
    ∀ i w offset, elements[i]? = some w → w.sameKey (.string "evil") = true →
      Text.readIndex? (t.memory.keyText offset) = some i →
        ∃ ops t', readField (.object array) offset none t = (.ok ops, t') ∧
          t'.memory.isTainted ops.value = true := by
  obtain ⟨c, r, adds⟩ := invoke_of_isOk (c := addTo) (t := taintedMember {}) (by decide +kernel)
  have add : (taintedMember {}).CallsMethod addTo "add" (.set .add) 0 :=
    ⟨by decide +kernel, rfl, rfl⟩
  have lists : (after addTo (taintedMember {})).CallsMethod listOf "values" (.set .values) 0 :=
    ⟨by decide +kernel, rfl, rfl⟩
  have known : (taintedMember {}).memory.shadow.lookup? Session.firstShadow =
      some (⟨0⟩, .string "evil") := rfl
  have held : (taintedMember {}).memory.heap.held? .set 0 = some [] := rfl
  exact values_tainted (.inl (by decide +kernel)) (.inl (by decide +kernel)) add held rfl known
    (by decide +kernel) (fun _ mem => nomatch mem) adds lists rfl

/-- Sets are tracked member by member, and arrays as a whole. -/
def preciseSets : Settings := { policies := ({} : Levels).set "set" .precise }

/-- The array that is returned drops the shadow of the literal, and what is read from it is not tainted. -/
theorem member_untainted : (taintedMember preciseSets).memory.shadow.frame.callType = .internal ∧
    (taintedMember preciseSets).CallsMethod addTo "add" (.set .add) 0 ∧
    (taintedMember preciseSets).memory.heap.held? .set 0 = some [] ∧
    (taintedMember preciseSets).memory.shadow.lookup? Session.firstShadow = some (⟨0⟩, .string "evil") ∧
    (taintedMember preciseSets).memory.isTainted Session.firstShadow = true ∧
    (∃ c r, invoke addTo none (taintedMember preciseSets) =
      (.ok (c, r), after addTo (taintedMember preciseSets))) ∧
    (after addTo (taintedMember preciseSets)).CallsMethod listOf "values" (.set .values) 0 ∧
    ∃ d array t w ops t', invoke listOf none (after addTo (taintedMember preciseSets)) =
        (.ok (d, .object array), t) ∧
      t.memory.heap.held? .array array = some [w] ∧ w.sameKey (.string "evil") = true ∧
      readField (.object array) (.string "0") none t = (.ok ops, t') ∧
      t'.memory.isTainted ops.value = false := by
  obtain ⟨c, r, adds⟩ := invoke_of_isOk (c := addTo) (t := taintedMember preciseSets) (by decide +kernel)
  obtain ⟨d, r', lists⟩ := invoke_of_isOk (c := listOf) (t := after addTo (taintedMember preciseSets))
    (by decide +kernel)
  obtain rfl : r' = .object 4 := by
    have result : (invoke listOf none (after addTo (taintedMember preciseSets))).1.toOption.bind
        (fun p => p.2.object?) = some 4 := by decide +kernel
    rw [lists] at result
    cases r' with
    | object id => exact congrArg Value.object (Option.some.inj result)
    | literal l => cases result
    | shadow handle identity raw => cases result
  generalize before : after listOf (after addTo (taintedMember preciseSets)) = t at lists
  have member : (t.memory.heap.held? .array 4).map (·.map (·.sameKey (.string "evil"))) = some [true] := by
    rw [← before]
    decide +kernel
  obtain ⟨elements, held, keys⟩ := Option.map_eq_some_iff.mp member
  obtain ⟨w, rfl, same⟩ := List.map_eq_singleton_iff.mp keys
  have reads : (readField (.object 4) (.string "0") none t).1.toOption.map
      ((readField (.object 4) (.string "0") none t).2.memory.isTainted ·.value) = some false := by
    rw [← before]
    decide +kernel
  rcases read : readField (.object 4) (.string "0") none t with ⟨e | ops, t'⟩ <;> rw [read] at reads
  · cases reads
  · refine ⟨by decide +kernel, ⟨by decide +kernel, rfl, rfl⟩, rfl, rfl, by decide +kernel, ⟨c, r, adds⟩,
      ⟨by decide +kernel, rfl, rfl⟩, d, 4, t, w, ops, t', lists, held, same, read, ?_⟩
    exact Option.some.inj reads

end Tracker

end ShadowTaint
