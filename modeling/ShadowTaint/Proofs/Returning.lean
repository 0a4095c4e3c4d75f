import ShadowTaint.Proofs.Dressing
/-!
# What arguments look like after a call

The arguments of an external call are prepared by one hook, and the next hook puts their shadows back.
As long as the heap is the same in between, an object that a property holds is not replaced, and a
known shadow comes back with its literal. Its identity comes back as well, unless two arguments that are
walked reach the property: the later walk finds a bare literal and gives out a new identity, and it is
the identity of the last argument that is put back.

## Main definitions

- `Memory.Apart`: the walks over the arguments do not get in each other's way at a property.
- `Memory.Restores`: what becomes of a property.

## Main statements

- `MemoryM.restores_restoreArguments`: a shadow comes back under its identity exactly if the walks do
  not get in each other's way.
-/

namespace ShadowTaint

open Memory TaintTree

namespace Memory

/-- The walks over the arguments do not get in each other's way at a property: no two arguments reach
it, unless its value is put back after the walk over the first one. -/
def Apart (m : Memory) (f : Value) (args : List Value) (x : ObjectId) (key : String) : Prop :=
  args.zipIdx.Pairwise fun a b =>
    m.heap.Uncovers a.1 x key → m.heap.Uncovers b.1 x key → m.PutsBack f a x key

/-- What becomes of a property: an object stays, and a known shadow is followed by one with its literal,
which has the identity of the first one exactly on a condition. -/
structure Restores (m m' : Memory) (x : ObjectId) (key : String) (same : Prop) : Prop where
  object : ∀ y, m.heap.named? x key = some (.object y) → m'.heap.named? x key = some (.object y)
  shadow : ∀ v own raw, m.heap.named? x key = some v → m.shadow.lookup? v = some (own, raw) →
    ∃ w id, m'.heap.named? x key = some w ∧ m'.shadow.lookup? w = some (id, raw) ∧ (id = own ↔ same)

theorem Restores.congr {m m' : Memory} {x : ObjectId} {key : String} {same same' : Prop}
    (h : m.Restores m' x key same) (iff : same ↔ same') : m.Restores m' x key same' where
  object := h.object
  shadow v own raw named known := by
    obtain ⟨w, id, named', known', identity⟩ := h.shadow v own raw named known
    exact ⟨w, id, named', known', identity.trans iff⟩

theorem Restores.spared {m m' m'' : Memory} {x : ObjectId} {key : String} {same : Prop}
    (h : m.Restores m' x key same) (spares : m'.Spares m'') : m.Restores m'' x key same := by
  have named (v : Value) (held : m'.heap.named? x key = some v) :
      m''.heap.named? x key = some v := by
    rw [Heap.named?, spares.properties, ← Heap.named?, held]
  refine ⟨fun y held => named _ (h.object y held), fun v own raw held known => ?_⟩
  obtain ⟨w, id, held', known', identity⟩ := h.shadow v own raw held known
  exact ⟨w, id, named w held', spares.lookup? known', identity⟩

theorem notBare_of_lookup {m : Memory} {v : Value} {own : Identity} {raw : Literal}
    (known : m.shadow.lookup? v = some (own, raw)) : v.isBareLiteral = false := by
  cases v with
  | literal l => cases known
  | object o => rfl
  | shadow handle identity l => rfl

end Memory

section Lists

variable {α : Type} {P Q : α → Prop}

/-- No member of a list has the property, or one of them is the last that has it. -/
theorem exists_last (P : α → Prop) (l : List α) : (∀ a ∈ l, ¬ P a) ∨
    ∃ l₁ a l₂, l = l₁ ++ a :: l₂ ∧ P a ∧ ∀ b ∈ l₂, ¬ P b := by
  induction l with
  | nil => exact .inl fun _ ha => nomatch ha
  | cons a rest ih =>
    rcases ih with unlike | ⟨l₁, b, l₂, split, holds, last⟩
    · by_cases here : P a
      · exact .inr ⟨[], a, rest, rfl, here, unlike⟩
      · refine .inl fun b hb => ?_
        rcases List.mem_cons.mp hb with rfl | hb
        · exact here
        · exact unlike b hb
    · exact .inr ⟨a :: l₁, b, l₂, by rw [split]; rfl, holds, last⟩

/-- Of any two members with one property the first has another property exactly if all members in front
of the last one do. -/
theorem pairwise_iff_of_last {l₁ l₂ : List α} {a : α} (holds : P a) (last : ∀ b ∈ l₂, ¬ P b) :
    (l₁ ++ a :: l₂).Pairwise (fun a b => P a → P b → Q a) ↔ ∀ b ∈ l₁, P b → Q b := by
  rw [List.pairwise_append]
  constructor
  · exact fun ⟨_, _, across⟩ b hb here => across b hb a List.mem_cons_self here holds
  · refine fun earlier => ⟨?_, ?_, fun b hb _ _ here _ => earlier b hb here⟩
    · exact List.pairwise_of_forall_mem_list fun b hb _ _ here _ => earlier b hb here
    · refine List.pairwise_cons.mpr ⟨fun b hb _ there => absurd there (last b hb), ?_⟩
      exact List.pairwise_of_forall_mem_list fun b hb _ _ here _ => absurd here (last b hb)

end Lists

section Passing

variable {m m' : Memory} {levels : Levels}

/-- Arguments are only passed with their shadows where the receiver is an object. -/
theorem Levels.passing_of_literal (levels : Levels) (h : Heap) {v : Value} (literal : v.object? = none)
    (m : Memory) (f : Value) (args : List Value) :
    (levels.policyFor h v).passing m f args = .stripped := by
  have kind : ValueKind.of h v = .string ∨ ∃ name, ValueKind.of h v = .other name := by
    rcases raw : v.raw with l | o | ⟨handle, identity, l⟩
    · cases l <;> simp [ValueKind.of, raw]
    · rw [← Value.object?_raw, raw] at literal
      cases literal
    · have bare := Value.raw_raw v
      rw [raw] at bare
      cases bare
  rw [Levels.policyFor]
  rcases kind with string | ⟨name, other⟩
  · rw [string, Levels.resolve]
    cases levels.precision .string <;> rfl
  · rw [other, Levels.resolve]
    cases levels.precision (.other name) <;> rfl

/-- How arguments are passed does not depend on the values of properties, nor on shadows. -/
theorem Levels.passing_congr (levels : Levels) (alike : m.heap.Alike m'.heap) {v w f f' : Value}
    {args args' : List Value} (receiver : w.object? = v.object?) (function : f'.object? = f.object?)
    (arguments : args'.map Value.object? = args.map Value.object?) :
    (levels.policyFor m'.heap w).passing m' f' args' = (levels.policyFor m.heap v).passing m f args := by
  rcases object : v.object? with _ | o
  · rw [levels.passing_of_literal _ object, levels.passing_of_literal _ (receiver.trans object)]
  · have eq (u : Value) (points : u.object? = some o) : u = .object o := by
      cases u <;> cases points
      rfl
    have policy : levels.policyFor m'.heap (.object o) = levels.policyFor m.heap (.object o) := by
      simp only [Levels.policyFor, ValueKind.of, ValueKind.ofImport?, Heap.importTag?,
        Heap.constructorName, Value.raw, Value.object?, Option.bind_some, alike.kind, alike.tag]
    have iterates : m'.iteratesScript f' args' = m.iteratesScript f args := by
      have second : args'[1]?.map Value.object? = args[1]?.map Value.object? := by
        rw [← List.getElem?_map, ← List.getElem?_map, arguments]
      rw [Memory.iteratesScript, Memory.iteratesScript, functionName_congr alike function]
      rcases callback : args[1]? with _ | g <;> rcases callback' : args'[1]? with _ | g' <;>
        rw [callback, callback'] at second
      · rfl
      · cases second
      · cases second
      · rw [Option.any_some, Option.any_some, isNative_congr alike (Option.some.inj second)]
    rw [eq v object, eq w (receiver.trans object), policy]
    unfold Policy.passing
    rw [functionName_congr alike function, iterates]

end Passing

theorem Memory.Stripped.values {m₀ m m' : Memory} {f : Value} {l : List (Value × Nat)}
    {results : List (Value × List TaintTree)} (stripped : m₀.Stripped f l m results m') :
    results.map (·.1) = l.map fun a => m₀.valueOf a.1 := by
  induction stripped with
  | nil => rfl
  | cons _ _ _ ih => rw [List.map_cons, List.map_cons, ih]

namespace MemoryM

variable {m m' : Memory} {policy : Policy} {f : Value} {args rs : List Value}

/-- Arguments are walked, or only identities are given out. -/
theorem prepareArguments_cases (plain : ∀ arg ∈ args, m.heap.PlainBelow arg)
    (run : prepareArguments policy f args m = (rs, m')) :
    rs.map Value.object? = args.map Value.object? ∧
    ((policy.passing m f args = .stripped ∧ ∃ results m'', m.Stripped f args.zipIdx m results m'' ∧
        rs = results.map (·.1) ∧ m'.heap = m''.heap ∧ m'.shadow.frame.trees = keptTrees results) ∨
      policy.passing m f args ≠ .stripped ∧ m'.heap = m.heap) := by
  have reserved (vs : List Value) (m : Memory) : (vs.forM reserve m).2.heap = m.heap :=
    (Within.forM (R := Issues) (fun v => .bind (issues_identityOf v) fun _ _ => ⟨rfl, rfl⟩) vs m).heap
  unfold prepareArguments at run
  rw [bind_apply, get_apply] at run
  dsimp only at run
  rcases passing : policy.passing m f args <;> rw [passing] at run <;> dsimp only at run
  · obtain ⟨results, m'', stripped, eq⟩ := stripArguments_apply f args m plain
    rw [eq] at run
    cases run
    refine ⟨?_, .inl ⟨rfl, results, m'', stripped, rfl, rfl, rfl⟩⟩
    rw [stripped.values, List.map_map, ← List.zipIdx_map_fst 0 args, List.map_map,
      List.zipIdx_map_fst]
    refine List.map_congr_left fun a _ => ?_
    rw [Function.comp_apply, ← objectOf?, objectOf?_eq]
    rfl
  · cases run
    exact ⟨rfl, .inr ⟨by decide, reserved args m⟩⟩
  · cases args with
    | nil =>
      cases run
      exact ⟨rfl, .inr ⟨by decide, rfl⟩⟩
    | cons key rest =>
      cases run
      refine ⟨?_, .inr ⟨by decide, (reserved rest _).trans (issues_unwrap key m).heap⟩⟩
      show (m.valueOf key).object? :: _ = _
      rw [← objectOf?, objectOf?_eq]
      rfl

theorem alike_prepareArguments (plain : ∀ arg ∈ args, m.heap.PlainBelow arg)
    (run : prepareArguments policy f args m = (rs, m')) : m.heap.Alike m'.heap := by
  obtain ⟨-, ⟨-, results, m'', stripped, -, heap, -⟩ | ⟨-, heap⟩⟩ := prepareArguments_cases plain run
  · rw [heap]
    exact stripped.alike
  · rw [heap]
    exact .refl _

section Restoring

variable {m₁ m₂ m₃ m₄ : Memory} {x : ObjectId} {key : String}

/-- Where no property is dressed, everything stays. -/
theorem restores_of_same (heap : m₃.heap = m₁.heap) (grows : m₁.Grows m₃)
    (dresses : m₃.Dresses [] m₄) {same : Prop} (holds : same) : m₁.Restores m₄ x key same where
  object y named := dresses.stays x key _ (by rw [heap, named]) rfl
  shadow v own raw named known :=
    ⟨v, own, dresses.stays x key v (by rw [heap, named]) (notBare_of_lookup known),
      dresses.lookup? (grows.lookup? known), iff_of_true rfl holds⟩

/-- After the arguments were walked, a property that one of them reaches is dressed under the identity
that the last of these has found. -/
theorem restores_of_stripped {results : List (Value × List TaintTree)}
    (stripped : m₁.Stripped f args.zipIdx m₁ results m₂) (heap : m₃.heap = m₂.heap)
    (grows : m₁.Grows m₃)
    (dresses : m₃.Dresses (dressing m₁.heap (keptTrees results) (results.map (·.1))) m₄)
    (bounded : m₁.shadow.Bounded) (here : m₁.heap.IsPlain x) :
    m₁.Restores m₄ x key (m₁.Apart f args x key) where
  object y named := dresses.stays x key _ (by rw [heap, stripped.object named]) rfl
  shadow v own raw named known := by
    have notBare := notBare_of_lookup known
    have known₄ := dresses.lookup? (grows.lookup? known)
    -- the last argument that uncovers the property decides what it gets back
    rcases exists_last (fun a : Value × Nat => m₁.heap.Uncovers a.1 x key) args.zipIdx with
      covered | ⟨l₁, a, l₂, split, uncovers, last⟩
    · refine ⟨v, own, dresses.stays x key v (by rw [heap, stripped.away covered, named]) notBare, known₄,
        iff_of_true rfl ?_⟩
      exact List.pairwise_of_forall_mem_list fun b hb _ _ here => absurd here (covered b hb)
    · have apart : m₁.Apart f args x key ↔
          ∀ b ∈ l₁, m₁.heap.Uncovers b.1 x key → m₁.PutsBack f b x key := by
        rw [Apart, split]
        exact pairwise_iff_of_last (P := fun a => m₁.heap.Uncovers a.1 x key)
          (Q := fun a => m₁.PutsBack f a x key) uncovers last
      rw [apart]
      rw [split] at stripped
      obtain ⟨r₁, trees, r₂, id, rfl, later, found, kept, lost⟩ :=
        stripped.recorded uncovers last here named known
      have beyond (r : Value × List TaintTree) (hr : r ∈ r₂) : ¬ m₁.heap.Uncovers r.1 x key := by
        obtain ⟨b, hb, value⟩ := later r hr
        rintro ⟨o, object, reaches⟩
        rw [value, ← objectOf?, objectOf?_eq] at object
        exact last b hb ⟨o, object, reaches⟩
      have dressed (bare : m₂.heap.named? x key = some (.literal raw)) :=
        dresses.dressed x key raw id (by rw [heap, bare])
          (stripped.find_dressing uncovers beyond found)
      by_cases puts : ∀ b ∈ l₁, m₁.heap.Uncovers b.1 x key → m₁.PutsBack f b x key
      · obtain ⟨rfl, stays | bare⟩ := kept puts
        · exact ⟨v, id, dresses.stays x key v (by rw [heap, stays]) notBare, known₄,
            iff_of_true rfl puts⟩
        · obtain ⟨handle, named₄, stands⟩ := dressed bare
          exact ⟨_, id, named₄, stands, iff_of_true rfl puts⟩
      · obtain ⟨fresh, bare⟩ := lost (by simpa only [not_forall, exists_prop] using puts)
        obtain ⟨handle, named₄, stands⟩ := dressed bare
        refine ⟨_, id, named₄, stands, iff_of_false (fun same => ?_) puts⟩
        have handed := bounded own (ShadowState.mentions_of_lookup known)
        rw [same] at fresh
        exact absurd handed (Nat.not_lt.mpr fresh)

/-- However the arguments of a call were prepared, what becomes of a property when their shadows are put
back on the same heap: the identity of a shadow is another one exactly if the arguments were walked and
the walks got in each other's way. -/
theorem restores_restoreArguments (levels : Levels) {policy' : Policy} {f' : Value}
    (plain : ∀ arg ∈ args, m₁.heap.PlainBelow arg)
    (prepared : prepareArguments policy f args m₁ = (rs, m₂)) (heap : m₃.heap = m₂.heap)
    (frame : m₃.shadow.frame = m₂.shadow.frame) (grows : m₁.Grows m₃)
    (bounded : m₁.shadow.Bounded) (wraps : m₁.shadow.frame.callType.skipsWrapping = false)
    (passing : policy'.passing m₃ f' rs = policy.passing m₁ f args) (here : m₁.heap.IsPlain x) :
    m₁.Restores (restoreArguments levels policy' f' rs m₃).2 x key
      (policy.passing m₁ f args = .stripped → m₁.Apart f args x key) := by
  -- stripped arguments get their shadows back along the trees, all others are wrapped as they are
  obtain ⟨-, ⟨walked, results, m₂', stripped, rfl, heap₂, trees⟩ | ⟨other, heap₂⟩⟩ :=
    prepareArguments_cases plain prepared
  · have run : (restoreArguments levels policy' f' (results.map (·.1)) m₃).2 =
        (mapLastFirst (restoreArgument levels) (results.map (·.1)) m₃).2 := by
      unfold restoreArguments
      rw [bind_apply, get_apply]
      dsimp only
      rw [passing, walked]
    obtain ⟨ids, trees', -, -, frame₂, -⟩ := stacks_prepareArguments policy f args m₁
    rw [prepared] at frame₂
    have alike : m₁.heap.Alike m₃.heap := by
      rw [heap]
      exact alike_prepareArguments plain prepared
    have kept : m₃.shadow.frame.trees = keptTrees results := by rw [frame, trees]
    have dresses := dresses_restoring levels (h := m₁.heap) (results.map (·.1)) m₃
      (fun _ plain => alike.plain plain) alike.link (by rw [frame, frame₂]; exact wraps)
      (by rw [kept]; exact stripped.keptAlong)
    rw [kept] at dresses
    have restores : m₁.Restores _ x key (m₁.Apart f args x key) :=
      restores_of_stripped stripped (heap.trans heap₂) grows dresses bounded here
    rw [run]
    exact restores.congr ⟨fun apart _ => apart, fun apart => apart walked⟩
  · have run : (restoreArguments levels policy' f' rs m₃).2 =
        (mapLastFirst (wrap levels) rs m₃).2 := by
      unfold restoreArguments
      rw [bind_apply, get_apply]
      dsimp only
      rcases passed : policy.passing m₁ f args <;> rw [passing, passed]
      exact absurd passed other
    rw [run]
    exact restores_of_same (heap.trans heap₂) grows (dresses_wrapping levels rs m₃)
      fun walked => absurd walked other

end Restoring

end MemoryM

end ShadowTaint
