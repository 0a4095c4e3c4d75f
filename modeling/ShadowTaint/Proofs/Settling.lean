import ShadowTaint.Proofs.Records
import ShadowTaint.Proofs.Stranding
/-!
# What wrapping leaves of texts and taint

Wrapping a container changes what it holds: one that is tracked as a whole drops the shadows of its
members, and one that is tracked member by member gives shadows to bare literals. The texts of values
stay what they are, and so do the policies of values and the entries under which taint is recorded.

## Main definitions

- `Heap.Respells`: arrays hold the same values, shadows put aside.
- `Memory.Settles`: some values were wrapped, with what stays.

## Main statements

- `MemoryM.settles_wrap`: what stays when a value is wrapped.
- `Memory.ownTaint_of_plain`: a tainted value that is no object is tainted by its own entry.
-/

namespace ShadowTaint

open Memory

namespace Heap

/-- Functions and the number of objects are the same, and arrays hold the same values, shadows put
aside. -/
structure Respells (h h' : Heap) : Prop where
  size : h'.objects.size = h.objects.size
  function : ∀ v, h'.function? v = h.function? v
  elements : ∀ v, Option.Rel (List.Forall₂ fun a b => b.raw = a.raw) (h.elements? v) (h'.elements? v)

theorem elements?_raw (h : Heap) (v : Value) : h.elements? v.raw = h.elements? v := by
  rw [elements?, elements?, Value.object?_raw]

theorem plainKeyText_raw (h : Heap) (v : Value) : h.plainKeyText v.raw = h.plainKeyText v := by
  rw [plainKeyText, plainKeyText, function?, function?, Value.literal?_raw, Value.object?_raw]

/-- The text of a value that is no array. -/
theorem keyText_of_plain {h : Heap} {v : Value} (plain : h.elements? v = none) :
    h.keyText v = h.plainKeyText v := by
  rw [keyText]
  cases h.objects.size with
  | zero =>
    rw [keyTextWithin, plain]
    rfl
  | succ depth => rw [keyTextWithin, plain]

namespace Respells

variable {h h' : Heap} {v w : Value}

theorem refl (h : Heap) : h.Respells h where
  size := rfl
  function _ := rfl
  elements v := by
    rcases h.elements? v with _ | es
    · exact .none
    · exact .some (List.forall₂_same.mpr fun _ _ => rfl)

theorem plainKeyText (respells : h.Respells h') (same : w.raw = v.raw) :
    h'.plainKeyText w = h.plainKeyText v := by
  rw [← plainKeyText_raw, same, plainKeyText_raw, Heap.plainKeyText, Heap.plainKeyText,
    respells.function]

/-- By induction on how deep arrays are opened. -/
theorem keyTextWithin (respells : h.Respells h') (depth : Nat) (same : w.raw = v.raw) :
    h'.keyTextWithin depth w = h.keyTextWithin depth v := by
  have elements := respells.elements v
  rw [← elements?_raw h', ← same, elements?_raw] at elements
  induction depth generalizing v w with
  | zero =>
    rw [Heap.keyTextWithin, Heap.keyTextWithin, respells.plainKeyText same]
    generalize h.elements? v = es, h'.elements? w = es' at elements
    cases elements <;> rfl
  | succ depth ih =>
    rw [Heap.keyTextWithin, Heap.keyTextWithin]
    generalize h.elements? v = es, h'.elements? w = es' at elements
    cases elements with
    | none => exact respells.plainKeyText same
    | some raws =>
      refine congrArg (String.intercalate ",") ?_
      induction raws with
      | nil => rfl
      | @cons a b _ _ raw _ rest =>
        have nullish : b.isNullish = a.isNullish := by
          rw [Value.isNullish, Value.isNullish, ← Value.literal?_raw b, raw, Value.literal?_raw]
        have text := ih raw (by
          rw [← elements?_raw h', raw, elements?_raw]
          exact respells.elements a)
        rw [List.map_cons, List.map_cons, rest, nullish, text]

theorem keyText (respells : h.Respells h') (v : Value) : h'.keyText v = h.keyText v := by
  rw [Heap.keyText, Heap.keyText, respells.size]
  exact respells.keyTextWithin _ rfl

end Respells

section SetHeld

variable (h : Heap) (id : ObjectId) (values : List Value)

theorem get_setHeld_self : (h.setHeld id values).get id =
    { h.get id with kind := (h.get id).kind.withHeld values } := by
  by_cases allocated : id < h.objects.size
  · exact get_modify_self allocated _
  · have beyond := Nat.le_of_not_lt allocated
    rw [get_of_size_le h beyond, get_of_size_le _ (by rwa [setHeld, size_modify])]
    rfl

theorem function?_setHeld (v : Value) : (h.setHeld id values).function? v = h.function? v := by
  cases v with
  | object o =>
    by_cases same : o = id
    · subst same
      simp only [function?, Value.object?, get_setHeld_self]
      cases (h.get o).kind <;> rfl
    · simp only [function?, Value.object?, setHeld, get_modify_ne h same]
  | _ => rfl

theorem elements?_setHeld (v : Value) : (h.setHeld id values).elements? v =
    (h.elements? v).map fun es => if v.object? = some id then values else es := by
  cases v with
  | object o =>
    by_cases same : o = id
    · subst same
      simp only [elements?, Value.object?, get_setHeld_self, if_true]
      cases (h.get o).kind <;> rfl
    · simp only [elements?, Value.object?, setHeld, get_modify_ne h same, Option.some.injEq, same,
        if_false, Option.map_id']
  | _ => rfl

variable {h id values}

theorem elements?_of_held {c : Container} {es : List Value} (held : h.held? c id = some values)
    (elements : h.elements? (.object id) = some es) : c = .array ∧ es = values := by
  simp only [elements?, Value.object?, held?] at elements held
  rcases kind : (h.get id).kind <;> rw [kind] at elements held <;> cases elements
  cases c <;> cases held
  exact ⟨rfl, rfl⟩

/-- Putting other values into a container respells the heap if they only differ in their shadows. The
members of a map or a set have no part in any text. -/
theorem respells_setHeld {c : Container} {values' : List Value} (held : h.held? c id = some values)
    (same : c = .array → List.Forall₂ (fun a b => b.raw = a.raw) values values') :
    h.Respells (h.setHeld id values') where
  size := size_modify h id _
  function := function?_setHeld h id values'
  elements v := by
    rw [elements?_setHeld]
    rcases elements : h.elements? v with _ | es
    · exact .none
    · refine .some ?_
      split
      · rename_i object
        cases v <;> cases object
        obtain ⟨array, rfl⟩ := elements?_of_held held elements
        exact same array
      · exact List.forall₂_same.mpr fun _ _ => rfl

end SetHeld

end Heap

namespace MemoryM

theorem raw_shadow (id : Identity) (raw : Literal) (m : Memory) :
    (shadow id raw m).1.raw = .literal raw := by
  rcases skips : m.shadow.frame.callType.skipsWrapping
  · rw [shadow_of_wraps skips]
    rfl
  · rw [shadow_of_skips skips]
    rfl

/-- What a container holds after it was wrapped differs in shadows only. -/
theorem raw_hold (grain : Grain) {v : Value} {m : Memory} (owned : v.OwnedBy m.shadow) :
    (hold grain v m).1.raw = v.raw := by
  cases grain with
  | imprecise =>
    show (m.shadow.valueOf v).raw = v.raw
    cases v with
    | shadow handle identity raw =>
      have known := ShadowState.valueOf_of_lookup (v := .shadow handle identity raw) owned
      rw [known]
      rfl
    | literal l => rfl
    | object id => rfl
  | precise =>
    cases v with
    | literal raw => exact raw_shadow _ raw _
    | object id => rfl
    | shadow handle identity raw => rfl

theorem raws_mapM_hold (grain : Grain) (values : List Value) (m : Memory)
    (owned : ∀ v ∈ values, v.OwnedBy m.shadow) :
    List.Forall₂ (fun a b => b.raw = a.raw) values (values.mapM (hold grain) m).1 := by
  induction values generalizing m with
  | nil => exact .nil
  | cons v rest ih =>
    rw [List.mapM_cons]
    have grows := (spreads_hold grain v m).toGrows
    exact .cons (raw_hold grain (owned v List.mem_cons_self)) (ih (hold grain v m).2 fun w hw =>
      grows.ownedBy (owned w (List.mem_cons_of_mem _ hw)))

end MemoryM

namespace Memory

variable {m m' : Memory} {v : Value}

theorem exists_object_of_mem {w : Value} (mem : w ∈ m.members v) : ∃ id, v = .object id := by
  rw [members] at mem
  rcases object : m.objectOf? v with _ | id
  · rw [object] at mem
    cases mem
  · exact ⟨id, MemoryM.objectOf?_eq_some object⟩

/-- A tainted value that is no object is tainted by its own entry. -/
theorem ownTaint_of_plain (plain : v.object? = none) (tainted : m.isTainted v = true) :
    m.ownTaint v = true := by
  by_cases bit : m.taintBit v = true
  · exact ownTaint_of_bit bit
  · rw [isTainted, Bool.eq_false_iff.mpr bit, Bool.false_or, anyProps] at tainted
    split at tainted
    · rename_i map chars
      obtain ⟨e, stored, chars⟩ := Option.bind_eq_some_iff.mp chars
      rw [ownTaint_of_stored stored, TaintEntry.isTainted, chars, Option.any_some, tainted,
        Bool.or_true]
    · obtain ⟨w, mem, -⟩ := List.any_eq_true.mp tainted
      obtain ⟨id, rfl⟩ := exists_object_of_mem mem
      cases plain

/-- Some values were wrapped. Nothing was recorded, values have the same policies, and they have the
same texts, unless an array holds a shadow that stands for something else than it carries. -/
structure Settles (levels : Levels) (m m' : Memory) : Prop where
  grows : m.Grows m'
  entries : m.SameEntries m'
  sound : m.Sound → m'.Sound
  policy : ∀ v, levels.policyFor m'.heap v = levels.policyFor m.heap v
  array : ∀ v, (m'.heap.elements? v).isSome = (m.heap.elements? v).isSome
  text : ∀ v, ((m.heap.elements? v).isSome = true → m.Sound) → m'.heap.keyText v = m.heap.keyText v

namespace Settles

variable {levels : Levels} {m'' : Memory}

theorem refl (levels : Levels) (m : Memory) : m.Settles levels m where
  grows := .refl m
  entries := rfl
  sound h := h
  policy _ := rfl
  array _ := rfl
  text _ _ := rfl

theorem trans (first : m.Settles levels m') (second : m'.Settles levels m'') :
    m.Settles levels m'' where
  grows := first.grows.trans second.grows
  entries := trans_of SameEntries first.entries second.entries
  sound h := second.sound (first.sound h)
  policy v := (second.policy v).trans (first.policy v)
  array v := (second.array v).trans (first.array v)
  text v sound := by
    refine (second.text v fun array => first.sound (sound ?_)).trans (first.text v sound)
    rwa [first.array] at array

end Settles

end Memory

namespace MemoryM

variable {levels : Levels} {m : Memory}

theorem respells_wrap (levels : Levels) (w : Value) (sound : m.Sound) :
    m.heap.Respells (wrap levels w m).2.heap := by
  rcases heap_wrap_cases levels w m with ⟨c, grain, id, values, -, -, held, heap⟩ | ⟨same, -⟩
  · rw [heap]
    exact Heap.respells_setHeld held fun _ =>
      raws_mapM_hold grain values m (ObjectKind.Holding.held (sound id).kind held)
  · rw [same]
    exact .refl m.heap

/-- What stays when a value is wrapped. -/
theorem settles_wrap (levels : Levels) (w : Value) (m : Memory) :
    m.Settles levels (wrap levels w m).2 := by
  have wrapped := stacks_wrap levels w m
  have array (v : Value) : ((wrap levels w m).2.heap.elements? v).isSome =
      (m.heap.elements? v).isSome := by
    rcases heap_wrap_cases levels w m with ⟨c, grain, id, values, -, -, -, heap⟩ | ⟨same, -⟩
    · rw [heap, Heap.elements?_setHeld, Option.isSome_map]
    · rw [same]
  refine ⟨wrapped.toGrows, sameEntries_wrap levels w m, wrapped.sound, fun v => ?_, array,
    fun v sound => ?_⟩
  · rcases heap_wrap_cases levels w m with ⟨c, grain, id, values, -, -, -, heap⟩ | ⟨same, -⟩
    · rw [heap, levels.policyFor_setHeld]
    · rw [same]
  · by_cases isArray : (m.heap.elements? v).isSome = true
    · exact (respells_wrap levels w (sound isArray)).keyText v
    · -- the text of any other value is that of a literal or of a function
      have plain := Option.not_isSome_iff_eq_none.mp isArray
      have plain' := Option.not_isSome_iff_eq_none.mp ((array v).trans_ne isArray)
      rw [Heap.keyText_of_plain plain', Heap.keyText_of_plain plain]
      rcases heap_wrap_cases levels w m with ⟨c, grain, id, values, -, -, -, heap⟩ | ⟨same, -⟩
      · rw [heap, Heap.plainKeyText, Heap.plainKeyText, Heap.function?_setHeld]
      · rw [same]

end MemoryM

end ShadowTaint
