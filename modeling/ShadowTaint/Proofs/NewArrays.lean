import ShadowTaint.Proofs.ArrayCalls
import ShadowTaint.Proofs.Dropping
import ShadowTaint.Proofs.Words
/-!
# New arrays of words

A method that cuts a text returns a new array of literals. The hook after the call puts shadows on the
arguments first, under the identities that were taken off them, and on the array last. The words never get one
of those identities: the trees that were kept for the arguments start at none but objects that were there
before the call, and where they lead to the new array, it has been wrapped by then.

## Main definitions

- `Memory.Late`: a bare literal, or one under a new identity.
- `Memory.Brings`: an array holds words, which are late.
- `Memory.Settled`: wrapping leaves the elements of an array as they are.

## Main statements

- `MemoryM.brings_restoreArguments`: the arguments come back, and the words are still late.
- `Tracker.brings_closeCall`: so they are after the hook after the call.
-/

namespace ShadowTaint

open Memory Tracker

namespace Heap

variable {h : Heap} {id : ObjectId} {key : String} {es : List Value} {i : Nat}

/-- An element is stored in its place. -/
theorem held?_setProperty_self (array : h.held? .array id = some es) (index : Text.readIndex? key = some i)
    (inside : i < es.length) (v : Value) :
    (h.setProperty id key v).held? .array id = some (es.set i v) := by
  have kind := elements?_eq_some.mp (held?_array_iff.mp array)
  rw [held?_array_iff, elements?_eq_some, setProperty, get_modify_self (allocated_of_held array)]
  unfold HeapObject.storeProperty
  rw [kind]
  dsimp only
  rw [index]
  dsimp only
  rw [setAt, if_pos inside]

theorem held?_setProperty_ne {other : ObjectId} (ne : other ≠ id) (c : Container) (v : Value) :
    (h.setProperty id key v).held? c other = h.held? c other := by
  rw [held?, held?, setProperty, get_modify_ne _ ne]

/-- What is found under a key of an array is an element. -/
theorem index_of_hasOwnKey (array : h.held? .array id = some es) (own : h.hasOwnKey id key = true) :
    ∃ i, ∃ inside : i < es.length, Text.readIndex? key = some i ∧ h.getProperty id key = es[i] := by
  have kind := elements?_eq_some.mp (held?_array_iff.mp array)
  rw [hasOwnKey, kind] at own
  dsimp only at own
  obtain ⟨i, index, inside⟩ := (Option.any_eq_true _ _).mp own
  have inside : i < es.length := by simpa using inside
  exact ⟨i, inside, index, by rw [getProperty_of_index kind index, List.getD_eq_getElem _ _ inside]⟩

end Heap

/-- One member of a list is exchanged for another one that is related to its partner. -/
theorem List.Forall₂.set_left {α β : Type} {R : α → β → Prop} {as : List α} {bs : List β}
    (h : List.Forall₂ R as bs) {i : Nat} {a : α} (related : ∀ b, bs[i]? = some b → R a b) :
    List.Forall₂ R (as.set i a) bs := by
  induction h generalizing i with
  | nil => exact .nil
  | cons head tail ih =>
    cases i with
    | zero => exact .cons (related _ rfl) tail
    | succ i => exact .cons head (ih related)

namespace Memory

variable {m m' : Memory} {p q : Prop} {n : Nat} {v : Value} {word : List Char} {words : List (List Char)}
  {array : ObjectId} {es : List Value} {levels : Levels}

/-- The value is a bare literal, or it stands under an identity that was handed out after the first `n`. -/
def Late (m : Memory) (n : Nat) (v : Value) : Prop :=
  v.isBareLiteral = true ∨ ∃ id raw, m.shadow.lookup? v = some (id, raw) ∧ n ≤ id.index

/-- The value stands for the word. If `p`, it is late. -/
structure Word (p : Prop) (n : Nat) (m : Memory) (v : Value) (word : List Char) : Prop where
  owned : v.OwnedBy m.shadow
  raw : v.raw = .string (String.ofList word)
  late : p → m.Late n v

/-- The array was not imported, and it holds the words. If `p`, they are late. -/
structure Brings (p : Prop) (n : Nat) (words : List (List Char)) (m : Memory) (array : ObjectId) : Prop where
  untagged : m.heap.importTag? (.object array) = none
  minted : n ≤ m.shadow.nextIdentity
  held : ∃ es, m.heap.held? .array array = some es ∧ List.Forall₂ (m.Word p n) es words

/-- To wrap an element of the array again changes nothing: literals do not get shadows, or there are no bare
ones. -/
def Settled (m : Memory) (array : ObjectId) : Prop :=
  m.shadow.frame.callType.skipsWrapping = true ∨
    ∀ es, m.heap.held? .array array = some es → ∀ e ∈ es, e.isBareLiteral = false

theorem Late.mono (h : m.Late n v) (grows : m.Grows m') : m'.Late n v :=
  h.imp_right fun ⟨id, raw, known, new⟩ => ⟨id, raw, grows.lookup? known, new⟩

theorem Word.mono (h : m.Word p n v word) (grows : m.Grows m') : m'.Word p n v word :=
  ⟨grows.ownedBy h.owned, h.raw, fun late => (h.late late).mono grows⟩

/-- A word is no object. -/
theorem Word.object? (h : m.Word p n v word) : v.object? = none := by
  rw [← Value.object?_raw v, h.raw]
  rfl

/-- The array still holds what it held. -/
theorem Brings.of_held (h : m.Brings p n words array) (grows : m.Grows m')
    (untagged : m'.heap.importTag? (.object array) = m.heap.importTag? (.object array))
    (held : m'.heap.held? .array array = m.heap.held? .array array) : m'.Brings p n words array := by
  obtain ⟨es, array, each⟩ := h.held
  exact ⟨untagged.trans h.untagged, Nat.le_trans h.minted grows.minted, es, held.trans array,
    each.imp fun _ _ word => word.mono grows⟩

/-- The array is left alone by a store into another object. -/
theorem Brings.setProperty_ne (h : m.Brings p n words array) {id : ObjectId} (other : id ≠ array)
    (key : String) (v : Value) : Brings p n words { m with heap := m.heap.setProperty id key v } array := by
  obtain ⟨es, held, each⟩ := h.held
  exact ⟨(m.heap.importTag?_setProperty id key v _).trans h.untagged, h.minted, es,
    (Heap.held?_setProperty_ne (Ne.symm other) _ v).trans held,
    each.imp fun _ _ word => ⟨word.owned, word.raw, word.late⟩⟩

theorem Settled.of_same (h : m.Settled array)
    (held : m'.heap.held? .array array = m.heap.held? .array array)
    (callType : m'.shadow.frame.callType = m.shadow.frame.callType) : m'.Settled array := by
  rcases h with skips | dressed
  · exact .inl (by rw [callType, skips])
  · exact .inr fun es array => dressed es (held.symm.trans array)

end Memory

namespace MemoryM

variable {levels : Levels} {m m' : Memory} {p q : Prop} {n : Nat} {v : Value} {word : List Char}
  {words : List (List Char)} {array : ObjectId} {es : List Value}

/-- A value that is no bare literal stays what it is, and so do literals where they do not get shadows. -/
theorem wrap_fst (levels : Levels)
    (fixed : m.shadow.frame.callType.skipsWrapping = true ∨ v.isBareLiteral = false) :
    (wrap levels v m).1 = v := by
  rcases fixed with skips | dressed
  · cases v with
    | literal raw =>
      rw [wrap_bare, shadow_of_skips (by rw [(stacks_takeIdentity m).callType, skips])]
    | object o => exact wrap_of_not_bare levels rfl m
    | shadow handle identity raw => exact wrap_of_not_bare levels rfl m
  · exact wrap_of_not_bare levels dressed m

/-- Where literals do not get shadows, arguments stay what they are. -/
theorem restoreArguments_fst (levels : Levels) (policy : Policy) (f : Value) (args : List Value)
    (skips : m.shadow.frame.callType.skipsWrapping = true) :
    (restoreArguments levels policy f args m).1 = args := by
  have each {action : Value → MemoryM Value}
      (stacked : ∀ v (m : Memory), m.Stacks m.shadow.frame.reserved.tail (action v m).2)
      (fixed : ∀ v (m : Memory), m.shadow.frame.callType.skipsWrapping = true → (action v m).1 = v)
      (vs : List Value) : (mapLastFirst action vs m).1 = vs := by
    induction vs with
    | nil => rfl
    | cons v rest ih =>
      have head := fixed v _ ((congrArg _ (stacks_mapLastFirst stacked rest m).callType).trans skips)
      exact congrArg₂ List.cons head ih
  have wrapped (v : Value) (m : Memory) (skips : m.shadow.frame.callType.skipsWrapping = true) :
      (wrap levels v m).1 = v := wrap_fst levels (.inl skips)
  unfold restoreArguments
  rw [bind_apply, get_apply]
  dsimp only
  cases policy.passing m f args with
  | stripped =>
    refine each (stacks_restoreArgument levels) (fun v m skips => ?_) args
    obtain ⟨m', spreads, run⟩ := restoreArgument_apply levels v m
    rw [run]
    exact wrapped v m' (by rw [spreads.frame, skips])
  | wrapped | wrappedAfterKey => exact each (stacks_wrap levels) wrapped args

section Holding

/-- A word that a container gets to hold is late: it has no shadow, or a new one, or it was late before. -/
theorem word_hold {grain : Grain} (word' : m.Word p n v word) (minted : n ≤ m.shadow.nextIdentity)
    (late : q → p ∨ grain = .imprecise) : (hold grain v m).2.Word q n (hold grain v m).1 word := by
  have value : m.valueOf v = .string (String.ofList word) := (valueOf_of_owned word'.owned).trans word'.raw
  cases grain with
  | imprecise =>
    have bare : (hold .imprecise v m).1 = .string (String.ofList word) := value
    exact ⟨ownedBy_hold .imprecise word'.owned, by rw [bare]; rfl, fun _ => .inl (by rw [bare]; rfl)⟩
  | precise =>
    refine ⟨ownedBy_hold .precise word'.owned, ?_, fun hq => ?_⟩
    · cases v with
      | literal raw => exact (raw_shadow _ raw _).trans word'.raw
      | object o => exact word'.raw
      | shadow handle identity raw => exact word'.raw
    · cases v with
      | literal raw =>
        show (shadow ⟨m.shadow.nextIdentity⟩ raw { m with shadow := m.shadow.mint.2 }).2.Late n
          (shadow ⟨m.shadow.nextIdentity⟩ raw { m with shadow := m.shadow.mint.2 }).1
        cases skips : m.shadow.frame.callType.skipsWrapping with
        | true =>
          rw [shadow_of_skips (m := { m with shadow := m.shadow.mint.2 }) skips]
          exact .inl rfl
        | false =>
          obtain ⟨handle, made, known⟩ := lookup_shadow ⟨m.shadow.nextIdentity⟩ raw
            (m := { m with shadow := m.shadow.mint.2 }) skips
          rw [made]
          exact .inr ⟨_, raw, known, minted⟩
      | object o => cases word'.raw
      | shadow handle identity raw => exact word'.late ((late hq).resolve_right nofun)

theorem words_mapM_hold {grain : Grain} (each : List.Forall₂ (m.Word p n) es words)
    (minted : n ≤ m.shadow.nextIdentity) (late : q → p ∨ grain = .imprecise) :
    List.Forall₂ ((es.mapM (hold grain) m).2.Word q n) (es.mapM (hold grain) m).1 words := by
  induction es generalizing m words with
  | nil =>
    cases each
    exact .nil
  | cons v rest ih =>
    cases each with
    | cons head tail =>
      rw [List.mapM_cons]
      have first : m.Grows (hold grain v m).2 := (spreads_hold grain v m).toGrows
      have later : (hold grain v m).2.Grows (rest.mapM (hold grain) (hold grain v m).2).2 :=
        (Within.mapM (fun v => (spreads_hold grain v).keeps.grows) rest) _
      exact .cons ((word_hold head minted late).mono later)
        (ih (tail.imp fun _ _ word => word.mono first) (Nat.le_trans minted first.minted))

/-- Whatever is wrapped, the words stay late. If the array itself is, they are late from then on where arrays
are tracked as a whole. -/
theorem brings_wrap (levels : Levels) (v : Value) (h : m.Brings p n words array)
    (late : q → p ∨ v = .object array ∧ levels.grainOf .array = .imprecise) :
    (wrap levels v m).2.Brings q n words array := by
  obtain ⟨es, held, each⟩ := h.held
  have grows : m.Grows (wrap levels v m).2 := (stacks_wrap levels v m).toGrows
  have untagged := (admitsWrapping_sameTags levels).wrap v m (.object array)
  by_cases self : v = .object array
  · subst self
    have policy := levels.policyFor_of_array h.untagged held
    have handles := sameHandles_wrap_of_held policy held
    have each' := words_mapM_hold each h.minted fun hq =>
      (late hq).imp_right fun ⟨_, imprecise⟩ => imprecise
    refine ⟨untagged.trans h.untagged, Nat.le_trans h.minted grows.minted, _, ?_,
      each'.imp fun v w word => ?_⟩
    · rw [heap_wrap_of_held policy held]
      exact Heap.held?_setHeld held (each'.length_eq.trans each.length_eq.symm)
    · refine ⟨?_, word.raw, fun hq => ?_⟩
      · cases v with
        | literal l => trivial
        | object o => trivial
        | shadow handle identity raw =>
          show (wrap levels (.object array) m).2.shadow.wraps[handle.index]? = _
          rw [show (wrap levels (.object array) m).2.shadow.wraps = _ from handles]
          exact word.owned
      · refine (word.late hq).imp_right fun ⟨id, raw, known, new⟩ => ⟨id, raw, ?_, new⟩
        rw [lookup?_of_wraps handles, known]
  · have same : (wrap levels v m).2.heap.held? .array array = m.heap.held? .array array := by
      rcases heap_wrap_cases levels v m with ⟨c, grain, o, values, rfl, -, -, heap⟩ | ⟨heap, -⟩
      · rw [heap, Heap.held?_setHeld_ne fun here => self (congrArg Value.object here.symm)]
      · rw [heap]
    have h' := h.of_held grows untagged same
    obtain ⟨es', held', each'⟩ := h'.held
    exact ⟨h'.untagged, h'.minted, es', held', each'.imp fun _ _ word =>
      ⟨word.owned, word.raw, fun hq => word.late ((late hq).resolve_right fun ⟨here, _⟩ => self here)⟩⟩

/-- An array that is tracked element by element is settled as soon as it was wrapped. -/
theorem settled_wrap_self (h : m.Brings p n words array) (precise : levels.grainOf .array = .precise) :
    (wrap levels (.object array) m).2.Settled array := by
  obtain ⟨es, held, -⟩ := h.held
  have callType := (stacks_wrap levels (.object array) m).callType
  cases skips : m.shadow.frame.callType.skipsWrapping with
  | true => exact .inl (by rw [callType, skips])
  | false =>
    obtain ⟨es', held', -, suits⟩ := suits_wrap (levels.policyFor_of_array h.untagged held) held skips
    refine .inr fun es'' held'' e mem => ?_
    rw [held'] at held''
    cases held''
    rw [precise] at suits
    exact suits e mem

/-- A settled array stays settled. -/
theorem settled_wrap (h : m.Brings p n words array) (precise : levels.grainOf .array = .precise)
    (settled : m.Settled array) (v : Value) : (wrap levels v m).2.Settled array := by
  have callType := (stacks_wrap levels v m).callType
  rcases settled with skips | dressed
  · exact .inl (by rw [callType, skips])
  · obtain ⟨es, held, -⟩ := h.held
    have kept := keepsShadows_wrap precise v m array es (dressed es held) held
    exact Settled.of_same (.inr dressed) (kept.trans held.symm) callType

end Holding

section Trees

/-- An element of the array that is wrapped in its place is late if the array is settled. -/
theorem brings_wrapElement {key : String} {w : Value} (h : m.Brings p n words array)
    (own : m.heap.hasOwnKey array key = true) (settled : p → m.Settled array)
    (run : wrap levels (m.heap.getProperty array key) m = (w, m')) :
    w.object? = none ∧ Brings p n words { m' with heap := m'.heap.setProperty array key w } array ∧
      (p → Settled { m' with heap := m'.heap.setProperty array key w } array) := by
  obtain ⟨es, held, each⟩ := h.held
  obtain ⟨i, inside, index, element⟩ := Heap.index_of_hasOwnKey held own
  have inside' : i < words.length := by rwa [← each.length_eq]
  have word : m.Word p n es[i] words[i] := each.get inside inside'
  rw [element] at run
  have raw := raw_wrap levels es[i] m
  have owned := ownedBy_wrap levels word.owned
  have grows := (stacks_wrap levels es[i] m).toGrows
  have callType := (stacks_wrap levels es[i] m).callType
  have fixed (hp : p) : (wrap levels es[i] m).1 = es[i] :=
    wrap_fst levels ((settled hp).imp_right fun dressed => dressed es held _ (List.getElem_mem inside))
  have heap : (wrap levels es[i] m).2.heap = m.heap := by
    rcases heap_wrap_cases levels es[i] m with ⟨_, _, o, _, object, -⟩ | ⟨same, -⟩
    · have plain := word.object?
      rw [object] at plain
      cases plain
    · exact same
  rw [run] at raw owned grows callType fixed heap
  dsimp only at raw owned grows callType fixed heap
  have stored : (m'.heap.setProperty array key w).held? .array array = some (es.set i w) :=
    Heap.held?_setProperty_self (by rw [heap]; exact held) index inside w
  have word' : m'.Word p n w words[i] :=
    ⟨owned, raw.trans word.raw, fun hp => by
      rw [fixed hp]
      exact (word.late hp).mono grows⟩
  refine ⟨word'.object?, ⟨?_, Nat.le_trans h.minted grows.minted, _, stored, ?_⟩, fun hp => ?_⟩
  · refine (m'.heap.importTag?_setProperty array key w _).trans ?_
    rw [heap, h.untagged]
  · refine List.Forall₂.set_left (each.imp fun _ _ word => ?_) fun other there => ?_
    · have kept := word.mono grows
      exact ⟨kept.owned, kept.raw, kept.late⟩
    · rw [List.getElem?_eq_getElem inside'] at there
      cases there
      exact ⟨word'.owned, word'.raw, word'.late⟩
  · refine (settled hp).of_same ?_ callType
    rw [stored, fixed hp, List.set_getElem_self, held]

mutual

theorem brings_wrapTree (precise : p → levels.grainOf .array = .precise) (id : ObjectId) :
    ∀ (tree : TaintTree) (m : Memory), m.Brings p n words array → (id = array → p → m.Settled array) →
      (wrapTree levels id tree m).2.Brings p n words array ∧
      (p → m.Settled array → (wrapTree levels id tree m).2.Settled array)
  | ⟨key, identity, children⟩, m, h, settled => by
    by_cases own : m.heap.hasOwnKey id key = true
    · obtain ⟨w, m', run⟩ : ∃ w m', wrap levels (m.heap.getProperty id key)
        { m with shadow := m.shadow.push identity } = (w, m') := ⟨_, _, rfl⟩
      have pushed : Brings p n words { m with shadow := m.shadow.push identity } array := by
        obtain ⟨es, held, each⟩ := h.held
        exact ⟨h.untagged, h.minted, es, held, each.imp fun _ _ word => ⟨word.owned, word.raw, word.late⟩⟩
      have settled' (settled : m.Settled array) :
          Settled { m with shadow := m.shadow.push identity } array := settled
      by_cases here : id = array
      · subst here
        obtain ⟨object, brings, settles⟩ := brings_wrapElement pushed own
          (fun hp => settled' (settled rfl hp)) run
        rw [wrapTree_of_literal own run object]
        exact ⟨brings, fun hp _ => settles hp⟩
      · have wrapped : m'.Brings p n words array := by
          have brings := brings_wrap levels (m.heap.getProperty id key) pushed fun hp => .inl hp
          rwa [run] at brings
        have settles (hp : p) (settled : m.Settled array) : m'.Settled array := by
          have after := settled_wrap pushed (precise hp) (settled' settled) (m.heap.getProperty id key)
          rwa [run] at after
        have put {m₂ : Memory} (settled : m₂.Settled array) :
            Settled { m₂ with heap := m₂.heap.setProperty id key w } array :=
          settled.of_same (Heap.held?_setProperty_ne (Ne.symm here) _ w) rfl
        rcases object : w.object? with _ | child
        · rw [wrapTree_of_literal own run object]
          exact ⟨wrapped.setProperty_ne here key w, fun hp settled => put (settles hp settled)⟩
        · rw [wrapTree_of_object own run object]
          obtain ⟨brings, stays⟩ := brings_wrapTrees precise child children m' wrapped fun same hp => by
            -- the array has just been wrapped
            subst same
            have value : m.heap.getProperty id key = .object child :=
              eq_object_of_wrap levels (by rw [run]; exact object)
            have after := settled_wrap_self pushed (precise hp)
            rw [value] at run
            rwa [run] at after
          exact ⟨brings.setProperty_ne here key w, fun hp settled => put (stays hp (settles hp settled))⟩
    · rw [wrapTree_of_missing levels identity children own]
      exact ⟨h, fun _ settled => settled⟩

theorem brings_wrapTrees (precise : p → levels.grainOf .array = .precise) (id : ObjectId) :
    ∀ (trees : List TaintTree) (m : Memory), m.Brings p n words array → (id = array → p → m.Settled array) →
      (wrapTrees levels id trees m).2.Brings p n words array ∧
      (p → m.Settled array → (wrapTrees levels id trees m).2.Settled array)
  | [], m, h, _ => by
    rw [wrapTrees]
    exact ⟨h, fun _ settled => settled⟩
  | tree :: rest, m, h, settled => by
    rw [wrapTrees, bind_apply]
    obtain ⟨first, stays⟩ := brings_wrapTree precise id tree m h settled
    obtain ⟨second, stays'⟩ := brings_wrapTrees precise id rest (wrapTree levels id tree m).2 first
      fun here hp => stays hp (settled here hp)
    exact ⟨second, fun hp before => stays' hp (stays hp before)⟩

end

theorem brings_restoreArgument (precise : p → levels.grainOf .array = .precise) (h : m.Brings p n words array)
    (treeless : m.shadow.frame.trees.get? array = none) (arg : Value) :
    (restoreArgument levels arg m).2.Brings p n words array := by
  have wrapped {m : Memory} (h : m.Brings p n words array) : (wrap levels arg m).2.Brings p n words array :=
    brings_wrap levels arg h fun hp => .inl hp
  unfold restoreArgument
  rcases arg.object? with _ | id
  · exact wrapped h
  · dsimp only
    rw [bind_apply, get_apply]
    dsimp only
    rcases found : m.shadow.frame.trees.get? id with _ | trees
    · exact wrapped h
    · have other : id ≠ array := by
        rintro rfl
        rw [treeless] at found
        cases found
      exact wrapped (brings_wrapTrees precise id trees m h fun same => absurd same other).1

/-- The arguments come back, and the words in the new array are still late, if no trees were kept for it. -/
theorem brings_restoreArguments (precise : p → levels.grainOf .array = .precise)
    (h : m.Brings p n words array) (treeless : m.shadow.frame.trees.get? array = none) (policy : Policy)
    (f : Value) (args : List Value) :
    (restoreArguments levels policy f args m).2.Brings p n words array := by
  have each {action : Value → MemoryM Value}
      (stacked : ∀ v (m : Memory), m.Stacks m.shadow.frame.reserved.tail (action v m).2)
      (step : ∀ v (m : Memory), m.Brings p n words array → m.shadow.frame.trees.get? array = none →
        (action v m).2.Brings p n words array) (vs : List Value) :
      (mapLastFirst action vs m).2.Brings p n words array := by
    induction vs with
    | nil => exact h
    | cons v rest ih =>
      refine step v _ ih ?_
      rw [(stacks_mapLastFirst stacked rest m).frame]
      exact treeless
  unfold restoreArguments
  rw [bind_apply, get_apply]
  dsimp only
  cases policy.passing m f args with
  | stripped =>
    exact each (stacks_restoreArgument levels)
      (fun v _ h treeless => brings_restoreArgument precise h treeless v) args
  | wrapped | wrappedAfterKey =>
    exact each (stacks_wrap levels) (fun v _ h _ => brings_wrap levels v h fun hp => .inl hp) args

end Trees

end MemoryM

/-- After the hook after a call the words in the array that it returned are late, if no trees were kept for
the array. They may have been late before only as far as arrays are tracked element by element. -/
theorem Tracker.brings_closeCall {levels : Levels} {m₁ m : Memory} {c' q : Call} {array : ObjectId}
    {r : Value} {frame : Frame} {below : List Frame} {n : Nat} {words : List (List Char)}
    (h : m₁.Brings (levels.grainOf .array = .precise) n words array) (outside : q.external = true)
    (method : q.method = true) (saved : m₁.shadow.framesAt q.site = frame :: below)
    (treeless : frame.trees.get? array = none)
    (closed : closeCall q (.object array) levels m₁ = (.ok (c', r), m)) : m.Brings True n words array := by
  obtain ⟨sh, args', m₂, base', m₃, f', m₄, restored, run₂, run₃, run₄, run₅, -⟩ :=
    closeCall_eq_ok outside method closed
  obtain ⟨sh', restored', current, keeps, -⟩ := restoreFrame_ok saved
  rw [restored] at restored'
  cases restored'
  have reopened : Brings (levels.grainOf .array = .precise) n words ⟨m₁.heap, sh⟩ array :=
    h.of_held keeps.toGrows rfl rfl
  have second := MemoryM.brings_restoreArguments (fun precise => precise) reopened
    (by rw [current]; exact treeless) (Memory.policyOf ⟨m₁.heap, sh⟩ levels q.base) q.f q.args
  rw [run₂] at second
  have third := MemoryM.brings_wrap levels q.base second fun precise => .inl precise
  rw [run₃] at third
  have fourth := MemoryM.brings_wrap levels q.f third fun precise => .inl precise
  rw [run₄] at fourth
  have last := MemoryM.brings_wrap (q := True) levels (.object array) fourth fun _ => by
    cases grain : levels.grainOf .array with
    | precise => exact .inl rfl
    | imprecise => exact .inr ⟨rfl, rfl⟩
  rwa [run₅] at last

end ShadowTaint
