import ShadowTaint.Proofs.ArrayCalls
import ShadowTaint.Proofs.Words
/-!
# Joining texts

Where arrays are tracked element by element, the rule for joining computes the taint of every character from
the taint of the elements: the method puts their texts together, the rule their taint, in the same order and
with the same separator between neighbours. It records nothing unless both have the same length. They do if
every shadow in the array still stands for the literal that it carries.

## Main definitions

- `Memory.Wrapped`: a literal with a shadow that stands for it.
- `Memory.joinedTaint`: the taint of the characters of a joined text.

## Main statements

- `Memory.length_joinedTaint`: the text has as many characters.
- `Tracker.join_exact`: what is recorded for a joined text.
- `Tracker.stranded_join`: nothing is recorded when a shadow in the array stands for another literal.
-/

namespace ShadowTaint

open Memory Tracker

/-- Lists that are joined are as long as others that are joined with a separator of the same length. -/
theorem List.length_intercalate_eq {α β : Type} {xs : List (List α)} {ys : List (List β)}
    (parts : List.Forall₂ (fun x y => x.length = y.length) xs ys) {sx : List α} {sy : List β}
    (separator : sx.length = sy.length) : (sx.intercalate xs).length = (sy.intercalate ys).length := by
  induction parts with
  | nil => rfl
  | @cons x y xs ys head rest ih =>
    cases rest with
    | nil => rw [List.intercalate_singleton, List.intercalate_singleton, head]
    | cons _ _ =>
      rw [List.intercalate_cons_cons, List.intercalate_cons_cons]
      simp only [List.length_append, head, separator, ih]

theorem Value.isUndefined_raw (v : Value) : v.raw.isUndefined = v.isUndefined := by
  rw [isUndefined, isUndefined, literal?_raw]

theorem Heap.keyText_raw (h : Heap) (v : Value) : h.keyText v.raw = h.keyText v :=
  (Heap.Respells.refl h).keyTextWithin _ v.raw_raw

namespace Memory

variable {m : Memory} {e : Value}

/-- A literal with a shadow that the tracker knows, and that stands for the literal. -/
def Wrapped (m : Memory) (v : Value) : Prop :=
  ∃ handle id raw, v = .shadow handle id raw ∧ m.shadow.lookup? v = some (id, raw)

/-- The taint of the characters of the elements, with untainted ones for the separator between neighbours. -/
def joinedTaint (m : Memory) (separator : String) (elements : List Value) : List Bool :=
  (List.replicate separator.length false).intercalate (elements.map (ArrayRule.elementBits m))

theorem Tracks.of_owned {v : Value} (owned : v.OwnedBy m.shadow) : m.Tracks v := by
  cases v with
  | shadow handle identity raw => exact .inr ⟨_, owned⟩
  | literal l => exact .inl rfl
  | object o => exact .inl rfl

theorem length_recordedBits (raw : Literal) (stored : Option TaintEntry) :
    (recordedBits raw stored).length = raw.text.length := by
  cases raw with
  | string s => cases stored <;> simp [recordedBits, TaintEntry.charBits, Literal.text]
  | _ => exact List.length_replicate

/-- An element contributes as many characters to the taint as to the text. -/
theorem Wrapped.length_elementBits (wrapped : m.Wrapped e) (h : Heap) :
    (ArrayRule.elementBits m e).length = (if e.isNullish then "" else h.keyText e).length := by
  obtain ⟨handle, id, raw, rfl, known⟩ := wrapped
  unfold ArrayRule.elementBits
  split
  · rfl
  · rw [charBits_eq_recordedBits (ShadowState.valueOf_of_lookup known), length_recordedBits,
      Heap.keyText_of_plain rfl]
    rfl

theorem length_joinedTaint {elements : List Value} (wrapped : ∀ e ∈ elements, m.Wrapped e)
    (separator : String) (h : Heap) :
    (m.joinedTaint separator elements).length = (joinElements h separator elements).length := by
  rw [joinedTaint, joinElements, ← String.length_toList (s := separator.intercalate _),
    String.toList_intercalate, List.map_map]
  refine List.length_intercalate_eq ?_ (by rw [List.length_replicate, String.length_toList])
  rw [List.forall₂_map_left_iff, List.forall₂_map_right_iff, List.forall₂_same]
  intro e mem
  rw [(wrapped e mem).length_elementBits h, Function.comp_apply, String.length_toList]

end Memory

/-- Where the lengths agree, the rule for joining records the taint of the characters, and nothing else does. -/
theorem ArrayRule.join_stored {c : NativeCall} {m : Memory} {id : Identity} {text : String}
    (few : c.args.length ≤ 1) (known : m.shadow.lookup? c.result = some (id, .string text))
    (fits : text.length = (joinedBits m c).length) :
    (join c m).1 = true ∧ ∃ path, path.label = "model:array.join" ∧ (join c m).2.stored? c.result =
      some ⟨(CharMap.ofBits (joinedBits m c)).all, some (.ofBits (joinedBits m c)), path⟩ := by
  obtain ⟨ns, m₁, histories, used, all⟩ := MemoryM.histories_at (.refl m) (elements m c.base)
  have run : join c m = TextRule.storeBits c.result (joinedBits m c) "model:array.join" ns m₁ := by
    unfold join
    rw [if_neg (by omega), bind_apply, get_apply]
    dsimp only
    rw [bind_apply, histories]
    rfl
  rw [run]
  exact TextRule.storeBits_stored used all known fits "model:array.join"

namespace Tracker

variable {t t' : Tracker} {c c' : Call} {array : ObjectId} {r v : Value} {m₁ m₂ m : Memory}
  {elements : List Value}

namespace ArrayRun

section

variable (h : ArrayRun t c .join array .precise c' r t' v m₁ m₂ m)
  (held : t.memory.heap.elements? (.object array) = some elements)
include h held

/-- The method leaves the heap alone, and it returns the joined text. -/
theorem joined : m₂.heap = t.memory.heap ∧ v = .string (joinElements t.memory.heap
    ((textArgument? t.memory.heap c.args 0).getD ",") elements) := by
  have ran := h.ran
  rw [h.heap rfl] at ran
  unfold ArrayMethod.invoke at ran
  rw [held] at ran
  obtain ⟨rfl, heap⟩ := Prod.mk.inj (Except.ok.inj ran)
  exact ⟨heap.symm, rfl⟩

/-- The elements are in their places when the rule applies. -/
theorem elements_eq (wrapped : ∀ e ∈ elements, t.memory.Wrapped e) :
    ArrayRule.elements m c'.base = elements := by
  have bare (e : Value) (mem : e ∈ elements) : e.isBareLiteral = false := by
    obtain ⟨handle, id, raw, rfl, -⟩ := wrapped e mem
    rfl
  have kept := h.keepsShadows rfl array elements bare (by
    rw [(h.joined held).1]
    exact Heap.held?_array_iff.mpr held)
  have base : m.valueOf c'.base = .object array := by rw [h.base]; rfl
  rw [ArrayRule.elements, base, Heap.held?_array_iff.mp kept]
  rfl

omit held in
/-- What an element contributes is what it contributed before the call. -/
theorem elementBits_eq {e : Value} (wrapped : t.memory.Wrapped e) :
    ArrayRule.elementBits m e = ArrayRule.elementBits t.memory e := by
  obtain ⟨handle, id, raw, rfl, known⟩ := wrapped
  obtain ⟨told, retells, same⟩ := h.notes
  have known' := h.grows.lookup? known
  unfold ArrayRule.elementBits
  rw [charBits_eq_recordedBits (ShadowState.valueOf_of_lookup known),
    charBits_eq_recordedBits (ShadowState.valueOf_of_lookup known'), stored?_of_lookup known,
    stored?_of_lookup known', same, recordedBits_of_retells retells]

/-- The rule counts with the separator of the method. -/
theorem separatorLength_join (precise : t.settings.policies.precision .array = .precise)
    (owned : ∀ a ∈ c.args, a.OwnedBy t.memory.shadow) :
    TextRule.separatorLength m c'.args[0]? 1 =
      ((textArgument? t.memory.heap c.args 0).getD ",").length := by
  rw [textArgument?]
  rcases TextRule.getElem?_of_forall₂ h.args 0 with ⟨missing, missing'⟩ | ⟨a, w, at_0, at_0', answers⟩
  · rw [missing, missing']
    show 1 = ",".length
    decide
  · have value : m.valueOf w = a.raw := by
      rw [answers.valueOf, valueOf_of_owned (owned a (List.mem_of_getElem? at_0))]
    have text : m.heap.keyText a.raw = t.memory.heap.keyText a := by
      rw [(h.rewords.respells (.inl precise)).keyText, (h.joined held).1, Heap.keyText_raw]
    rw [at_0, at_0', TextRule.separatorLength, Option.map_some]
    dsimp only
    rw [value, text, Value.isUndefined_raw]
    split
    · show 1 = ",".length
      decide
    · rfl

/-- The rule computes the taint of the characters of the joined text. -/
theorem joinedBits_eq (precise : t.settings.policies.precision .array = .precise)
    (wrapped : ∀ e ∈ elements, t.memory.Wrapped e) (owned : ∀ a ∈ c.args, a.OwnedBy t.memory.shadow) :
    ArrayRule.joinedBits m ⟨c'.f, c'.base, c'.args, r⟩ =
      t.memory.joinedTaint ((textArgument? t.memory.heap c.args 0).getD ",") elements := by
  rw [ArrayRule.joinedBits, h.elements_eq held wrapped, h.separatorLength_join held precise owned, joinedTaint]
  congr 1
  exact List.map_congr_left fun e mem => h.elementBits_eq (wrapped e mem)

end

end ArrayRun

/-- A join of an array that is tracked element by element, whose elements are literals with shadows that
stand for them, never falls through to another rule: every character of the result is as tainted as the
character of the element that it was taken from, those of the separator are untainted, and the bit is set
exactly if every character is tainted and there is one. -/
theorem join_exact (wraps : t.memory.shadow.frame.callType.skipsWrapping = false)
    (policy : t.settings.policies.policyFor t.memory.heap (.object array) = .container .array .precise)
    (calls : t.CallsMethod c ArrayMethod.join.name (.array .join) array) (few : c.args.length ≤ 1)
    (held : t.memory.heap.elements? (.object array) = some elements)
    (wrapped : ∀ e ∈ elements, t.memory.Wrapped e) (owned : ∀ a ∈ c.args, a.OwnedBy t.memory.shadow) :
    (∃ e t', invoke c none t = (.error e, t') ∧ (t.memory.shadow.AtRest → e.EndsRun)) ∨
      ∃ c' r t' separator bits id e, invoke c none t = (.ok (c', r), t') ∧
        separator = (textArgument? t.memory.heap c.args 0).getD "," ∧
        bits = (List.replicate separator.length false).intercalate
          (elements.map fun e => if e.isNullish then [] else t.memory.charBits e) ∧
        t'.memory.shadow.lookup? r = some (id, .string (joinElements t.memory.heap separator elements)) ∧
        t'.memory.stored? r = some e ∧ e.path.label = "model:array.join" ∧ e.chars = some (.ofBits bits) ∧
        (e.bit = true ↔ bits ≠ [] ∧ ∀ b ∈ bits, b = true) := by
  rcases invoke_cases calls.native (by decide) with refused | ⟨q, t₁, e, before, failed, -⟩ | ⟨c', r, t', run⟩
  · exact .inl refused
  · -- the method does not fail on an array
    obtain ⟨-, opened, -⟩ := calls.handed_array policy before
    have base : q.base = .object array := by rw [(calls.handed before).1]; exact calls.base
    rw [Native.run, Native.runWithin, opened rfl, base, ArrayMethod.invoke, held] at failed
    cases failed
  · obtain ⟨v, m₁, m₂, m, h⟩ := arrayRun_of_invoke calls wraps policy
      (fun _ a mem => .of_owned (owned a mem)) run
    have precise := Levels.grainOf_eq_precise_iff.mp (MemoryM.grain_of_array policy).symm
    have bits := h.joinedBits_eq held precise wrapped owned
    obtain ⟨id, known, -⟩ := h.fresh _ (h.joined held).2
    obtain ⟨applied, path, label, stored⟩ := ArrayRule.join_stored (c := ⟨c'.f, c'.base, c'.args, r⟩)
      (by rw [← h.args.length_eq]; exact few) known (by rw [bits, length_joinedTaint wrapped])
    have marks := marks_propagateCall (r := r) (by rw [h.base]; exact h.policyOf policy)
    have rule := h.rule_of_model ArrayRule.join policy rfl
    rw [if_pos applied] at rule
    have known' : t'.memory.shadow.lookup? r = m.shadow.lookup? r := by
      rw [h.rule]
      exact lookup?_of_wraps marks.wraps r
    rw [bits] at stored
    exact .inr ⟨c', r, t', _, _, id, _, run, rfl, rfl, known'.trans known, by rw [rule]; exact stored, label,
      rfl, CharMap.all_ofBits_iff _⟩

/-- A heap with an array, its method, and the function that taints single characters. -/
def arrayAndJoin (elements : List Value) : Heap :=
  ⟨#[{ kind := .array elements }, { kind := .function { name := "join", native := some (.array .join) } },
    { kind := .function { name := "__jalangi_set_prop_taint__" } }]⟩

/-- A text comes up, the array has these elements, and the second character of the text is tainted. -/
def toJoin (elements : List Value) : List Event :=
  [.hook (.literal (.string "evil")), .host (arrayAndJoin elements), .hook (.callPre
    { f := .object 2, base := .undefined, args := [Session.firstShadow, .string "1"], site := 1 })]

/-- The array has the text in it twice, and arrays are tracked element by element. -/
def twice : Tracker :=
  (Session.run (Session.start Session.preciseArrays ⟨#[]⟩)
    (toJoin [Session.firstShadow, Session.firstShadow])).tracker

/-- The elements are joined. -/
def joinAll : Call := { f := .object 1, base := .object 0, method := true, args := [], site := 2 }

/-- The second and the seventh of nine characters are tainted. -/
theorem join_exact_twice : ∃ c' r e, invoke joinAll none twice = (.ok (c', r), after joinAll twice) ∧
    (after joinAll twice).memory.stored? r = some e ∧
    e.chars = some (.ofBits [false, true, false, false, false, false, true, false, false]) := by
  have held : twice.memory.heap.elements? (.object 0) = some [Session.firstShadow, Session.firstShadow] := rfl
  have wrapped : ∀ e ∈ [Session.firstShadow, Session.firstShadow], twice.memory.Wrapped e := by
    intro e mem
    obtain rfl : e = Session.firstShadow := by simpa using mem
    exact ⟨⟨0⟩, ⟨0⟩, .string "evil", rfl, rfl⟩
  rcases join_exact (c := joinAll) (t := twice) (by decide +kernel) (by decide +kernel)
      ⟨by decide +kernel, rfl, rfl⟩ (by decide) held wrapped nofun with
    ⟨e, t', failed, -⟩ | ⟨c', r, t', separator, bits, id, e, run, rfl, rfl, -, stored, -, chars, -⟩
  · have succeeds : (invoke joinAll none twice).1.isOk = true := by decide +kernel
    rw [failed] at succeeds
    cases succeeds
  · have same : t' = after joinAll twice := by rw [after, run]
    rw [same] at run stored
    refine ⟨c', r, e, run, stored, chars.trans ?_⟩
    decide +kernel

/-- An array with a text and with a bare literal; a store of the text that is refused; and two literals. -/
def stranding : List Event :=
  toJoin [.string "x", Session.firstShadow] ++
    [.hook (.putFieldPre (.object 0) (.string "__proto__") Session.firstShadow),
      .hook (.putField (.object 0) (.string "__proto__") Session.firstShadow),
      .hook (.literal (.string "p")), .hook (.literal (.string "qq"))]

/-- The session then, and its tracker. -/
def strandedSession : Session := Session.run (Session.start Session.preciseArrays ⟨#[]⟩) stranding

def stranded : Tracker := strandedSession.tracker

/-- The literal in the array got a shadow by the store, which was refused, and the handle of the shadow
stands for the last literal now. The text of the array does not have as many characters as the rule counts,
and all of them are untainted. -/
theorem stranded_join :
    Reachable stranded ∧ stranded.memory.shadow.frame.callType.skipsWrapping = false ∧
    stranded.settings.policies.policyFor stranded.memory.heap (.object 0) = .container .array .precise ∧
    stranded.CallsMethod joinAll ArrayMethod.join.name (.array .join) 0 ∧
    strandedSession.elementHandles = [(2, "x"), (0, "evil")] ∧
    strandedSession.handleTexts = ["evil", "p", "qq"] ∧
    stranded.memory.charBits Session.firstShadow = [false, true, false, false] ∧
    ((invoke joinAll none stranded).1.toOption.map fun r =>
      ((after joinAll stranded).memory.keyText r.2, (after joinAll stranded).memory.charBits r.2)) =
        some ("x,evil", List.replicate 6 false) :=
  ⟨Session.reachable_run (.start _ ⟨#[]⟩) _, by decide +kernel, by decide +kernel,
    ⟨by decide +kernel, rfl, rfl⟩, by decide +kernel, by decide +kernel, by decide +kernel, by decide +kernel⟩

end Tracker

end ShadowTaint
