import Mathlib.Data.List.TakeWhile
import ShadowTaint.Proofs.Findings
import ShadowTaint.Proofs.Histories
import ShadowTaint.Proofs.Scopes
import ShadowTaint.Proofs.Sessions
/-!
# Which taint can be explained

A rule works out on its own whether a result is tainted and over which histories it is recorded. The two
agree where taint is copied from a value that is tainted itself. They need not agree where a value
counts as tainted for what is inside it, since histories are those of whole values, and they do not
where a container becomes tainted by what is put into it, since its new node is over its own history
only. A run in which no rule is taken in such a case explains all taint that it records.

## Main definitions

- `Deed.Misattributes`: a step records taint over histories without any.
- `Memory.Attributed`: the history of every tainted value leads back to where it was tainted.
- `Session.Unexplained`: a finding that gives the history of a tainted value, but not where its taint
  comes from.

## Main statements

- `Deed.traced`: a step that does not misattribute keeps histories traced.
- `Hook.recorded_of_finding`: the histories that a finding gives are recorded.
- `Session.taint_attributed`: taint is explained in every state of a run, and by every finding.
- `Session.taint_unattributed`: an array that a tainted value is pushed into has no taint in its history.
-/

namespace ShadowTaint

open Memory Policy Tracker

/-- The result of an operator is read off the characters of the operands. -/
def TextRule.concatenated (m : Memory) (op : String) (ops : Operands) : Bool :=
  op == "+" && !(m.valueOf ops.base).isUndefined && !(m.valueOf ops.offset).isUndefined &&
    (concatenate ops m).1

/-- The rule of objects decides about the result of a native function, and looks at the receiver. -/
def Policy.FallsBack (levels : Levels) (m : Memory) (c : NativeCall) : Policy → Prop
  | .object _ | .lodash => True
  | .global => False
  | .string => m.stringOf? c.base = none ∧
    ∀ model, TextRule.model? levels (m.functionName c.f) = some model → (model c m).1 = false
  | .container kind grain => ContainerRule.model? kind grain (m.functionName c.f) = none ∧
    (kind = .array → ∀ model, ArrayRule.model? grain (m.functionName c.f) = some model →
      (model c m).1 = false)

/-- The memory in which the rule of mapping functions has seen some of the elements. -/
def ArrayRule.afterElements (m : Memory) (c : NativeCall) (pairs : List (Value × Value)) : Memory :=
  (pairs.forM (mapElement (m.taintBit c.base)) m).2

/-- The memory in which some of the words of a receiver have their shadows. -/
def TextRule.afterSomeWords (m : Memory) (c : NativeCall) (words : List Value) : Memory :=
  (wrapWords (m.charBits c.base) (m.entryOf c.base).path (separatorLength m c.args[0]? 0) 0 words
    (MemoryM.useNodes 1 m).2).2

/-- The step records that a value is tainted, over histories without taint. -/
inductive Deed.Misattributes (levels : Levels) (m : Memory) : Deed → Prop where
  /-- The object that is read from counts as tainted for what is inside it, or what is read does. -/
  | read {policy : Policy} {ops : Operands}
      (rule : policy = .string → (m.entryOf ops.base).chars = none)
      (counts : (policy.objectGrain levels).isTainted m ops.base = true ∨
        m.stored? ops.value ≠ none ∧ (policy.objectGrain levels).isTainted m ops.value = true)
      (blank : m.Blank [ops.base, ops.value]) : Misattributes levels m (.read policy ops)
  /-- The object that is stored into counts as tainted for what is inside it, or what is stored does. -/
  | store {policy : Policy} {ops : Operands} (rule : policy ≠ .global)
      (grain : policy.objectGrain levels = .imprecise)
      (passed : ObjectRule.checkPollution ops m = (.ok (), m))
      (counts : m.isTainted ops.base = true ∨ m.isTainted ops.value = true)
      (blank : m.Blank [ops.base, ops.value]) : Misattributes levels m (.store policy ops)
  /-- An operand counts as tainted for what is inside it. -/
  | binary {policy : Policy} {op : String} {ops : Operands}
      (rule : policy = .string → TextRule.concatenated m op ops = false)
      (counts : (policy.objectGrain levels).isTainted m ops.base = true ∨
        (policy.objectGrain levels).isTainted m ops.offset = true)
      (blank : m.Blank [ops.base, ops.offset]) : Misattributes levels m (.binary policy op ops)
  /-- The operand counts as tainted for what is inside it. -/
  | unary {policy : Policy} {operand result : Value}
      (counts : (policy.objectGrain levels).isTainted m operand = true) (blank : m.Blank [operand]) :
      Misattributes levels m (.unary policy operand result)
  /-- The receiver of a native function counts as tainted for what is inside it. -/
  | receiver {policy : Policy} {c : NativeCall} (rule : policy.FallsBack levels m c)
      (counts : (policy.objectGrain levels).isTainted m c.base = true ∨ m.allProps c.base = true)
      (blank : m.Blank [c.base]) : Misattributes levels m (.native policy c)
  /-- Something tainted is put into a map or a set that is tracked as a whole. -/
  | put {kind : Container} {c : NativeCall}
      (named : (kind, m.functionName c.f) ∈ [(.map, "set"), (.set, "add")])
      (counts : ∃ arg ∈ c.args, m.isTainted arg = true) (blank : m.Blank [c.base]) :
      Misattributes levels m (.native (.container kind .imprecise) c)
  /-- Something tainted is put into an array that is tracked as a whole. -/
  | pushed {c : NativeCall} (named : m.functionName c.f = "push")
      (counts : ∃ arg ∈ c.args, m.taintBit arg = true) (blank : m.Blank [c.base]) :
      Misattributes levels m (.native (.container .array .imprecise) c)
  /-- Something is taken out of a map or a set with tainted members, or it is tainted already. -/
  | taken {kind : Container} {c : NativeCall}
      (named : (kind, m.functionName c.f) ∈ [(.map, "get"), (.set, "values")])
      (counts : m.taintBit c.result = true ∨ m.anyProps c.base = true) (blank : m.Blank [c.base]) :
      Misattributes levels m (.native (.container kind .imprecise) c)
  /-- An array is mapped that is tainted as a whole, or with an element that counts as tainted for what
  is inside it. -/
  | mapped {c : NativeCall} {earlier later : List (Value × Value)} {input output : Value}
      (named : m.functionName c.f = "map")
      (pairs : (ArrayRule.elements m c.base).zip (ArrayRule.elements m c.result) =
        earlier ++ (input, output) :: later)
      (own : ((ArrayRule.afterElements m c earlier).entryOf output).path.hasParents = false)
      (counts : m.taintBit c.base = true ∨ (ArrayRule.afterElements m c earlier).isTainted input = true)
      (blank : (ArrayRule.afterElements m c earlier).Blank [input]) :
      Misattributes levels m (.native (.container .array .precise) c)
  /-- An array is reduced that is tainted as a whole, or with an element that counts as tainted for what
  is inside it. -/
  | reduced {c : NativeCall} (named : m.functionName c.f ∈ ["reduce", "reduceRight"])
      (own : (m.entryOf c.result).path.hasParents = false) (members : m.anyProps c.result = false)
      (counts : m.taintBit c.base = true ∨ ∃ v ∈ ArrayRule.elements m c.base, m.isTainted v = true)
      (blank : m.Blank (ArrayRule.fromFirstTainted m (m.taintBit c.base)
        (ArrayRule.elements m c.base))) : Misattributes levels m (.native (.container .array .precise) c)
  /-- A tainted string is split into an array that is tracked as a whole. -/
  | split {c : NativeCall} (named : m.functionName c.f = "split")
      (imprecise : levels.precision .array ≠ .precise) (counts : m.anyProps c.base = true)
      (blank : m.Blank [c.result]) : Misattributes levels m (.native .string c)
  /-- A string without taint in its history is split, and one of the words is empty. -/
  | emptyWord {c : NativeCall} {earlier later : List Value} {word : Value}
      (named : m.functionName c.f = "split") (precise : levels.precision .array = .precise)
      (words : m.heap.elements? (m.valueOf c.result) = some (earlier ++ word :: later))
      (empty : (TextRule.afterSomeWords m c earlier).keyText word = "")
      (blank : m.Blank [c.base]) : Misattributes levels m (.native .string c)
  /-- A string is split into words that are all tainted, or into none. -/
  | allWords {c : NativeCall} {words : List Value} (named : m.functionName c.f = "split")
      (precise : levels.precision .array = .precise)
      (array : m.heap.elements? (m.valueOf c.result) = some words)
      (all : (TextRule.splitWords c words m).1.2 = true)
      (blank : (TextRule.afterWords c words m).Blank [c.result]) :
      Misattributes levels m (.native .string c)
  /-- A second run on untainted strings returns characters that read as tainted. -/
  | stray {c : NativeCall} {output : String}
      (rule : ∀ model, TextRule.model? levels (m.functionName c.f) = some model → (model c m).1 = false)
      (returned : (TextRule.runEncoded c m).1 = some output)
      (counts : true ∈ (Encoding.decode output.toList).2) (blank : m.Blank (c.base :: c.args)) :
      Misattributes levels m (.native .string c)

theorem Grain.isTainted_used {m m₁ : Memory} (used : NodesUsed m m₁) (grain : Grain) (v : Value) :
    grain.isTainted m₁ v = grain.isTainted m v := by
  obtain ⟨count, rfl⟩ := used
  rfl

theorem Memory.allProps_used {m m₁ : Memory} (used : NodesUsed m m₁) (v : Value) :
    m₁.allProps v = m.allProps v := by
  obtain ⟨count, rfl⟩ := used
  rfl

theorem Memory.stringOf?_used {m m₁ : Memory} (used : NodesUsed m m₁) (v : Value) :
    m₁.stringOf? v = m.stringOf? v := by
  obtain ⟨count, rfl⟩ := used
  rfl

namespace Memory.Traced

variable {m : Memory}

section Objects

theorem getField (h : m.Traced) (grain : Grain) (ops : Operands)
    (spared : (grain.isTainted m ops.base = true ∨
      m.stored? ops.value ≠ none ∧ grain.isTainted m ops.value = true) →
      ¬ m.Blank [ops.base, ops.value]) : (ObjectRule.getField grain ops m).2.Traced := by
  rcases ObjectRule.records_getField grain ops m with ⟨known, stored, recorded⟩ | ⟨fresh, recorded⟩
  · refine h.records_unless recorded fun tainted => ?_
    rcases (Bool.or_eq_true _ _).mp tainted with counts | chars
    · exact spared (((Bool.or_eq_true _ _).mp counts).imp_right fun counts =>
        ⟨by rw [stored]; exact nofun, counts⟩)
    · -- a tainted character is taint of the value's own
      refine h.not_blank (v := ops.value) (by simp) ?_
      rw [ownTaint_of_stored stored, TaintEntry.isTainted, chars, Bool.or_true]
  · refine h.records_unless recorded fun tainted blank => spared (.inl tainted) fun v mem => ?_
    rcases List.mem_pair.mp mem with rfl | rfl
    · exact blank _ (List.mem_singleton_self _)
    · rw [Memory.taintedHistory, Memory.entryOf, fresh]
      rfl

theorem putField (h : m.Traced) (policy : Policy) (levels : Levels) (ops : Operands)
    (spared : ¬ Deed.Misattributes levels m (.store policy ops)) :
    (policy.putField levels ops m).2.Traced := by
  have object (rule : policy ≠ .global) :
      (ObjectRule.putField (policy.objectGrain levels) ops m).2.Traced := by
    rcases ObjectRule.records_putField (policy.objectGrain levels) ops m with
      ⟨f, m', -, run, used⟩ | ⟨-, run⟩ | ⟨m', grain, passed, run, recorded⟩
    · rw [run]
      exact h.used used
    · rw [run]
      exact h
    · rw [run]
      exact h.records_unless recorded fun tainted blank =>
        spared (.store rule grain passed ((Bool.or_eq_true _ _).mp tainted) blank)
  cases policy with
  | global =>
    show (GlobalRule.putField ops m).2.Traced
    unfold GlobalRule.putField
    rw [get_bind_apply]
    split
    · exact h.used ((NodesUsed.refl m).more 1)
    · exact h
  | _ => exact object nofun

theorem binary (h : m.Traced) (grain : Grain) (op : String) (ops : Operands)
    (spared : (grain.isTainted m ops.base = true ∨ grain.isTainted m ops.offset = true) →
      ¬ m.Blank [ops.base, ops.offset]) : (ObjectRule.binary grain op ops m).2.Traced :=
  h.records_unless (ObjectRule.records_binary grain op ops m) fun tainted =>
    spared ((Bool.or_eq_true _ _).mp tainted)

/-- The rule of objects for native functions, of which the arguments are never in doubt. -/
theorem call (h : m.Traced) (receiver : Option Grain) (c : NativeCall)
    (spared : ∀ grain, receiver = some grain →
      (grain.isTainted m c.base = true ∨ m.allProps c.base = true) → ¬ m.Blank [c.base]) :
    (ObjectRule.call receiver c m).2.Traced := by
  have rule := ObjectRule.records_call receiver c m
  split at rule
  · rename_i counts
    refine h.records_unless rule fun _ => ?_
    rcases receiver with _ | grain
    · cases counts
    · exact spared grain rfl ((Bool.or_eq_true _ _).mp counts)
  · split at rule
    · rename_i counts
      obtain ⟨arg, mem, bit⟩ := List.any_eq_true.mp counts
      exact h.records_unless rule fun _ => h.not_blank mem (ownTaint_of_bit bit)
    · exact h.used rule

end Objects

section Texts

theorem textBinary (h : m.Traced) (levels : Levels) (op : String) (ops : Operands)
    (spared : TextRule.concatenated m op ops = false →
      (levels.objectGrain.isTainted m ops.base = true ∨ levels.objectGrain.isTainted m ops.offset = true) →
      ¬ m.Blank [ops.base, ops.offset]) : (TextRule.binary levels op ops m).2.Traced := by
  unfold TextRule.binary
  rw [bind_apply, get_apply]
  dsimp only
  split
  · rename_i concatenates
    have derived := TextRule.derives_concatenate m ops
    have held := h.derives derived
    rw [bind_apply]
    split
    · exact held
    · rename_i undone
      have clean : TextRule.concatenated m op ops = false := by
        rw [TextRule.concatenated, concatenates, Bool.true_and]
        exact Bool.not_eq_true _ |>.mp undone
      cases derived with
      | entry applied _ _ => exact absurd applied undone
      | nothing used =>
        refine held.binary _ op ops fun counts => ?_
        rw [Grain.isTainted_used used, Grain.isTainted_used used] at counts
        rw [blank_used used]
        exact spared clean counts
  · rename_i other
    refine h.binary _ op ops (spared ?_)
    rw [TextRule.concatenated, Bool.not_eq_true _ |>.mp other, Bool.false_and]

section Words

variable {base : List Bool} {path : Provenance.Node} (back : path.tainted = true → path.LeadsBack)
  (cut : true ∈ base → path.tainted = true)

include back cut

/-- A word is recorded over the history of the text that it was cut out of. Its characters are those of
the text, but if it has none, all of them are tainted. -/
theorem wrapWord (h : m.Traced) (start : Nat) {word : Value}
    (spared : m.keyText word = "" → path.tainted = true) :
    (TextRule.wrapWord base path start word m).2.Traced := by
  obtain ⟨element, m₁, run⟩ : ∃ element m₁, MemoryM.wrapFresh (m.valueOf word) m = (element, m₁) :=
    ⟨_, _, rfl⟩
  unfold TextRule.wrapWord
  rw [bind_apply, get_apply]
  dsimp only
  rw [bind_apply, run]
  refine (h.quiet ((MemoryM.quiet_wrapFresh _).of_apply run)).record_over element _ _ _ back
    fun tainted => ?_
  rw [Option.any_some, CharMap.any_ofBits, Bool.or_eq_true] at tainted
  rcases bits : TextRule.wordBits m base start word with _ | ⟨b, rest⟩
  · refine spared (String.length_eq_zero_iff.mp ?_)
    have empty : (TextRule.wordBits m base start word).length = 0 := by rw [bits]; rfl
    rwa [TextRule.wordBits, List.length_map, List.length_range] at empty
  · have mem : true ∈ TextRule.wordBits m base start word := by
      rcases tainted with all | any
      · rw [bits, List.all_cons, Bool.and_eq_true] at all
        obtain rfl : b = true := all.1
        rw [bits]
        exact List.mem_cons_self
      · exact any_id_eq_true any
    obtain ⟨i, -, copied⟩ := List.mem_map.mp mem
    refine cut ?_
    rw [List.getD_eq_getElem?_getD] at copied
    rcases found : base[start + i]? with _ | b' <;> rw [found] at copied
    · cases copied
    · obtain rfl : b' = true := copied
      exact List.mem_of_getElem? found

theorem wrapWords (h : m.Traced) (separator start : Nat) {words : List Value}
    (spared : ∀ earlier word later, words = earlier ++ word :: later →
      (TextRule.wrapWords base path separator start earlier m).2.keyText word = "" →
      path.tainted = true) : (TextRule.wrapWords base path separator start words m).2.Traced := by
  induction words generalizing m start with
  | nil => exact h
  | cons word rest ih =>
    rw [TextRule.wrapWords_cons]
    refine ih (h.wrapWord back cut start (spared [] word rest rfl)) _ fun earlier w later same => ?_
    have later := spared (word :: earlier) w later (by rw [same]; rfl)
    rwa [TextRule.wrapWords_cons] at later

end Words

theorem split (h : m.Traced) (levels : Levels) (c : NativeCall)
    (named : m.functionName c.f = "split")
    (spared : ¬ Deed.Misattributes levels m (.native .string c)) :
    (TextRule.split levels c m).2.Traced := by
  rw [TextRule.split_apply]
  split
  · exact h
  · rcases array : m.heap.elements? (m.valueOf c.result) with _ | words
    · exact h
    · dsimp only
      split
      · rename_i precise
        have history := (MemoryM.entryOf_used (.refl m) c.base).2.2
        have held : (TextRule.afterWords c words m).Traced := by
          refine ((h.used ((NodesUsed.refl m).more 1)).wrapWords (h.leadsBack history)
            (fun cut => h.taintedHistory (ownTaint_of_charBits cut)) _ _
            fun earlier word later same empty => ?_).beside _
          refine taintedHistory_of_not_blank fun blank => spared ?_
          exact .emptyWord named precise (array.trans (congrArg some same)) empty blank
        dsimp only
        split
        · rename_i all
          exact held.setBit (taintedHistory_of_not_blank fun blank =>
            spared (.allWords named precise array all blank))
        · exact held
      · rename_i imprecise
        dsimp only
        split
        · rename_i counts
          exact h.setBit (taintedHistory_of_not_blank fun blank =>
            spared (.split named imprecise counts blank))
        · exact h

/-- A string counts as tainted only if it is so by its own entry, there being nothing inside it. -/
theorem ownTaint_of_string {s : String} {v : Value} (text : m.stringOf? v = some s) {grain : Grain}
    (counts : grain.isTainted m v = true ∨ m.allProps v = true) : m.ownTaint v = true := by
  -- a string has no members, so it is the bit or a character that counts
  have nothing : m.members v = [] := by
    have literal : m.objectOf? v = none := by
      rw [stringOf?] at text
      rw [objectOf?]
      rcases raw : m.valueOf v with l | id | ⟨handle, identity, l⟩
      · rfl
      · rw [raw] at text
        cases text
      · rfl
    rw [members, literal]
  have characters (map : CharMap) (chars : (m.stored? v).bind (·.chars) = some map)
      (any : map.any = true) : m.ownTaint v = true := by
    obtain ⟨e, stored, chars⟩ := Option.bind_eq_some_iff.mp chars
    rw [ownTaint_of_stored stored, TaintEntry.isTainted, chars, Option.any_some, any, Bool.or_true]
  rcases counts with counts | all
  · have bitOrInside : m.taintBit v = true ∨ m.anyProps v = true := by
      cases grain with
      | imprecise => exact (Bool.or_eq_true _ _).mp counts
      | precise => exact .inl counts
    rcases bitOrInside with bit | any
    · exact ownTaint_of_bit bit
    · unfold anyProps at any
      rcases chars : (m.stored? v).bind (·.chars) with _ | map <;> rw [chars] at any
      · rw [nothing] at any
        cases any
      · exact characters map chars any
  · unfold allProps at all
    rcases chars : (m.stored? v).bind (·.chars) with _ | map <;> rw [chars] at all
    · rw [nothing] at all
      cases all
    · exact characters map chars (map.any_eq_true_iff.mpr (.inl (map.all_eq_true_iff.mp all).1))

/-- Where no model applies, what a second run returns or what is inside the receiver decides. -/
theorem textUnmodelled (h : m.Traced) (levels : Levels) (c : NativeCall)
    (spared : ¬ Deed.Misattributes levels m (.native .string c)) {m₁ : Memory} (used : NodesUsed m m₁)
    (rule : ∀ model, TextRule.model? levels (m.functionName c.f) = some model →
      (model c m).1 = false) : (TextRule.unmodelled levels c m₁).2.Traced := by
  obtain ⟨heap, same, second⟩ := TextRule.unmodelled_cases levels c m₁
  have beside : Traced { m₁ with heap } := (h.used used).beside heap
  rcases second with left | ⟨m₂, left, run⟩ | ⟨output, label, returned, recorded⟩
  · exact beside.used left
  · rw [run]
    refine (beside.used left).call _ c fun grain own counts => ?_
    cases own
    rw [blank_used left]
    rw [Grain.isTainted_used left, allProps_used left] at counts
    rcases text : m₁.stringOf? c.base with _ | s
    · -- nothing was run, so the heap is the one in which the hook has wrapped its operands
      obtain rfl := same text
      rw [show ({ m₁ with heap := m₁.heap } : Memory) = m₁ from rfl] at counts ⊢
      rw [Grain.isTainted_used used, allProps_used used] at counts
      rw [blank_used used]
      rw [stringOf?_used used] at text
      exact fun blank => spared (.receiver ⟨text, rule⟩ counts blank)
    · exact beside.not_blank (List.mem_singleton_self _) (ownTaint_of_string text counts)
  · refine beside.records_unless recorded fun counts => ?_
    rw [blank_beside, blank_used used]
    obtain ⟨_, run, -⟩ := TextRule.runEncoded_used used c
    rw [run] at returned
    exact fun blank => spared (.stray rule returned (any_id_eq_true counts) blank)

theorem textCall (h : m.Traced) (levels : Levels) (c : NativeCall)
    (spared : ¬ Deed.Misattributes levels m (.native .string c)) :
    (TextRule.call levels c m).2.Traced := by
  rcases TextRule.call_outcomes levels c m with ⟨named, run⟩ | derived | ⟨m₁, used, rule, run⟩
  · rw [run]
    exact h.split levels c named spared
  · exact h.derives derived
  · rw [run]
    exact h.textUnmodelled levels c spared used rule

end Texts

section Containers

theorem join (h : m.Traced) (c : NativeCall) : (ArrayRule.join c m).2.Traced := by
  have rule := ArrayRule.records_join c m
  split at rule
  · refine h.records_unless rule.2 fun tainted => ?_
    obtain ⟨v, mem, own⟩ := ArrayRule.ownTaint_of_joinedBits (any_id_eq_true tainted)
    exact h.not_blank mem own
  · exact h.used rule.2

theorem mapElements (h : m.Traced) {whole : Bool} {pairs : List (Value × Value)}
    (spared : ∀ earlier input output later, pairs = earlier ++ (input, output) :: later →
      ((earlier.forM (ArrayRule.mapElement whole) m).2.entryOf output).path.hasParents = false →
      whole = true ∨ (earlier.forM (ArrayRule.mapElement whole) m).2.isTainted input = true →
      ¬ (earlier.forM (ArrayRule.mapElement whole) m).2.Blank [input]) :
    (pairs.forM (ArrayRule.mapElement whole) m).2.Traced := by
  induction pairs generalizing m with
  | nil => exact h
  | cons pair rest ih =>
    refine ih (m := (ArrayRule.mapElement whole pair m).2) ?_
      fun earlier input output later same =>
        spared (pair :: earlier) input output later (by rw [same]; rfl)
    have rule := ArrayRule.records_mapElement whole pair m
    split at rule
    · exact h.used rule
    · rename_i own
      exact h.records_unless rule fun tainted => spared [] pair.1 pair.2 rest rfl
        (Bool.not_eq_true _ |>.mp own) ((Bool.or_eq_true _ _).mp tainted)

theorem mapped (h : m.Traced) {levels : Levels} {c : NativeCall} (named : m.functionName c.f = "map")
    (spared : ¬ Deed.Misattributes levels m (.native (.container .array .precise) c)) :
    (ArrayRule.mapped c m).2.Traced := by
  rw [ArrayRule.mapped_apply]
  split
  · exact h.mapElements fun earlier input output later pairs own counts blank =>
      spared (.mapped named pairs own counts blank)
  · exact h

theorem reduced (h : m.Traced) {levels : Levels} {c : NativeCall}
    (named : m.functionName c.f ∈ ["reduce", "reduceRight"])
    (spared : ¬ Deed.Misattributes levels m (.native (.container .array .precise) c)) :
    (ArrayRule.reduced c m).2.Traced := by
  have rule := (ArrayRule.records_reduced c m).2
  split at rule
  · rwa [rule]
  · rename_i informative
    rw [Bool.or_eq_true, not_or, Bool.not_eq_true, Bool.not_eq_true] at informative
    refine h.records_unless rule fun tainted blank =>
      spared (.reduced named informative.1 informative.2 ?_ blank)
    rcases whole : m.taintBit c.base
    · rw [whole, Bool.false_or, ArrayRule.fromFirstTainted, if_neg Bool.false_ne_true,
        Bool.not_eq_true', List.isEmpty_eq_false_iff, Ne, List.dropWhile_eq_nil_iff] at tainted
      push Not at tainted
      obtain ⟨v, mem, counts⟩ := tainted
      exact .inr ⟨v, mem, by simpa using counts⟩
    · exact .inl rfl

theorem taintRead (h : m.Traced) (label : String) (c : NativeCall)
    (spared : (m.taintBit c.result = true ∨ m.anyProps c.base = true) → ¬ m.Blank [c.base]) :
    (ContainerRule.taintRead label c m).2.Traced := by
  refine h.records_unless (ContainerRule.records_taintRead label c m) fun tainted => ?_
  rw [Bool.or_eq_true, Bool.or_eq_true] at tainted
  rcases tainted with (result | whole) | inside
  · exact spared (.inl result)
  · exact h.not_blank (List.mem_singleton_self _) (ownTaint_of_bit whole)
  · exact spared (.inr inside)

theorem taintReceiver (h : m.Traced) (label : String) (c : NativeCall)
    (spared : (∃ arg ∈ c.args, m.isTainted arg = true) → ¬ m.Blank [c.base]) :
    (ContainerRule.taintReceiver label c m).2.Traced := by
  have rule := ContainerRule.records_taintReceiver label c m
  split at rule
  · rename_i counts
    exact h.records_unless rule fun _ => spared (List.any_eq_true.mp counts)
  · rwa [rule]

theorem push (h : m.Traced) (c : NativeCall)
    (spared : (∃ arg ∈ c.args, m.taintBit arg = true) → ¬ m.Blank [c.base]) :
    (ArrayRule.push c m).2.Traced := by
  have rule := (ArrayRule.records_push c m).2
  split at rule
  · rename_i counts
    exact h.records_unless rule fun _ => spared (List.any_eq_true.mp counts)
  · rwa [rule]

section Models

variable {levels : Levels} {c : NativeCall} {name : String} (named : m.functionName c.f = name)

include named

/-- The rule of an array function, and what it leaves for the rule of objects to look at. -/
theorem arrayModel (h : m.Traced) {grain : Grain} {model : NativeCall → MemoryM Bool}
    (found : ArrayRule.model? grain name = some model)
    (spared : ¬ Deed.Misattributes levels m (.native (.container .array grain) c)) :
    (model c m).2.Traced ∧ ((model c m).1 = false → NodesUsed m (model c m).2) := by
  have applied {r : Bool × Memory} (done : r.1 = true) : r.1 = false → NodesUsed m r.2 :=
    fun undone => nomatch done.symm.trans undone
  have reduces (mem : m.functionName c.f ∈ ["reduce", "reduceRight"]) (precise : grain = .precise) :
      (ArrayRule.reduced c m).2.Traced := by
    subst precise
    exact h.reduced mem spared
  unfold ArrayRule.model? at found
  split at found <;> cases found
  · exact ⟨h.push c fun counts blank => spared (.pushed named counts blank),
      applied (ArrayRule.records_push c m).1⟩
  · refine ⟨h.join c, fun undone => ?_⟩
    have rule := ArrayRule.records_join c m
    split at rule
    · cases rule.1.symm.trans undone
    · exact rule.2
  · refine ⟨h.mapped named spared, fun undone => ?_⟩
    rw [ArrayRule.mapped_apply] at undone ⊢
    split at undone
    · cases undone
    · rename_i other
      rw [if_neg other]
      exact .refl m
  · exact ⟨reduces (by rw [named]; decide) rfl, applied (ArrayRule.records_reduced c m).1⟩
  · exact ⟨reduces (by rw [named]; decide) rfl, applied (ArrayRule.records_reduced c m).1⟩

theorem containerModel (h : m.Traced) {kind : Container} {grain : Grain}
    {model : NativeCall → MemoryM Unit} (found : ContainerRule.model? kind grain name = some model)
    (spared : ¬ Deed.Misattributes levels m (.native (.container kind grain) c)) :
    (model c m).2.Traced := by
  have read (label : String) (mem : (kind, m.functionName c.f) ∈ [(.map, "get"), (.set, "values")])
      (imprecise : grain = .imprecise) : (ContainerRule.taintRead label c m).2.Traced := by
    subst imprecise
    exact h.taintRead label c fun counts blank => spared (.taken mem counts blank)
  have put (label : String) (mem : (kind, m.functionName c.f) ∈ [(.map, "set"), (.set, "add")])
      (imprecise : grain = .imprecise) : (ContainerRule.taintReceiver label c m).2.Traced := by
    subst imprecise
    exact h.taintReceiver label c fun counts blank => spared (.put mem counts blank)
  unfold ContainerRule.model? at found
  split at found <;> cases found
  · exact put _ (by rw [named]; decide) rfl
  · exact read _ (by rw [named]; decide) rfl
  · exact put _ (by rw [named]; decide) rfl
  · exact read _ (by rw [named]; decide) rfl
  all_goals exact h

end Models

theorem containerCall (h : m.Traced) (levels : Levels) (kind : Container) (grain : Grain)
    (c : NativeCall) (spared : ¬ Deed.Misattributes levels m (.native (.container kind grain) c)) :
    (ContainerRule.call levels kind grain c m).2.Traced := by
  have object {m₁ : Memory} (held : m₁.Traced) (used : NodesUsed m m₁)
      (rule : (Policy.container kind grain).FallsBack levels m c) :
      (ObjectRule.call (some levels.objectGrain) c m₁).2.Traced := by
    refine held.call _ c fun grain own counts => ?_
    cases own
    rw [Grain.isTainted_used used, allProps_used used] at counts
    rw [blank_used used]
    exact fun blank => spared (.receiver rule counts blank)
  unfold ContainerRule.call
  rw [bind_apply, get_apply]
  dsimp only
  rcases container : ContainerRule.model? kind grain (m.functionName c.f) with _ | model
  · dsimp only
    split
    · rename_i array
      subst array
      rcases found : ArrayRule.model? grain (m.functionName c.f) with _ | model
      · exact object h (.refl m) ⟨container, fun _ model impossible => nomatch found.symm.trans impossible⟩
      · obtain ⟨held, used⟩ := h.arrayModel rfl found spared
        dsimp only
        rw [bind_apply]
        split
        · exact held
        · rename_i undone
          have undone := Bool.not_eq_true _ |>.mp undone
          refine object held (used undone) ⟨container, fun _ model' found' => ?_⟩
          obtain rfl := Option.some.inj (found.symm.trans found')
          exact undone
    · rename_i other
      exact object h (.refl m) ⟨container, fun array => absurd array other⟩
  · exact h.containerModel rfl container spared

end Containers

end Memory.Traced

namespace Deed

variable (levels : Levels) {m : Memory}

/-- A step that does not misattribute keeps histories traced. In a scope everything that is written is
tainted, whatever its history. -/
theorem traced {d : Deed} (h : m.Traced) (unscoped : ∀ v, d ≠ .write v)
    (spared : ¬ d.Misattributes levels m) : (d.run levels m).2.Traced := by
  cases d with
  | write v => exact absurd rfl (unscoped v)
  | read policy ops =>
    cases policy with
    | string =>
      show (TextRule.getField levels ops m).2.Traced
      rw [TextRule.getField_apply]
      rcases chars : (m.entryOf ops.base).chars with _ | map
      · have used := (NodesUsed.refl m).more 1
        refine (h.used used).getField _ ops fun counts => ?_
        rw [Grain.isTainted_used used, Grain.isTainted_used used] at counts
        rw [blank_used used]
        exact fun blank => spared (.read (fun _ => chars) counts blank)
      · refine h.records_own (TextRule.records_getField m ops _) fun character => ?_
        rw [TaintEntry.propertyTaint, Bool.or_eq_true] at character
        rw [ownTaint, TaintEntry.isTainted]
        rcases character with bit | character
        · rw [bit, Bool.true_or]
        · rw [chars] at character ⊢
          rw [Option.any_some, map.any_of_get? character, Bool.or_true]
    | _ => exact h.getField _ ops fun counts blank => spared (.read (fun string => by cases string) counts blank)
  | store policy ops => exact h.putField policy levels ops spared
  | binary policy op ops =>
    cases policy with
    | string =>
      exact h.textBinary levels op ops fun clean counts blank =>
        spared (.binary (fun _ => clean) counts blank)
    | _ => exact h.binary _ op ops fun counts blank => 
        spared (.binary (fun string => by cases string) counts blank)
  | unary policy operand result =>
    exact h.records_unless (ObjectRule.records_unary _ operand result m) fun counts blank =>
      spared (.unary counts blank)
  | native policy c =>
    have object (grain : Grain) (rule : policy.FallsBack levels m c)
        (same : policy.objectGrain levels = grain) :
        (ObjectRule.call (some grain) c m).2.Traced := by
      refine h.call _ c fun grain' own counts blank => ?_
      cases own
      subst same
      exact spared (.receiver rule counts blank)
    cases policy with
    | string => exact h.textCall levels c spared
    | container kind grain => exact h.containerCall levels kind grain c spared
    | object grain => exact object grain trivial rfl
    | lodash => exact object _ trivial rfl
    | global => exact h.call none c fun _ own => by cases own
  | evaluate code sink maxLength =>
    have noted := h.relabel code evalLabel
    show (checkCode code sink maxLength m).2.Traced
    unfold checkCode
    rw [lift_bind_apply, get_bind_apply]
    split
    · exact noted.used ((NodesUsed.refl _).more 1)
    · exact noted

end Deed

/-- The history of every tainted value has taint in it, and leads back to a node that tainted a value. -/
def Memory.Attributed (m : Memory) : Prop :=
  ∀ key e, m.shadow.entries.get? key = some e → e.isTainted = true →
    e.path.tainted = true ∧ e.path.LeadsBack

/-- The node is the history of a value that is not tainted by its own entry. -/
def Memory.Excuses (m : Memory) (p : Provenance.Node) : Prop :=
  (∃ key e, m.shadow.entries.get? key = some e ∧ e.path = p ∧ e.isTainted = false) ∨
    ∃ uid shown, p = .leaf uid shown

theorem Memory.Traced.attributed {m : Memory} (h : m.Traced) : m.Attributed :=
  fun key e found tainted => ⟨h.tainted key e found tainted,
    h.back key e found (h.tainted key e found tainted)⟩

/-- Any history leads back, unless the value that it belongs to has no taint of its own. -/
theorem Memory.Traced.explains {m : Memory} (h : m.Traced) {p : Provenance.Node} (known : m.Knows p) :
    p.LeadsBack ∨ m.Excuses p := by
  rcases known with ⟨key, e, found, rfl⟩ | root
  · rcases tainted : e.isTainted
    · exact .inr (.inl ⟨key, e, found, rfl, tainted⟩)
    · exact .inl (h.attributed key e found tainted).2
  · exact .inr (.inr root)

/-- The hook takes a step that records taint over histories without any. -/
def Hook.Misattributes (h : Hook) (t : Tracker) : Prop :=
  ∃ d m, h.Does t d m ∧ d.Misattributes t.settings.policies m

/-- Where evaluating tainted code is a finding, a hook that does not misattribute keeps histories
traced. -/
theorem Hook.traced (h : Hook) {t : Tracker} (sink : t.scope.sink = true) (before : t.memory.Traced)
    (spared : ¬ h.Misattributes t) : (h.run t).2.memory.Traced := by
  refine h.lasts lasting_traced (fun _ _ tainted _ _ _ => outlasts_traced tainted)
    (fun d m does _ traced => d.traced _ traced ?_ fun wrong => spared ⟨d, m, does, wrong⟩) before
  rintro v rfl
  cases does with
  | write active _ =>
    rw [EvalScope.isActive, sink] at active
    cases active

section Spared

variable {t : Tracker} {id : ObjectId}

/-- An object is tracked as itself, so its history stays when others get their shadows. -/
theorem Memory.Quiet.taintedHistory {m m' : Memory} (quiet : m.Quiet m')
    (history : m.taintedHistory (.object id) = true) : m'.taintedHistory (.object id) = true := by
  have same : m'.stored? (.object id) = m.stored? (.object id) := by
    show m'.shadow.entries.get? (.object id) = m.shadow.entries.get? (.object id)
    rw [quiet.entries]
  rw [Memory.taintedHistory, Memory.entryOf] at history ⊢
  rw [same]
  rcases stored : m.stored? (.object id) with _ | e <;> rw [stored] at history
  · cases history
  · exact history

theorem Tracker.base_storeOperands {levels : Levels} {m m' : Memory} {offset v : Value}
    {ops : Operands} (run : storeOperands (.object id) offset v levels m = (.ok ops, m')) :
    ops.base = .object id := by
  obtain ⟨_, _, -, run⟩ := bind_eq_ok.mp run
  obtain ⟨_, _, -, run⟩ := bind_eq_ok.mp run
  obtain ⟨_, m₁, -, run⟩ := bind_eq_ok.mp run
  rw [lift_bind_apply, MemoryM.wrap_of_not_bare levels rfl] at run
  obtain ⟨_, _, -, run⟩ := bind_eq_ok.mp run
  cases run
  rfl

theorem Tracker.base_fieldOperands {levels : Levels} {m m' : Memory} {offset v : Value}
    {ops : Operands} (run : fieldOperands (.object id) offset v levels m = (.ok ops, m')) :
    ops.base = .object id := by
  obtain ⟨_, _, -, run⟩ := bind_eq_ok.mp run
  obtain ⟨_, m₁, -, run⟩ := bind_eq_ok.mp run
  rw [lift_bind_apply, MemoryM.wrap_of_not_bare levels rfl] at run
  obtain ⟨_, _, -, run⟩ := bind_eq_ok.mp run
  obtain ⟨_, _, -, run⟩ := bind_eq_ok.mp run
  cases run
  rfl

variable (history : t.memory.taintedHistory (.object id) = true) (offset v : Value)

include history

/-- A store into an object with taint in its history can be explained. -/
theorem Hook.putField_explained : ¬ (Hook.putField (.object id) offset v).Misattributes t := by
  rintro ⟨d, m, does, wrong⟩
  cases does with
  | store run =>
    cases wrong with
    | store _ _ _ _ blank =>
      have quiet := (calm_storeOperands _ _ _ _).within.of_apply run
      have clean := blank _ List.mem_cons_self
      rw [base_storeOperands run] at clean
      cases clean.symm.trans (quiet.taintedHistory history)

/-- So can be what is read from such an object. -/
theorem Hook.getField_explained : ¬ (Hook.getField (.object id) offset v).Misattributes t := by
  rintro ⟨d, m, does, wrong⟩
  cases does with
  | read run =>
    have quiet := (calm_fieldOperands _ _ _ _).within.of_apply run
    have same := base_fieldOperands run
    generalize m.policyOf t.settings.policies _ = policy at wrong
    cases wrong with
    | read _ _ blank =>
      have clean := blank _ List.mem_cons_self
      rw [same] at clean
      cases clean.symm.trans (quiet.taintedHistory history)

end Spared

namespace Session

/-- The event is a hook that records taint over histories without any. -/
def Misattributes (s : Session) : Event → Prop
  | .hook h => h.Misattributes s.tracker
  | .host _ => False

/-- The event is a hook that ends with a finding, and a history in the finding does not lead back
although it is that of a value which is tainted by its own entry. -/
def Unexplained (s : Session) : Event → Prop
  | .hook h => ∃ f, (h.run s.tracker).1 = .error (.finding f) ∧
      ∃ p ∈ f.paths, ¬ p.LeadsBack ∧ ¬ (h.run s.tracker).2.memory.Excuses p
  | .host _ => False

theorem traced_start (settings : Settings) (heap : Heap) :
    (start settings heap).tracker.memory.Traced where
  tainted _ _ impossible := nomatch impossible
  back _ _ impossible := nomatch impossible
  numbered _ _ impossible := nomatch impossible
  agree _ _ _ _ impossible := nomatch impossible

theorem traced_after {s : Session} (sink : s.tracker.scope.sink = true)
    (traced : s.tracker.memory.Traced) {e : Event} (spared : ¬ s.Misattributes e) :
    ((s.after e).tracker.scope.sink = true ∧ (s.after e).tracker.memory.Traced) ∧
      ¬ s.Unexplained e := by
  cases e with
  | hook h =>
    have after := h.traced sink traced spared
    refine ⟨⟨(h.sameSink s.tracker).trans sink, after⟩, ?_⟩
    rintro ⟨f, found, p, mem, lost, accused⟩
    exact (after.explains (h.knows_of_finding found p mem)).elim lost accused
  | host heap => exact ⟨⟨sink, traced.beside heap⟩, fun impossible => impossible⟩

theorem attributed_run {s : Session} (sink : s.tracker.scope.sink = true)
    (traced : s.tracker.memory.Traced) {events : List Event}
    (spared : s.Avoids Misattributes events) :
    s.Always (fun s => s.tracker.memory.Attributed) events ∧ s.Avoids Unexplained events := by
  induction events generalizing s with
  | nil => exact ⟨traced.attributed, trivial⟩
  | cons e rest ih =>
    obtain ⟨⟨sink', traced'⟩, explained⟩ := traced_after sink traced spared.1
    obtain ⟨always, never⟩ := ih sink' traced' spared.2
    exact ⟨⟨traced.attributed, always⟩, explained, never⟩

/-- In a run in which hooks are called in any order and may fail, and in which the host does what it
likes on the heap, the history of every tainted value leads back to a node that tainted a value, and so
do the histories in findings, except for those of values that count as tainted only for what is inside
them. This is so as long as no hook records taint over histories without any. -/
theorem taint_attributed {settings : Settings} (sink : settings.evalSink = true) (heap : Heap)
    {events : List Event} (spared : (start settings heap).Avoids Misattributes events) :
    (start settings heap).Always (fun s => s.tracker.memory.Attributed) events ∧
      (start settings heap).Avoids Unexplained events :=
  attributed_run sink (traced_start settings heap) spared

/-- A heap with an array, with the function that taints values and with the one that appends to
arrays. -/
def arrayAndPush : Heap :=
  ⟨#[{ kind := .array [] }, { kind := .function { name := "__jalangi_set_taint__" } },
    { kind := .function { name := "push", native := some (.array .push) } }]⟩

/-- An array is tainted and stored into itself, read again, and stored into its prototype. -/
def taintedArray : List Event :=
  [.host arrayAndPush,
    .hook (.callPre { f := .object 1, base := .undefined, args := [.object 0], site := 0 }),
    .hook (.putFieldPre (.object 0) (.string "next") (.object 0)),
    .hook (.putField (.object 0) (.string "next") (.object 0)),
    .hook (.getFieldPre (.object 0) (.string "next")),
    .hook (.getField (.object 0) (.string "next") (.object 0)),
    .hook (.putFieldPre (.object 0) (.string "__proto__") (.object 0)),
    .hook (.putField (.object 0) (.string "__proto__") (.object 0))]

/-- All taint is explained on the way, and so is the finding at the end. -/
theorem taint_attributed_taintedArray : ({} : Settings).evalSink = true ∧
    (start {} ⟨#[]⟩).Avoids Misattributes taintedArray ∧
    (start {} ⟨#[]⟩).Always (fun s => s.tracker.memory.Attributed) taintedArray ∧
    (start {} ⟨#[]⟩).Avoids Unexplained taintedArray := by
  have spared : (start {} ⟨#[]⟩).Avoids Misattributes taintedArray := by
    refine ⟨fun impossible => impossible, ?_, ?_, Hook.putField_explained ?_ _ _, ?_,
      Hook.getField_explained ?_ _ _, ?_, Hook.putField_explained ?_ _ _, trivial⟩
    · rintro ⟨d, m, does, -⟩
      cases does
    · rintro ⟨d, m, does, -⟩
      cases does
    · decide +kernel
    · rintro ⟨d, m, does, -⟩
      cases does
    · decide +kernel
    · rintro ⟨d, m, does, -⟩
      cases does
    · decide +kernel
  exact ⟨rfl, spared, taint_attributed rfl ⟨#[]⟩ spared⟩

/-- A literal is tainted and pushed into an array. -/
def taintedPush : List Event :=
  let evil : Value := .shadow ⟨0⟩ ⟨0⟩ (.string "evil")
  let push (arg : Value) : Call :=
    { f := .object 2, base := .object 0, args := [arg], method := true, external := true, site := 1 }
  [.host arrayAndPush, .hook (.literal (.string "evil")),
    .hook (.callPre { f := .object 1, base := .undefined, args := [evil], site := 0 }),
    .hook (.callPre (push evil)), .hook (.callPost (push (.string "evil")) (.literal (.number 1.0)))]

/-- The array is tainted then, but there is no taint in its history. -/
theorem taint_unattributed : ({} : Settings).evalSink = true ∧
    ∃ key e, (run (start {} ⟨#[]⟩) taintedPush).tracker.memory.shadow.entries.get? key = some e ∧
      e.bit = true ∧ e.path.tainted = false := by
  refine ⟨rfl, .object 0, ?_⟩
  have recorded : ((run (start {} ⟨#[]⟩) taintedPush).tracker.memory.shadow.entries.get?
      (.object 0)).map (fun e => (e.bit, e.path.tainted)) = some (true, false) := by
    decide +kernel
  obtain ⟨e, found, same⟩ := Option.map_eq_some_iff.mp recorded
  exact ⟨e, found, (Prod.mk.inj same).1, (Prod.mk.inj same).2⟩

end Session

end ShadowTaint
