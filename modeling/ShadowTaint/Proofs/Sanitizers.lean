import Mathlib.Data.String.Basic
import ShadowTaint.Provenance.Triage
/-!
# Counting sanitizers

The summary of an export counts the nodes whose operation is of a class, and lists the names of these operations.
It does not look at the taint of a node. So it counts the tainted nodes of the class exactly if there are no others,
which is not so where a text that is clean was made harmless and then joined with one that is tainted.

## Main definitions

- `SanitizerClass.Matches`: an operation's name contains a keyword of the class, or is part of one.
- `SanitizerSummary.Counts`: a summary counts the nodes with a property, and lists their operations.

## Main statements

- `operationMatches_iff`: what the search for keywords finds.
- `operationMatches_of_ascii`: how it goes among texts of ASCII characters.
- `Triage.sanitizers_count`: which nodes a summary counts, and when these are the tainted ones.
-/

namespace ShadowTaint

namespace Text

/-- A keyword occurs without regard to case if it stands anywhere in the text with all letters folded. -/
theorem occursFolded_iff_infix {keyword s : List Char} :
    occursFolded keyword s = true ↔ keyword.map foldLetter <:+: s.map foldLetter := by
  induction s with
  | nil => simp [occursFolded, List.infix_nil]
  | cons c rest ih =>
    rw [occursFolded, Bool.or_eq_true, ih, List.isPrefixOf_iff_prefix, List.map_cons, List.infix_cons_iff]

/-- Of the runs of characters with an image, only the one of the capital letters covers ASCII characters. -/
theorem imageInRuns_of_ascii {n : Nat} (ascii : n < 128) :
    imageInRuns lowerRuns n = if 65 ≤ n ∧ n ≤ 90 then some (97 + (n - 65)) else none := by
  have beyond : ∀ r ∈ lowerRuns.tail, 128 ≤ r.1 := by decide +kernel
  have others : imageInRuns lowerRuns.tail n = none := by
    refine List.findSome?_eq_none_iff.mpr fun r mem => if_neg fun covers => ?_
    exact absurd (Nat.le_trans (beyond r mem) covers.1) (Nat.not_le_of_lt ascii)
  rw [imageInRuns, show lowerRuns = (65, 90, 1, 97) :: lowerRuns.tail from rfl, List.findSome?_cons,
    show List.findSome? _ lowerRuns.tail = none from others]
  by_cases letter : 65 ≤ n ∧ n ≤ 90
  · simp [letter, Nat.mod_one]
  · have uncovered : ¬ (65 ≤ n ∧ n ≤ 90 ∧ (n - 65) % 1 = 0) := fun covers => letter ⟨covers.1, covers.2.1⟩
    dsimp only
    rw [if_neg letter, if_neg uncovered]

theorem lowerImage_of_ascii {c : Char} (ascii : c.toNat < 128) : lowerImage c = [c.toLower] := by
  have special : (lowerSpecials.find? fun e => e.1 = c.toNat) = none := by
    refine List.find?_eq_none.mpr fun e mem same => ?_
    have beyond : ∀ e ∈ lowerSpecials, 128 ≤ e.1 := by decide
    exact absurd (of_decide_eq_true same ▸ beyond e mem) (Nat.not_le_of_lt ascii)
  have image : (if 65 ≤ c.toNat ∧ c.toNat ≤ 90 then Char.ofNat (97 + (c.toNat - 65)) else c) = c.toLower := by
    have table : ∀ n < 128, (if 65 ≤ n ∧ n ≤ 90 then Char.ofNat (97 + (n - 65)) else Char.ofNat n) =
        (Char.ofNat n).toLower := by decide +kernel
    have here := table c.toNat ascii
    rwa [Char.ofNat_toNat] at here
  rw [lowerImage, caseImage, special, imageInRuns_of_ascii ascii, ← image]
  by_cases letter : 65 ≤ c.toNat ∧ c.toNat ≤ 90
  · rw [if_pos letter, if_pos letter]
  · rw [if_neg letter, if_neg letter]

theorem lowerAfter_of_ascii {cs : List Char} (before : List Char) (ascii : ∀ c ∈ cs, c.toNat < 128) :
    lowerAfter before cs = cs.map Char.toLower := by
  induction cs generalizing before with
  | nil => rfl
  | cons c rest ih =>
    obtain ⟨first, later⟩ := List.forall_mem_cons.mp ascii
    have other : c ≠ 'Σ' := by
      rintro rfl
      exact absurd first (by decide)
    rw [lowerAfter, ih _ later, if_neg other, lowerImage_of_ascii first]
    rfl

/-- Whether a text has no other characters than those of ASCII. -/
def isAscii (s : String) : Bool := s.toList.all fun c => decide (c.toNat < 128)

/-- In ASCII, to lower a text is to lower its letters one by one. -/
theorem toList_toLower_of_ascii {s : String} (ascii : isAscii s = true) :
    (toLower s).toList = s.toList.map Char.toLower := by
  have each : ∀ c ∈ s.toList, c.toNat < 128 := fun c mem => of_decide_eq_true (List.all_eq_true.mp ascii c mem)
  rw [toLower, String.toList_ofList, lowerAfter_of_ascii [] each]

end Text

namespace Provenance

/-- A name contains a keyword or is part of one. -/
theorem operationMatches_iff {keywords : List String} {operation : String} :
    operationMatches keywords operation = true ↔
      (∃ k ∈ keywords, k.toList.map Text.foldLetter <:+: operation.toList.map Text.foldLetter) ∨
      (Text.toLower operation).toList ≠ [] ∧
        ∃ k ∈ keywords, (Text.toLower operation).toList <:+: (Text.toLower k).toList := by
  simp only [operationMatches, Bool.or_eq_true, Bool.and_eq_true, List.any_eq_true, Text.occursFolded_iff_infix,
    Text.occursIn_iff_infix, Bool.not_eq_true', List.isEmpty_eq_false_iff, ne_eq]

/-- Whether a name contains a keyword or is part of one, with letters lowered one by one. -/
def asciiMatches (keywords : List String) (operation : String) : Bool :=
  keywords.any (fun k => Text.occursFolded k.toList operation.toList) ||
    !operation.toList.isEmpty &&
      keywords.any fun k => Text.occursIn (operation.toList.map Char.toLower) (k.toList.map Char.toLower)

/-- The search for keywords where none of the texts has other characters than those of ASCII. -/
theorem operationMatches_of_ascii {keywords : List String} {operation : String}
    (words : keywords.all Text.isAscii = true) (name : Text.isAscii operation = true) :
    operationMatches keywords operation = asciiMatches keywords operation := by
  have lowered : keywords.map (fun k => (Text.toLower k).toList) =
      keywords.map fun k => k.toList.map Char.toLower :=
    List.map_congr_left fun k mem => Text.toList_toLower_of_ascii (List.all_eq_true.mp words k mem)
  have same := congrArg (·.any (Text.occursIn (operation.toList.map Char.toLower))) lowered
  simp only [List.any_map, Function.comp_def] at same
  rw [operationMatches, asciiMatches]
  dsimp only
  rw [Text.toList_toLower_of_ascii name, same, List.isEmpty_map]

theorem SanitizerClass.isAscii_keywords (c : SanitizerClass) : c.keywords.all Text.isAscii = true := by
  cases c <;> decide +kernel

/-- The summary of a class where the names have no other characters than those of ASCII. -/
theorem SanitizerSummary.of_ascii {e : Export} (c : SanitizerClass)
    (names : (e.nodes.map (·.2.operation)).all Text.isAscii = true) :
    SanitizerSummary.of e c =
      let hits := (e.nodes.map (·.2.operation)).filter (asciiMatches c.keywords)
      ⟨hits.length, hits.foldl (fun l s => insertText s l) []⟩ := by
  rw [SanitizerSummary.of, List.filter_congr fun operation mem =>
    operationMatches_of_ascii c.isAscii_keywords (List.all_eq_true.mp names operation mem)]

section Texts

variable {a b : String} {texts more : List String}

theorem mem_insertText : b ∈ insertText a texts ↔ b = a ∨ b ∈ texts := by
  induction texts with
  | nil => rw [insertText, List.mem_cons]
  | cons c rest ih =>
    rw [insertText]
    split
    · rw [List.mem_cons]
    · split
      · rename_i same
        rw [← same, List.mem_cons, or_self_left]
      · rw [List.mem_cons, ih, List.mem_cons, or_left_comm]

theorem pairwise_insertText (sorted : texts.Pairwise (· < ·)) : (insertText a texts).Pairwise (· < ·) := by
  induction texts with
  | nil => exact List.pairwise_singleton _ _
  | cons c rest ih =>
    obtain ⟨least, sortedRest⟩ := List.pairwise_cons.mp sorted
    rw [insertText]
    split
    · rename_i below
      refine List.pairwise_cons.mpr ⟨?_, sorted⟩
      intro d mem
      rcases List.mem_cons.mp mem with rfl | later
      · exact below
      · exact below.trans (least d later)
    · split
      · exact sorted
      · rename_i notBelow other
        refine List.pairwise_cons.mpr ⟨?_, ih sortedRest⟩
        intro d mem
        rcases mem_insertText.mp mem with rfl | later
        · exact lt_of_le_of_ne (not_lt.mp notBelow) (Ne.symm other)
        · exact least d later

/-- Texts that are put into a list one after the other are in it, and the list stays in order. -/
theorem foldl_insertText (sorted : texts.Pairwise (· < ·)) (more : List String) :
    (more.foldl (fun l s => insertText s l) texts).Pairwise (· < ·) ∧
      ∀ b, b ∈ more.foldl (fun l s => insertText s l) texts ↔ b ∈ texts ∨ b ∈ more := by
  induction more generalizing texts with
  | nil => exact ⟨sorted, by simp⟩
  | cons a rest ih =>
    obtain ⟨sorted, members⟩ := ih (pairwise_insertText sorted)
    refine ⟨sorted, fun b => ?_⟩
    rw [List.foldl_cons, members, mem_insertText, List.mem_cons, or_assoc, or_left_comm]

end Texts

/-- The name of an operation contains a keyword of the class, or it is part of one, without regard to case. -/
def SanitizerClass.Matches (c : SanitizerClass) (operation : String) : Prop :=
  (∃ k ∈ c.keywords, k.toList.map Text.foldLetter <:+: operation.toList.map Text.foldLetter) ∨
  (Text.toLower operation).toList ≠ [] ∧
    ∃ k ∈ c.keywords, (Text.toLower operation).toList <:+: (Text.toLower k).toList

instance (c : SanitizerClass) (operation : String) : Decidable (c.Matches operation) :=
  decidable_of_iff _ operationMatches_iff

/-- A summary counts the nodes with a property, and lists the names of their operations once each. -/
structure SanitizerSummary.Counts (s : SanitizerSummary) (e : Export) (P : ExportNode → Prop) [DecidablePred P] :
    Prop where
  count : s.count = e.nodes.countP fun x => P x.2
  operations : ∀ operation, operation ∈ s.operations ↔ ∃ x ∈ e.nodes, P x.2 ∧ x.2.operation = operation
  sorted : s.operations.Pairwise (· < ·)

namespace SanitizerSummary

variable {s : SanitizerSummary} {e : Export} {P Q : ExportNode → Prop} [DecidablePred P] [DecidablePred Q]

theorem Counts.congr (h : s.Counts e P) (same : ∀ x ∈ e.nodes, P x.2 ↔ Q x.2) : s.Counts e Q where
  count := by
    rw [h.count]
    exact List.countP_congr fun x mem => by simpa using same x mem
  operations operation := by
    rw [h.operations]
    constructor
    · rintro ⟨x, mem, holds, named⟩
      exact ⟨x, mem, (same x mem).mp holds, named⟩
    · rintro ⟨x, mem, holds, named⟩
      exact ⟨x, mem, (same x mem).mpr holds, named⟩
  sorted := h.sorted

/-- If a summary of the nodes with one property counts those that have another one as well, then all of them have
it. -/
theorem Counts.all_of_and (h : s.Counts e Q) (both : s.Counts e fun n => P n ∧ Q n) :
    ∀ x ∈ e.nodes, Q x.2 → P x.2 := by
  have all : (e.nodes.filter fun x => Q x.2).countP (fun x => P x.2) =
      (e.nodes.filter fun x => Q x.2).length := by
    rw [List.countP_filter, ← List.countP_eq_length_filter, ← h.count, both.count]
    simp only [Bool.decide_and]
  intro x mem holds
  exact of_decide_eq_true (List.countP_eq_length.mp all x (List.mem_filter.mpr ⟨mem, decide_eq_true holds⟩))

/-- The search for keywords decides whether an operation is of a class. -/
theorem operationMatches_eq (c : SanitizerClass) (operation : String) :
    operationMatches c.keywords operation = decide (c.Matches operation) := by
  rw [Bool.eq_iff_iff, decide_eq_true_iff]
  exact operationMatches_iff

/-- A summary counts all nodes whose operation is of the class. -/
theorem counts_of (e : Export) (c : SanitizerClass) : (of e c).Counts e fun n => c.Matches n.operation where
  count := by
    show ((e.nodes.map (·.2.operation)).filter (operationMatches c.keywords)).length = _
    rw [← List.countP_eq_length_filter, List.countP_map]
    exact List.countP_congr fun x _ => by rw [Function.comp_apply, operationMatches_eq]
  operations operation := by
    refine ((foldl_insertText .nil _).2 operation).trans ?_
    simp only [List.not_mem_nil, false_or, List.mem_filter, List.mem_map, operationMatches_eq, decide_eq_true_iff]
    constructor
    · rintro ⟨⟨x, mem, rfl⟩, matches_⟩
      exact ⟨x, mem, matches_, rfl⟩
    · rintro ⟨x, mem, matches_, rfl⟩
      exact ⟨⟨x, mem, rfl⟩, matches_⟩
  sorted := (foldl_insertText .nil _).1

end SanitizerSummary

namespace Triage

theorem sanitizers_ofExport (e : Export) (c : SanitizerClass) : (ofExport e).sanitizers c = .of e c := by
  cases c <;> rfl

/-- The summary of a class counts all nodes whose operation is of the class, and so it counts those that are tainted
exactly if they all are. -/
theorem sanitizers_count (e : Export) (c : SanitizerClass) :
    ((ofExport e).sanitizers c).Counts e (fun n => c.Matches n.operation) ∧
    (((ofExport e).sanitizers c).Counts e (fun n => n.tainted = true ∧ c.Matches n.operation) ↔
      ∀ x ∈ e.nodes, c.Matches x.2.operation → x.2.tainted = true) := by
  have counts : ((ofExport e).sanitizers c).Counts e fun n => c.Matches n.operation := by
    rw [sanitizers_ofExport]
    exact SanitizerSummary.counts_of e c
  refine ⟨counts, counts.all_of_and, fun all => counts.congr fun x mem => ?_⟩
  exact ⟨fun matches_ => ⟨all x mem matches_, matches_⟩, And.right⟩

/-- A command with a prefix that was made harmless, and with a tainted text that was not. -/
def prefixed : Export where
  nodes :=
    [(1, ⟨"call:exec", "'px'", true, ["2"]⟩), (2, ⟨"+", "'px'", true, ["3", "5"]⟩),
     (3, ⟨"call:escape", "'p'", false, ["4"]⟩), (4, ⟨untaintedLabel, "'p'", false, []⟩),
     (5, ⟨taintedLabel, "'x'", true, ["6"]⟩), (6, ⟨untaintedLabel, "'x'", false, []⟩)]
  sorted := by decide
  bounded := by decide

/-- The summary of the command counts the operation on the prefix. -/
theorem sanitizers_count_clean : ((ofExport prefixed).sanitizers .explicit).count = 1 ∧
    ¬ ((ofExport prefixed).sanitizers .explicit).Counts prefixed
      (fun n => n.tainted = true ∧ SanitizerClass.explicit.Matches n.operation) := by
  have summary : (ofExport prefixed).sanitizers .explicit = ⟨1, ["call:escape"]⟩ := by
    rw [sanitizers_ofExport, SanitizerSummary.of_ascii .explicit (by decide +kernel)]
    decide +kernel
  rw [summary]
  refine ⟨rfl, fun counts => ?_⟩
  obtain ⟨x, mem, ⟨tainted, -⟩, named⟩ := (counts.operations "call:escape").mp (List.mem_singleton.mpr rfl)
  simp only [prefixed, List.mem_cons, List.not_mem_nil, or_false] at mem
  rcases mem with rfl | rfl | rfl | rfl | rfl | rfl
  all_goals first
    | exact absurd named (by decide)
    | cases tainted

end Triage

end Provenance

end ShadowTaint
