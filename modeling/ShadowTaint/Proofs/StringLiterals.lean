import Mathlib.Algebra.Ring.Parity
import Mathlib.Data.List.Basic
import Mathlib.Data.List.Induction
import ShadowTaint.Eval.Rewrite
import ShadowTaint.Text.Natural
/-!
# Code inside a string literal

Tainted code is put between double quotes and evaluated as a string. This file reads such literals as
ECMAScript does, with all escapes that the language has and not only those that are written here, and
shows that what is put between the quotes stays there: the literal ends at the quote behind it and
stands for the marker and the code, whatever the code is.

## Main definitions

- `StringLiteral.Place`, `StringLiteral.step`: where a reader stands, and what it does with a character.
- `StringLiteral.read`: the value of a literal and the text behind it.
- `StringLiteral.backslashes`: how many backslashes a text ends with.

## Main statements

- `StringLiteral.run_escape`: an escaped text stands for the text.
- `StringLiteral.odd_of_escape`, `StringLiteral.even_escape`: quotes inside are escaped, and the last
  character does not escape the quote behind it.
- `Rewrite.rewrite_contained`: rewritten code cannot leave its literal.

## Design notes

The value of a literal is a list of 16-bit units, because escapes may stand for one half of a surrogate
pair. The reader is the strict one: it knows no octal escapes, and the two separators of lines and
paragraphs have to be escaped as other line terminators have.
-/

namespace ShadowTaint

namespace StringLiteral

/-- The 16-bit units of a code point. -/
def unitsOf (n : Nat) : List Nat :=
  if n < 0x10000 then [n] else [0xD800 + (n - 0x10000) / 0x400, 0xDC00 + (n - 0x10000) % 0x400]

/-- The 16-bit units of a text. -/
def units (s : List Char) : List Nat := s.flatMap fun c => unitsOf c.toNat

/-- The characters that end a line. -/
def lineTerminators : List Char := ['\n', '\r', '\u2028', '\u2029']

/-- Where a reader stands in a literal. -/
inductive Place where
  /-- Between two characters of the value. -/
  | text
  /-- Behind a backslash. -/
  | escape
  /-- Behind an escaped zero, which no digit may follow. -/
  | zero
  /-- Behind an escaped carriage return, which is one line terminator with a line feed behind it. -/
  | lineEnd
  /-- In an escape of which some hexadecimal digits are missing. -/
  | digits (missing value : Nat)
  /-- Behind the letter of an escape by code point. -/
  | unicode
  /-- Between the braces of an escape by code point, with the number that was read if there is one. -/
  | codePoint (value? : Option Nat)
deriving DecidableEq, Repr

/-- The literal may end here. -/
def Place.closes : Place → Bool
  | .text | .zero | .lineEnd => true
  | _ => false

/-- What a letter behind a backslash stands for. -/
def singleEscape? : Char → Option Char
  | '\'' => some '\''
  | '"' => some '"'
  | '\\' => some '\\'
  | 'b' => some '\x08'
  | 't' => some '\x09'
  | 'n' => some '\n'
  | 'v' => some '\x0b'
  | 'f' => some '\x0c'
  | 'r' => some '\r'
  | _ => none

/-- Reads a character that is not in an escape: its units, and where the reader stands then. -/
def readPlain (c : Char) : Option (List Nat × Place) :=
  if c = '\\' then some ([], .escape)
  else if c = '"' ∨ c ∈ lineTerminators then none
  else some (unitsOf c.toNat, .text)

/-- Reads the character behind a backslash. -/
def readEscape (c : Char) : Option (List Nat × Place) :=
  match singleEscape? c with
  | some e => some (unitsOf e.toNat, .text)
  | none =>
    if c = '0' then some ([0], .zero)
    else if c.isDigit then none
    else if c = 'x' then some ([], .digits 2 0)
    else if c = 'u' then some ([], .unicode)
    else if c = '\r' then some ([], .lineEnd)
    else if c ∈ lineTerminators then some ([], .text)
    else some (unitsOf c.toNat, .text)

/-- Reads a digit of an escape. -/
def readDigit (missing value : Nat) (c : Char) : Option (List Nat × Place) :=
  (Text.hexValue? c).map fun d =>
    if missing ≤ 1 then ([16 * value + d], .text) else ([], .digits (missing - 1) (16 * value + d))

/-- Reads a character between the braces of an escape by code point. -/
def readCodePoint (value? : Option Nat) (c : Char) : Option (List Nat × Place) :=
  if c = '}' then value?.map fun n => (unitsOf n, .text)
  else (Text.hexValue? c).bind fun d =>
    let n := 16 * value?.getD 0 + d
    if n ≤ 0x10FFFF then some ([], .codePoint (some n)) else none

/-- Reads one character of a literal: the units that it adds to the value, and where the reader stands
then. -/
def step : Place → Char → Option (List Nat × Place)
  | .text, c => readPlain c
  | .escape, c => readEscape c
  | .zero, c => if c.isDigit then none else readPlain c
  | .lineEnd, c => if c = '\n' then some ([], .text) else readPlain c
  | .digits missing value, c => readDigit missing value c
  | .unicode, c => if c = '{' then some ([], .codePoint none) else readDigit 4 0 c
  | .codePoint value?, c => readCodePoint value? c

/-- Reads characters of a literal. -/
def run : Place → List Char → Option (List Nat × Place)
  | place, [] => some ([], place)
  | place, c :: rest => (step place c).bind fun p => (run p.2 rest).map fun q => (p.1 ++ q.1, q.2)

/-- Reads a literal whose opening quote has been read, up to its closing quote. -/
def read : Place → List Char → Option (List Nat × List Char)
  | _, [] => none
  | place, c :: rest =>
    if c = '"' ∧ place.closes then some ([], rest)
    else (step place c).bind fun p => (read p.2 rest).map fun q => (p.1 ++ q.1, q.2)

/-- How many backslashes a text ends with. -/
def backslashes (s : List Char) : Nat := (s.reverse.takeWhile (· = '\\')).length

/-! ## Units -/

theorem units_cons (c : Char) (s : List Char) : units (c :: s) = unitsOf c.toNat ++ units s :=
  List.flatMap_cons

theorem eq_of_toNat {c d : Char} (same : c.toNat = d.toNat) : c = d := by
  rw [← Char.ofNat_toNat c, same, Char.ofNat_toNat]

/-- The units in front of a text say which character it begins with. -/
theorem unitsOf_append_inj {c d : Char} {l l' : List Nat}
    (h : unitsOf c.toNat ++ l = unitsOf d.toNat ++ l') : c = d ∧ l = l' := by
  have small (n : Nat) (valid : n.isValidChar) : n < 0xD800 ∨ 0xDFFF < n ∧ n < 0x110000 := valid
  have hc := small c.toNat c.valid
  have hd := small d.toNat d.valid
  unfold unitsOf at h
  -- a surrogate never stands where a character of the basic plane does
  by_cases basic : c.toNat < 0x10000 <;> by_cases basic' : d.toNat < 0x10000
  · rw [if_pos basic, if_pos basic'] at h
    obtain ⟨same, rest⟩ := List.cons.inj h
    exact ⟨eq_of_toNat same, rest⟩
  · rw [if_pos basic, if_neg basic'] at h
    have high := (List.cons.inj h).1
    omega
  · rw [if_neg basic, if_pos basic'] at h
    have high := (List.cons.inj h).1
    omega
  · rw [if_neg basic, if_neg basic'] at h
    obtain ⟨high, later⟩ := List.cons.inj h
    obtain ⟨low, rest⟩ := List.cons.inj later
    exact ⟨eq_of_toNat (by omega), rest⟩

theorem units_injective : Function.Injective units := by
  intro s t same
  have nonempty (c : Char) : unitsOf c.toNat ≠ [] := by
    unfold unitsOf
    split <;> exact List.cons_ne_nil _ _
  induction s generalizing t with
  | nil =>
    cases t with
    | nil => rfl
    | cons d t =>
      rw [units_cons] at same
      exact absurd (List.append_eq_nil_iff.mp same.symm).1 (nonempty d)
  | cons c s ih =>
    cases t with
    | nil =>
      rw [units_cons] at same
      exact absurd (List.append_eq_nil_iff.mp same).1 (nonempty c)
    | cons d t =>
      rw [units_cons, units_cons] at same
      obtain ⟨rfl, rest⟩ := unitsOf_append_inj same
      rw [ih rest]

/-! ## Reading -/

theorem run_append (place : Place) (s t : List Char) :
    run place (s ++ t) = (run place s).bind fun p => (run p.2 t).map fun q => (p.1 ++ q.1, q.2) := by
  induction s generalizing place with
  | nil => simp [run]
  | cons c s ih =>
    rw [List.cons_append, run, run]
    rcases step place c with _ | ⟨here, next⟩
    · rfl
    · rw [Option.bind_some, ih, Option.bind_some, Option.map_bind, Option.bind_map]
      refine Option.bind_congr fun p _ => ?_
      rw [Function.comp_apply, Function.comp_apply, Option.map_map]
      simp only [Function.comp_def, List.append_assoc]

/-- A quote at which a literal may end is no character of it. -/
theorem step_quote {place : Place} (closes : place.closes = true) : step place '"' = none := by
  cases place <;> first | rfl | cases closes

/-- A text that can be read inside a literal does not end it. -/
theorem read_of_run {place last : Place} {s : List Char} {value : List Nat}
    (h : run place s = some (value, last)) (rest : List Char) :
    read place (s ++ rest) = (read last rest).map fun p => (value ++ p.1, p.2) := by
  induction s generalizing place value with
  | nil =>
    cases h
    simp
  | cons c s ih =>
    rw [run] at h
    obtain ⟨⟨here, next⟩, stepped, ran⟩ := Option.bind_eq_some_iff.mp h
    obtain ⟨⟨later, last'⟩, inner, same⟩ := Option.map_eq_some_iff.mp ran
    cases same
    have inside : ¬ (c = '"' ∧ place.closes = true) := by
      rintro ⟨rfl, closes⟩
      rw [step_quote closes] at stepped
      cases stepped
    rw [List.cons_append, read, if_neg inside, stepped, Option.bind_some, ih inner, Option.map_map]
    simp only [Function.comp_def, List.append_assoc]

/-! ## Escaped texts -/

open Rewrite (escapeChar escape)

/-- The characters that are not written as they are. -/
def special : List Char := ['\\', '"', '\n', '\r', '\u2028', '\u2029']

/-- What holds of each of them, one by one, holds of all of them. -/
theorem of_special {p : Char → Prop} (each : special.Forall p) {c : Char} (written : c ∈ special) : p c :=
  List.forall_iff_forall_mem.mp each c written

theorem escapeChar_of_plain {c : Char} (plain : c ∉ special) : escapeChar c = [c] := by
  simp only [special, List.mem_cons, List.not_mem_nil, or_false, not_or] at plain
  obtain ⟨backslash, quote, feed, carriage, line, paragraph⟩ := plain
  have line : c.toNat ≠ 0x2028 := fun code => line (eq_of_toNat code)
  have paragraph : c.toNat ≠ 0x2029 := fun code => paragraph (eq_of_toNat code)
  rw [escapeChar, if_neg backslash, if_neg quote, if_neg feed, if_neg carriage, if_neg line,
    if_neg paragraph]

theorem not_mem_lineTerminators {c : Char} (plain : c ∉ special) : c ∉ lineTerminators :=
  fun mem => plain (List.mem_cons_of_mem _ (List.mem_cons_of_mem _ mem))

/-- A written character is read as the character. -/
theorem run_escapeChar (c : Char) : run .text (escapeChar c) = some (unitsOf c.toNat, .text) := by
  by_cases written : c ∈ special
  · have each : special.Forall fun c => run .text (escapeChar c) = some (unitsOf c.toNat, .text) := by
      decide
    exact of_special each written
  · have backslash : c ≠ '\\' := fun same => written (same ▸ List.mem_cons_self)
    have quote : c ≠ '"' := fun same => written (same ▸ List.mem_cons_of_mem _ List.mem_cons_self)
    have line := not_mem_lineTerminators written
    rw [escapeChar_of_plain written]
    simp [run, step, readPlain, backslash, quote, line]

/-- An escaped text is read as the text. -/
theorem run_escape (s : List Char) : run .text (escape s) = some (units s, .text) := by
  induction s with
  | nil => rfl
  | cons c s ih =>
    have split : escape (c :: s) = escapeChar c ++ escape s := List.flatMap_cons
    rw [split, run_append, run_escapeChar, Option.bind_some, ih, units_cons]
    rfl

/-- A literal that is written around a text ends at the quote behind the text, and has the text as its
value. -/
theorem read_escape (s rest : List Char) :
    read .text (escape s ++ '"' :: rest) = some (units s, rest) := by
  rw [read_of_run (run_escape s), read, if_pos ⟨rfl, rfl⟩, Option.map_some, List.append_nil]

example : read .text "say \\\"hi\\\"\\\\\" + x".toList = some (units "say \"hi\"\\".toList, " + x".toList) := by
  decide +kernel

theorem line_of_escape {s : List Char} {c : Char} (mem : c ∈ escape s) : c ∉ lineTerminators := by
  obtain ⟨d, -, mem⟩ := List.mem_flatMap.mp mem
  by_cases written : d ∈ special
  · have clear : special.Forall fun d => (escapeChar d).Forall (· ∉ lineTerminators) := by decide
    exact List.forall_iff_forall_mem.mp (of_special clear written) c mem
  · rw [escapeChar_of_plain written, List.mem_singleton] at mem
    exact mem ▸ not_mem_lineTerminators written

theorem backslashes_concat (s : List Char) (c : Char) :
    backslashes (s ++ [c]) = if c = '\\' then backslashes s + 1 else 0 := by
  by_cases same : c = '\\' <;> simp [backslashes, same]

theorem escape_concat (s : List Char) (c : Char) : escape (s ++ [c]) = escape s ++ escapeChar c := by
  rw [escape, List.flatMap_append, List.flatMap_singleton]
  rfl

/-- A character other than a backslash is written with another one at the end. -/
theorem exists_concat_escapeChar {c : Char} (other : c ≠ '\\') :
    ∃ s d, escapeChar c = s ++ [d] ∧ d ≠ '\\' := by
  by_cases written : c ∈ special
  · have last : special.Forall fun c => c ≠ '\\' →
        escapeChar c ≠ [] ∧ (escapeChar c).getLast? ≠ some '\\' := by decide
    obtain ⟨nonempty, different⟩ := of_special last written other
    obtain ⟨s, d, split⟩ := (List.eq_nil_or_concat' _).resolve_left nonempty
    refine ⟨s, d, split, fun same => different ?_⟩
    rw [split, same, List.getLast?_concat]
  · exact ⟨[], c, escapeChar_of_plain written, other⟩

/-- The backslashes at the end of an escaped text are pairs. -/
theorem even_escape (s : List Char) : Even (backslashes (escape s)) := by
  induction s using List.reverseRecOn with
  | nil => exact ⟨0, rfl⟩
  | append_singleton s c ih =>
    rw [escape_concat]
    by_cases same : c = '\\'
    · obtain ⟨half, pairs⟩ := ih
      subst same
      show Even (backslashes (escape s ++ (['\\'] ++ ['\\'])))
      rw [← List.append_assoc, backslashes_concat, backslashes_concat, if_pos rfl, if_pos rfl,
        pairs]
      exact ⟨half + 1, by omega⟩
    · obtain ⟨t, d, split, other⟩ := exists_concat_escapeChar same
      rw [split, ← List.append_assoc, backslashes_concat, if_neg other]
      exact ⟨0, rfl⟩

/-- A quote comes from a quote, and a backslash stands in front of it. -/
theorem eq_of_quote {c : Char} {front back : List Char} (h : escapeChar c = front ++ '"' :: back) :
    front = ['\\'] := by
  have mem : '"' ∈ escapeChar c := by simp [h]
  have same : c = '"' := by
    by_cases written : c ∈ special
    · have only : special.Forall fun c => '"' ∈ escapeChar c → c = '"' := by decide
      exact of_special only written mem
    · rw [escapeChar_of_plain written] at mem
      exact (List.mem_singleton.mp mem).symm
  subst same
  rcases front with _ | ⟨first, _ | ⟨second, rest⟩⟩
  · cases h
  · cases h
    rfl
  · have length := congrArg List.length h
    simp [escapeChar] at length

/-- In front of every quote of an escaped text there is a backslash that is not escaped itself. -/
theorem odd_of_escape {s front back : List Char} (h : escape s = front ++ '"' :: back) :
    Odd (backslashes front) := by
  induction s using List.reverseRecOn generalizing back with
  | nil => exact absurd h.symm (List.append_ne_nil_of_right_ne_nil _ (List.cons_ne_nil _ _))
  | append_singleton s c ih =>
    rw [escape_concat] at h
    have last {inner : List Char} (eq : front = escape s ++ inner)
        (written : escapeChar c = inner ++ '"' :: back) : Odd (backslashes front) := by
      rw [eq, eq_of_quote written, backslashes_concat, if_pos rfl]
      exact (even_escape s).add_one
    rcases List.append_eq_append_iff.mp h with ⟨inner, eq, written⟩ | ⟨inner, eq, written⟩
    · exact last eq written
    · -- the quote is in what was written before, or it is the first character that is written now
      rcases inner with _ | ⟨q, inner⟩
      · have whole : front = escape s ++ [] := by rw [eq, List.append_nil, List.append_nil]
        exact last whole written.symm
      · obtain ⟨rfl, -⟩ := List.cons.inj written
        exact ih eq

end StringLiteral

namespace Rewrite

open StringLiteral

/-- The code in front of what is written into the literal, with the opening quote. -/
def opening : String := head ++ "\""

/-- The code behind what is written into the literal, with the closing quote. -/
def closing : String := "\"" ++ tail

theorem rewrite_eq (code : String) : rewrite code =
    opening ++ String.ofList (escape (marked code.toList)) ++ closing := by
  refine String.ext ?_
  simp [rewrite, rewriteChars, opening, closing]

theorem marked_injective : Function.Injective marked := fun _ _ same =>
  (List.cons.inj (List.append_cancel_left same)).2

theorem rewrite_injective : Function.Injective rewrite := by
  intro code other same
  have chars := String.ofList_injective same
  have escaped := List.append_cancel_left (List.append_cancel_right chars)
  -- the two literals have one value, and a value is the value of one code only
  have values := congrArg (run .text) (List.cons.inj escaped).2
  rw [run_escape, run_escape] at values
  have units := congrArg Prod.fst (Option.some.inj values)
  exact String.toList_injective (marked_injective (units_injective units))

/-- Rewritten code is a fixed text, then what is written between two quotes, then another fixed text.
Between the quotes no quote stands without a backslash that escapes it, no line ends, and there is no
backslash at the end that would escape the closing quote, so the literal ends there, and its value is the
marker, a semicolon and the code. Two codes are never rewritten to the same. -/
theorem rewrite_contained :
    ("eval(\"".toList <:+ opening.toList ∧ "\"".toList <+: closing.toList) ∧
    (∀ code : String, ∃ body : List Char,
      rewrite code = opening ++ String.ofList body ++ closing ∧
      (∀ front back, body = front ++ '"' :: back → Odd (backslashes front)) ∧
      (∀ c ∈ body, c ∉ lineTerminators) ∧
      Even (backslashes body) ∧
      ∀ rest, read .text (body ++ '"' :: rest) =
        some (units (rewriteMarker ++ ";" ++ code).toList, rest)) ∧
    Function.Injective rewrite := by
  refine ⟨⟨by decide +kernel, by decide +kernel⟩, fun code => ⟨escape (marked code.toList), rewrite_eq code,
    fun _ _ => odd_of_escape, fun _ => line_of_escape, even_escape _, fun rest => ?_⟩,
    rewrite_injective⟩
  rw [read_escape]
  simp [marked]

end Rewrite

end ShadowTaint
