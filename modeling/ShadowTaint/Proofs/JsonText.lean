import ShadowTaint.Json.Reader
/-!
# Written documents are read back

A document that is written with line breaks and blanks is read as the same document, whatever text its
strings hold. Numbers are left out: they are kept by their spelling, which need not be one of JSON.

## Main definitions

- `Json.toRead`: a document as it is read, where strings are texts that may be missing.
- `Json.Numberless`: a document without numbers.

## Main statements

- `Json.readString_quote`: a string in quotes is read back, with all that was escaped.
- `Json.read?_pretty`: a document is read back.
-/

namespace ShadowTaint.Json

/-! ## Strings -/

/-- The piece stands for the character: it is the character, or the unit of one that has to be escaped. -/
inductive StringPiece.Spells : StringPiece → Char → Prop where
  | char (c : Char) : Spells (.char c) c
  | unit {c : Char} (control : c.toNat < 32) : Spells (.unit c.toNat) c

theorem unitOf?_hexDigits {n : Nat} (small : n < 32) :
    unitOf? '0' '0' (hexDigit (n / 16)) (hexDigit (n % 16)) = some n := by
  revert n
  decide

/-- The text goes on with a piece, whatever comes behind it. -/
def Begins (cs : List Char) (piece : StringPiece) : Prop :=
  ∀ s, readPieces (cs ++ s) = (readPieces s).map fun p => (piece :: p.1, p.2)

theorem begins_letter {e c : Char} (letter : escaped? e = some c) (other : e ≠ 'u') :
    Begins ['\\', e] (.char c) := by
  intro s
  rw [List.cons_append, List.cons_append, List.nil_append, readPieces.eq_4 _ _ (by simp [other]), letter]
  cases readPieces s <;> rfl

theorem begins_unit {a b c d : Char} {n : Nat} (unit : unitOf? a b c d = some n) :
    Begins ['\\', 'u', a, b, c, d] (.unit n) := by
  intro s
  simp only [List.cons_append, List.nil_append, readPieces, unit]
  cases readPieces s <;> rfl

theorem begins_char {c : Char} (quote : c ≠ '"') (backslash : c ≠ '\\') (control : ¬ c.toNat < 32) :
    Begins [c] (.char c) := by
  intro s
  rw [List.cons_append, List.nil_append, readPieces.eq_5 c s quote
    (fun _ _ _ _ _ same => absurd same backslash) (fun _ _ same => absurd same backslash),
    if_neg (by simp [control, backslash])]
  cases readPieces s <;> rfl

/-- A character that is written in a string is read as one piece. -/
theorem begins_escapeChar (c : Char) :
    ∃ piece : StringPiece, piece.Spells c ∧ Begins (escapeChar c) piece := by
  by_cases quote : c = '"'
  · subst quote
    exact ⟨_, .char _, begins_letter rfl (by decide)⟩
  by_cases backslash : c = '\\'
  · subst backslash
    exact ⟨_, .char _, begins_letter rfl (by decide)⟩
  by_cases feed : c = '\n'
  · subst feed
    exact ⟨_, .char _, begins_letter rfl (by decide)⟩
  by_cases back : c = '\r'
  · subst back
    exact ⟨_, .char _, begins_letter rfl (by decide)⟩
  by_cases tab : c = '\t'
  · subst tab
    exact ⟨_, .char _, begins_letter rfl (by decide)⟩
  by_cases eight : c.toNat = 8
  · obtain rfl : c = '\x08' := Char.toNat_inj.mp eight
    exact ⟨_, .char _, begins_letter rfl (by decide)⟩
  by_cases twelve : c.toNat = 12
  · obtain rfl : c = '\x0c' := Char.toNat_inj.mp twelve
    exact ⟨_, .char _, begins_letter rfl (by decide)⟩
  rw [escapeChar, if_neg quote, if_neg backslash, if_neg feed, if_neg back, if_neg tab, if_neg eight,
    if_neg twelve]
  by_cases control : c.toNat < 32
  · rw [if_pos control]
    exact ⟨_, .unit control, begins_unit (unitOf?_hexDigits control)⟩
  · rw [if_neg control]
    exact ⟨_, .char c, begins_char quote backslash control⟩

/-- A piece is put together with those behind it. -/
theorem textOf?_cons {piece : StringPiece} {c : Char} (spells : piece.Spells c)
    (pieces : List StringPiece) : textOf? (piece :: pieces) = (textOf? pieces).map (c :: ·) := by
  cases spells with
  | char => rw [textOf?]
  | unit control =>
    have high : isHighUnit c.toNat = false := by
      simp only [isHighUnit, Bool.and_eq_false_iff, decide_eq_false_iff_not]
      omega
    have low : isLowUnit c.toNat = false := by
      simp only [isLowUnit, Bool.and_eq_false_iff, decide_eq_false_iff_not]
      omega
    rcases pieces with _ | ⟨_ | unit, pieces⟩
    · simp [textOf?, high, low]
    · simp [textOf?, high, low]
    · simp [textOf?, high, low]

theorem readPieces_escaped (cs rest : List Char) :
    ∃ pieces, readPieces (cs.flatMap escapeChar ++ '"' :: rest) = some (pieces, rest) ∧
      textOf? pieces = some cs := by
  induction cs with
  | nil => exact ⟨[], by rw [List.flatMap_nil, List.nil_append, readPieces], rfl⟩
  | cons c cs ih =>
    obtain ⟨piece, spells, begins⟩ := begins_escapeChar c
    obtain ⟨pieces, read, text⟩ := ih
    refine ⟨piece :: pieces, ?_, by rw [textOf?_cons spells, text, Option.map_some]⟩
    rw [List.flatMap_cons, List.append_assoc, begins, read, Option.map_some]

theorem quote_append (s : String) (rest : List Char) :
    quote s ++ rest = '"' :: (s.toList.flatMap escapeChar ++ '"' :: rest) := by
  simp [quote]

/-- A string in quotes is read back, and nothing of what follows. -/
theorem readString_quote (s : String) (rest : List Char) :
    readString (s.toList.flatMap escapeChar ++ '"' :: rest) = some (some s, rest) := by
  obtain ⟨pieces, read, text⟩ := readPieces_escaped s.toList rest
  rw [readString, read, Option.map_some, text, Option.map_some, String.ofList_toList]

/-! ## Documents -/

mutual

/-- The document as it is read: every string is a text. -/
def toRead : Json String → Json (Option String)
  | .null => .null
  | .bool b => .bool b
  | .number spelling => .number spelling
  | .string s => .string (some s)
  | .array items => .array (itemsToRead items)
  | .object members => .object (membersToRead members)

/-- The items of an array as they are read. -/
def itemsToRead : List (Json String) → List (Json (Option String))
  | [] => []
  | item :: rest => toRead item :: itemsToRead rest

/-- The members of an object as they are read. -/
def membersToRead : List (String × Json String) → List (Option String × Json (Option String))
  | [] => []
  | (key, v) :: rest => (some key, toRead v) :: membersToRead rest

end

mutual

/-- The document has no numbers in it. -/
def Numberless : Json String → Prop
  | .number _ => False
  | .array items => NumberlessItems items
  | .object members => NumberlessMembers members
  | _ => True

/-- No item has numbers in it. -/
def NumberlessItems : List (Json String) → Prop
  | [] => True
  | item :: rest => Numberless item ∧ NumberlessItems rest

/-- No member has numbers in it. -/
def NumberlessMembers : List (String × Json String) → Prop
  | [] => True
  | (_, v) :: rest => Numberless v ∧ NumberlessMembers rest

end

theorem skipBlanks_newLine (indent depth : Nat) (s : List Char) :
    skipBlanks (newLine indent depth ++ s) = skipBlanks s := by
  have blanks (n : Nat) : skipBlanks (List.replicate n ' ' ++ s) = skipBlanks s := by
    induction n with
    | zero => rfl
    | succ n ih => exact ih
  exact blanks _

theorem skipBlanks_of_not_blank {c : Char} (solid : isBlank c = false) (s : List Char) :
    skipBlanks (c :: s) = c :: s := by
  rw [skipBlanks, List.dropWhile_cons_of_neg (by simp [solid])]

/-- A document begins with no blank and with no closing bracket. -/
theorem prettyAt_cons {j : Json String} (numberless : j.Numberless) (indent depth : Nat) :
    ∃ c s, j.prettyAt indent depth = c :: s ∧ isBlank c = false ∧ c ≠ ']' := by
  match j with
  | .null => exact ⟨_, _, by rw [prettyAt], by decide⟩
  | .bool true => exact ⟨_, _, by rw [prettyAt], by decide⟩
  | .bool false => exact ⟨_, _, by rw [prettyAt], by decide⟩
  | .number _ => rw [Numberless] at numberless; exact numberless.elim
  | .string _ => exact ⟨_, _, by rw [prettyAt, quote, List.cons_append], by decide⟩
  | .array [] => exact ⟨_, _, by rw [prettyAt], by decide⟩
  | .array (_ :: _) => exact ⟨_, _, by simp only [prettyAt, List.cons_append]; rfl, by decide⟩
  | .object [] => exact ⟨_, _, by rw [prettyAt], by decide⟩
  | .object (_ :: _) => exact ⟨_, _, by simp only [prettyAt, List.cons_append]; rfl, by decide⟩

theorem readValue_newLine (fuel indent depth : Nat) (s : List Char) :
    readValue fuel (newLine indent depth ++ s) = readValue fuel s := by
  cases fuel with
  | zero => rw [readValue, readValue]
  | succ fuel => rw [readValue, readValue, skipBlanks_newLine]

theorem readItems_newLine (fuel indent depth : Nat) (s : List Char) :
    readItems fuel (newLine indent depth ++ s) = readItems fuel s := by
  cases fuel with
  | zero => rw [readItems, readItems]
  | succ fuel => rw [readItems, readItems, readValue_newLine]

theorem readMembers_newLine (fuel indent depth : Nat) (s : List Char) :
    readMembers fuel (newLine indent depth ++ s) = readMembers fuel s := by
  cases fuel with
  | zero => rw [readMembers, readMembers]
  | succ fuel => rw [readMembers, readMembers, skipBlanks_newLine]

theorem readValue_blank (fuel : Nat) (s : List Char) : readValue fuel (' ' :: s) = readValue fuel s := by
  cases fuel with
  | zero => rw [readValue, readValue]
  | succ fuel =>
    rw [readValue, readValue]
    rfl

section Members

variable {fuel : Nat} {key : String} {v : Json (Option String)} {s rest tail : List Char}

/-- A key in quotes, its colon and its value are read in this order. -/
theorem readMembers_last (read : readValue fuel s = some (v, rest))
    (closed : skipBlanks rest = '\x7d' :: tail) :
    readMembers (fuel + 1) (quote key ++ ':' :: ' ' :: s) = some ([(some key, v)], tail) := by
  rw [quote_append, readMembers, skipBlanks_of_not_blank (by decide)]
  simp only [readString_quote, skipBlanks_of_not_blank (show isBlank ':' = false by decide),
    readValue_blank, read, closed]

theorem readMembers_more (read : readValue fuel s = some (v, rest))
    (more : skipBlanks rest = ',' :: tail) :
    readMembers (fuel + 1) (quote key ++ ':' :: ' ' :: s) =
      (readMembers fuel tail).map fun p => ((some key, v) :: p.1, p.2) := by
  rw [quote_append, readMembers, skipBlanks_of_not_blank (by decide)]
  simp only [readString_quote, skipBlanks_of_not_blank (show isBlank ':' = false by decide),
    readValue_blank, read, more]

end Members

mutual

/-- A document is read back from its text, and nothing of what follows. -/
theorem readValue_prettyAt (indent : Nat) : (j : Json String) → j.Numberless →
    ∀ (depth fuel : Nat) (rest : List Char), 2 * (j.prettyAt indent depth).length ≤ fuel →
      readValue fuel (j.prettyAt indent depth ++ rest) = some (j.toRead, rest)
  | .null, _, depth, fuel + 1, rest, _ => by
    rw [prettyAt, readValue]
    rfl
  | .bool true, _, depth, fuel + 1, rest, _ => by
    rw [prettyAt, readValue]
    rfl
  | .bool false, _, depth, fuel + 1, rest, _ => by
    rw [prettyAt, readValue]
    rfl
  | .number _, numberless, _, _, _, _ => by
    rw [Numberless] at numberless
    exact numberless.elim
  | .string s, _, depth, fuel + 1, rest, _ => by
    rw [prettyAt, quote_append, readValue, skipBlanks_of_not_blank (by decide)]
    simp only [readString_quote, Option.map_some]
    rfl
  | .array [], _, depth, fuel + 1, rest, _ => by
    rw [prettyAt, readValue]
    rfl
  -- a bracket and a line break stand in front of the first item, so two steps of fuel are to spare
  | .array (item :: items), numberless, depth, fuel + 2, rest, enough => by
    rw [Numberless, NumberlessItems] at numberless
    obtain ⟨first, others⟩ := numberless
    simp only [prettyAt, newLine, List.cons_append, List.length_append, List.length_cons] at enough
    have read := readItems_prettyItems indent items others (depth + 1) depth fuel item.toRead _ rest
      (by omega) (readValue_prettyAt indent item first (depth + 1) fuel _ (by omega))
    -- the reader looks for a closing bracket first, and the item does not begin with one
    obtain ⟨c, s, text, solid, bracket⟩ := prettyAt_cons first indent (depth + 1)
    rw [text, List.cons_append] at read
    rw [prettyAt, readValue]
    simp only [List.cons_append, List.append_assoc, List.nil_append, text,
      skipBlanks_of_not_blank (show isBlank '[' = false by decide), skipBlanks_newLine,
      skipBlanks_of_not_blank solid, readItems_newLine, read]
    split
    · rename_i closed
      exact absurd (List.cons.inj closed).1 bracket
    · rfl
  | .object [], _, depth, fuel + 1, rest, _ => by
    rw [prettyAt, readValue]
    rfl
  | .object ((key, v) :: members), numberless, depth, fuel + 2, rest, enough => by
    rw [Numberless, NumberlessMembers] at numberless
    obtain ⟨first, others⟩ := numberless
    simp only [prettyAt, newLine, List.cons_append, List.length_append, List.length_cons] at enough
    have read := readMembers_prettyMembers indent members others (depth + 1) depth fuel key v.toRead _ rest
      (by omega) (readValue_prettyAt indent v first (depth + 1) fuel _ (by omega))
    rw [prettyAt, readValue]
    simp only [quote, List.cons_append, List.append_assoc, List.nil_append] at read ⊢
    simp only [skipBlanks_of_not_blank (show isBlank '\x7b' = false by decide), skipBlanks_newLine,
      skipBlanks_of_not_blank (show isBlank '"' = false by decide), readMembers_newLine, read]
    rfl

/-- When the first item of an array has been read, the others are read back, up to the closing bracket
on a line of its own. -/
theorem readItems_prettyItems (indent : Nat) : (items : List (Json String)) → NumberlessItems items →
    ∀ (depth outer fuel : Nat) (item : Json (Option String)) (s rest : List Char),
      2 * (prettyItems indent depth items).length ≤ fuel →
      readValue fuel s = some (item,
        prettyItems indent depth items ++ (newLine indent outer ++ ']' :: rest)) →
      readItems (fuel + 1) s = some (item :: itemsToRead items, rest)
  | [], _, depth, outer, fuel, item, s, rest, _, read => by
    rw [readItems, read]
    simp only [prettyItems, List.nil_append, skipBlanks_newLine,
      skipBlanks_of_not_blank (show isBlank ']' = false by decide)]
    rfl
  | next :: items, numberless, depth, outer, fuel + 1, item, s, rest, enough, read => by
    rw [NumberlessItems] at numberless
    obtain ⟨first, others⟩ := numberless
    simp only [prettyItems, newLine, List.cons_append, List.length_append, List.length_cons] at enough
    rw [readItems, read]
    simp only [prettyItems, List.cons_append, List.append_assoc,
      skipBlanks_of_not_blank (show isBlank ',' = false by decide), readItems_newLine]
    rw [readItems_prettyItems indent items others depth outer fuel next.toRead _ rest (by omega)
      (readValue_prettyAt indent next first depth fuel _ (by omega))]
    rfl

/-- When the first value of an object has been read, the other members are read back, up to the closing
brace on a line of its own. -/
theorem readMembers_prettyMembers (indent : Nat) : (members : List (String × Json String)) →
    NumberlessMembers members →
    ∀ (depth outer fuel : Nat) (key : String) (v : Json (Option String)) (s rest : List Char),
      2 * (prettyMembers indent depth members).length ≤ fuel →
      readValue fuel s = some (v,
        prettyMembers indent depth members ++ (newLine indent outer ++ '\x7d' :: rest)) →
      readMembers (fuel + 1) (quote key ++ ':' :: ' ' :: s) =
        some ((some key, v) :: membersToRead members, rest)
  | [], _, depth, outer, fuel, key, v, s, rest, _, read => by
    rw [readMembers_last read (by
      rw [prettyMembers, List.nil_append, skipBlanks_newLine, skipBlanks_of_not_blank (by decide)])]
    rfl
  | (next, w) :: members, numberless, depth, outer, fuel + 1, key, v, s, rest, enough, read => by
    rw [NumberlessMembers] at numberless
    obtain ⟨first, others⟩ := numberless
    simp only [prettyMembers, newLine, List.cons_append, List.length_append, List.length_cons] at enough
    rw [readMembers_more read (by
      simp only [prettyMembers, List.cons_append]
      exact skipBlanks_of_not_blank (by decide) _)]
    simp only [List.append_assoc, List.cons_append, List.nil_append, readMembers_newLine]
    rw [readMembers_prettyMembers indent members others depth outer fuel next w.toRead _ rest (by omega)
      (readValue_prettyAt indent w first depth fuel _ (by omega))]
    rfl

end

/-- A document without numbers is read back from its text. -/
theorem read?_pretty (indent : Nat) {j : Json String} (numberless : j.Numberless) :
    read? (j.pretty indent) = some j.toRead := by
  have read := readValue_prettyAt indent j numberless 0 (2 * (j.prettyAt indent 0).length + 2) []
    (by omega)
  rw [List.append_nil] at read
  simp only [read?, pretty, String.toList_ofList, read, Option.bind_some]
  rfl

end ShadowTaint.Json
