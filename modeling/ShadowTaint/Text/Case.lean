import ShadowTaint.Text.CaseTable
/-!
# Case conversion of texts

Conversion follows the full case mappings: one character may become several, and a capital sigma
becomes the final form when it ends a word. `sameLetter` compares a character with an ASCII
character without regard to case.
-/

namespace ShadowTaint.Text

/-- Whether a code point lies in one of the ranges. -/
def inRanges (ranges : List (Nat × Nat)) (c : Char) : Bool :=
  ranges.any fun r => decide (r.1 ≤ c.toNat) && decide (c.toNat ≤ r.2)

/-- The image of a code point in the first run that covers it. -/
def imageInRuns (runs : List (Nat × Nat × Nat × Nat)) (n : Nat) : Option Nat :=
  runs.findSome? fun (first, last, stride, image) =>
    if first ≤ n ∧ n ≤ last ∧ (n - first) % stride = 0 then some (image + (n - first)) else none

/-- The image of a character: an entry of its own, a run, or the character itself. -/
def caseImage (specials : List (Nat × List Nat)) (runs : List (Nat × Nat × Nat × Nat)) (c : Char) :
    List Char :=
  match specials.find? fun e => e.1 = c.toNat with
  | some (_, image) => image.map Char.ofNat
  | none => match imageInRuns runs c.toNat with
    | some n => [Char.ofNat n]
    | none => [c]

/-- The lower-case image of a character, taken alone. -/
def lowerImage (c : Char) : List Char := caseImage lowerSpecials lowerRuns c

/-- The upper-case image of a character. -/
def upperImage (c : Char) : List Char := caseImage upperSpecials upperRuns c

/-- Whether the first character that is not passed over is a letter with case. -/
def startsCased (cs : List Char) : Bool :=
  match cs.dropWhile (inRanges ignorableRanges) with
  | [] => false
  | c :: _ => inRanges casedRanges c

/-- Lower-case form of a text of which `before` has been read, last character first. -/
def lowerAfter (before : List Char) : List Char → List Char
  | [] => []
  | c :: rest =>
    let image :=
      if c = 'Σ' then [if startsCased before && !startsCased rest then 'ς' else 'σ']
      else lowerImage c
    image ++ lowerAfter (c :: before) rest

/-- The text in lower case. -/
def toLower (s : String) : String := String.ofList (lowerAfter [] s.toList)

/-- The text in upper case. -/
def toUpper (s : String) : String := String.ofList (s.toList.flatMap upperImage)

/-- The ASCII letter that a character equals without regard to case, or the character itself. -/
def foldLetter (c : Char) : Char :=
  if c = 'ſ' then 's' else if c = 'K' then 'k' else c.toLower

/-- Whether `keyword`, a text of ASCII characters, occurs without regard to case. -/
def occursFolded (keyword s : List Char) : Bool :=
  match s with
  | [] => keyword.isEmpty
  | c :: rest =>
    (keyword.map foldLetter).isPrefixOf ((c :: rest).map foldLetter) || occursFolded keyword rest

end ShadowTaint.Text
