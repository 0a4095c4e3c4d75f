/-!
# Text on a terminal

Words of the output are set off by colours and weights where the output is coloured. A field of
fixed width is filled up before it is set off, so that the marks do not count.
-/

namespace ShadowTaint.Terminal

/-- The ways of setting a text off. -/
inductive Mark where
  | bold
  | dimmed
  | red
  | green
  | yellow
  | cyan
deriving DecidableEq, Repr

/-- The number that switches a mark on. -/
def Mark.code : Mark → String
  | .bold => "1"
  | .dimmed => "2"
  | .red => "31"
  | .green => "32"
  | .yellow => "33"
  | .cyan => "36"

/-- What switches all marks off. -/
def reset : String := "\x1b[0m"

/-- A text that is set off, if the output is coloured. The marks are switched on again behind
everything in the text that switches them off. -/
def paint (colors : Bool) (marks : List Mark) (s : String) : String :=
  if colors then
    let start := "\x1b[" ++ ";".intercalate (marks.map Mark.code) ++ "m"
    start ++ s.replace reset (reset ++ start) ++ reset
  else s

/-- A text with blanks behind it up to a width. -/
def padRight (width : Nat) (s : String) : String :=
  s ++ String.ofList (List.replicate (width - s.length) ' ')

end ShadowTaint.Terminal
