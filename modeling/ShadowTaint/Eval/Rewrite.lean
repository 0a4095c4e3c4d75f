/-!
# Code that runs inside a scope

Tainted code is replaced by code that opens a scope, evaluates the tainted code as a string
literal, closes the scope whatever happens and yields the value. The literal cannot be left from
inside: quotes, backslashes and line terminators are escaped.

## Main definitions

- `Rewrite.rewrite`: the code that is evaluated in place of tainted code.
-/

namespace ShadowTaint.Rewrite

/-- Code with this marker is left alone. -/
def instrumentMarker : String := "// JALANGI DO NOT INSTRUMENT"

/-- Code with this marker has been rewritten before. -/
def rewriteMarker : String := "__nodetaint_do_not_rewrite__"

/-- The name of the function that opens a scope. -/
def openScope : String := "__jalangi_push_eval_ctx__"

/-- The name of the function that closes a scope. -/
def closeScope : String := "__jalangi_pop_eval_ctx__"

/-- How a character is written inside a string literal. -/
def escapeChar (c : Char) : List Char :=
  if c = '\\' then ['\\', '\\']
  else if c = '"' then ['\\', '"']
  else if c = '\n' then ['\\', 'n']
  else if c = '\r' then ['\\', 'r']
  else if c.toNat = 0x2028 then "\\u2028".toList
  else if c.toNat = 0x2029 then "\\u2029".toList
  else [c]

/-- The inside of a string literal. -/
def escape (code : List Char) : List Char := code.flatMap escapeChar

/-- The code in front of the string literal. -/
def head : String :=
  "var __orig__ = undefined; " ++ openScope ++ "(); try\x7b __orig__ = eval("

/-- The code after the string literal. -/
def tail : String := ");\x7dfinally\x7b" ++ closeScope ++ "(); __orig__;\x7d"

/-- What the string literal stands for: the marker and the code. -/
def marked (code : List Char) : List Char := rewriteMarker.toList ++ ';' :: code

/-- The code that is evaluated in place of tainted code. -/
def rewriteChars (code : List Char) : List Char :=
  head.toList ++ '"' :: escape (marked code) ++ '"' :: tail.toList

/-- The code that is evaluated in place of tainted code. -/
def rewrite (code : String) : String := String.ofList (rewriteChars code.toList)

end ShadowTaint.Rewrite
