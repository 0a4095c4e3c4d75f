import ShadowTaint.Text.Search
/-!
# Path texts

A path is a text whose parts stand between slashes. It is absolute when it begins with a slash.
Empty parts, and parts that are a single dot, do not count, except for a dot at the very start of a
path that is not absolute.

## Main definitions

- `Path.join`: a path taken from a directory on.
- `Path.parts`: the parts that count.
- `Path.parent?`: the path without its last part.
-/

namespace ShadowTaint.Path

/-- Whether a path begins at the root. -/
def isAbsolute (path : String) : Bool := path.toList.head? == some '/'

/-- A path taken from a directory on; an absolute path stays what it is. -/
def join (dir path : String) : String :=
  if isAbsolute path then path
  else if dir.isEmpty || dir.toList.getLast? == some '/' then dir ++ path
  else dir ++ "/" ++ path

/-- The texts between slashes. -/
def pieces (path : String) : List String :=
  (Text.splitAtChar '/' path.toList).map String.ofList

/-- The parts of a path that count, the root put aside. -/
def namedParts (path : String) : List String :=
  let kept := fun (s : String) => !s.isEmpty && s != "."
  match pieces path with
  | [] => []
  | first :: rest => (if first = "." then ["."] else [first].filter kept) ++ rest.filter kept

/-- The parts of a path that count; the root is a part of its own. -/
def parts (path : String) : List String :=
  (if isAbsolute path then ["/"] else []) ++ namedParts path

/-- The path with the given parts. -/
def ofParts (parts : List String) : String := parts.foldl join ""

/-- The pieces of a path, last one first, without those at the end of the path that do not
count. -/
def trimEnd : List String → List String
  | [] => []
  | piece :: rest =>
    if !rest.isEmpty && (piece.isEmpty || piece = ".") then trimEnd rest else piece :: rest

/-- The path without its last part. The root and the empty path have none. -/
def parent? (path : String) : Option String :=
  match trimEnd (pieces path).reverse with
  | [] => none
  | [piece] => if piece.isEmpty then none else some ""
  | _ :: rest => match trimEnd rest with
    | [piece] => some (if piece.isEmpty then "/" else piece)
    | kept => some ("/".intercalate kept.reverse)

/-- The name of the file that a path leads to, if it ends in a name. -/
def fileName? (path : String) : Option String :=
  match (namedParts path).getLast? with
  | some name => if name = "." || name = ".." then none else some name
  | none => none

/-- A path and those that are left when parts are taken off its end, at most `count` times. -/
def ancestorsWithin : Nat → String → List String
  | 0, path => [path]
  | count + 1, path => match parent? path with
    | none => [path]
    | some parent => path :: ancestorsWithin count parent

/-- A path and those that are left when parts are taken off its end, one after the other. -/
def ancestors (path : String) : List String := ancestorsWithin (pieces path).length path

end ShadowTaint.Path
