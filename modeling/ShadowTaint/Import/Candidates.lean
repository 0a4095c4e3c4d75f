import ShadowTaint.Files.Path
import ShadowTaint.Import
/-!
# Where a module is looked for

A package is looked for in the directory `node_modules` of the directory of the loading script and
of every directory around it, the innermost first, and then below the home directory. A directory
that is itself called `node_modules` is left out.

## Main definitions

- `ImportTag.candidates`: the paths at which a loader tries a module, in order.
-/

namespace ShadowTaint.ImportTag

/-- The name of the directories that hold packages. -/
def packageDirectory : String := "node_modules"

/-- A directory and the ones around it, as lists of parts, the innermost first. -/
def enclosing (parts : List String) : List (List String) :=
  (List.range parts.length).reverse.map fun n => parts.take (n + 1)

/-- The paths at which a package is tried for a script in `dir`. -/
def packagePaths (dir modulePath : String) : List String :=
  ((enclosing (Path.parts dir)).filter fun parts => parts.getLast? != some packageDirectory).map
    fun parts => Path.join (Path.join (Path.ofParts parts) packageDirectory) modulePath

/-- The paths at which a loader tries a module, in order, for a script in `dir`. -/
def candidates (tag : ImportTag) (dir : String) (home : Option String) : List String :=
  match tag.kind with
  | .builtin => [tag.modulePath]
  | .project => [Path.join dir tag.modulePath]
  | .dependency =>
    packagePaths dir tag.modulePath ++ match home with
      | none => []
      | some home =>
        [".node_modules", ".node_libraries"].map fun name =>
          Path.join (Path.join home name) tag.modulePath

end ShadowTaint.ImportTag
