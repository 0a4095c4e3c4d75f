import ShadowTaint.Files.Path
import ShadowTaint.Table
/-!
# Files

Reading and writing of files, first as operations that a surrounding program provides, and then on
a tree of files that is a plain value. A path is resolved part by part: every part but the last has
to be a directory, and `..` leads back out of one.

## Main definitions

- `FileAccess`: the operations on files.
- `Disk`: a tree of files, with `Disk.read` and `Disk.write`.
-/

namespace ShadowTaint

/-- Why a file could not be read or written. -/
inductive FileFault where
  | notFound
  | notDirectory
  | isDirectory
  | notText
  | other (message : String)
deriving DecidableEq, Repr

/-- What a file fault says. -/
def FileFault.message : FileFault → String
  | .notFound => "No such file or directory (os error 2)"
  | .notDirectory => "Not a directory (os error 20)"
  | .isDirectory => "Is a directory (os error 21)"
  | .notText => "stream did not contain valid UTF-8"
  | .other message => message

/-- The operations on files that a command needs. -/
class FileAccess (m : Type → Type) where
  /-- The text in a file. -/
  readText : String → m (Except FileFault String)
  /-- Puts a text into a file. -/
  writeText : String → String → m (Except FileFault Unit)
  /-- Makes a file, and the directories around it, unless they are there. -/
  createFile : String → m (Except FileFault Unit)
  /-- Whether there is a file or a directory. -/
  pathExists : String → m Bool
  /-- The directory in which the command runs. -/
  currentDirectory : m String

/-- A file, or a directory. -/
inductive DiskEntry where
  | file (contents : String)
  | directory
deriving DecidableEq, Repr

/-- A tree of files: the entries by their parts from the root on. The root itself is always a
directory. Paths that are not absolute are taken from `home` on. -/
structure Disk where
  home : String := "/"
  entries : Table (List String) DiskEntry := .empty

namespace Disk

/-- The entry at a place, whose parts are given last one first. -/
def entry? (d : Disk) (place : List String) : Option DiskEntry :=
  if place.isEmpty then some .directory else d.entries.get? place.reverse

/-- Follows the parts of a path from a directory on. Returns the place it leads to, last part
first; that place need not exist, but everything on the way there does. -/
def follow (d : Disk) (place : List String) : List String → Except FileFault (List String)
  | [] => .ok place
  | part :: rest => match d.entry? place with
    | none => .error .notFound
    | some (.file _) => .error .notDirectory
    | some .directory =>
      if part.isEmpty || part = "." then follow d place rest
      else if part = ".." then follow d place.tail rest
      else follow d (part :: place) rest

/-- The place that a path leads to. A slash at its end asks for a directory. -/
def resolve (d : Disk) (path : String) : Except FileFault (List String) :=
  if path.isEmpty then .error .notFound
  else d.follow [] (Path.pieces (Path.join d.home path))

/-- The text in a file. -/
def read (d : Disk) (path : String) : Except FileFault String :=
  match d.resolve path with
  | .error e => .error e
  | .ok place => match d.entry? place with
    | none => .error .notFound
    | some .directory => .error .isDirectory
    | some (.file contents) => .ok contents

/-- Whether there is a file or a directory at a path. -/
def exists? (d : Disk) (path : String) : Bool :=
  match d.resolve path with
  | .error _ => false
  | .ok place => (d.entry? place).isSome

/-- Puts a text into a file, which is made if its directory exists. A path that ends in a slash
asks for a directory, which cannot be written to. -/
def write (d : Disk) (path contents : String) : Except FileFault Disk :=
  let bare := String.ofList (path.toList.reverse.dropWhile (· == '/')).reverse
  match d.resolve (if bare.isEmpty then path else bare) with
  | .error e => .error e
  | .ok place => match d.entry? place, d.entry? place.tail with
    | some .directory, _ => .error .isDirectory
    | _, none => .error .notFound
    | _, some (.file _) => .error .notDirectory
    | some (.file _), some .directory =>
      if bare = path then
        .ok { d with entries := d.entries.insert place.reverse (.file contents) }
      else .error .notDirectory
    | none, some .directory =>
      if bare = path then
        .ok { d with entries := d.entries.insert place.reverse (.file contents) }
      else .error .isDirectory

/-- Makes a directory and those it lies in. -/
def makeDirectory (d : Disk) (parts : List String) : Disk :=
  (List.range parts.length).foldl (fun d i =>
    let place := parts.take (i + 1)
    if d.entries.contains place then d
    else { d with entries := d.entries.insert place .directory }) d

/-- Makes a file, and the directories around it, unless they are there. -/
def create (d : Disk) (path : String) : Except FileFault Disk :=
  if d.exists? path then (d.read path).map fun _ => d
  else match d.write path "" with
    | .ok d => .ok d
    | .error _ =>
      let parts := Path.namedParts (Path.join d.home path)
      (d.makeDirectory parts.dropLast).write path ""

/-- The entries directly inside a directory, by name. -/
def contents (d : Disk) (parts : List String) : List (String × DiskEntry) :=
  d.entries.entries.filterMap fun (place, e) =>
    match place.reverse with
    | name :: rest => if rest.reverse = parts then some (name, e) else none
    | [] => none

end Disk

instance : FileAccess (StateM Disk) where
  readText path := do return (← get).read path
  writeText path contents := do
    match (← get).write path contents with
    | .error e => return .error e
    | .ok d =>
      set d
      return .ok ()
  createFile path := do
    match (← get).create path with
    | .error e => return .error e
    | .ok d =>
      set d
      return .ok ()
  pathExists path := do return (← get).exists? path
  currentDirectory := do return (← get).home

end ShadowTaint
