/-!
# Imported modules

The result of loading a module is tagged with where the module comes from: built into the runtime,
a dependency, or code of the same project. Built-in modules and dependencies are external.
-/

namespace ShadowTaint

/-- Where a module comes from. -/
inductive ModuleKind where
  | builtin
  | dependency
  | project
deriving DecidableEq, Repr

/-- The name under which a kind of module is reported. -/
def ModuleKind.name : ModuleKind → String
  | .builtin => "builtin"
  | .dependency => "dependency"
  | .project => "internal"

/-- The modules that the runtime brings along. -/
def builtinModules : List String :=
  ["assert", "buffer", "child_process", "cluster", "crypto", "dgram", "dns", "events", "fs",
   "http", "http2", "https", "net", "os", "path", "process", "querystring", "readline", "stream",
   "string_decoder", "timers", "tls", "tty", "url", "util", "v8", "vm", "worker_threads", "zlib"]

/-- The tag of an object that came out of loading a module. -/
structure ImportTag where
  kind : ModuleKind
  modulePath : String
deriving DecidableEq, Repr

namespace ImportTag

/-- The rest of a text after a start it may have. -/
def afterStart (start s : List Char) : List Char :=
  if start.isPrefixOf s then s.drop start.length else s

/-- Whether a module path names a file rather than a package. -/
def isFilePath (path : List Char) : Bool :=
  "./".toList.isPrefixOf path || "../".toList.isPrefixOf path || "/".toList.isPrefixOf path

/-- The tag of a module path. A built-in module may be written with the scheme `node:`. -/
def classify (path : String) : ImportTag :=
  let name := String.ofList (afterStart "node:".toList path.toList)
  let kind :=
    if name ∈ builtinModules then .builtin
    else if isFilePath path.toList then .project
    else .dependency
  ⟨kind, path⟩

/-- Whether the module's code is not part of the analysed project. -/
def isExternal (tag : ImportTag) : Bool := tag.kind != .project

/-- Whether the module is built into the runtime. -/
def isBuiltin (tag : ImportTag) : Bool := tag.kind == .builtin

/-- Whether the module belongs to the analysed project. -/
def isProject (tag : ImportTag) : Bool := tag.kind == .project

end ImportTag

end ShadowTaint
