import ShadowTaint.CommandLine.Run
import ShadowTaint.Proofs.Action
import ShadowTaint.Proofs.JsonText
import ShadowTaint.Proofs.Sanitizers
/-!
# Written exports are read back

The JSON text of an export is read back as the export. The text lists the nodes in the order of their
numbers, a reader sorts them by the spelling of the numbers, where `10` comes before `2`, and the numbers
that it reads off the spellings bring the nodes back into their order. So the commands on a written file
show what they show of the export itself.

## Main definitions

- `Export.spelled`: a node under the spelling of its number.
- `Disk.put`: a disk with an entry put at a place.

## Main statements

- `Export.read_jsonText`: an export is read back from its text.
- `Disk.read_of_write`: a file that has been written holds what was written.
- `CommandLine.commands_on_written`: triage and drawing of a written file are those of the export.
-/

namespace ShadowTaint

open Json (Numberless NumberlessItems NumberlessMembers)

namespace Provenance

/-! ## Nodes -/

theorem numberlessItems_strings (ss : List String) : NumberlessItems (ss.map Json.string) := by
  induction ss with
  | nil => exact trivial
  | cons s rest ih => exact ⟨trivial, ih⟩

theorem ExportNode.numberless_toJson (n : ExportNode) : n.toJson.Numberless :=
  ⟨trivial, trivial, trivial, numberlessItems_strings n.flowsFrom, trivial⟩

theorem Document.members?_toRead (members : List (String × Json String)) :
    Document.members? (.object (Json.membersToRead members)) =
      some (members.map fun m => (m.1, m.2.toRead)) := by
  show (Json.membersToRead members).mapM _ = _
  induction members with
  | nil => rfl
  | cons m rest ih =>
    rw [Json.membersToRead, List.mapM_cons, ih]
    rfl

theorem Document.texts?_toRead (ss : List String) :
    Document.texts? (.array (Json.itemsToRead (ss.map .string))) = some ss := by
  show (Json.itemsToRead (ss.map .string)).mapM _ = _
  induction ss with
  | nil => rfl
  | cons s rest ih =>
    rw [List.map_cons, Json.itemsToRead, List.mapM_cons, ih]
    rfl

/-- A node is read back from its JSON object. -/
theorem ExportNode.ofDocument?_toRead (n : ExportNode) :
    ExportNode.ofDocument? n.toJson.toRead = some n := by
  rw [ExportNode.toJson, Json.toRead, ofDocument?, Document.members?_toRead]
  simp [Document.field?, ofFields?, Json.toRead, Document.text?, Document.bool?, Document.texts?_toRead]

namespace Export

/-! ## Exports -/

variable {id : Nat} {n : ExportNode} {nodes : List (Nat × ExportNode)}

theorem numberless_toJson (e : Export) : e.toJson.Numberless := by
  show NumberlessMembers (e.nodes.map _)
  induction e.nodes with
  | nil => exact trivial
  | cons m rest ih => exact ⟨m.2.numberless_toJson, ih⟩

/-- A node under the spelling of its number. -/
def spelled (m : Nat × ExportNode) : String × ExportNode := (toString m.1, m.2)

/-- Sorting a node under a new number in among others by spelling adds it somewhere. -/
theorem insertKey_spelled (new : id ∉ nodes.map (·.1)) :
    ∃ nodes' : List (Nat × ExportNode), insertKey (toString id) n (nodes.map spelled) = nodes'.map spelled ∧
      nodes'.Perm ((id, n) :: nodes) := by
  induction nodes with
  | nil => exact ⟨[(id, n)], rfl, .refl _⟩
  | cons m rest ih =>
    rw [List.map_cons, List.mem_cons, not_or] at new
    obtain ⟨other, new⟩ := new
    have spelling : toString id ≠ toString m.1 := fun same => other (Text.eq_of_toString_eq same)
    rw [List.map_cons, spelled, insertKey, if_neg spelling]
    by_cases before : toString id < toString m.1
    · exact ⟨(id, n) :: m :: rest, by rw [if_pos before]; rfl, .refl _⟩
    · obtain ⟨nodes', sorted, perm⟩ := ih new
      exact ⟨m :: nodes', by rw [if_neg before, sorted]; rfl,
        (perm.cons m).trans (.swap (id, n) m rest)⟩

theorem fst_notMem_of_nodup {m : Nat × ExportNode} {sorted : List (Nat × ExportNode)}
    (distinct : ((m :: nodes ++ sorted).map (·.1)).Nodup) : m.1 ∉ sorted.map (·.1) := by
  rw [List.cons_append, List.map_cons, List.nodup_cons, List.map_append, List.mem_append, not_or]
    at distinct
  exact distinct.1.2

/-- Sorting nodes by the spelling of their numbers loses none. -/
theorem foldl_insertKey_spelled {sorted : List (Nat × ExportNode)}
    (distinct : ((nodes ++ sorted).map (·.1)).Nodup) :
    ∃ sorted' : List (Nat × ExportNode), (nodes.map spelled).foldl
        (fun sorted m => insertKey m.1 m.2 sorted) (sorted.map spelled) = sorted'.map spelled ∧
      sorted'.Perm (nodes ++ sorted) := by
  -- the nodes that are sorted stay spelled, and together with those to come they stay the same nodes
  induction nodes generalizing sorted with
  | nil => exact ⟨sorted, rfl, .refl _⟩
  | cons m rest ih =>
    obtain ⟨next, inserted, perm⟩ := insertKey_spelled (n := m.2) (fst_notMem_of_nodup distinct)
    have moved : (rest ++ next).Perm (m :: rest ++ sorted) :=
      (perm.append_left rest).trans List.perm_middle
    obtain ⟨sorted', folded, perm'⟩ := ih ((moved.map (·.1)).nodup_iff.mpr distinct)
    refine ⟨sorted', ?_, perm'.trans moved⟩
    rw [List.map_cons, List.foldl_cons, ← folded, ← inserted]
    rfl

theorem nodup_ids (e : Export) : (e.nodes.map (·.1)).Nodup :=
  List.pairwise_map.mpr (e.sorted.imp Nat.ne_of_lt)

theorem mapM_ofDocument? (nodes : List (Nat × ExportNode)) :
    (nodes.map fun m => (toString m.1, m.2.toJson.toRead)).mapM
      (fun m => (ExportNode.ofDocument? m.2).map fun n => (m.1, n)) = some (nodes.map spelled) := by
  induction nodes with
  | nil => rfl
  | cons m rest ih =>
    rw [List.map_cons, List.mapM_cons, ih, ExportNode.ofDocument?_toRead]
    rfl

/-- A reader finds the nodes of a written export, sorted by the spelling of their numbers. -/
theorem keyed?_toRead (e : Export) :
    ∃ nodes : List (Nat × ExportNode), keyed? e.toJson.toRead = some (nodes.map spelled) ∧
      nodes.Perm e.nodes := by
  have distinct : ((e.nodes ++ []).map Prod.fst).Nodup := by
    rw [List.append_nil]
    exact e.nodup_ids
  obtain ⟨nodes, sorted, perm⟩ := foldl_insertKey_spelled distinct
  rw [List.append_nil] at perm
  refine ⟨nodes, ?_, perm⟩
  rw [keyed?, toJson, Json.toRead, Document.members?_toRead, List.map_map, Option.bind_eq_bind,
    Option.bind_some]
  show Option.bind ((e.nodes.map fun m => (toString m.1, m.2.toJson.toRead)).mapM _) _ = _
  rw [mapM_ofDocument?, ← sorted]
  rfl

theorem perm_insertSorted (new : id ∉ nodes.map (·.1)) :
    (insertSorted id n nodes).Perm ((id, n) :: nodes) := by
  induction nodes with
  | nil => exact .refl _
  | cons m rest ih =>
    rw [List.map_cons, List.mem_cons, not_or] at new
    obtain ⟨other, new⟩ := new
    rw [insertSorted, if_neg other]
    by_cases before : id < m.1
    · rw [if_pos before]
    · rw [if_neg before]
      exact ((ih new).cons m).trans (.swap (id, n) m rest)

/-- Nodes under the spellings of their numbers are put into an export under their numbers. -/
theorem insertAll_spelled {e : Export} (small : ∀ m ∈ nodes, m.1 < idBound)
    (distinct : ((nodes ++ e.nodes).map (·.1)).Nodup) :
    ∃ e', insertAll e (nodes.map spelled) = .ok e' ∧ e'.nodes.Perm (nodes ++ e.nodes) := by
  induction nodes generalizing e with
  | nil => exact ⟨e, rfl, .refl _⟩
  | cons m rest ih =>
    have bound := small m List.mem_cons_self
    have perm : (e.insert m.1 bound m.2).nodes.Perm (m :: e.nodes) :=
      perm_insertSorted (fst_notMem_of_nodup distinct)
    have moved : (rest ++ (e.insert m.1 bound m.2).nodes).Perm (m :: rest ++ e.nodes) :=
      (perm.append_left rest).trans List.perm_middle
    obtain ⟨e', inserted, perm'⟩ := ih (fun m mem => small m (List.mem_cons_of_mem _ mem))
      ((moved.map (·.1)).nodup_iff.mpr distinct)
    refine ⟨e', ?_, perm'.trans moved⟩
    rw [List.map_cons, spelled, insertAll, Text.readNodeId?_toString bound]
    simp only [dif_pos bound, inserted]

theorem eq_of_perm {e e' : Export} (perm : e.nodes.Perm e'.nodes) : e = e' := by
  have same : e.nodes = e'.nodes :=
    perm.eq_of_pairwise (fun a b _ _ before after => absurd before (Nat.lt_asymm after)) e.sorted e'.sorted
  cases e
  cases e'
  cases same
  rfl

/-- An export is read back from its text. -/
theorem read_jsonText (e : Export) : Export.read e.jsonText = .ok e := by
  -- the order of the spellings does not matter, since the export is built by number
  obtain ⟨nodes, keyed, perm⟩ := keyed?_toRead e
  have small : ∀ m ∈ nodes, m.1 < idBound := fun m mem => e.bounded m (perm.mem_iff.mp mem)
  have distinct : ((nodes ++ empty.nodes).map (·.1)).Nodup := by
    rw [show empty.nodes = [] from rfl, List.append_nil]
    exact (perm.map (·.1)).nodup_iff.mpr e.nodup_ids
  obtain ⟨e', inserted, perm'⟩ := insertAll_spelled small distinct
  rw [Export.read, jsonText, Json.read?_pretty 4 e.numberless_toJson, Option.bind_some, keyed]
  rw [show empty.nodes = [] from rfl, List.append_nil] at perm'
  show insertAll .empty (nodes.map spelled) = .ok e
  rw [inserted, eq_of_perm (perm'.trans perm)]

end Export

end Provenance

/-! ## Files -/

namespace Disk

variable {d d' : Disk} {path contents : String}

/-- The disk with an entry put at a place, whose parts are given last one first. -/
def put (d : Disk) (target : List String) (entry : DiskEntry) : Disk :=
  { d with entries := d.entries.insert target.reverse entry }

theorem entry?_put (d : Disk) {target : List String} (named : target ≠ []) (entry : DiskEntry) :
    entry? (d.put target entry) target = some entry := by
  rw [ entry?, if_neg (by simpa using named), put, Table.get?_insert, if_pos rfl]

theorem entry?_put_of_ne (d : Disk) {target place : List String} (other : place ≠ target)
    (entry : DiskEntry) : entry? (d.put target entry) place = d.entry? place := by
  have apart : target.reverse ≠ place.reverse := fun same => other (List.reverse_inj.mp same).symm
  rw [ entry?, entry?, put, Table.get?_insert, if_neg apart]

/-- A path leads through directories only, so what is put at a place that is none of them changes no
way. -/
theorem follow_put {target : List String} (spared : d.entry? target ≠ some .directory)
    (entry : DiskEntry) {parts place found : List String} (followed : d.follow place parts = .ok found) :
    (d.put target entry).follow place parts = .ok found := by
  induction parts generalizing place with
  | nil => exact followed
  | cons part rest ih =>
    rw [follow] at followed ⊢
    cases on : d.entry? place with
    | none =>
      rw [on] at followed
      cases followed
    | some crossed => cases crossed with
      | file _ =>
        rw [on] at followed
        cases followed
      | directory =>
        have other : place ≠ target := fun same => spared (same ▸ on)
        rw [on] at followed
        rw [entry?_put_of_ne d other, on]
        simp only at followed ⊢
        by_cases stays : (part.isEmpty || decide (part = ".")) = true
        · rw [if_pos stays] at followed ⊢
          exact ih followed
        · rw [if_neg stays] at followed ⊢
          by_cases back : part = ".."
          · rw [if_pos back] at followed ⊢
            exact ih followed
          · rw [if_neg back] at followed ⊢
            exact ih followed

/-- What a write leaves when it succeeds: it asked for no directory, and nothing else was changed. -/
theorem write_eq_ok (written : d.write path contents = .ok d') :
    ∃ place, d.resolve path = .ok place ∧ d.entry? place ≠ some .directory ∧
      d' = d.put place (.file contents) := by
  rw [write] at written
  generalize String.ofList (path.toList.reverse.dropWhile (· == '/')).reverse = bare at written
  cases resolved : d.resolve (if bare.isEmpty then path else bare) with
  | error e =>
    rw [resolved] at written
    cases written
  | ok place =>
    rw [resolved] at written
    have wrote (spared : d.entry? place ≠ some .directory) {fault : FileFault}
        (ran : (if bare = path then .ok (d.put place (.file contents)) else .error fault) = Except.ok d') :
        ∃ place, d.resolve path = .ok place ∧ d.entry? place ≠ some .directory ∧
          d' = d.put place (.file contents) := by
      by_cases same : bare = path
      · rw [if_pos same] at ran
        rw [same, ite_self] at resolved
        cases ran
        exact ⟨place, resolved, spared, rfl⟩
      · rw [if_neg same] at ran
        cases ran
    simp only at written
    split at written
    · cases written
    · cases written
    · cases written
    · rename_i held _
      exact wrote (by simp [held]) written
    · rename_i held _
      exact wrote (by simp [held]) written

/-- A file can be written where its directory is. -/
theorem write_of_resolve {place : List String} (resolved : d.resolve path = .ok place)
    (bare : String.ofList (path.toList.reverse.dropWhile (· == '/')).reverse = path)
    (spared : d.entry? place ≠ some .directory) (inside : d.entry? place.tail = some .directory)
    (contents : String) : d.write path contents = .ok (d.put place (.file contents)) := by
  rw [write, bare, ite_self, resolved]
  simp only [inside]
  rcases found : d.entry? place with _ | ⟨_ | _⟩
  · simp only [if_pos, put]
  · simp only [if_pos, put]
  · exact absurd found spared

/-- A file that has been written holds what was written. -/
theorem read_of_write (written : d.write path contents = .ok d') : d'.read path = .ok contents := by
  obtain ⟨place, resolved, spared, rfl⟩ := write_eq_ok written
  have named : place ≠ [] := by
    rintro rfl
    exact spared rfl
  have again : (d.put place (.file contents)).resolve path = .ok place := by
    rw [resolve] at resolved ⊢
    split at resolved
    · cases resolved
    · rw [if_neg ‹_›]
      exact follow_put spared _ resolved
  rw [read, again]
  simp only [entry?_put d named]

end Disk

/-! ## Commands -/

namespace CommandLine

open Terminal

variable {e : Provenance.Export} {d d' : Disk} {path : String}

theorem readExport_of_read (holds : d.read path = .ok e.jsonText) :
    (readExport path : StateM Disk _) d = (.ok e, d) := by
  have text : (FileAccess.readText path : StateM Disk _) d = (.ok e.jsonText, d) := by rw [← holds]; rfl
  rw [readExport, bind_apply, text]
  simp only [e.read_jsonText]
  rfl

/-- Triage of a file with the text of an export prints the summary of the export. -/
theorem runTriage_of_read (holds : d.read path = .ok e.jsonText) (screen : Screen) (format : String)
    (plain : Bool) : (runTriage screen path format plain : StateM Disk Outcome) d =
      ({ stdout := if format = "json" then (triageJson (.ofExport e) path d.home).pretty 2 ++ "\n"
          else triageText (.ofExport e) (screen.colors && !screen.plain && !plain) }, d) := by
  rw [runTriage, bind_apply, readExport_of_read holds]
  by_cases json : format = "json"
  · rw [if_pos json]
    simp only [showTriage, if_pos json]
    rfl
  · rw [if_neg json]
    simp only [showTriage, if_neg json]
    rfl

/-- Drawing a file with the text of an export prints the graph of the export. -/
theorem runDot_of_read (holds : d.read path = .ok e.jsonText) (screen : Screen) :
    (runDot screen path none : StateM Disk Outcome) d = ({ stdout := e.dot }, d) := by
  rw [runDot, bind_apply, readExport_of_read holds]
  rfl

theorem writeText_of_ok {target contents : String} (written : d.write target contents = .ok d') :
    (FileAccess.writeText target contents : StateM Disk _) d = (.ok (), d') := by
  simp only [FileAccess.writeText, bind_apply, get_apply, written]
  rfl

theorem writeText_of_error {target contents : String} {fault : FileFault}
    (refused : d.write target contents = .error fault) :
    (FileAccess.writeText target contents : StateM Disk _) d = (.error fault, d) := by
  simp only [FileAccess.writeText, bind_apply, get_apply, refused]
  rfl

/-- Drawing a file with the text of an export into another file writes the graph of the export there. -/
theorem runDot_of_read_of_written (holds : d.read path = .ok e.jsonText) {target : String}
    (drawn : d.write target e.dot = .ok d') (screen : Screen) :
    (runDot screen path (some target) : StateM Disk Outcome) d =
      ({ stderr := paint screen.colors [.bold, .green] "wrote" ++ s!" {target}\n" }, d') := by
  rw [runDot, bind_apply, readExport_of_read holds]
  simp only [showDot]
  rw [bind_apply, writeText_of_ok drawn]
  rfl

/-- A graph that cannot be written is reported, and nothing is changed. -/
theorem runDot_of_read_of_refused (holds : d.read path = .ok e.jsonText) {target : String}
    {fault : FileFault} (refused : d.write target e.dot = .error fault) (screen : Screen) :
    (runDot screen path (some target) : StateM Disk Outcome) d =
      (failed ⟨s!"Failed to write '{target}'", [fault.message]⟩, d) := by
  rw [runDot, bind_apply, readExport_of_read holds]
  simp only [showDot]
  rw [bind_apply, writeText_of_error refused]
  rfl

/-- An export is read back from its text, and on a file to which the text was written the commands show
the summary and the graph of the export itself. -/
theorem commands_on_written (e : Provenance.Export) :
    Provenance.Export.read e.jsonText = .ok e ∧
    ∀ {d d' : Disk} {path : String}, d.write path e.jsonText = .ok d' → ∀ screen : Screen,
      (∀ format plain, (runCommand screen (.triage path format plain) : StateM Disk Outcome) d' =
        ({ stdout := if format = "json" then (triageJson (.ofExport e) path d'.home).pretty 2 ++ "\n"
            else triageText (.ofExport e) (screen.colors && !screen.plain && !plain) }, d')) ∧
      (runCommand screen (.dot path none) : StateM Disk Outcome) d' = ({ stdout := e.dot }, d') ∧
      (∀ target d'', d'.write target e.dot = .ok d'' →
        (runCommand screen (.dot path (some target)) : StateM Disk Outcome) d' =
          ({ stderr := paint screen.colors [.bold, .green] "wrote" ++ s!" {target}\n" }, d'') ∧
        d''.read target = .ok e.dot) ∧
      ∀ target fault, d'.write target e.dot = .error fault →
        (runCommand screen (.dot path (some target)) : StateM Disk Outcome) d' =
          (failed ⟨s!"Failed to write '{target}'", [fault.message]⟩, d') := by
  refine ⟨e.read_jsonText, fun written screen => ?_⟩
  have holds := Disk.read_of_write written
  exact ⟨runTriage_of_read holds screen, runDot_of_read holds screen,
    fun _ _ drawn => ⟨runDot_of_read_of_written holds drawn screen, Disk.read_of_write drawn⟩,
    fun _ _ refused => runDot_of_read_of_refused holds refused screen⟩

/-- An export whose numbers are sorted differently by their spelling, with a quote, a line break, a control
character and a character beyond the basic plane in its texts. -/
def quoted : Provenance.Export where
  nodes := [(1, ⟨"call:exec", "say \"hi\"\n\x01", true, ["2"]⟩), (2, ⟨"call:escape", "𝕏", true, ["10"]⟩),
    (10, ⟨"Tainted", "𝕏", true, []⟩)]
  sorted := by simp
  bounded := by simp [Provenance.idBound]

/-- The graph of that export. -/
def quotedGraph : String :=
"digraph Taint_Paths \x7b
    n1 [label=\"(1) call:exec\\nsay \\\"hi\\\"\\n\x01\", color=red];
    n2 [label=\"(2) call:escape\\n𝕏\", color=red];
    n10 [label=\"(10) Tainted\\n𝕏\", color=red];
    n2 -> n1 [color=red];
    n10 -> n2 [color=red];
\x7d
"

theorem dot_quoted : quoted.dot = quotedGraph := by decide +kernel

theorem ofExport_quoted : Provenance.Triage.ofExport quoted =
    ⟨"call:exec", some .t1, 3, 3, [10], [], ⟨0, []⟩, ⟨1, ["call:escape"]⟩, ⟨0, []⟩⟩ := by
  have names : (quoted.nodes.map (·.2.operation)).all Text.isAscii = true := by decide +kernel
  rw [Provenance.Triage.ofExport, Provenance.SanitizerSummary.of_ascii .implicit names,
    Provenance.SanitizerSummary.of_ascii .explicit names,
    Provenance.SanitizerSummary.of_ascii .objectAccess names]
  decide +kernel

/-- The summary of that export, to be read by people. -/
def quotedSummary : String :=
"
Root: call:exec
Sink class: T1
Graph: 3 nodes, longest path 3
Leaves: 10
Controllable leaves: none

Sanitizer-like operations:
  implicit       0\x20
  explicit       1 call:escape
  object_access  0\x20

"

theorem triageText_quoted : triageText (.ofExport quoted) false = quotedSummary := by
  rw [ofExport_quoted]
  decide +kernel

/-- The summary of that export as a JSON text. -/
def quotedReport : String :=
"\x7b
  \"version\": \"1.0\",
  \"metadata\": \x7b
    \"nodetaint_version\": \"0.1.0\",
    \"working_directory\": \"/\",
    \"export_path\": \"taint.json\"
  \x7d,
  \"triage\": \x7b
    \"root_operation\": \"call:exec\",
    \"sink\": \"t1\",
    \"count_nodes\": 3,
    \"longest_path\": 3,
    \"leaf_ids\": [
      10
    ],
    \"controllable_leaf_ids\": [],
    \"implicit\": \x7b
      \"count\": 0,
      \"operations\": []
    \x7d,
    \"explicit\": \x7b
      \"count\": 1,
      \"operations\": [
        \"call:escape\"
      ]
    \x7d,
    \"object_access\": \x7b
      \"count\": 0,
      \"operations\": []
    \x7d
  \x7d
\x7d
"

set_option maxRecDepth 8000 in
theorem triageJson_quoted :
    (triageJson (.ofExport quoted) "taint.json" "/").pretty 2 ++ "\n" = quotedReport := by
  rw [ofExport_quoted, Json.pretty, show "\n" = String.ofList ['\n'] from rfl, ← String.ofList_append]
  -- characters are compared, for the bytes of a text take far longer
  conv =>
    lhs
    arg 1
    cbv
  rfl

theorem commands_on_written_quoted :
    Provenance.Export.read quoted.jsonText = .ok quoted ∧
    ∃ d', ({} : Disk).write "taint.json" quoted.jsonText = .ok d' ∧
      (runCommand ⟨false, false⟩ (.triage "taint.json" "json" true) : StateM Disk Outcome) d' =
        ({ stdout := quotedReport }, d') ∧
      (runCommand ⟨false, false⟩ (.triage "taint.json" "text" true) : StateM Disk Outcome) d' =
        ({ stdout := quotedSummary }, d') ∧
      (runCommand ⟨false, false⟩ (.dot "taint.json" none) : StateM Disk Outcome) d' =
        ({ stdout := quotedGraph }, d') ∧
      (∃ d'', (runCommand ⟨false, false⟩ (.dot "taint.json" (some "taint.dot")) : StateM Disk Outcome) d' =
          ({ stderr := "wrote taint.dot\n" }, d'') ∧
        d''.read "taint.dot" = .ok quotedGraph) ∧
      (runCommand ⟨false, false⟩ (.dot "taint.json" (some "/")) : StateM Disk Outcome) d' =
        ({ code := 1, stderr := "Error: Failed to write '/'\n\nCaused by:\n    Is a directory (os error 21)\n" },
          d') := by
  obtain ⟨read, shown⟩ := commands_on_written quoted
  -- both names lead to a place of their own below the root
  have resolved (d : Disk) (home : d.home = "/") : d.resolve "taint.json" = .ok ["taint.json"] ∧
      d.resolve "taint.dot" = .ok ["taint.dot"] := by
    have pieces : Path.pieces (Path.join "/" "taint.json") = ["", "taint.json"] ∧
        Path.pieces (Path.join "/" "taint.dot") = ["", "taint.dot"] := by decide +kernel
    rw [Disk.resolve, Disk.resolve, home, pieces.1, pieces.2]
    constructor <;> simp [Disk.follow, Disk.entry?]
  let d' := ({} : Disk).put ["taint.json"] (.file quoted.jsonText)
  have written : ({} : Disk).write "taint.json" quoted.jsonText = .ok d' :=
    Disk.write_of_resolve (resolved {} rfl).1 (by decide +kernel) (by decide +kernel) rfl _
  have drawn : d'.write "taint.dot" quoted.dot = .ok (d'.put ["taint.dot"] (.file quoted.dot)) :=
    Disk.write_of_resolve (resolved d' rfl).2 (by decide +kernel) (by decide +kernel) rfl _
  have refused : d'.write "/" quoted.dot = .error .isDirectory := by
    have bare : String.ofList ("/".toList.reverse.dropWhile (· == '/')).reverse = "" := by decide +kernel
    have root : d'.resolve "/" = .ok [] := by
      have pieces : Path.pieces (Path.join "/" "/") = ["", ""] := by decide +kernel
      rw [Disk.resolve, show d'.home = "/" from rfl, pieces]
      simp [Disk.follow, Disk.entry?]
    simp only [Disk.write, bare]
    rw [if_pos (by decide +kernel), root]
    rfl
  obtain ⟨triage, shownDot, drawnDot, refusedDot⟩ := shown written ⟨false, false⟩
  let d'' := d'.put ["taint.dot"] (.file quoted.dot)
  refine ⟨read, d', written, ?_, ?_, ?_, ⟨d'', ?_⟩, ?_⟩
  · rw [triage, if_pos rfl, ← triageJson_quoted]
    rfl
  · rw [triage, if_neg (by decide), ← triageText_quoted]
    rfl
  · rw [shownDot, dot_quoted]
  · rw [← dot_quoted]
    exact drawnDot _ _ drawn
  · exact refusedDot _ _ refused

end CommandLine

end ShadowTaint
