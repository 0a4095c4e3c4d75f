import ShadowTaint.Proofs.Unfolding
/-!
# Graphs of exports

The graph of an export lists all nodes by number and then all edges. The label of a node stands between double quotes,
and it is made of texts that the analysed program chooses. A reader of quoted texts finds the closing quote where it
was written, and what it has read until then is the label.

## Main definitions

- `Label.read?`: reads a quoted text.
- `Label.Spells`: what a piece of a quoted text stands for.
- `Drawing`: the statements of a graph, with their text.
- `Drawing.Depicts`: a graph shows the nodes of an export and what flows into them.

## Main statements

- `Label.spells_escapeLabel`: an escaped text stands for the text.
- `Export.Joined.dot_eq_text`, `Export.Joined.depicts`: the graph of an export in which all parents are nodes.
- `Export.dot_ofNode`: the graph of the export of a history.
-/

namespace ShadowTaint.Provenance

/-! ## Labels -/

namespace Label

/-- What a character behind a backslash stands for. -/
def escaped? : Char → Option Char
  | '\\' => some '\\'
  | '"' => some '"'
  | 'n' => some '\n'
  | _ => none

/-- Reads a quoted text whose opening quote has been read. The result is the text with what follows the closing quote.
A text that goes on in another line is refused, and so is a backslash in front of anything else than what is escaped
here. -/
def read? : List Char → Option (List Char × List Char)
  | [] => none
  | '"' :: rest => some ([], rest)
  | '\n' :: _ => none
  | ['\\'] => none
  | '\\' :: c :: rest => (escaped? c).bind fun d => (read? rest).map fun p => (d :: p.1, p.2)
  | c :: rest => (read? rest).map fun p => (c :: p.1, p.2)

/-- A piece of a quoted text stands for a text: a reader gets through the piece, whatever follows. -/
def Spells (piece text : List Char) : Prop :=
  ∀ rest, read? (piece ++ rest) = (read? rest).map fun p => (text ++ p.1, p.2)

variable {piece piece' text text' : List Char}

theorem Spells.nil : Spells [] [] := fun rest => by
  rw [List.nil_append]
  cases read? rest <;> rfl

theorem Spells.append (spells : Spells piece text) (spells' : Spells piece' text') :
    Spells (piece ++ piece') (text ++ text') := fun rest => by
  rw [List.append_assoc, spells, spells', Option.map_map]
  simp only [Function.comp_def, List.append_assoc]

/-- The text ends at the quote behind the piece. -/
theorem Spells.read?_quote (spells : Spells piece text) (rest : List Char) :
    read? (piece ++ '"' :: rest) = some (text, rest) := by
  rw [spells, read?, Option.map_some, List.append_nil]

theorem spells_plain {c : Char} (quote : c ≠ '"') (line : c ≠ '\n') (backslash : c ≠ '\\') : Spells [c] [c] :=
  fun rest => by
    rw [List.singleton_append, read?]
    · rfl
    · exact quote
    · exact line
    · exact fun same _ => backslash same
    · exact fun _ _ same _ => backslash same

theorem spells_escaped {c d : Char} (stands : escaped? c = some d) : Spells ['\\', c] [d] := fun rest => by
  show read? ('\\' :: c :: rest) = _
  rw [read?, stands]
  rfl

/-- Characters that need no escape stand for themselves. -/
theorem spells_self (plain : ∀ c ∈ text, c ≠ '"' ∧ c ≠ '\n' ∧ c ≠ '\\') : Spells text text := by
  induction text with
  | nil => exact .nil
  | cons c rest ih =>
    obtain ⟨quote, line, backslash⟩ := plain c List.mem_cons_self
    exact (spells_plain quote line backslash).append (ih fun d mem => plain d (List.mem_cons_of_mem _ mem))

/-- Whatever a text is, it is read back from inside the quotes. -/
theorem spells_escapeLabel (s : String) : Spells (Export.escapeLabel s) s.toList := by
  rw [Export.escapeLabel]
  induction s.toList with
  | nil => exact .nil
  | cons c rest ih =>
    rw [List.flatMap_cons]
    show Spells _ ([c] ++ rest)
    refine .append ?_ ih
    by_cases backslash : c = '\\'
    · subst backslash
      exact spells_escaped rfl
    · by_cases quote : c = '"'
      · subst quote
        exact spells_escaped rfl
      · by_cases line : c = '\n'
        · subst line
          exact spells_escaped rfl
        · rw [if_neg backslash, if_neg quote, if_neg line]
          exact spells_plain quote line backslash

theorem lineFeed_notMem_escapeLabel (s : String) : '\n' ∉ Export.escapeLabel s := by
  intro mem
  obtain ⟨c, -, mem⟩ := List.mem_flatMap.mp mem
  split at mem
  · simp at mem
  · split at mem
    · simp at mem
    · split at mem
      · simp at mem
      · rename_i other
        exact other (List.mem_singleton.mp mem).symm

end Label

/-! ## Drawings -/

/-- The statement of a node: its number, what stands between the quotes of its label, and whether it is red. -/
structure NodeStatement where
  id : Nat
  body : List Char
  red : Bool

/-- The statement of an edge between the nodes with two numbers. -/
structure EdgeStatement where
  source : Nat
  target : Nat
  red : Bool

/-- The statements of a graph, nodes first. -/
structure Drawing where
  nodes : List NodeStatement
  edges : List EdgeStatement

/-- The line of a node. -/
def NodeStatement.line (s : NodeStatement) : List Char :=
  s!"    n{s.id} [label=\"".toList ++ s.body ++ ['"'] ++ (if s.red then ", color=red".toList else []) ++ "];".toList

/-- The line of an edge. -/
def EdgeStatement.line (s : EdgeStatement) : List Char :=
  s!"    n{s.source} -> n{s.target}".toList ++ (if s.red then " [color=red]".toList else []) ++ [';']

namespace Drawing

/-- The lines of a graph: a header, one for every node, one for every edge, and a closing brace. -/
def lines (d : Drawing) : List (List Char) :=
  "digraph Taint_Paths \x7b".toList :: (d.nodes.map NodeStatement.line ++ d.edges.map EdgeStatement.line) ++
    ["\x7d".toList]

/-- The text of a graph: all its lines, each with a line feed behind it. -/
def text (d : Drawing) : String := String.ofList (d.lines.flatMap (· ++ ['\n']))

/-- A graph shows the nodes of an export and what flows into them. -/
structure Depicts (d : Drawing) (e : Export) : Prop where
  /-- There is one statement for every number. -/
  ids : d.nodes.map (·.id) = e.nodes.map (·.1)
  /-- The numbers increase. -/
  increasing : (d.nodes.map (·.id)).Pairwise (· < ·)
  /-- A node is red if it is tainted. Its label is closed by the quote behind it, and it is read as the number, the
  operation and the value. -/
  node : ∀ s ∈ d.nodes, ∃ n, e.get? s.id = some n ∧ s.red = n.tainted ∧
    ∀ rest, Label.read? (s.body ++ '"' :: rest) = some (s!"({s.id}) {n.operation}\n{n.value}".toList, rest)
  /-- There is one edge for every number that a node lists, in the order of the nodes and the lists. -/
  listed : d.edges.map (fun s => (toString s.source, s.target)) =
    e.nodes.flatMap fun m => m.2.flowsFrom.map fun parent => (parent, m.1)
  /-- An edge leads from a node to a node, and it is red if the first one is tainted. -/
  edge : ∀ s ∈ d.edges, ∃ source target, e.get? s.source = some source ∧ e.get? s.target = some target ∧
    s.red = source.tainted
  /-- No statement goes on in another line. -/
  line : ∀ l ∈ d.lines, '\n' ∉ l

end Drawing

namespace Export

/-- What stands between the quotes of the label of a node. -/
def labelBody (id : Nat) (n : ExportNode) : List Char :=
  s!"({id}) ".toList ++ escapeLabel n.operation ++ ['\\', 'n'] ++ escapeLabel n.value

/-- The statements of the graph of an export, where an edge stands for a number of a parent. -/
def drawing (e : Export) : Drawing where
  nodes := e.nodes.map fun m => ⟨m.1, labelBody m.1 m.2, m.2.tainted⟩
  edges := e.nodes.flatMap fun m => m.2.parentIds.map fun parent => ⟨parent, m.1, (e.get? parent).any (·.tainted)⟩

/-- Everything that a node lists is the number of a node. -/
def Joined (e : Export) : Prop :=
  ∀ m ∈ e.nodes, ∀ text ∈ m.2.flowsFrom, ∃ parent, text = toString parent ∧ (e.get? parent).isSome

variable {e : Export} {m : Nat × ExportNode}

theorem nodeStatement_eq_line (m : Nat × ExportNode) : nodeStatement m.1 m.2 =
    NodeStatement.line ⟨m.1, labelBody m.1 m.2, m.2.tainted⟩ ++ ['\n'] := by
  have opening : (toString " [label=\"(").toList = (toString " [label=\"").toList ++ (toString "(").toList := by decide
  have closing : "];\n".toList = "];".toList ++ ['\n'] := by decide
  have lineEnd : "\\n".toList = ['\\', 'n'] := by decide
  rw [nodeStatement, NodeStatement.line, labelBody, closing, lineEnd]
  simp only [String.toList_append, opening, List.append_assoc]

theorem edgeStatement_eq_line (id : Nat) {parent : Nat} (small : parent < idBound) :
    e.edgeStatement id (toString parent) =
      EdgeStatement.line ⟨parent, id, (e.get? parent).any (·.tainted)⟩ ++ ['\n'] := by
  have closing : ";\n".toList = [';'] ++ ['\n'] := by decide
  rw [edgeStatement, isTaintedText, Text.readNodeId?_toString small, Option.bind_some, EdgeStatement.line, closing]
  simp only [List.append_assoc]
  rfl

theorem lt_idBound_of_get? {id : Nat} (found : (e.get? id).isSome) : id < idBound := by
  obtain ⟨n, found⟩ := Option.isSome_iff_exists.mp found
  exact e.bounded _ (get?_eq_some_iff.mp found)

/-- The numbers are read off what a node lists, and none is left out. -/
theorem Joined.flowsFrom_eq (joined : e.Joined) (mem : m ∈ e.nodes) :
    m.2.flowsFrom = m.2.parentIds.map toString := by
  have numbers := joined m mem
  rw [ExportNode.parentIds]
  generalize m.2.flowsFrom = texts at numbers ⊢
  induction texts with
  | nil => rfl
  | cons text rest ih =>
    obtain ⟨parent, rfl, found⟩ := numbers text List.mem_cons_self
    have read := Text.readNodeId?_toString (lt_idBound_of_get? found)
    rw [List.filterMap_cons_some read, List.map_cons, ← ih fun text mem => numbers text (List.mem_cons_of_mem _ mem)]

theorem Joined.isSome_get? (joined : e.Joined) (mem : m ∈ e.nodes) {parent : Nat} (listed : parent ∈ m.2.parentIds) :
    (e.get? parent).isSome := by
  have spelled : toString parent ∈ m.2.flowsFrom := by
    rw [joined.flowsFrom_eq mem]
    exact List.mem_map_of_mem listed
  obtain ⟨parent', same, found⟩ := joined m mem _ spelled
  rwa [Text.eq_of_toString_eq same]

theorem Joined.dot_eq_text (joined : e.Joined) : e.dot = e.drawing.text := by
  have nodes : e.nodes.flatMap (fun m => nodeStatement m.1 m.2) =
      (e.drawing.nodes.map NodeStatement.line).flatMap (· ++ ['\n']) := by
    rw [drawing, List.map_map, List.flatMap_map]
    exact List.flatMap_congr fun m _ => nodeStatement_eq_line m
  have edges : e.nodes.flatMap (fun m => m.2.flowsFrom.flatMap (e.edgeStatement m.1)) =
      (e.drawing.edges.map EdgeStatement.line).flatMap (· ++ ['\n']) := by
    rw [drawing, List.flatMap_map, List.flatMap_assoc]
    refine List.flatMap_congr fun m mem => ?_
    rw [joined.flowsFrom_eq mem, List.flatMap_map, List.flatMap_map]
    exact List.flatMap_congr fun parent listed =>
      edgeStatement_eq_line m.1 (lt_idBound_of_get? (joined.isSome_get? mem listed))
  have header : "digraph Taint_Paths \x7b\n".toList = "digraph Taint_Paths \x7b".toList ++ ['\n'] := by decide
  have brace : "\x7d\n".toList = "\x7d".toList ++ ['\n'] := by decide
  unfold dot dotChars Drawing.text Drawing.lines
  rw [nodes, edges, header, brace]
  generalize "digraph Taint_Paths \x7b".toList = opening, "\x7d".toList = closing
  simp only [List.flatMap_cons, List.flatMap_append, List.flatMap_nil, List.append_nil, List.cons_append,
    List.append_assoc]

theorem spells_labelBody (m : Nat × ExportNode) :
    Label.Spells (labelBody m.1 m.2) s!"({m.1}) {m.2.operation}\n{m.2.value}".toList := by
  have number : Label.Spells s!"({m.1}) ".toList s!"({m.1}) ".toList := by
    refine Label.spells_self fun c mem => ?_
    simp only [String.toList_append, List.mem_append] at mem
    rcases mem with (paren | digit) | rest
    · cases List.mem_singleton.mp paren
      decide
    · have isDigit := Text.isDigit_of_mem_toString digit
      refine ⟨?_, ?_, ?_⟩ <;> rintro rfl <;> cases isDigit
    · rcases List.mem_pair.mp rest with rfl | rfl <;> decide
  have spells := ((number.append (Label.spells_escapeLabel m.2.operation)).append
    (Label.spells_escaped (c := 'n') rfl)).append (Label.spells_escapeLabel m.2.value)
  have text : s!"({m.1}) {m.2.operation}\n{m.2.value}".toList =
      s!"({m.1}) ".toList ++ m.2.operation.toList ++ ['\n'] ++ m.2.value.toList := by
    simp only [String.toList_append]
    rfl
  rw [text]
  exact spells

/-! ## Lines -/

theorem lineFeed_notMem_toString (n : Nat) : '\n' ∉ (toString n).toList := fun mem => by
  cases Text.isDigit_of_mem_toString mem

theorem lineFeed_notMem_labelBody (m : Nat × ExportNode) : '\n' ∉ labelBody m.1 m.2 := by
  have first : '\n' ∉ (toString "(").toList := by decide
  have last : '\n' ∉ (toString ") ").toList := by decide
  simp only [labelBody, String.toList_append, List.mem_append, not_or]
  exact ⟨⟨⟨⟨⟨first, lineFeed_notMem_toString _⟩, last⟩, Label.lineFeed_notMem_escapeLabel _⟩, by decide⟩,
    Label.lineFeed_notMem_escapeLabel _⟩

theorem lineFeed_notMem_nodeLine {s : NodeStatement} (body : '\n' ∉ s.body) : '\n' ∉ s.line := by
  have color : '\n' ∉ (if s.red then ", color=red".toList else []) := by
    cases s.red <;> decide
  have first : '\n' ∉ (toString "    n").toList := by decide
  have last : '\n' ∉ (toString " [label=\"").toList := by decide
  simp only [NodeStatement.line, String.toList_append, List.mem_append, not_or]
  exact ⟨⟨⟨⟨⟨⟨first, lineFeed_notMem_toString _⟩, last⟩, body⟩, by decide⟩, color⟩, by decide⟩

theorem lineFeed_notMem_edgeLine (s : EdgeStatement) : '\n' ∉ s.line := by
  have color : '\n' ∉ (if s.red then " [color=red]".toList else []) := by
    cases s.red <;> decide
  have first : '\n' ∉ (toString "    n").toList := by decide
  have arrow : '\n' ∉ (toString " -> n").toList := by decide
  simp only [EdgeStatement.line, String.toList_append, List.mem_append, not_or]
  exact ⟨⟨⟨⟨⟨first, lineFeed_notMem_toString _⟩, arrow⟩, lineFeed_notMem_toString _⟩, color⟩, by decide⟩

theorem lineFeed_notMem_lines (e : Export) {l : List Char} (mem : l ∈ e.drawing.lines) : '\n' ∉ l := by
  rw [Drawing.lines, List.mem_append, List.mem_cons, List.mem_append, List.mem_singleton] at mem
  rcases mem with (rfl | node | edge) | rfl
  · decide
  · obtain ⟨s, mem, rfl⟩ := List.mem_map.mp node
    obtain ⟨m, -, rfl⟩ := List.mem_map.mp mem
    exact lineFeed_notMem_nodeLine (lineFeed_notMem_labelBody m)
  · obtain ⟨s, -, rfl⟩ := List.mem_map.mp edge
    exact lineFeed_notMem_edgeLine s
  · decide

/-! ## Graphs -/

/-- An export in which all parents are nodes is shown by its graph. -/
theorem Joined.depicts (joined : e.Joined) : e.drawing.Depicts e where
  ids := by
    rw [drawing, List.map_map]
    rfl
  increasing := by
    rw [drawing, List.map_map]
    exact List.pairwise_map.mpr e.sorted
  node s mem := by
    obtain ⟨m, held, rfl⟩ := List.mem_map.mp mem
    exact ⟨m.2, get?_eq_some_iff.mpr held, rfl, (spells_labelBody m).read?_quote⟩
  listed := by
    rw [drawing, List.map_flatMap]
    refine List.flatMap_congr fun m mem => ?_
    rw [joined.flowsFrom_eq mem, List.map_map, List.map_map]
    rfl
  edge s mem := by
    obtain ⟨m, held, into⟩ := List.mem_flatMap.mp mem
    obtain ⟨parent, listed, rfl⟩ := List.mem_map.mp into
    obtain ⟨source, found⟩ := Option.isSome_iff_exists.mp (joined.isSome_get? held listed)
    refine ⟨source, m.2, found, get?_eq_some_iff.mpr held, ?_⟩
    dsimp only
    rw [found, Option.any_some]
  line _ mem := e.lineFeed_notMem_lines mem

variable {root : Node}

theorem joined_ofNode (small : root.size < idBound) : (ofNode root).Joined := by
  intro m mem text spelled
  obtain ⟨n, found, same⟩ := (get?_ofNode small).mp (get?_eq_some_iff.mpr mem)
  rw [same] at spelled
  obtain ⟨parent, listed, rfl⟩ := List.mem_map.mp spelled
  obtain ⟨p, -, tree⟩ := (Node.hasTreeAt_of_at? found).exists_parent listed
  have node := (get?_ofNode small).mpr ⟨p, tree.at?, rfl⟩
  exact ⟨parent, rfl, by rw [node]; rfl⟩

/-- The text of the export of a history is that of a graph, which has the numbers of the export from one on and shows
what flows into each. -/
theorem dot_ofNode (small : root.size < idBound) :
    ∃ d : Drawing, (ofNode root).dot = d.text ∧ d.Depicts (ofNode root) ∧
      d.nodes.map (·.id) = List.range' 1 root.size := by
  have joined := joined_ofNode small
  exact ⟨_, joined.dot_eq_text, joined.depicts, joined.depicts.ids.trans (map_fst_ofNode small)⟩

/-- A call of a function whose name would end its label and the graph, if nothing were escaped. -/
def mischievous : Node :=
  .join 2 "call:\"];\x7d\\" [.join 1 taintedLabel [.leaf 0 "'a\nb'"] "'a\nb'"] "'\\\"\n'"

theorem dot_mischievous : mischievous.size < idBound ∧ (ofNode mischievous).size = 3 ∧
    ∃ d : Drawing, (ofNode mischievous).dot = d.text ∧ d.Depicts (ofNode mischievous) ∧
      d.nodes.map (·.id) = [1, 2, 3] := by
  have small : mischievous.size < idBound := by decide
  obtain ⟨d, text, depicts, ids⟩ := dot_ofNode small
  have numbers : List.range' 1 mischievous.size = [1, 2, 3] := by decide
  refine ⟨small, ?_, d, text, depicts, ids.trans numbers⟩
  rw [Export.size, ← List.length_map (·.1), ← depicts.ids, ids, numbers]
  rfl

end Export

end ShadowTaint.Provenance
