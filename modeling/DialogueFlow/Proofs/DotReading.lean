import DialogueFlow.Export.Dot
import Mathlib.Data.List.Basic

namespace DialogueFlow.Export.Dot

def unescapeChar (c : Char) : Char := if c = 'n' then '\n' else c

/-- Read a text up to the quote that closes it, and give what follows. -/
def unquote : List Char → Option (List Char × List Char)
  | [] => none
  | '"' :: rest => some ([], rest)
  | '\\' :: c :: rest => do
    let (text, rest) ← unquote rest
    return (unescapeChar c :: text, rest)
  | c :: rest => do
    let (text, rest) ← unquote rest
    return (c :: text, rest)

def readQuoted (before : String) (line : List Char) : Option (String × List Char) := do
  let (text, rest) ← unquote (← line.dropPrefix? (before ++ "\"").toList)
  return (String.ofList text, rest)

/-- What a line of a drawing states: that there is a block, an edge, or the ellipse of a node. -/
inductive Statement where
  | block (name : String)
  | edge (source target : String) (condition : Condition) (toNode : Bool)
  | ellipse (name : String)
deriving DecidableEq

/-- Read what comes after the source of an edge. Edges to nodes are bold. -/
def readEdge (source : String) (line : List Char) : Option Statement := do
  let (target, line) ← readQuoted " -> " line
  let (label, style) ← readQuoted " [label=" line
  let condition ← Condition.all.find? (fun c => c.name = label)
  return .edge source target condition (", style=bold];".toList.isSuffixOf style)

def readLine (line : List Char) : Option Statement := do
  let (name, line) ← readQuoted "  " line
  if line = " [shape=ellipse];".toList then return .ellipse name
  else if " [label=\"".toList.isPrefixOf line then return .block name
  else readEdge name line

def read (text : String) : List Statement := (text.toList.splitOn '\n').filterMap readLine

theorem toList_escape (s : String) : (escape s).toList = s.toList.flatMap escapeChar := by
  rw [escape, String.toList_ofList]

def replaceAll (c : Char) (word s : List Char) : List Char :=
  s.flatMap (fun d => if d = c then word else [d])

theorem replaceAll_append (c : Char) (word s t : List Char) :
    replaceAll c word (s ++ t) = replaceAll c word s ++ replaceAll c word t :=
  List.flatMap_append

/-- Backslashes, quotes and newlines may as well be replaced one after the other. -/
theorem toList_escape_eq_replaceAll (s : String) :
    (escape s).toList = replaceAll '\n' ['\\', 'n'] (replaceAll '"' ['\\', '"']
      (replaceAll '\\' ['\\', '\\'] s.toList)) := by
  rw [toList_escape]
  induction s.toList with
  | nil => rfl
  | cons c s ih =>
    have hone : escapeChar c = replaceAll '\n' ['\\', 'n'] (replaceAll '"' ['\\', '"']
        (replaceAll '\\' ['\\', '\\'] [c])) := by
      by_cases hslash : c = '\\'
      · subst hslash
        rfl
      · by_cases hquote : c = '"'
        · subst hquote
          rfl
        · simp [replaceAll, escapeChar, hslash, hquote]
    rw [List.flatMap_cons, ih, hone, ← replaceAll_append, ← replaceAll_append, ← replaceAll_append,
      List.singleton_append]

theorem newline_notMem_escapeChar (c : Char) : '\n' ∉ escapeChar c := by
  rw [escapeChar]
  split
  · decide
  · split
    · decide
    · split
      · decide
      · next hc => simpa [eq_comm] using hc

theorem newline_notMem_escape (s : String) : '\n' ∉ (escape s).toList := by
  rw [toList_escape, List.mem_flatMap]
  rintro ⟨c, -, hc⟩
  exact newline_notMem_escapeChar c hc

theorem newline_notMem_quoted (s : String) : '\n' ∉ (quoted s).toList := by
  simp [quoted, newline_notMem_escape]

theorem unquote_escapeChar (c : Char) (line : List Char) :
    unquote (escapeChar c ++ line) = (unquote line).map (fun r => (c :: r.1, r.2)) := by
  by_cases hslash : c = '\\'
  · subst c
    cases h : unquote line <;> simp [escapeChar, unquote, unescapeChar, h]
  by_cases hquote : c = '"'
  · subst c
    cases h : unquote line <;> simp [escapeChar, unquote, unescapeChar, h]
  by_cases hnewline : c = '\n'
  · subst c
    cases h : unquote line <;> simp [escapeChar, unquote, unescapeChar, h]
  cases h : unquote line <;> simp [escapeChar, hslash, hquote, hnewline, unquote, h]

theorem unquote_escape (s : String) (line : List Char) :
    unquote ((escape s).toList ++ '"' :: line) = some (s.toList, line) := by
  rw [toList_escape]
  induction s.toList with
  | nil => simp [unquote]
  | cons c s ih =>
    rw [List.flatMap_cons, List.append_assoc, unquote_escapeChar, ih]
    rfl

theorem readQuoted_append (before : String) (line : List Char) :
    readQuoted before ((before ++ "\"").toList ++ line) =
      (unquote line).map (fun r => (String.ofList r.1, r.2)) := by
  have hdrop : ((before ++ "\"").toList ++ line).dropPrefix? (before ++ "\"").toList = some line :=
    List.dropPrefix?_eq_some_iff.mpr ⟨(before ++ "\"").toList, rfl, beq_self_eq_true _⟩
  rw [readQuoted, hdrop]
  cases h : unquote line <;> simp [h]

theorem readQuoted_quoted (before s : String) (line : List Char) :
    readQuoted before (before.toList ++ ((quoted s).toList ++ line)) = some (s, line) := by
  have hline : before.toList ++ ((quoted s).toList ++ line) =
      (before ++ "\"").toList ++ ((escape s).toList ++ '"' :: line) := by
    simp [quoted]
  rw [hline, readQuoted_append, unquote_escape, Option.map_some, String.ofList_toList]

theorem readLine_quoted (name : String) (line : List Char) :
    readLine ("  ".toList ++ ((quoted name).toList ++ line)) =
      if line = " [shape=ellipse];".toList then some (.ellipse name)
      else if " [label=\"".toList.isPrefixOf line then some (.block name)
      else readEdge name line := by
  rw [readLine, readQuoted_quoted]
  rfl

theorem readLine_externalLine (name : String) :
    readLine (externalLine name).toList = some (.ellipse name) := by
  have hline : (externalLine name).toList =
      "  ".toList ++ ((quoted name).toList ++ " [shape=ellipse];".toList) := by
    simp [externalLine]
  rw [hline, readLine_quoted, if_pos rfl]

theorem readLine_vertexLine (options : Options) (b : Block) :
    readLine (vertexLine options b).toList = some (.block b.name) := by
  have hline : (vertexLine options b).toList =
      "  ".toList ++ ((quoted b.name).toList ++
        (" [label=\"".toList ++ (label options b ++ "\"];").toList)) := by
    simp [vertexLine]
  rw [hline, readLine_quoted, if_neg (by simp), if_pos (by simp)]

theorem quoted_name (c : Condition) : quoted c.name = "\"" ++ c.name ++ "\"" := by
  cases c <;> decide

theorem find?_name (c : Condition) :
    Condition.all.find? (fun d => d.name = c.name) = some c := by
  cases c <;> decide

theorem isSuffixOf_style (d : Destination) :
    ", style=bold];".toList.isSuffixOf (style d ++ "];").toList = d.target.node?.isSome := by
  obtain ⟨c, target⟩ := d
  cases target with
  | block b => cases c <;> simp [style, Place.node?, List.isSuffixOf, List.isPrefixOf]
  | node name => cases c <;> simp [style, Place.node?, List.isSuffixOf, List.isPrefixOf]

theorem readLine_arrowLine (a : Arrow) :
    readLine (arrowLine a).toList =
      some (.edge a.source a.destination.target.name a.destination.condition
        a.destination.target.node?.isSome) := by
  obtain ⟨source, d⟩ := a
  have hline : (arrowLine ⟨source, d⟩).toList =
      "  ".toList ++ ((quoted source).toList ++
        (" -> ".toList ++ ((quoted d.target.name).toList ++
          (" [label=".toList ++ ((quoted d.condition.name).toList ++
            (style d ++ "];").toList))))) := by
    simp [arrowLine, quoted_name]
  rw [hline, readLine_quoted, if_neg (by simp), if_neg (by simp [List.isPrefixOf]), readEdge,
    readQuoted_quoted]
  simp only [Option.bind_eq_bind, Option.bind_some, readQuoted_quoted, find?_name,
    isSuffixOf_style]
  rfl

theorem readLine_eq_none {line : List Char} (h : line.dropPrefix? ("  " ++ "\"").toList = none) :
    readLine line = none := by
  rw [readLine, readQuoted, h]
  rfl

theorem eq_of_mem_titleLines {title : Option String} {line : String} (h : line ∈ titleLines title) :
    ∃ t, line = "  label=" ++ quoted t ++ ";" := by
  obtain ⟨t, -, ht⟩ : ∃ t, title.filter (· ≠ "") = some t ∧
      "  label=" ++ quoted t ++ ";" = line := by
    simpa [titleLines] using h
  exact ⟨t, ht.symm⟩

theorem readLine_titleLines {title : Option String} {line : String} (h : line ∈ titleLines title) :
    readLine line.toList = none := by
  obtain ⟨t, rfl⟩ := eq_of_mem_titleLines h
  apply readLine_eq_none
  simp [List.dropPrefix?]

theorem readLine_direction (direction : String) :
    readLine ("  rankdir=" ++ direction ++ ";").toList = none := by
  apply readLine_eq_none
  simp [List.dropPrefix?]

theorem newline_notMem_append {s t : String} :
    '\n' ∉ (s ++ t).toList ↔ '\n' ∉ s.toList ∧ '\n' ∉ t.toList := by
  rw [String.toList_append, List.mem_append, not_or]

theorem newline_notMem_intercalate {sep : String} (hs : '\n' ∉ sep.toList) {parts : List String}
    (hp : ∀ part ∈ parts, '\n' ∉ part.toList) : '\n' ∉ (sep.intercalate parts).toList := by
  induction parts with
  | nil => simp
  | cons part rest ih =>
    have hrest := ih (fun q hq => hp q (List.mem_cons_of_mem part hq))
    by_cases hnil : rest = []
    · subst rest
      simpa using hp
    · rw [String.intercalate_cons_of_ne_nil hnil, newline_notMem_append, newline_notMem_append]
      exact ⟨⟨hp part List.mem_cons_self, hs⟩, hrest⟩

theorem newline_notMem_vertexLine {options : Options} (h : options.showInstructions = true)
    (b : Block) : '\n' ∉ (vertexLine options b).toList := by
  have hbody : '\n' ∉ ("\\l".intercalate (b.instructions.map (fun i => escape i.text))).toList := by
    apply newline_notMem_intercalate (by decide)
    simp [newline_notMem_escape]
  have hlabel : '\n' ∉ (label options b).toList := by
    rw [label, if_pos h, newline_notMem_append, newline_notMem_append, newline_notMem_append]
    exact ⟨⟨⟨newline_notMem_escape b.name, by decide⟩, hbody⟩, by decide⟩
  simp [vertexLine, newline_notMem_quoted, hlabel]

theorem newline_notMem_arrowLine (a : Arrow) : '\n' ∉ (arrowLine a).toList := by
  have hname : '\n' ∉ a.destination.condition.name.toList := by
    cases a.destination.condition <;> decide
  have hstyle : '\n' ∉ (style a.destination).toList := by
    rw [style]
    cases a.destination.condition <;> cases a.destination.target <;> simp
  simp [arrowLine, newline_notMem_quoted, hname, hstyle]

theorem newline_notMem_externalLine (name : String) : '\n' ∉ (externalLine name).toList := by
  simp [externalLine, newline_notMem_quoted]

theorem newline_notMem_titleLines {title : Option String} {line : String}
    (h : line ∈ titleLines title) : '\n' ∉ line.toList := by
  obtain ⟨t, rfl⟩ := eq_of_mem_titleLines h
  simp [newline_notMem_quoted]

def edge? (includeNodeEdges : Bool) (source : String) (d : Destination) : Option Statement :=
  match d.target with
  | .block b => some (.edge source b.name d.condition false)
  | .node name => if includeNodeEdges then some (.edge source name d.condition true) else none

def nodesReached (includeNodeEdges : Bool) (vertices : List Vertex) : List String :=
  if includeNodeEdges then (vertices.flatMap Vertex.nodeDestinations).eraseDups else []

/-- The edges that are drawn from one block are those to be stated. -/
theorem map_filter_eq_edges (includeNodeEdges : Bool) (source : String) (ds : List Destination) :
    (ds.filter (fun d => includeNodeEdges || d.target.node?.isNone)).map (fun d =>
      Statement.edge source d.target.name d.condition d.target.node?.isSome) =
      ds.filterMap (edge? includeNodeEdges source) := by
  induction ds with
  | nil => rfl
  | cons d ds ih =>
    obtain ⟨condition, target⟩ := d
    cases target with
    | block b => simpa [edge?, Place.node?, Place.name] using ih
    | node name =>
      by_cases h : includeNodeEdges = true
      · simpa [h, edge?, Place.node?, Place.name] using ih
      · simpa [h, edge?, Place.node?] using ih

theorem filterMap_arrowLines (options : Options) (vertices : List Vertex) :
    ((arrows options vertices).map arrowLine).filterMap (fun line => readLine line.toList) =
      vertices.flatMap (fun v =>
        v.destinations.filterMap (edge? options.includeNodeEdges v.block.name)) := by
  rw [List.filterMap_map, arrows]
  simp only [Function.comp_def, readLine_arrowLine, List.filterMap_eq_map', List.map_flatMap,
    List.map_map, map_filter_eq_edges]

theorem externalNodes_arrows (options : Options) (vertices : List Vertex) :
    externalNodes (arrows options vertices) = nodesReached options.includeNodeEdges vertices := by
  rw [externalNodes, arrows, nodesReached, List.filterMap_flatMap]
  simp only [List.filterMap_map, Function.comp_def]
  by_cases h : options.includeNodeEdges = true
  · simp only [h, Bool.true_or, List.filter_true, if_true]
    rfl
  · -- Without edges to nodes every edge that is drawn leads to a block.
    have hnone : ∀ ds : List Destination,
        (ds.filter (fun d => options.includeNodeEdges || d.target.node?.isNone)).filterMap
          (fun d => d.target.node?) = [] := by
      intro ds
      simp [h]
    rw [List.flatMap_eq_nil_iff.mpr (fun v _ => hnone v.destinations), if_neg h]
    rfl

theorem newline_notMem_blockLines {options : Options} (hd : '\n' ∉ options.direction.toList)
    (hs : options.showInstructions = true) (vertices : List Vertex) :
    ∀ line ∈ blockLines options vertices, '\n' ∉ line.toList := by
  intro line hline
  simp only [blockLines, List.mem_append, List.mem_cons, List.mem_map, List.not_mem_nil,
    or_false] at hline
  obtain (((((rfl | ht) | rfl | rfl) | ⟨v, -, rfl⟩) | ⟨a, -, rfl⟩) | ⟨name, -, rfl⟩) | rfl := hline
  · decide
  · exact newline_notMem_titleLines ht
  · rw [newline_notMem_append, newline_notMem_append]
    exact ⟨⟨by decide, hd⟩, by decide⟩
  · decide
  · exact newline_notMem_vertexLine hs v.block
  · exact newline_notMem_arrowLine a
  · exact newline_notMem_externalLine name
  · decide

theorem filterMap_blockLines (options : Options) (vertices : List Vertex) :
    (blockLines options vertices).filterMap (fun line => readLine line.toList) =
      vertices.map (fun v => .block v.block.name) ++
        vertices.flatMap (fun v =>
          v.destinations.filterMap (edge? options.includeNodeEdges v.block.name)) ++
        (nodesReached options.includeNodeEdges vertices).map .ellipse := by
  have htitle : (titleLines options.title).filterMap (fun line => readLine line.toList) = [] :=
    List.filterMap_eq_nil_iff.mpr (fun _ h => readLine_titleLines h)
  have hopening : readLine "digraph blocks \x7b".toList = none := by decide
  have hnode : readLine "  node [shape=box, fontname=monospace, fontsize=10];".toList = none := by
    decide
  have hclosing : readLine "\x7d".toList = none := by decide
  simp only [blockLines, List.filterMap_append, filterMap_arrowLines, externalNodes_arrows]
  simp only [List.filterMap_map, Function.comp_def, readLine_vertexLine, readLine_externalLine,
    List.filterMap_eq_map']
  simp only [List.filterMap_cons, List.filterMap_nil, hopening, hnode, hclosing, htitle,
    readLine_direction, List.nil_append, List.append_nil]

/-- A drawing that shows instructions can be read back: its lines state the names of the blocks,
then the edges of each block, then the nodes that edges lead to. -/
theorem read_blocks {options : Options} (hd : options.direction ∈ ["TB", "LR", "BT", "RL"])
    (hs : options.showInstructions = true) (vertices : List Vertex) :
    read (blocks options vertices) =
      vertices.map (fun v => .block v.block.name) ++
        vertices.flatMap (fun v =>
          v.destinations.filterMap (edge? options.includeNodeEdges v.block.name)) ++
        (nodesReached options.includeNodeEdges vertices).map .ellipse := by
  have hdirection : '\n' ∉ options.direction.toList := by
    have hall : ∀ d ∈ ["TB", "LR", "BT", "RL"], '\n' ∉ d.toList := by decide
    exact hall _ hd
  have hlines : ∀ line ∈ (blockLines options vertices).map String.toList, '\n' ∉ line := by
    rw [List.forall_mem_map]
    exact newline_notMem_blockLines hdirection hs vertices
  have hne : (blockLines options vertices).map String.toList ≠ [] := by
    simp [blockLines]
  have hnewline : "\n".toList = ['\n'] := rfl
  rw [read, blocks, String.toList_intercalate, hnewline, List.splitOn_intercalate '\n' hlines hne,
    List.filterMap_map]
  exact filterMap_blockLines options vertices

/-- Names with all that is escaped, one of them shaped like a line of a drawing. -/
def gate : Block := ⟨"\"Gate\"\n  \"Wall\" [shape=ellipse];\\", 0, none,
  [⟨.runLine, [.string "\\\n\""]⟩, ⟨.jumpIfFalse, [.string "Hut\n"]⟩]⟩

def hut : Block := ⟨"Gate", 2, some "Hut\n", [⟨.stop, []⟩]⟩

def gateDestinations : List Destination := [
  ⟨.expressionIsFalse, .block hut⟩,
  ⟨.fallthrough, .node "Sea\\"⟩,
  ⟨.directJump, .node "Sea\\"⟩]

def gateVertices : List Vertex := [
  ⟨gate, gateDestinations, []⟩,
  ⟨hut, [⟨.option, .block gate⟩], [gate]⟩]

def gateOptions : Options := ⟨some "  \"Gate\" [label=\"", "LR", true, true⟩

theorem read_blocks_gate :
    gateOptions.direction ∈ ["TB", "LR", "BT", "RL"] ∧ gateOptions.showInstructions = true ∧
      read (blocks gateOptions gateVertices) = [
        .block gate.name,
        .block hut.name,
        .edge gate.name hut.name .expressionIsFalse false,
        .edge gate.name "Sea\\" .fallthrough true,
        .edge gate.name "Sea\\" .directJump true,
        .edge hut.name gate.name .option false,
        .ellipse "Sea\\"] :=
  ⟨by decide, rfl, (read_blocks (by decide) rfl gateVertices).trans rfl⟩

end DialogueFlow.Export.Dot
