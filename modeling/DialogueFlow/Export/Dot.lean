import DialogueFlow.Export

namespace DialogueFlow.Export.Dot

def escapeChar (c : Char) : List Char :=
  if c = '\\' then ['\\', '\\']
  else if c = '"' then ['\\', '"']
  else if c = '\n' then ['\\', 'n']
  else [c]

def escape (s : String) : String := String.ofList (s.toList.flatMap escapeChar)

def quoted (s : String) : String := "\"" ++ escape s ++ "\""

def style (d : Destination) : String :=
  let colour := match d.condition with
    | .expressionIsTrue => ", color=green, fontcolor=green"
    | .expressionIsFalse => ", color=red, fontcolor=red"
    | .option => ", color=blue, fontcolor=blue"
    | .fallthrough => ", style=dashed"
    | .directJump => ""
  match d.target with
  | .node _ => colour ++ ", style=bold"
  | .block _ => colour

/-- With instructions, the label is the escaped name and one line for each instruction. Without
them it is the plain name. -/
def label (options : Options) (b : Block) : String :=
  if options.showInstructions then
    escape b.name ++ "\\n" ++
      "\\l".intercalate (b.instructions.map (fun i => escape i.text)) ++ "\\l"
  else b.name

def vertexLine (options : Options) (b : Block) : String :=
  "  " ++ quoted b.name ++ " [label=\"" ++ label options b ++ "\"];"

def arrowLine (a : Arrow) : String :=
  "  " ++ quoted a.source ++ " -> " ++ quoted a.destination.target.name ++
    " [label=\"" ++ a.destination.condition.name ++ "\"" ++ style a.destination ++ "];"

def externalLine (name : String) : String := "  " ++ quoted name ++ " [shape=ellipse];"

def titleLines (title : Option String) : List String :=
  ((title.filter (· ≠ "")).map (fun t => "  label=" ++ quoted t ++ ";")).toList

def blockLines (options : Options) (vertices : List Vertex) : List String :=
  let drawn := arrows options vertices
  ["digraph blocks \x7b"] ++ titleLines options.title ++
    ["  rankdir=" ++ options.direction ++ ";",
      "  node [shape=box, fontname=monospace, fontsize=10];"] ++
    vertices.map (fun v => vertexLine options v.block) ++
    drawn.map arrowLine ++
    (externalNodes drawn).map externalLine ++ ["\x7d"]

def blocks (options : Options) (vertices : List Vertex) : String :=
  "\n".intercalate (blockLines options vertices)

def connectionLines (node : String) (targets : List String) : List String :=
  if targets.isEmpty then ["  " ++ quoted node ++ ";"]
  else targets.map (fun target => "  " ++ quoted node ++ " -> " ++ quoted target ++ ";")

def connections (title : Option String) (connections : Table (List String)) : String :=
  "\n".intercalate (["digraph dialogue \x7b"] ++ titleLines title ++
    connections.entries.flatMap (fun e => connectionLines e.1 e.2) ++ ["\x7d"])

end DialogueFlow.Export.Dot
