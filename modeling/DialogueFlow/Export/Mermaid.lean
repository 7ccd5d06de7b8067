import DialogueFlow.Export

namespace DialogueFlow.Export.Mermaid

def identifierChar (c : Char) : Char :=
  if c.isAlphanum || c = '_' then c else '_'

/-- Identifiers are made of ASCII letters, digits and underscores. -/
def identifier (name : String) : String := String.ofList (name.toList.map identifierChar)

def escapeChar (c : Char) : List Char := if c = '"' then "#quot;".toList else [c]

def escape (s : String) : String := String.ofList (s.toList.flatMap escapeChar)

def label (options : Options) (b : Block) : String :=
  if options.showInstructions then
    b.name ++ "<br/>" ++ "<br/>".intercalate (b.instructions.map Instruction.text)
  else b.name

def vertexLine (options : Options) (b : Block) : String :=
  "    " ++ identifier b.name ++ "[\"" ++ escape (label options b) ++ "\"]"

def arrow : Condition → String
  | .fallthrough => "-.->"
  | _ => "-->"

def arrowLine (a : Arrow) : String :=
  let condition := a.destination.condition
  s!"    {identifier a.source} {arrow condition}|{condition.name}| " ++
    identifier a.destination.target.name

def externalLine (name : String) : String :=
  "    " ++ identifier name ++ "([\"" ++ escape name ++ "\"])"

def direction (options : Options) : String :=
  if options.direction = "TB" then "TD" else options.direction

def blocks (options : Options) (vertices : List Vertex) : String :=
  let drawn := arrows options vertices
  "\n".intercalate (["flowchart " ++ direction options] ++
    vertices.map (fun v => vertexLine options v.block) ++
    drawn.map arrowLine ++ (externalNodes drawn).map externalLine)

end DialogueFlow.Export.Mermaid
