import DialogueFlow.Program
import DialogueFlow.Sorted

namespace DialogueFlow

inductive Condition where
  | fallthrough
  | directJump
  | expressionIsTrue
  | expressionIsFalse
  | option
deriving DecidableEq, Repr

namespace Condition

def all : List Condition :=
  [.fallthrough, .directJump, .expressionIsTrue, .expressionIsFalse, .option]

def name : Condition → String
  | .fallthrough => "fallthrough"
  | .directJump => "direct-jump"
  | .expressionIsTrue => "expression-is-true"
  | .expressionIsFalse => "expression-is-false"
  | .option => "option"

end Condition

/-- `first` is the place of the first instruction in the node, `label` a label that targets it. -/
structure Block where
  node : String
  first : Int
  label : Option String
  instructions : List Instruction
deriving DecidableEq

namespace Block

/-- Blocks are identified by their node and their place in it. -/
def key (b : Block) : String × Int := (b.node, b.first)

def name (b : Block) : String :=
  match b.label with
  | some label => s!"{b.node}.{label}"
  | none => s!"{b.node}.{b.first}"

def endIndex (b : Block) : Int := b.first + b.instructions.length

def last? (b : Block) : Option Instruction := b.instructions.getLast?

def text (b : Block) : String :=
  s!"BasicBlock({Text.quote b.name}, ninstructions={b.instructions.length})"

end Block

inductive Place where
  | block (b : Block)
  | node (name : String)
deriving DecidableEq

def Place.name : Place → String
  | .block b => b.name
  | .node name => name

def Place.kind : Place → String
  | .block _ => "block"
  | .node _ => "node"

def Place.node? : Place → Option String
  | .block _ => none
  | .node name => some name

def Place.block? : Place → Option Block
  | .block b => some b
  | .node _ => none

structure Destination where
  condition : Condition
  target : Place
deriving DecidableEq

def Destination.text (d : Destination) : String :=
  s!"Destination({d.condition.name} -> {d.target.kind} {Text.quote d.target.name})"

/-- A block with the edges that it has in a graph. -/
structure Vertex where
  block : Block
  destinations : List Destination
  ancestors : List Block
deriving DecidableEq

namespace Vertex

def blockDestinations (v : Vertex) : List Block :=
  v.destinations.filterMap (fun d => d.target.block?)

def nodeDestinations (v : Vertex) : List String :=
  v.destinations.filterMap (fun d => d.target.node?)

def ancestorNames (v : Vertex) : List String :=
  sortedTexts (v.ancestors.map Block.name)

def summary (v : Vertex) : String :=
  let destinations := v.destinations.map (fun d => s!"{d.target.name}({d.condition.name})")
  s!"{v.block.name} [{v.block.first}..{v.block.endIndex - 1}] " ++
    "dest=[" ++ ", ".intercalate destinations ++ "]  " ++
    "anc=[" ++ ", ".intercalate v.ancestorNames ++ "]"

def writeSummary (v : Vertex) : Except WriteFault String :=
  if isWritable (v.block.endIndex - 1) then .ok v.summary else .error .longInteger

end Vertex

def summary (vertices : List Vertex) : String :=
  "\n".intercalate (vertices.map Vertex.summary)

def writeSummary (vertices : List Vertex) : Except WriteFault String :=
  (vertices.mapM Vertex.writeSummary).map ("\n".intercalate ·)

end DialogueFlow
