import DialogueFlow.Flow

namespace DialogueFlow.Export

structure Options where
  title : Option String
  direction : String
  showInstructions : Bool
  includeNodeEdges : Bool
deriving DecidableEq

def Options.default : Options := ⟨none, "TB", false, true⟩

structure Arrow where
  source : String
  destination : Destination
deriving DecidableEq

def arrows (options : Options) (vertices : List Vertex) : List Arrow :=
  vertices.flatMap (fun v =>
    (v.destinations.filter (fun d => options.includeNodeEdges || d.target.node?.isNone)).map
      (fun d => ⟨v.block.name, d⟩))

/-- The nodes to which edges are drawn, in order of first appearance. -/
def externalNodes (arrows : List Arrow) : List String :=
  (arrows.filterMap (fun a => a.destination.target.node?)).eraseDups

end DialogueFlow.Export
