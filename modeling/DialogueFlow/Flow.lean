import DialogueFlow.Flow.Link
import DialogueFlow.Flow.Partition
import DialogueFlow.Log

namespace DialogueFlow

structure Flow where
  size : Nat
  graph : Graph size

namespace Flow

def vertices (f : Flow) : List Vertex := f.graph.vertices

def blocks (f : Flow) : List Block := f.graph.blocks.toList

end Flow

namespace Node

def link (node : Node) (blocks : List Block) : Linking blocks.length :=
  (Graph.ofBlocks blocks).link node (List.finRange _)

/-- The blocks of a node with their edges. There is no flow if a jump leads nowhere or control can
run past the last instruction. -/
def flow (node : Node) : Except Fault Flow :=
  match node.partition node.leaders with
  | .error f => .error f
  | .ok blocks =>
    let l := node.link blocks
    match l.fault with
    | some f => .error f
    | none => .ok ⟨_, l.graph⟩

def flowLog (node : Node) : List Log.Entry :=
  if node.instructions.isEmpty then []
  else
    let debug := fun message => (⟨.debug, .flow, message⟩ : Log.Entry)
    let leaders := ", ".intercalate (node.leaders.map toString)
    debug s!"{node.name}: leaders [{leaders}]" ::
      match node.partition node.leaders with
      | .error _ => []
      | .ok blocks =>
        let l := node.link blocks
        let notes := l.unresolved.map (fun (i, index) =>
          debug s!"{(l.graph.block i).name}: RunNode at {index} has no known target; edge omitted")
        match l.fault with
        | some _ => notes
        | none => notes ++ [debug s!"{node.name}: {blocks.length} block(s)"]

end Node

/-- The flows of the nodes that have one, and what is wrong with the others. A fault that cannot be
written stops the analysis; what it had come to is kept. -/
structure Analysis where
  flows : Table Flow
  failures : Table Fault
  stop : Option WriteFault

namespace Analysis

def empty : Analysis := ⟨∅, ∅, none⟩

def add (a : Analysis) (node : Node) : Analysis :=
  match a.stop, node.flow with
  | some _, _ => a
  | none, .ok flow => { a with flows := a.flows.insert node.name flow }
  | none, .error (.write f) => { a with stop := some f }
  | none, .error f => { a with failures := a.failures.insert node.name f }

def isOk (a : Analysis) : Bool := a.failures.entries.isEmpty

def vertices (a : Analysis) : List Vertex := a.flows.values.flatMap Flow.vertices

def blockNamed? (a : Analysis) (name : String) : Option Block :=
  (a.vertices.map Vertex.block).find? (fun b => b.name == name)

def connections (a : Analysis) : Table (List String) :=
  a.flows.map (fun flow => (flow.vertices.flatMap Vertex.nodeDestinations).eraseDups)

end Analysis

namespace Program

def analyse (p : Program) : Analysis := p.nodes.values.foldl Analysis.add .empty

/-- What the log says about nodes, up to one that stops the analysis. -/
def nodesLog : List Node → List Log.Entry
  | [] => []
  | node :: rest =>
    match node.flow with
    | .ok _ => node.flowLog ++ nodesLog rest
    | .error (.write _) => node.flowLog
    | .error f =>
      node.flowLog ++ ⟨.error, .flow, s!"Analysis of node {node.name} failed: {f.text}"⟩ ::
        nodesLog rest

def analysisLog (p : Program) : List Log.Entry :=
  let a := p.analyse
  let blocks := a.vertices.length
  let total :=
    s!"Analysed {p.size} node(s): {blocks} block(s), {a.failures.size} failure(s)"
  nodesLog p.nodes.values ++ if a.stop.isNone then [⟨.info, .flow, total⟩] else []

end Program

end DialogueFlow
