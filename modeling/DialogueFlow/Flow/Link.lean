import DialogueFlow.Flow.Graph

namespace DialogueFlow

variable {n : Nat}

/-- The blocks among which jumps of a node are resolved, by their first places. Of two blocks with
the same first place the later one counts. -/
structure Index (n : Nat) where
  node : Node
  starts : List (Int × Fin n)

namespace Index

def find? (ix : Index n) (index : Int) : Option (Fin n) := ix.starts.reverse.lookup index

def starting (ix : Index n) (index : Int) : Except Broken (Fin n) :=
  match ix.find? index with
  | some i => .ok i
  | none => .error (.noBlock ix.node.name index)

def labelled (ix : Index n) (label : String) : Except Broken (Fin n) :=
  match ix.node.labels.get? label with
  | none => .error (.noLabel ix.node.name label)
  | some index =>
    match ix.find? index with
    | some i => .ok i
    | none => .error (.noLabelledBlock ix.node.name label index)

end Index

/-- The edges that instructions ask for, up to the end or to the first fault, and the places of
jumps to nodes that are not known. -/
structure Plan (n : Nat) where
  edges : List (Edge n)
  unresolved : List Int
  fault : Option Fault

namespace Plan

def done : Plan n := ⟨[], [], none⟩

def fail (f : Fault) : Plan n := ⟨[], [], some f⟩

def edgesThen (edges : List (Edge n)) (p : Plan n) : Plan n := { p with edges := edges ++ p.edges }

def options (ix : Index n) : List String → Plan n
  | [] => done
  | label :: rest =>
    match ix.labelled label with
    | .ok j => edgesThen [⟨.option, .block j⟩] (options ix rest)
    | .error cause => fail (ix.node.fault cause)

def append (p q : Plan n) : Plan n :=
  match p.fault with
  | some _ => p
  | none => ⟨p.edges ++ q.edges, p.unresolved ++ q.unresolved, q.fault⟩

/-- The edges of instructions that stand at `index` in the block's node `node`, after options for
the labels `labels`. `top` is the text that was pushed last, if nothing else was pushed since. -/
def ofInstructions (ix : Index n) (node : String) (index : Int) (labels : List String)
    (top : Option String) : List Instruction → Plan n
  | [] => done
  | i :: rest =>
    let goOn := fun labels top => ofInstructions ix node (index + 1) labels top rest
    match i.opcode with
    | .addOption =>
      match i.stringOperand 1 with
      | .ok label => goOn (labels ++ [label]) top
      | .error f => fail f
    | .jump => append (options ix labels) (goOn labels top)
    | .jumpTo =>
      match i.stringOperand 0 with
      | .error f => fail f
      | .ok label =>
        match ix.labelled label with
        | .error cause => fail (ix.node.fault cause)
        | .ok j => edgesThen [⟨.directJump, .block j⟩] (goOn labels top)
    | .pushString =>
      match i.stringOperand 0 with
      | .ok text => goOn labels (some text)
      | .error f => fail f
    | .pushBool | .pushFloat | .pushVariable => goOn labels none
    | .runNode =>
      match top with
      | none => append ⟨[], [index], none⟩ (goOn labels top)
      | some name =>
        if name.isEmpty then fail (.broken (.emptyJump node index))
        else edgesThen [⟨.directJump, .node name⟩] (goOn labels top)
    | .jumpIfFalse =>
      match i.stringOperand 0 with
      | .error f => fail f
      | .ok label =>
        match ix.labelled label, ix.starting (index + 1) with
        | .error cause, _ => fail (ix.node.fault cause)
        | .ok _, .error cause => fail (ix.node.fault cause)
        | .ok j, .ok k =>
          edgesThen [⟨.expressionIsFalse, .block j⟩, ⟨.expressionIsTrue, .block k⟩]
            (goOn labels top)
    | _ => goOn labels top

def ofBlock (ix : Index n) (b : Block) : Plan n :=
  ofInstructions ix b.node b.first [] none b.instructions

end Plan

def Block.runsOn (b : Block) : Bool :=
  match b.last? with
  | some i => i.opcode != .stop
  | none => false

structure Linking (n : Nat) where
  graph : Graph n
  unresolved : List (Fin n × Int)
  fault : Option Fault

namespace Graph

/-- Add the edges of one block. A block that got none and does not stop runs on into the next. -/
def linkBlock (g : Graph n) (ix : Index n) (i : Fin n) : Linking n :=
  let p := Plan.ofBlock ix (g.block i)
  let unresolved := p.unresolved.map (fun index => (i, index))
  let (g, refused) := g.addEdges i p.edges
  match (refused.map ix.node.fault).or p.fault with
  | some f => ⟨g, unresolved, some f⟩
  | none =>
    if (g.edges i).isEmpty && (g.block i).runsOn then
      match ix.starting (g.block i).endIndex with
      | .ok j =>
        let (g, refused) := g.addEdges i [⟨.fallthrough, .block j⟩]
        ⟨g, unresolved, refused.map ix.node.fault⟩
      | .error cause => ⟨g, unresolved, some (ix.node.fault cause)⟩
    else ⟨g, unresolved, none⟩

def linkBlocks (g : Graph n) (ix : Index n) : List (Fin n) → Linking n
  | [] => ⟨g, [], none⟩
  | i :: rest =>
    let l := g.linkBlock ix i
    match l.fault with
    | some _ => l
    | none =>
      let m := l.graph.linkBlocks ix rest
      { m with unresolved := l.unresolved ++ m.unresolved }

def link (g : Graph n) (node : Node) (members : List (Fin n)) : Linking n :=
  g.linkBlocks ⟨node, members.map (fun i => ((g.block i).first, i))⟩ members

end Graph

end DialogueFlow
