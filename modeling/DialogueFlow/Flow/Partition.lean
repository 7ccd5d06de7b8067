import DialogueFlow.Block
import DialogueFlow.Sorted

namespace DialogueFlow.Node

def placesAfterEnds (index : Nat) : List Instruction → List Nat
  | [] => []
  | [_] => []
  | i :: j :: rest =>
    let later := placesAfterEnds (index + 1) (j :: rest)
    if i.opcode.endsBlock then (index + 1) :: later else later

/-- The places that have to start a block: the first, every label target, in range or not, and each
place after an instruction that ends a block. -/
def leaders (node : Node) : List Int :=
  if node.instructions.isEmpty then []
  else sortedSet
    (0 :: (node.labels.values ++ (placesAfterEnds 0 node.instructions).map Int.ofNat))

def starts (node : Node) (leaders : List Int) : List Nat :=
  (sortedSet (leaders.filter (fun k => decide (node.Holds k)))).map Int.toNat

def slice (node : Node) (start stop : Nat) : Block where
  node := node.name
  first := start
  label := node.labelAt? start
  instructions := (node.instructions.drop start).take (stop - start)

def slices (node : Node) : List Nat → List Block
  | [] => []
  | [start] => [node.slice start node.instructions.length]
  | start :: stop :: rest => node.slice start stop :: node.slices (stop :: rest)

/-- Cut a node at the leaders. The first instruction and every label target has to be one. -/
def partition (node : Node) (leaders : List Int) : Except Fault (List Block) :=
  let starts := node.starts leaders
  match starts with
  | [] => .ok []
  | start :: _ =>
    if start ≠ 0 then .error (node.fault (.noLeader node.name))
    else
      match node.labels.entries.find? (fun e => !(starts.map Int.ofNat).contains e.2) with
      | some (label, index) => .error (node.fault (.labelInside node.name label index))
      | none => .ok (node.slices starts)

end DialogueFlow.Node
