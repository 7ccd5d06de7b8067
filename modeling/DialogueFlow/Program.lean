import DialogueFlow.Fault

namespace DialogueFlow

structure Instruction (τ : Type := String) where
  opcode : Opcode
  operands : List (Operand τ)
deriving DecidableEq

namespace Operand

def asString : Operand → Except Fault String
  | .string value => .ok value
  | op => .error (.operandKind .string op)

def asBool : Operand → Except Fault Bool
  | .bool value => .ok value
  | op => .error (.operandKind .bool op)

def asFloat : Operand → Except Fault Double
  | .float value => .ok value
  | op => .error (.operandKind .float op)

end Operand

namespace Instruction

/-- The operand at a position; negative positions count from the end. -/
def operand? (i : Instruction) (position : Int) : Option Operand :=
  let place := if position < 0 then position + i.operands.length else position
  if place < 0 then none else i.operands[place.toNat]?

def operand (i : Instruction) (position : Int) : Except Fault Operand :=
  match i.operand? position with
  | some op => .ok op
  | none => .error (.malformed (.missingOperand i.opcode position i.operands.length))

def stringOperand (i : Instruction) (position : Int) : Except Fault String :=
  i.operand position >>= Operand.asString

def textWith {τ : Type} (codes : τ → List Nat) (i : Instruction τ) : String :=
  " ".intercalate (i.opcode.name :: i.operands.map (Operand.textWith codes))

def text (i : Instruction) : String := i.textWith Text.codes

def sameValue (a b : Instruction) : Bool :=
  a.opcode == b.opcode && a.operands.length == b.operands.length &&
    (a.operands.zip b.operands).all (fun (x, y) => x.sameValue y)

end Instruction

structure Node where
  name : String
  instructions : List Instruction
  labels : Table Int
  headers : Table String
deriving DecidableEq

namespace Node

def labelAt? (node : Node) (index : Int) : Option String :=
  (node.labels.entries.find? (fun e => e.2 == index)).map Prod.fst

def Holds (node : Node) (index : Int) : Prop := 0 ≤ index ∧ index < node.instructions.length

instance (node : Node) (index : Int) : Decidable (node.Holds index) :=
  inferInstanceAs (Decidable (_ ∧ _))

/-- Whether a place can be written. Those of instructions that are there, and the one after them,
have few digits. -/
def writes (node : Node) (index : Int) : Bool :=
  decide (0 ≤ index ∧ index ≤ node.instructions.length) || isWritable index

def fault (node : Node) (cause : Broken) : Fault :=
  match cause with
  | .labelInside _ _ index | .noBlock _ index | .noLabelledBlock _ _ index =>
    if node.writes index then .broken cause else .write .longInteger
  | .noLeader _ | .noLabel _ _ | .emptyJump _ _ | .noTarget _ | .emptyTarget _ => .broken cause

end Node

/-- The table of nodes is in program order. Its keys are the names of the nodes in programs that are
read or built node by node. -/
structure Program where
  name : String
  nodes : Table Node
  initialValues : Table Operand
deriving DecidableEq

namespace Program

def named (name : String) : Program := ⟨name, ∅, ∅⟩

def add (p : Program) (node : Node) : Except Malformed Program :=
  if p.nodes.contains node.name then .error (.duplicateNode node.name)
  else .ok { p with nodes := p.nodes.insert node.name node }

def ofNodes (name : String) (nodes : List Node) : Except Malformed Program :=
  nodes.foldlM add (named name)

def size (p : Program) : Nat := p.nodes.size

end Program

end DialogueFlow
