import DialogueFlow.Block

namespace DialogueFlow

structure OptionItem where
  line : String
  destination : String
deriving DecidableEq

inductive Element where
  | line (id : String)
  | command (text : String)
  | options (items : List OptionItem)
deriving DecidableEq

/-- The elements up to the end, where the options that were never shown are left over, or up to the
first instruction without the operands that it needs. -/
structure Content where
  elements : List Element
  ending : Except Fault (List OptionItem)

namespace Content

def cons (e : Element) (c : Content) : Content := { c with elements := e :: c.elements }

def stop (f : Fault) : Content := ⟨[], .error f⟩

def ofInstructions (pending : List OptionItem) : List Instruction → Content
  | [] => ⟨[], .ok pending⟩
  | i :: rest =>
    match i.opcode with
    | .runLine =>
      match i.stringOperand 0 with
      | .ok id => cons (.line id) (ofInstructions pending rest)
      | .error f => stop f
    | .runCommand =>
      match i.stringOperand 0 with
      | .ok text => cons (.command text) (ofInstructions pending rest)
      | .error f => stop f
    | .addOption =>
      match i.stringOperand 0, i.stringOperand 1 with
      | .ok line, .ok destination => ofInstructions (pending ++ [⟨line, destination⟩]) rest
      | .error f, _ => stop f
      | .ok _, .error f => stop f
    | .showOptions => cons (.options pending) (ofInstructions [] rest)
    | _ => ofInstructions pending rest

/-- Whether there is an element. The first one settles it, whatever comes after. -/
def isPresent (c : Content) : Except Fault Bool :=
  match c.elements, c.ending with
  | _ :: _, _ => .ok true
  | [], .ok _ => .ok false
  | [], .error f => .error f

end Content

namespace Block

def content (b : Block) : Content := .ofInstructions [] b.instructions

def hasContent (b : Block) : Except Fault Bool := b.content.isPresent

end Block

end DialogueFlow
