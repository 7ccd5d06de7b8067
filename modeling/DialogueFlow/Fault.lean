import DialogueFlow.Json.Reader
import DialogueFlow.Opcode
import DialogueFlow.Operand
import DialogueFlow.Text.Utf8

namespace DialogueFlow

inductive Malformed where
  | opcodeKind (raw : Json)
  | opcodeNumber (number : Int)
  | opcodeName (name : String)
  | operandKind (value : Json)
  | missingOperand (opcode : Opcode) (position : Int) (count : Nat)
  | instructionShape (data : Json)
  | operandsShape (operands : Json)
  | nodeShape (data : Json)
  | nodeName
  | instructionsShape (node : String)
  | labelsShape (node : String)
  | headersShape (node : String)
  | labelKind (label node : String) (index : Json)
  | labelRange (label node : String) (index : Int) (count : Nat)
  | duplicateNode (name : String)
  | programShape
  | nodesShape
  | initialValuesShape
  | invalidJson (report : Json.Report)
  | invalidUtf8 (path : String) (fault : Text.Utf8Fault)

inductive Broken where
  | noLeader (node : String)
  | labelInside (node label : String) (index : Int)
  | noBlock (node : String) (index : Int)
  | noLabel (node label : String)
  | noLabelledBlock (node label : String) (index : Int)
  | emptyJump (node : String) (index : Int)
  | noTarget (node : String)
  | emptyTarget (node : String)
deriving DecidableEq

/-- What breaks an analysis off. The first three are reported. The last one takes the place of a
report that names an integer with too many digits. -/
inductive Fault where
  | malformed (cause : Malformed)
  | operandKind (expected : Operand.Kind) (value : Operand)
  | broken (cause : Broken)
  | write (f : WriteFault)

/-- Why reading a document fails. Numbers may be out of range, text may hold an integer with too
many digits or too many containers inside each other, and a value that stands for a text may not be
written. -/
inductive ReadFault where
  | malformed (cause : Malformed)
  | overflow
  | longInteger (digits : Nat)
  | tooDeep (container : Json.Container)
  | write (f : WriteFault)

def Text.Utf8Reason.text : Text.Utf8Reason → String
  | .invalidStart => "invalid start byte"
  | .invalidContinuation => "invalid continuation byte"
  | .endOfData => "unexpected end of data"

def Text.Utf8Fault.text (f : Text.Utf8Fault) : String :=
  let place := match f.bytes with
    | [b] => s!"byte 0x{String.ofList (Text.hex 2 b.toNat)} in position {f.offset}"
    | _ => s!"bytes in position {f.offset}-{f.offset + f.bytes.length - 1}"
  s!"'utf-8' codec can't decode {place}: {f.reason.text}"

def Malformed.text : Malformed → String
  | .opcodeKind raw => s!"invalid opcode {raw.display}"
  | .opcodeNumber number => s!"unknown opcode number {number}"
  | .opcodeName name => s!"unknown opcode name {Text.quote name}"
  | .operandKind value => s!"operand must be a string, bool or number, got {value.display}"
  | .missingOperand opcode position count =>
    s!"{opcode.name} has no operand #{position} (only {count} present)"
  | .instructionShape data =>
    s!"instruction must be an object with an 'opcode': {data.display}"
  | .operandsShape operands => s!"'operands' must be a list: {operands.display}"
  | .nodeShape data => s!"node must be an object, got {data.kind}"
  | .nodeName => "node is missing a 'name'"
  | .instructionsShape node => s!"node {Text.quote node}: 'instructions' must be a list"
  | .labelsShape node => s!"node {Text.quote node}: 'labels' must be an object"
  | .headersShape node => s!"node {Text.quote node}: 'headers' must be an object"
  | .labelKind label node index =>
    s!"label {Text.quote label} in node {Text.quote node} has non-integer index {index.display}"
  | .labelRange label node index count =>
    s!"label {Text.quote label} in node {Text.quote node} points at {index}, " ++
      s!"outside 0..{(count : Int) - 1}"
  | .duplicateNode name => s!"duplicate node name {Text.quote name}"
  | .programShape => "program document must be a JSON object"
  | .nodesShape => "'nodes' must be an object or a list"
  | .initialValuesShape => "'initial_values' must be an object"
  | .invalidJson report => s!"invalid JSON: {report.text}"
  | .invalidUtf8 path fault => s!"{path} is not UTF-8 text: {fault.text}"

def Broken.text : Broken → String
  | .noLeader node => s!"No leader at index 0 in {node}"
  | .labelInside node label index =>
    s!"Label {Text.quote label} in {node} targets index {index}, which does not begin a block"
  | .noBlock node index => s!"No block in {node} starts at index {index}"
  | .noLabel node label => s!"No label {Text.quote label} in {node}"
  | .noLabelledBlock node label index =>
    s!"No block in {node} starts at index {index} (label {Text.quote label})"
  | .emptyJump node _ => s!"RunNode in {node} targets an empty node name"
  | .noTarget _ => "destination block must not be None"
  | .emptyTarget _ => "destination node name must not be empty"

def Broken.node : Broken → String
  | .noLeader node | .labelInside node _ _ | .noBlock node _ | .noLabel node _
  | .noLabelledBlock node _ _ | .emptyJump node _ | .noTarget node | .emptyTarget node => node

def Broken.index? : Broken → Option Int
  | .noLeader _ => some 0
  | .labelInside _ _ index | .noBlock _ index | .noLabelledBlock _ _ index
  | .emptyJump _ index => some index
  | .noLabel _ _ | .noTarget _ | .emptyTarget _ => none

def Broken.label? : Broken → Option String
  | .labelInside _ label _ | .noLabel _ label | .noLabelledBlock _ label _ => some label
  | .noLeader _ | .noBlock _ _ | .emptyJump _ _ | .noTarget _ | .emptyTarget _ => none

inductive Diagnostic.Kind where
  | general
  | document
  | operand (expected : String) (value : Json)
  | graph (index : Option Int) (label : Option String)

structure Diagnostic where
  kind : Diagnostic.Kind
  code : String
  detail : String
  node : Option String

namespace Diagnostic

def Kind.code : Kind → String
  | .general | .document => "YA-1001"
  | .operand _ _ => "YA-1002"
  | .graph _ _ => "YA-9001"

def general (detail : String) (code node : Option String) : Diagnostic :=
  ⟨.general, (code.filter (· ≠ "")).getD Kind.general.code, detail, node⟩

def document (detail : String) (code node : Option String) : Diagnostic :=
  ⟨.document, (code.filter (· ≠ "")).getD Kind.document.code, detail, node⟩

def operand (expected : String) (value : Json) : Diagnostic :=
  ⟨.operand expected value, (Kind.operand expected value).code,
    s!"expected a {expected} operand, got {value.display}", none⟩

def graph (detail node : String) (index : Option Int) (label : Option String) : Diagnostic :=
  ⟨.graph index label, (Kind.graph index label).code, detail, some node⟩

def text (d : Diagnostic) : String := s!"[{d.code}] {d.detail}"

end Diagnostic

/-- The report on a fault, unless that cannot be written. -/
def Fault.report : Fault → Except WriteFault Diagnostic
  | .malformed cause => .ok (.document cause.text none none)
  | .operandKind expected value => .ok (.operand expected.name value.toJson)
  | .broken cause => .ok (.graph cause.text cause.node cause.index? cause.label?)
  | .write f => .error f

def Fault.text (f : Fault) : String :=
  match f.report with
  | .ok d => d.text
  | .error f => f.text

end DialogueFlow
