import DialogueFlow.Program

namespace DialogueFlow

abbrev Read (α : Type) := Except ReadFault α

def malformed {α : Type} (cause : Malformed) : Read α := .error (.malformed cause)

def Json.field (key : String) (default : Json) (fields : List (String × Json)) : Json :=
  (fields.lookup key).getD default

/-- An optional list: nothing at all and blank values stand for the empty list. -/
def Json.optionalArray (otherwise : Malformed) (value : Json) : Read (List Json) :=
  if value.isBlank then .ok []
  else match value with
    | .array items => .ok items
    | _ => malformed otherwise

def Json.optionalObject (otherwise : Malformed) (value : Json) : Read (List (String × Json)) :=
  if value.isBlank then .ok []
  else match value with
    | .object fields => .ok fields
    | _ => malformed otherwise

def Json.readText (value : Json) : Read String := value.asText.mapError .write

def Opcode.ofJson : Json → Read Opcode
  | .int number =>
    match ofNumber? number with
    | some op => .ok op
    | none => malformed (.opcodeNumber number)
  | .string name =>
    match ofName? name with
    | some op => .ok op
    | none => malformed (.opcodeName name)
  | raw => malformed (.opcodeKind raw)

/-- Whole numbers are rounded to doubles. -/
def Operand.ofJson : Json → Read Operand
  | .string value => .ok (.string value)
  | .bool value => .ok (.bool value)
  | .float value => .ok (.float value)
  | .int value => (Double.ofInt? value).elim (.error .overflow) (fun x => .ok (.float x))
  | value => malformed (.operandKind value)

namespace Instruction

def make (opcode : Json) (operands : List Json) : Read Instruction := do
  let opcode ← Opcode.ofJson opcode
  let operands ← operands.mapM Operand.ofJson
  return ⟨opcode, operands⟩

def ofJson (data : Json) : Read Instruction :=
  match data with
  | .object fields =>
    match fields.lookup "opcode" with
    | none => malformed (.instructionShape data)
    | some opcode =>
      match Json.field "operands" (.array []) fields with
      | .array operands => make opcode operands
      | operands => malformed (.operandsShape operands)
  | _ => malformed (.instructionShape data)

def toJson (i : Instruction) : Json :=
  .object [("opcode", .string i.opcode.name), ("operands", .array (i.operands.map Operand.toJson))]

end Instruction

namespace Node

def labelIndex (node : String) (count : Nat) (label : String) : Json → Read Int
  | .int index =>
    if 0 ≤ index ∧ index < count then .ok index
    else malformed (.labelRange label node index count)
  | index => malformed (.labelKind label node index)

def ofFields (name : String) (fields : List (String × Json)) : Read Node := do
  let instructions ←
    (Json.field "instructions" .null fields).optionalArray (.instructionsShape name)
  let labels ← (Json.field "labels" .null fields).optionalObject (.labelsShape name)
  let headers ← (Json.field "headers" .null fields).optionalObject (.headersShape name)
  let instructions ← instructions.mapM Instruction.ofJson
  let headers ← headers.mapM (fun (key, value) => value.readText.map (fun text => (key, text)))
  let labels ← labels.mapM (fun (label, index) =>
    (labelIndex name instructions.length label index).map (fun n => (label, n)))
  return { name, instructions, labels := .ofList labels, headers := .ofList headers }

def validate (node : Node) : Read Unit :=
  node.labels.entries.forM (fun (label, index) => do
    let _ ← labelIndex node.name node.instructions.length label (.int index)
    return ())

/-- A name given from outside wins over the field of the document. -/
def ofJson (name : Option String) (data : Json) : Read Node :=
  match data with
  | .object fields =>
    match (name.map Json.string).getD (Json.field "name" .null fields) with
    | .string name => if name.isEmpty then malformed .nodeName else ofFields name fields
    | _ => malformed .nodeName
  | _ => malformed (.nodeShape data)

def toJson (node : Node) : Json := .object [
  ("name", .string node.name),
  ("instructions", .array (node.instructions.map Instruction.toJson)),
  ("labels", .object (node.labels.entries.map (fun e => (e.1, .int e.2)))),
  ("headers", .object (node.headers.entries.map (fun e => (e.1, .string e.2))))]

end Node

namespace Program

def addJson (p : Program) (name : Option String) (data : Json) : Read Program := do
  let node ← Node.ofJson name data
  match p.add node with
  | .ok p => .ok p
  | .error cause => malformed cause

/-- Nodes come as an object, which names them, or as a list of nodes that carry their names. -/
def addNodes (p : Program) : Json → Read Program
  | .object nodes => nodes.foldlM (fun p e => p.addJson (some e.1) e.2) p
  | .array nodes => nodes.foldlM (fun p data => p.addJson none data) p
  | _ => malformed .nodesShape

def ofJson (data : Json) : Read Program :=
  match data with
  | .object fields => do
    let name ← (Json.field "name" (.string "") fields).readText
    let p ← (named name).addNodes (Json.field "nodes" (.object []) fields)
    let values ← (Json.field "initial_values" .null fields).optionalObject .initialValuesShape
    let values ← values.mapM (fun (key, value) => (Operand.ofJson value).map (fun v => (key, v)))
    return { p with initialValues := .ofList values }
  | _ => malformed .programShape

def toJson (p : Program) : Json := .object [
  ("name", .string p.name),
  ("nodes", .object (p.nodes.entries.map (fun e => (e.1, e.2.toJson)))),
  ("initial_values", .object (p.initialValues.entries.map (fun e => (e.1, e.2.toJson))))]

def ofText (d : Json.Dialect) (text : List Char) : Read Program :=
  match Json.read d text with
  | .ok data => ofJson data
  | .error (.problem what offset) => malformed (.invalidJson (.locate text what offset))
  | .error (.longInteger digits) => .error (.longInteger digits)
  | .error (.tooDeep container) => .error (.tooDeep container)

end Program

def ReadFault.text : ReadFault → String
  | .malformed cause => (Fault.malformed cause).text
  | .overflow => "int too large to convert to float"
  | .longInteger digits =>
    s!"Exceeds the limit ({Json.maxDigits} digits) for integer string conversion: value has " ++
      s!"{digits} digits; use sys.set_int_max_str_digits() to increase the limit"
  | .tooDeep container =>
    s!"maximum recursion depth exceeded while decoding a JSON {container.name} " ++
      "from a unicode string"
  | .write f => f.text

end DialogueFlow
