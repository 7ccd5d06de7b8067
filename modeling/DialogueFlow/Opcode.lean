
namespace DialogueFlow

inductive Opcode where
  | jumpTo
  | jump
  | runLine
  | runCommand
  | addOption
  | showOptions
  | pushString
  | pushFloat
  | pushBool
  | pushNull
  | jumpIfFalse
  | pop
  | callFunc
  | pushVariable
  | storeVariable
  | stop
  | runNode
deriving DecidableEq, Repr

namespace Opcode

def all : List Opcode := [
  .jumpTo, .jump, .runLine, .runCommand, .addOption, .showOptions, .pushString, .pushFloat,
  .pushBool, .pushNull, .jumpIfFalse, .pop, .callFunc, .pushVariable, .storeVariable, .stop,
  .runNode]

def number (op : Opcode) : Nat := all.idxOf op

def name : Opcode → String
  | .jumpTo => "JumpTo"
  | .jump => "Jump"
  | .runLine => "RunLine"
  | .runCommand => "RunCommand"
  | .addOption => "AddOption"
  | .showOptions => "ShowOptions"
  | .pushString => "PushString"
  | .pushFloat => "PushFloat"
  | .pushBool => "PushBool"
  | .pushNull => "PushNull"
  | .jumpIfFalse => "JumpIfFalse"
  | .pop => "Pop"
  | .callFunc => "CallFunc"
  | .pushVariable => "PushVariable"
  | .storeVariable => "StoreVariable"
  | .stop => "Stop"
  | .runNode => "RunNode"

def constantName : Opcode → String
  | .jumpTo => "JUMP_TO"
  | .jump => "JUMP"
  | .runLine => "RUN_LINE"
  | .runCommand => "RUN_COMMAND"
  | .addOption => "ADD_OPTION"
  | .showOptions => "SHOW_OPTIONS"
  | .pushString => "PUSH_STRING"
  | .pushFloat => "PUSH_FLOAT"
  | .pushBool => "PUSH_BOOL"
  | .pushNull => "PUSH_NULL"
  | .jumpIfFalse => "JUMP_IF_FALSE"
  | .pop => "POP"
  | .callFunc => "CALL_FUNC"
  | .pushVariable => "PUSH_VARIABLE"
  | .storeVariable => "STORE_VARIABLE"
  | .stop => "STOP"
  | .runNode => "RUN_NODE"

def ofNumber? (n : Int) : Option Opcode :=
  if n < 0 then none else all[n.toNat]?

/-- Underscores and case do not matter in a name. ASCII letters are all that can match: the names
hold no other, and no other character has one of their letters as its lower case. -/
def plainName (s : String) : List Char :=
  (s.toList.filter (· ≠ '_')).map Char.toLower

def ofName? (s : String) : Option Opcode :=
  all.find? (fun op => plainName op.name == plainName s)

/-- Whether the instruction after this one starts a new block. -/
def endsBlock : Opcode → Bool
  | .jumpTo | .jump | .jumpIfFalse | .stop | .runNode => true
  | _ => false

end Opcode

end DialogueFlow
