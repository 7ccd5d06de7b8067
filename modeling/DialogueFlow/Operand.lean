import DialogueFlow.Json.Display

namespace DialogueFlow

/-- Strings are texts, or values of another type that stands for texts. -/
inductive Operand (τ : Type := String) where
  | string (value : τ)
  | bool (value : Bool)
  | float (value : Double)
deriving DecidableEq

namespace Operand

inductive Kind where
  | string
  | bool
  | float
deriving DecidableEq, Repr

def Kind.name : Kind → String
  | .string => "string"
  | .bool => "bool"
  | .float => "float"

def kind : Operand → Kind
  | .string _ => .string
  | .bool _ => .bool
  | .float _ => .float

def toJson : Operand → Json
  | .string value => .string value
  | .bool value => .bool value
  | .float value => .float value

def textWith {τ : Type} (codes : τ → List Nat) : Operand τ → String
  | .string value => Text.ascii (codes value)
  | .bool value => if value then "true" else "false"
  | .float value => value.text

def text (op : Operand) : String := op.textWith Text.codes

def number? : Operand → Option Double
  | .string _ => none
  | .bool value => some (if value then Double.one else Double.zero)
  | .float value => some value

/-- Equality of values across kinds: true equals one and false equals zero. -/
def sameValue (a b : Operand) : Bool :=
  match a.number?, b.number? with
  | some x, some y => x.sameValue y
  | _, _ => a == b

end Operand

end DialogueFlow
