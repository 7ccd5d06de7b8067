import DialogueFlow.Double.Shortest
import DialogueFlow.Json.Reader
import DialogueFlow.Text.Quoted

namespace DialogueFlow

inductive WriteFault where
  | longInteger
deriving DecidableEq

def WriteFault.text : WriteFault → String
  | .longInteger =>
    s!"Exceeds the limit ({Json.maxDigits} digits) for integer string conversion; " ++
      "use sys.set_int_max_str_digits() to increase the limit"

/-- The least natural with too many digits to be written. -/
def writeBound : Nat := Nat.pow 10 Json.maxDigits

def isWritable (n : Int) : Bool := n.natAbs < writeBound

theorem isWritable_writeBound : isWritable writeBound = false := by
  rw [isWritable, decide_eq_false_iff_not, Int.natAbs_natCast]
  exact Nat.lt_irrefl _

namespace Json

mutual

def display : Json → String
  | .null => "None"
  | .bool value => if value then "True" else "False"
  | .int value => toString value
  | .float value => value.text
  | .string value => Text.quote value
  | .array items => "[" ++ ", ".intercalate (displayItems items) ++ "]"
  | .object fields => "\x7b" ++ ", ".intercalate (displayFields fields) ++ "\x7d"

def displayItems : List Json → List String
  | [] => []
  | item :: rest => display item :: displayItems rest

def displayFields : List (String × Json) → List String
  | [] => []
  | (key, value) :: rest => (Text.quote key ++ ": " ++ display value) :: displayFields rest

end

mutual

def allWritable : Json → Bool
  | .int value => isWritable value
  | .array items => itemsWritable items
  | .object fields => fieldsWritable fields
  | .null | .bool _ | .float _ | .string _ => true

def itemsWritable : List Json → Bool
  | [] => true
  | item :: rest => allWritable item && itemsWritable rest

def fieldsWritable : List (String × Json) → Bool
  | [] => true
  | (_, value) :: rest => allWritable value && fieldsWritable rest

end

/-- Text stands for itself; any other value is displayed, if it can be written. -/
def asText : Json → Except WriteFault String
  | .string value => .ok value
  | value => if value.allWritable then .ok value.display else .error .longInteger

end Json

end DialogueFlow
