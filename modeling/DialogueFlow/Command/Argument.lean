import DialogueFlow.Text.Digit
import DialogueFlow.Text.Quoted

namespace DialogueFlow.Command

variable {κ : Type}

structure Switch (κ : Type) where
  key : κ
  names : List String
  takesValue : Bool
  choices : List String

def Switch.title (s : Switch κ) : String := "/".intercalate s.names

inductive ArgumentFault where
  | ambiguous (argument : String) (names : List String)
  | expectedValue (title : String)
  | ignoredValue (title value : String)
  | invalidChoice (title value : String) (choices : List String)
  | required (name : String)
  | unrecognized (arguments : List String)
deriving DecidableEq

def ArgumentFault.text : ArgumentFault → String
  | .ambiguous argument names =>
    s!"ambiguous option: {argument} could match " ++ ", ".intercalate names
  | .expectedValue title => s!"argument {title}: expected one argument"
  | .ignoredValue title value =>
    s!"argument {title}: ignored explicit argument {Text.quote value}"
  | .invalidChoice title value choices =>
    s!"argument {title}: invalid choice: {Text.quote value} (choose from " ++
      ", ".intercalate (choices.map Text.quote) ++ ")"
  | .required name => s!"the following arguments are required: {name}"
  | .unrecognized arguments => "unrecognized arguments: " ++ " ".intercalate arguments

structure Match (κ : Type) where
  switch : Switch κ
  name : String
  joined : Option (List Char)

/-- What an argument is on its own: a switch, known or not, the mark after which there are no more
switches, or anything else. -/
inductive Role (κ : Type) where
  | plain
  | mark
  | known (m : Match κ)
  | unknown

structure Token (κ : Type) where
  text : String
  role : Role κ

def splitEquals (s : List Char) : List Char × Option (List Char) :=
  match s.dropWhile (· ≠ '=') with
  | [] => (s, none)
  | _ :: value => (s.takeWhile (· ≠ '='), some value)

def allNames (switches : List (Switch κ)) : List (Switch κ × String) :=
  switches.flatMap (fun s => s.names.map (fun name => (s, name)))

def named? (switches : List (Switch κ)) (name : List Char) : Option (Switch κ × String) :=
  (allNames switches).find? (fun e => e.2.toList == name)

/-- The switches that an argument may mean although it is none of their names: long names cut short,
or a short name with more behind it. -/
def candidates (switches : List (Switch κ)) (argument : List Char) : List (Match κ) :=
  match argument with
  | '-' :: '-' :: _ =>
    let (name, value) := splitEquals argument
    ((allNames switches).filter (fun e => name.isPrefixOf e.2.toList)).map
      (fun e => ⟨e.1, e.2, value⟩)
  | _ =>
    (allNames switches).filterMap (fun e =>
      if e.2.toList = argument.take 2 then some ⟨e.1, e.2, some (argument.drop 2)⟩
      else if argument.isPrefixOf e.2.toList then some ⟨e.1, e.2, none⟩
      else none)

def isUnsignedNumber (s : List Char) : Bool :=
  let s := match s.reverse with
    | '\n' :: rest => rest.reverse
    | _ => s
  let whole := s.takeWhile Text.isDigit
  match s.dropWhile Text.isDigit with
  | [] => !whole.isEmpty
  | '.' :: fraction => !fraction.isEmpty && fraction.all Text.isDigit
  | _ => false

/-- Arguments that start with a hyphen are switches, apart from the hyphen alone, negative numbers
and text with blanks in it. -/
def roleOf (switches : List (Switch κ)) (argument : String) : Except ArgumentFault (Role κ) :=
  let chars := argument.toList
  match chars with
  | ['-'] => .ok .plain
  | '-' :: unsigned =>
    match named? switches chars with
    | some (switch, name) => .ok (.known ⟨switch, name, none⟩)
    | none =>
      let (name, value) := splitEquals chars
      match value, named? switches name with
      | some value, some (switch, name) => .ok (.known ⟨switch, name, some value⟩)
      | _, _ =>
        match candidates switches chars with
        | [m] => .ok (.known m)
        | [] =>
          if isUnsignedNumber unsigned || chars.contains ' ' then .ok .plain else .ok .unknown
        | several => .error (.ambiguous argument (several.map Match.name))
  | _ => .ok .plain

def tokens (switches : List (Switch κ)) : List String → Except ArgumentFault (List (Token κ))
  | [] => .ok []
  | argument :: rest =>
    if argument = "--" then .ok (⟨argument, .mark⟩ :: rest.map (fun text => ⟨text, .plain⟩))
    else do
      let role ← roleOf switches argument
      let later ← tokens switches rest
      return ⟨argument, role⟩ :: later

/-- What a switch is given. That is nothing if it takes no value. It is also nothing if the value is
the mark alone, where the mark never counts as a value. -/
inductive Value where
  | text (s : String)
  | nothing
deriving DecidableEq

def Value.text? : Value → Option String
  | .text s => some s
  | .nothing => none

def Value.shown : Value → String
  | .text s => s
  | .nothing => "[]"

def Value.ofJoined (dropsMark : Bool) (s : List Char) : Value :=
  if dropsMark && s == ['-', '-'] then .nothing else .text (String.ofList s)

inductive Event (κ : Type) where
  | setting (switch : Switch κ) (value : Value)
  | argument (text : String)
  | command (arguments : List String)

/-- The events up to the end, where arguments may be left that nothing is known about, or up to the
first fault. -/
structure Reading (κ : Type) where
  events : List (Event κ)
  ending : Except ArgumentFault (List String)

namespace Reading

def done : Reading κ := ⟨[], .ok []⟩

def fail (f : ArgumentFault) : Reading κ := ⟨[], .error f⟩

def before (events : List (Event κ)) (r : Reading κ) : Reading κ :=
  { r with events := events ++ r.events }

def leaving (arguments : List String) (r : Reading κ) : Reading κ :=
  { r with ending := r.ending.map (arguments ++ ·) }

end Reading

structure Cluster (κ : Type) where
  settings : List (Event κ)
  open? : Option (Switch κ)

def Cluster.single (switch : Switch κ) : Cluster κ :=
  if switch.takesValue then ⟨[], some switch⟩ else ⟨[.setting switch .nothing], none⟩

def Cluster.cons (switch : Switch κ) (c : Cluster κ) : Cluster κ :=
  { c with settings := .setting switch .nothing :: c.settings }

/-- A switch joined with `value`. Short switches that take no value may stand together after one
hyphen; then `value` starts with the next of them. -/
def cluster (dropsMark : Bool) (switches : List (Switch κ)) (switch : Switch κ) (short : Bool)
    (value : List Char) : Except ArgumentFault (Cluster κ) :=
  if switch.takesValue then .ok ⟨[.setting switch (.ofJoined dropsMark value)], none⟩
  else
    let ignored := ArgumentFault.ignoredValue switch.title (String.ofList value)
    match value with
    | [] => .error ignored
    | c :: rest =>
      if short then
        match named? switches ['-', c], rest with
        | none, _ => .error ignored
        | some (other, _), [] => .ok ((Cluster.single other).cons switch)
        | some (other, _), _ =>
          (cluster dropsMark switches other true rest).map (Cluster.cons switch)
      else .error ignored

def Match.isShort (m : Match κ) : Bool :=
  match m.name.toList with
  | '-' :: '-' :: _ => false
  | _ => true

def Match.cluster (dropsMark : Bool) (switches : List (Switch κ)) (m : Match κ) :
    Except ArgumentFault (Cluster κ) :=
  match m.joined with
  | none => .ok (.single m.switch)
  | some value => Command.cluster dropsMark switches m.switch m.isShort value

inductive Wanted where
  | argument
  | command
deriving DecidableEq

inductive Stage (κ : Type) where
  | missing
  | missingAfterMark
  | found
  | complete
  | value (switch : Switch κ) (settings : List (Event κ)) (next : Stage κ)

/-- Go through tokens. The mark directly before or after the argument that is wanted belongs to it.
What is left over at the end is not known. -/
def readTokens (dropsMark : Bool) (switches : List (Switch κ)) (wanted : Wanted)
    (stage : Stage κ) : List (Token κ) → Reading κ
  | [] =>
    match stage with
    | .value switch _ _ => .fail (.expectedValue switch.title)
    | .missingAfterMark => .leaving ["--"] .done
    | _ => .done
  | token :: rest =>
    match stage, token.role with
    | .value switch settings next, .plain =>
      .before (settings ++ [.setting switch (.text token.text)])
        (readTokens dropsMark switches wanted next rest)
    | .value switch _ _, _ => .fail (.expectedValue switch.title)
    | .missing, .plain =>
      match wanted with
      | .argument =>
        .before [.argument token.text] (readTokens dropsMark switches wanted .found rest)
      | .command => ⟨[.command (token.text :: rest.map Token.text)], .ok []⟩
    | .missing, .mark => readTokens dropsMark switches wanted .missingAfterMark rest
    | .missingAfterMark, _ =>
      match wanted with
      | .argument =>
        .before [.argument token.text] (readTokens dropsMark switches wanted .complete rest)
      | .command => ⟨[.command ("--" :: token.text :: rest.map Token.text)], .ok []⟩
    | .found, .mark => readTokens dropsMark switches wanted .complete rest
    | _, .plain => .leaving [token.text] (readTokens dropsMark switches wanted .complete rest)
    | _, .mark => .leaving [token.text] (readTokens dropsMark switches wanted .complete rest)
    | stage, .unknown =>
      let next := match stage with
        | .missing => .missing
        | _ => .complete
      .leaving [token.text] (readTokens dropsMark switches wanted next rest)
    | stage, .known m =>
      let next := match stage with
        | .missing => .missing
        | _ => .complete
      match m.cluster dropsMark switches with
      | .error f => .fail f
      | .ok ⟨settings, some switch⟩ =>
        readTokens dropsMark switches wanted (.value switch settings next) rest
      | .ok ⟨settings, none⟩ => .before settings (readTokens dropsMark switches wanted next rest)

def read (dropsMark : Bool) (switches : List (Switch κ)) (wanted : Wanted)
    (arguments : List String) : Reading κ :=
  match tokens switches arguments with
  | .ok tokens => readTokens dropsMark switches wanted .missing tokens
  | .error f => .fail f

end DialogueFlow.Command
