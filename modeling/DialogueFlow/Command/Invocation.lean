import DialogueFlow.Command.Argument

namespace DialogueFlow

inductive Command where
  | blocks
  | dot
  | mermaid
  | lines
deriving DecidableEq, Repr

namespace Command

def all : List Command := [.blocks, .dot, .mermaid, .lines]

def name : Command → String
  | .blocks => "blocks"
  | .dot => "dot"
  | .mermaid => "mermaid"
  | .lines => "lines"

def toolName : String := "yarn-analysis"

def version : String := "0.1.0"

inductive ToolKey where
  | help
  | version
  | verbose
deriving DecidableEq

def toolSwitches : List (Switch ToolKey) := [
  ⟨.help, ["-h", "--help"], false, []⟩,
  ⟨.version, ["--version"], false, []⟩,
  ⟨.verbose, ["-v", "--verbose"], false, []⟩]

inductive Key where
  | help
  | output
  | node
  | title
  | direction
  | instructions
  | noNodeEdges
  | nodesOnly
  | strings
  | defaultCharacter
deriving DecidableEq

def commonSwitches : List (Switch Key) := [
  ⟨.help, ["-h", "--help"], false, []⟩,
  ⟨.output, ["-o", "--output"], true, []⟩,
  ⟨.node, ["--node"], true, []⟩]

def drawingSwitches : List (Switch Key) := [
  ⟨.title, ["--title"], true, []⟩,
  ⟨.direction, ["--rankdir"], true, ["TB", "LR", "BT", "RL"]⟩,
  ⟨.instructions, ["--instructions"], false, []⟩,
  ⟨.noNodeEdges, ["--no-node-edges"], false, []⟩]

def switches : Command → List (Switch Key)
  | .blocks => commonSwitches
  | .dot => commonSwitches ++ drawingSwitches ++ [⟨.nodesOnly, ["--nodes-only"], false, []⟩]
  | .mermaid => commonSwitches ++ drawingSwitches
  | .lines => commonSwitches ++ [
      ⟨.strings, ["--strings"], true, []⟩,
      ⟨.defaultCharacter, ["--default-character"], true, []⟩]

structure Settings where
  output : Option Value
  node : Option Value
  title : Option Value
  direction : Value
  instructions : Bool
  noNodeEdges : Bool
  nodesOnly : Bool
  strings : Option Value
  defaultCharacter : Option Value
deriving DecidableEq

def Settings.initial : Settings :=
  ⟨none, none, none, .text "TB", false, false, false, none, none⟩

structure Request where
  command : Command
  program : String
  settings : Settings
deriving DecidableEq

structure Invocation where
  verbosity : Nat
  request : Option Request
deriving DecidableEq

/-- Why the tool does nothing else: help for the tool or for a subcommand, its version, or arguments
that make no sense, to the tool or to a subcommand. -/
inductive Stop where
  | help (command : Option Command)
  | version
  | usage (command : Option Command) (fault : ArgumentFault)
deriving DecidableEq

def Settings.set (s : Settings) (key : Key) (value : Value) : Settings :=
  match key with
  | .help => s
  | .output => { s with output := some value }
  | .node => { s with node := some value }
  | .title => { s with title := some value }
  | .direction => { s with direction := value }
  | .instructions => { s with instructions := true }
  | .noNodeEdges => { s with noNodeEdges := true }
  | .nodesOnly => { s with nodesOnly := true }
  | .strings => { s with strings := some value }
  | .defaultCharacter => { s with defaultCharacter := some value }

def Switch.check {κ : Type} (s : Switch κ) (value : Value) : Except ArgumentFault Unit :=
  match value with
  | .nothing => .ok ()
  | .text value =>
    if s.choices.isEmpty || s.choices.contains value then .ok ()
    else .error (.invalidChoice s.title value s.choices)

/-- Follow the events of a subcommand, with the program file and the settings so far. -/
def follow (command : Command) (program : Option String) (settings : Settings) :
    List (Event Key) → Except Stop (Option String × Settings)
  | [] => .ok (program, settings)
  | .argument text :: rest => follow command (some text) settings rest
  | .command _ :: rest => follow command program settings rest
  | .setting switch value :: rest =>
    if switch.key = .help then .error (.help (some command))
    else
      match switch.check value with
      | .error f => .error (.usage (some command) f)
      | .ok () => follow command program (settings.set switch.key value) rest

def request (dropsMark : Bool) (command : Command) (arguments : List String) :
    Except Stop (Request × List String) := do
  let reading := read dropsMark command.switches .argument arguments
  let (program, settings) ← follow command none .initial reading.events
  match reading.ending, program with
  | .error f, _ => .error (.usage (some command) f)
  | .ok _, none => .error (.usage (some command) (.required "program"))
  | .ok unknown, some program => return (⟨command, program, settings⟩, unknown)

def ofName (name : String) : Except ArgumentFault Command :=
  match all.find? (fun c => c.name == name) with
  | some command => .ok command
  | none => .error (.invalidChoice "<command>" name (all.map Command.name))

def followTool (dropsMark : Bool) (verbosity : Nat) :
    List (Event ToolKey) → Except Stop (Invocation × List String)
  | [] => .ok (⟨verbosity, none⟩, [])
  | .argument _ :: rest => followTool dropsMark verbosity rest
  | .setting switch _ :: rest =>
    match switch.key with
    | .help => .error (.help none)
    | .version => .error .version
    | .verbose => followTool dropsMark (verbosity + 1) rest
  | .command [] :: rest => followTool dropsMark verbosity rest
  | .command (name :: arguments) :: _ =>
    match ofName name with
    | .error f => .error (.usage none f)
    | .ok command => do
      let (request, unknown) ← request dropsMark command arguments
      return (⟨verbosity, some request⟩, unknown)

/-- What a command line asks for. Arguments that nothing is known about are refused. -/
def Invocation.ofArguments (dropsMark : Bool) (arguments : List String) :
    Except Stop Invocation := do
  let reading := read dropsMark toolSwitches .command arguments
  let (invocation, later) ← followTool dropsMark 0 reading.events
  match reading.ending with
  | .error f => .error (.usage none f)
  | .ok unknown =>
    if (unknown ++ later).isEmpty then return invocation
    else .error (.usage none (.unrecognized (unknown ++ later)))

def usageLine (command : Option Command) (fault : ArgumentFault) : String :=
  let tool := match command with
    | none => toolName
    | some command => s!"{toolName} {command.name}"
  s!"{tool}: error: {fault.text}\n"

def toolHelp : String :=
"usage: yarn-analysis [-h] [--version] [-v] <command> ...

Basic-block analysis of compiled dialogue programs.

options:
  -h, --help     show this help message and exit
  --version      show program's version number and exit
  -v, --verbose  Increase verbosity (-v info, -vv debug).

commands:
  <command>
    blocks       Print blocks and their edges.
    dot          Graphviz DOT export.
    mermaid      Mermaid flowchart export.
    lines        Group lines into runs.

examples:
  yarn-analysis blocks story.json
  yarn-analysis dot story.json --node Start -o start.dot
  yarn-analysis lines story.json --strings strings.json
"

def commonHelp : String :=
"
positional arguments:
  program               Compiled program (JSON).

options:
  -h, --help            show this help message and exit
  -o FILE, --output FILE
                        Output file (\"-\" or omit for stdout).
  --node NODE           Restrict output to one node.
"

def drawingHelp : String :=
"  --title TITLE
  --rankdir \x7bTB,LR,BT,RL\x7d
  --instructions        Show each block's instructions in its label.
  --no-node-edges       Omit edges that leave the node.
"

def usage : Command → String
  | .blocks => "usage: yarn-analysis blocks [-h] [-o FILE] [--node NODE] program
"
  | .dot => "usage: yarn-analysis dot [-h] [-o FILE] [--node NODE] [--title TITLE]
                         [--rankdir \x7bTB,LR,BT,RL\x7d] [--instructions]
                         [--no-node-edges] [--nodes-only]
                         program
"
  | .mermaid => "usage: yarn-analysis mermaid [-h] [-o FILE] [--node NODE] [--title TITLE]
                             [--rankdir \x7bTB,LR,BT,RL\x7d] [--instructions]
                             [--no-node-edges]
                             program
"
  | .lines => "usage: yarn-analysis lines [-h] [-o FILE] [--node NODE] [--strings FILE]
                           [--default-character NAME]
                           program
"

def help (command : Command) : String :=
  command.usage ++ commonHelp ++
    match command with
    | .blocks => ""
    | .dot => drawingHelp ++
        "  --nodes-only          Graph node-to-node jumps instead of blocks.
"
    | .mermaid => drawingHelp
    | .lines => "  --strings FILE        String table (JSON object).
  --default-character NAME
"

end Command

end DialogueFlow
