import DialogueFlow.Command.FileTree
import DialogueFlow.Command.Invocation
import DialogueFlow.Export.Dot
import DialogueFlow.Export.Mermaid
import DialogueFlow.LineRuns
import DialogueFlow.Program.Document

namespace DialogueFlow.Command

/-- Where a run takes place, the home folders of users, the time that the log shows, how documents
are read, and whether arguments are read with the mark taken out of joined values. -/
structure Environment where
  folder : Path
  homes : List (String × Path)
  time : String
  dialect : Json.Dialect
  dropsMark : Bool

/-- What breaks a run off. Nothing may be given where a path or a name is needed. -/
inductive Failure where
  | read (f : ReadFault)
  | lines (f : LineFault)
  | path (f : PathFault)
  | file (f : FileFault)
  | text (f : Text.Utf8Fault)
  | write (f : WriteFault)
  | nothingAsPath
  | nothingAsName

def Failure.message : Failure → String
  | .read f => f.text
  | .lines f => f.text
  | .path f => f.text
  | .file f => f.text
  | .text f => f.text
  | .write f => f.text
  | .nothingAsPath => "expected str, bytes or os.PathLike object, not list"
  | .nothingAsName => "unhashable type: 'list'"

inductive Halt where
  | quit (code : Nat)
  | broken (f : Failure)

structure Session where
  files : FileTree
  out : String
  err : String
deriving DecidableEq

/-- A step that halts keeps what was written before. -/
abbrev Run := EStateM Halt Session

def exitOk : Nat := 0

def exitError : Nat := 1

def exitUnusable : Nat := 2

structure Context where
  environment : Environment
  verbosity : Nat

def Context.shows (c : Context) (level : Log.Level) : Bool :=
  match c.verbosity with
  | 0 => Log.Level.warning.severity ≤ level.severity
  | 1 => Log.Level.info.severity ≤ level.severity
  | _ => true

def printError (text : String) : Run Unit := modify (fun s => { s with err := s.err ++ text })

def log (c : Context) (e : Log.Entry) : Run Unit :=
  if c.shows e.level then printError (e.line c.environment.time) else pure ()

def logError (c : Context) (message : String) : Run Unit := log c ⟨.error, .command, message⟩

def orBreak {ε α : Type} (wrap : ε → Failure) : Except ε α → Run α
  | .ok a => pure a
  | .error e => throw (.broken (wrap e))

def changeFiles (change : FileTree.Change) : Run Unit := fun session =>
  match change session.files with
  | .ok _ files => .ok () { session with files }
  | .error f files => .error (.broken (.file f)) { session with files }

def resolve (c : Context) (raw : String) : Run Path :=
  orBreak .path (Path.resolve c.environment.folder c.environment.homes raw)

def resolveExisting (c : Context) (raw what : String) : Run Path := do
  let path ← resolve c raw
  let present ← orBreak .file ((← get).files.has path)
  if present then return path
  else
    logError c s!"{what} not found: {path.text}"
    throw (.quit exitUnusable)

def readText (path : Path) : Run (Except Text.Utf8Fault (List Char)) := do
  let content ← orBreak .file ((← get).files.read path)
  return (Text.decodeUtf8 content).map Text.unifyLines

def endsLine (text : String) : Bool := text.toList.getLast? == some '\n'

def printOut (text : String) : Run Unit := modify (fun s => { s with out := s.out ++ text })

/-- Write text to a file, or to the output if no file or a hyphen is given. It ends with a line
end. -/
def write (c : Context) (target : Option Value) (text : String) : Run Unit :=
  let text := if endsLine text then text else text ++ "\n"
  match target with
  | none => printOut text
  | some .nothing => throw (.broken .nothingAsPath)
  | some (.text raw) =>
    if raw = "-" then printOut text
    else do
      let path ← resolve c raw
      changeFiles (FileTree.makeFolder path.dropLast)
      changeFiles (FileTree.write path text.toUTF8.toList)

def load (c : Context) (raw : String) : Run Program := do
  let path ← resolveExisting c raw "program"
  log c ⟨.debug, .program, s!"Loading program from {path.text}"⟩
  let refuse {α : Type} (cause : Malformed) : Run α := do
    logError c s!"Cannot read {path.text}: {(Fault.malformed cause).text}"
    throw (.quit exitUnusable)
  match ← readText path with
  | .error f => refuse (.invalidUtf8 path.text f)
  | .ok text =>
    match Program.ofText c.environment.dialect text with
    | .ok p =>
      log c ⟨.info, .program, s!"Loaded program {Text.quote p.name} with {p.size} node(s)"⟩
      return p
    | .error (.malformed cause) => refuse cause
    | .error f => throw (.broken (.read f))

def analyse (c : Context) (raw : String) : Run Analysis := do
  let p ← load c raw
  p.analysisLog.forM (log c)
  let a := p.analyse
  match a.stop with
  | some f => throw (.broken (.write f))
  | none =>
    a.failures.entries.forM (fun (node, f) => printError s!"{node}: {f.text}\n")
    return a

def selected (c : Context) (a : Analysis) (node : Option Value) : Run (List Vertex) :=
  match node with
  | none => return a.vertices
  | some .nothing => throw (.broken .nothingAsName)
  | some (.text name) =>
    match a.flows.get? name with
    | some flow => return flow.vertices
    | none => do
      logError c s!"No analysed node named {Text.quote name}"
      throw (.quit exitUnusable)

def status (a : Analysis) : Nat := if a.isOk then exitOk else exitError

def Settings.titleText (s : Settings) : Option String := s.title.bind Value.text?

def Settings.drawing (s : Settings) : Export.Options where
  title := s.titleText
  direction := s.direction.shown
  showInstructions := s.instructions
  includeNodeEdges := !s.noNodeEdges

def blocksText (a : Analysis) (node : Option Value) : String :=
  let shown := a.flows.entries.filter (fun e => node.isNone || node == some (.text e.1))
  "\n\n".intercalate (shown.map (fun (name, flow) =>
    let heading := s!"{name}: {flow.size} block(s)"
    if flow.size = 0 then heading else heading ++ "\n" ++ summary flow.vertices))

def runBlocks (c : Context) (r : Request) : Run Nat := do
  let a ← analyse c r.program
  write c r.settings.output (blocksText a r.settings.node)
  return status a

def runDot (c : Context) (r : Request) : Run Nat := do
  let a ← analyse c r.program
  let text ←
    if r.settings.nodesOnly then pure (Export.Dot.connections r.settings.titleText a.connections)
    else do pure (Export.Dot.blocks r.settings.drawing (← selected c a r.settings.node))
  write c r.settings.output text
  return status a

def runMermaid (c : Context) (r : Request) : Run Nat := do
  let a ← analyse c r.program
  let vertices ← selected c a r.settings.node
  if r.settings.direction = .nothing then throw (.broken .nothingAsName)
  else
    write c r.settings.output (Export.Mermaid.blocks r.settings.drawing vertices)
    return status a

/-- Read a string table, which may be any JSON document. Without a file there is an empty table. -/
def loadStrings (c : Context) (raw : Option String) : Run StringTable :=
  match raw.filter (· ≠ "") with
  | none => return .empty
  | some raw => do
    let path ← resolveExisting c raw "string table"
    let text ← orBreak .text (← readText path)
    match Json.read c.environment.dialect text with
    | .ok document => return ⟨document⟩
    | .error (.problem what offset) =>
      logError c s!"Cannot read {path.text}: {(Json.Report.locate text what offset).text}"
      throw (.quit exitUnusable)
    | .error (.longInteger digits) => throw (.broken (.read (.longInteger digits)))
    | .error (.tooDeep container) => throw (.broken (.read (.tooDeep container)))

def linesText (report : LineReport) : String :=
  "\n".intercalate (report.runs.flatMap (fun run =>
    run.map (fun r =>
      let character := if r.character.isEmpty then "NO CHAR" else r.character
      s!"{r.id}\t{character}\t{r.text}") ++ [""]))

/-- Unnamed lines are refused if the default character is nothing. -/
def Settings.unnamed (s : Settings) : Unnamed :=
  match s.defaultCharacter with
  | none => .keep
  | some (.text character) => .assign character
  | some .nothing => .refuse

def runLines (c : Context) (r : Request) : Run Nat := do
  let a ← analyse c r.program
  let table ← loadStrings c (r.settings.strings.bind Value.text?)
  let (report, entries) := LineRuns.collect table r.settings.unnamed
    (a.flows.entries.map (fun (name, flow) => (name, flow.blocks)))
  entries.forM (log c)
  let report ← orBreak .lines report
  write c r.settings.output (linesText report)
  return status a

def perform (c : Context) (r : Request) : Run Nat :=
  match r.command with
  | .blocks => runBlocks c r
  | .dot => runDot c r
  | .mermaid => runMermaid c r
  | .lines => runLines c r

/-- How a run ends: with a code after it got started, with a code before that, or broken off. -/
inductive Ending where
  | returned (code : Nat)
  | exited (code : Nat)
  | broken (f : Failure)

structure Outcome where
  ending : Ending
  session : Session

def run (environment : Environment) (arguments : List String) (files : FileTree) : Outcome :=
  let start : Session := ⟨files, "", ""⟩
  match Invocation.ofArguments environment.dropsMark arguments with
  | .error (.help none) => ⟨.exited 0, { start with out := toolHelp }⟩
  | .error (.help (some command)) => ⟨.exited 0, { start with out := command.help }⟩
  | .error .version => ⟨.exited 0, { start with out := s!"{toolName} {version}\n" }⟩
  | .error (.usage command f) => ⟨.exited 2, { start with err := usageLine command f }⟩
  | .ok invocation =>
    match invocation.request with
    | none => ⟨.returned exitUnusable, { start with err := toolHelp }⟩
    | some request =>
      match perform ⟨environment, invocation.verbosity⟩ request start with
      | .ok code session => ⟨.returned code, session⟩
      | .error (.quit code) session => ⟨.returned code, session⟩
      | .error (.broken f) session => ⟨.broken f, session⟩

end DialogueFlow.Command
