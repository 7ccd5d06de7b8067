import DialogueFlow.Block.Content
import DialogueFlow.Log
import DialogueFlow.Sorted
import DialogueFlow.Table
import DialogueFlow.Text.Blank

namespace DialogueFlow

structure LineRecord where
  id : String
  text : String
  character : String
deriving DecidableEq

structure LineReport where
  runs : List (List LineRecord)
  characters : List String
  hasUnnamed : Bool
deriving DecidableEq

namespace LineReport

def empty : LineReport := ⟨[], [], false⟩

def lineCount (r : LineReport) : Nat := r.runs.flatten.length

def sortedCharacters (r : LineReport) : List String := sortedTexts r.characters

end LineReport

/-- The texts of lines, as a JSON document, which ought to be an object of texts. -/
structure StringTable where
  document : Json

inductive LineFault where
  | content (f : Fault)
  | notATable (table : Json)
  | notAText (entry : Json)
  | noSize (table : Json)
  | noSpeaker

namespace LineFault

def text : LineFault → String
  | .content f => f.text
  | .notATable table => s!"'{table.kind}' object has no attribute 'get'"
  | .notAText entry => s!"'{entry.kind}' object has no attribute 'find'"
  | .noSize table => s!"object of type '{table.kind}' has no len()"
  | .noSpeaker => "unhashable type: 'list'"

end LineFault

namespace StringTable

def empty : StringTable := ⟨.object []⟩

def text (t : StringTable) (id : String) : Except LineFault String :=
  match t.document with
  | .object entries =>
    match entries.lookup id with
    | none => .ok ""
    | some (.string text) => .ok text
    | some entry => .error (.notAText entry)
  | table => .error (.notATable table)

def size (t : StringTable) : Except LineFault Nat :=
  match t.document with
  | .object entries => .ok entries.length
  | .array items => .ok items.length
  | .string text => .ok text.length
  | table => .error (.noSize table)

end StringTable

/-- A speaker and what is said: the parts around the first colon, unless it comes first. -/
def speech? (text : List Char) : Option (List Char × List Char) :=
  match text.takeWhile (· ≠ ':'), text.dropWhile (· ≠ ':') with
  | c :: speaker, _ :: said => some (c :: speaker, Text.trimLeft said)
  | _, _ => none

/-- What becomes of lines that name no speaker: they stay without one, a character speaks them, or
they are refused. -/
inductive Unnamed where
  | keep
  | assign (character : String)
  | refuse
deriving DecidableEq

def Unnamed.ofDefault : Option String → Unnamed
  | none => .keep
  | some character => .assign character

namespace LineRuns

structure Setting where
  blocks : List Block
  table : StringTable
  unnamed : Unnamed

def Setting.labelled? (s : Setting) (label : String) : Option Block :=
  s.blocks.find? (fun b => b.label == some label)

structure State where
  report : LineReport
  visited : List String
  log : List Log.Entry

abbrev Walk := EStateM LineFault State

def note (e : Log.Entry) : Walk Unit := modify (fun s => { s with log := s.log ++ [e] })

def modifyReport (f : LineReport → LineReport) : Walk Unit :=
  modify (fun s => { s with report := f s.report })

def addRun (run : List LineRecord) : Walk Unit :=
  if run.isEmpty then pure () else modifyReport (fun r => { r with runs := r.runs ++ [run] })

def addCharacter (character : String) : Walk Unit :=
  modifyReport (fun r =>
    if r.characters.contains character then r
    else { r with characters := r.characters ++ [character] })

def lift {α : Type} : Except LineFault α → Walk α
  | .ok a => pure a
  | .error f => throw f

def record (s : Setting) (id : String) : Walk LineRecord := do
  let text ← lift (s.table.text id)
  match speech? text.toList, s.unnamed with
  | some (speaker, said), _ =>
    addCharacter (String.ofList speaker)
    return ⟨id, String.ofList said, String.ofList speaker⟩
  | none, .assign character =>
    addCharacter character
    return ⟨id, text, character⟩
  | none, .keep =>
    modifyReport (fun r => { r with hasUnnamed := true })
    return ⟨id, text, ""⟩
  | none, .refuse => throw .noSpeaker

def noteUnshown (b : Block) (options : List OptionItem) : Walk Unit :=
  if options.isEmpty then pure ()
  else
    let lines := ", ".intercalate (options.map OptionItem.line)
    note ⟨.debug, .block,
      s!"Block {b.name} ends with {options.length} option(s) never shown: {lines}"⟩

def finish (b : Block) : Walk Unit :=
  match b.content.ending with
  | .ok unshown => noteUnshown b unshown
  | .error f => throw (.content f)

def hasContent (b : Block) : Walk Bool :=
  if b.content.elements.isEmpty then do
    finish b
    return false
  else return true

def target (s : Setting) (label : String) : Walk (Option Block) :=
  match s.labelled? label with
  | none => return none
  | some b => do
    let present ← hasContent b
    return if present then some b else none

/-- The blocks that options lead to. An option that leads to no content is a run of its own. -/
def followUps (s : Setting) : List OptionItem → Walk (List (String × Block))
  | [] => return []
  | item :: rest => do
    match ← target s item.destination with
    | some b =>
      let later ← followUps s rest
      return (item.line, b) :: later
    | none =>
      let single ← record s item.line
      addRun [single]
      followUps s rest

/-- Go through elements after the lines `run`, and give the lines that are not in a run yet. Blocks
behind options are walked by `enter`. -/
def elements (s : Setting) (enter : String × Block → Walk Unit) (run : List LineRecord) :
    List Element → Walk (List LineRecord)
  | [] => return run
  | .line id :: rest => do
    let line ← record s id
    elements s enter (run ++ [line]) rest
  | .command _ :: rest => elements s enter run rest
  | .options items :: rest => do
    addRun run
    let targets ← followUps s items
    targets.forM enter
    elements s enter [] rest

def heading (s : Setting) (opening : Option String) : Walk (List LineRecord) :=
  match opening.filter (· ≠ "") with
  | none => return []
  | some id => do
    let line ← record s id
    return [line]

def visit (s : Setting) (enter : String × Block → Walk Unit) (opening : Option String) (b : Block) :
    Walk Unit := do
  modify (fun st => { st with visited := b.name :: st.visited })
  let head ← heading s opening
  let run ← elements s enter head b.content.elements
  finish b
  addRun run

/-- Walk a block, unless it has no content or a block of its name has been walked. Its first run is
headed by the line `opening`. Options are followed `depth` blocks deep. -/
def walk (s : Setting) (depth : Nat) (opening : Option String) (b : Block) : Walk Unit :=
  match depth with
  | 0 => pure ()
  | depth + 1 => do
    let present ← hasContent b
    let st ← get
    if present && !st.visited.contains b.name then
      visit s (fun e => walk s depth (some e.1) e.2) opening b
    else pure ()

/-- Walk all blocks of a node. Every block is walked once, so that options are followed no deeper
than there are blocks. -/
def walkNode (table : StringTable) (unnamed : Unnamed) (name : String) (blocks : List Block) :
    Walk Unit := do
  modify (fun st => { st with visited := [] })
  blocks.forM (walk ⟨blocks, table, unnamed⟩ (blocks.length + 1) none)
  note ⟨.debug, .lineRuns, s!"{name}: {(← get).report.runs.length} run(s) so far"⟩

def walkAll (table : StringTable) (unnamed : Unnamed) (nodes : List (String × List Block)) :
    Walk Unit := do
  nodes.forM (fun (name, blocks) => walkNode table unnamed name blocks)
  let count := (← get).report.lineCount
  let size ← lift table.size
  if count ≠ size then
    note ⟨.warning, .lineRuns, s!"String table has {size} lines, encountered {count}"⟩

def collect (table : StringTable) (unnamed : Unnamed) (nodes : List (String × List Block)) :
    Except LineFault LineReport × List Log.Entry :=
  match walkAll table unnamed nodes ⟨.empty, [], []⟩ with
  | .ok _ st => (.ok st.report, st.log)
  | .error f st => (.error f, st.log)

def extract (table : StringTable) (defaultCharacter : Option String)
    (nodes : List (String × List Block)) : Except LineFault LineReport :=
  (collect table (.ofDefault defaultCharacter) nodes).1

end LineRuns

end DialogueFlow
