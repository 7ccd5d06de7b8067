import DialogueFlow.Text.Quoted

namespace DialogueFlow

abbrev Path := List String

def Path.text (p : Path) : String := "/" ++ "/".intercalate p

def Path.parts (raw : String) : List String :=
  ((raw.toList.splitOn '/').map String.ofList).filter (fun part => part ≠ "" ∧ part ≠ ".")

def Path.follow (base : Path) (parts : List String) : Path :=
  parts.foldl (fun p part => if part = ".." then p.dropLast else p ++ [part]) base

inductive PathFault where
  | noHome
  | nullCharacter
deriving DecidableEq

def PathFault.text : PathFault → String
  | .noHome => "Could not determine home directory."
  | .nullCharacter => "embedded null byte"

def hasNull (s : List Char) : Bool := s.contains '\x00'

/-- Where a written path starts, and the parts to follow from there. It starts at the root, at a
home folder, or at the folder `base`. Home folders are found by the names of users; the empty name
is for the user who asks. -/
def Path.origin (base : Path) (homes : List (String × Path)) (raw : String) :
    Except PathFault (Path × List String) :=
  let parts := Path.parts raw
  if raw.toList.head? = some '/' then .ok ([], parts)
  else
    match parts.head?.map String.toList with
    | some ('~' :: user) =>
      match homes.lookup (String.ofList user) with
      | some home => .ok (home, parts.tail)
      | none => .error (if hasNull user then .nullCharacter else .noHome)
    | _ => .ok (base, parts)

def Path.resolve (base : Path) (homes : List (String × Path)) (raw : String) :
    Except PathFault Path :=
  match Path.origin base homes raw with
  | .error f => .error f
  | .ok (start, parts) =>
    if hasNull raw.toList then .error .nullCharacter else .ok (start.follow parts)

def Path.parents (p : Path) : List Path := (List.range p.length).map p.take

inductive Entry where
  | folder
  | file (content : List UInt8)
deriving DecidableEq

structure FileTree where
  entries : List (Path × Entry)
deriving DecidableEq

def maxNameBytes : Nat := 255

def maxPathBytes : Nat := 4095

inductive FileFault where
  | nameTooLong (path : Path)
  | fileExists (path : Path)
  | notAFolder (path : Path)
  | isAFolder (path : Path)
  | notFound (path : Path)
deriving DecidableEq

def FileFault.text : FileFault → String
  | .nameTooLong path => s!"[Errno 36] File name too long: {Text.quote path.text}"
  | .fileExists path => s!"[Errno 17] File exists: {Text.quote path.text}"
  | .notAFolder path => s!"[Errno 20] Not a directory: {Text.quote path.text}"
  | .isAFolder path => s!"[Errno 21] Is a directory: {Text.quote path.text}"
  | .notFound path => s!"[Errno 2] No such file or directory: {Text.quote path.text}"

namespace FileTree

def find? (t : FileTree) (p : Path) : Option Entry := t.entries.lookup p

def setEntryAt (p : Path) (e : Entry) : List (Path × Entry) → List (Path × Entry)
  | [] => [(p, e)]
  | (q, f) :: rest => if q = p then (q, e) :: rest else (q, f) :: setEntryAt p e rest

def set (t : FileTree) (p : Path) (e : Entry) : FileTree := ⟨setEntryAt p e t.entries⟩

/-- Go down from the folder `start` to what is at `p`. Nothing is there if only the last part is
missing; other parts that are missing, files on the way and long names are faults. -/
def descend (t : FileTree) (p start : Path) : List String → Except FileFault (Option Entry)
  | [] => .ok (t.find? start)
  | name :: rest =>
    match t.find? start with
    | none => .error (.notFound p)
    | some (.file _) => .error (.notAFolder p)
    | some .folder =>
      if maxNameBytes < name.utf8ByteSize then .error (.nameTooLong p)
      else t.descend p (start ++ [name]) rest

def locate (t : FileTree) (p : Path) : Except FileFault (Option Entry) :=
  if maxPathBytes < p.text.utf8ByteSize then .error (.nameTooLong p) else t.descend p [] p

def has (t : FileTree) (p : Path) : Except FileFault Bool :=
  match t.locate p with
  | .ok entry => .ok entry.isSome
  | .error (.nameTooLong q) => .error (.nameTooLong q)
  | .error _ => .ok false

def read (t : FileTree) (p : Path) : Except FileFault (List UInt8) :=
  match t.locate p with
  | .ok (some (.file content)) => .ok content
  | .ok (some .folder) => .error (.isAFolder p)
  | .ok none => .error (.notFound p)
  | .error f => .error f

/-- A change of the files. A fault keeps what was changed before. -/
abbrev Change := EStateM FileFault FileTree Unit

def makeOne (p : Path) : Change := do
  match (← get).locate p with
  | .ok (some .folder) => pure ()
  | .ok (some (.file _)) => throw (.fileExists p)
  | .ok none => modify (fun t => t.set p .folder)
  | .error f => throw f

/-- Make the folder with the parts `names`, which are in reverse order. If a folder on the way to it
is missing, that is made first. -/
def makeUpwards : List String → Change
  | [] => pure ()
  | name :: above => do
    let p := (name :: above).reverse
    match (← get).locate p with
    | .error (.notFound _) =>
      makeUpwards above
      makeOne p
    | _ => makeOne p

def makeFolder (p : Path) : Change := makeUpwards p.reverse

def write (p : Path) (content : List UInt8) : Change := do
  match (← get).locate p with
  | .ok (some .folder) => throw (.isAFolder p)
  | .ok _ => modify (fun t => t.set p (.file content))
  | .error f => throw f

end FileTree

end DialogueFlow
