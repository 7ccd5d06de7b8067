import DialogueFlow.Command.Run
import Std.Time

namespace DialogueFlow.Command

def Invocation.paths (e : Environment) (i : Invocation) : List Path × List Path :=
  let resolved := fun (values : List Value) =>
    (values.filterMap Value.text?).filterMap (fun raw =>
      (Path.resolve e.folder e.homes raw).toOption)
  match i.request with
  | none => ([], [])
  | some r =>
    (resolved (.text r.program :: r.settings.strings.toList), resolved r.settings.output.toList)

/-- What there is at a path. The content of a file is read on demand. -/
def lookAt (read : Bool) (path : Path) : IO (Option Entry) := do
  let file := (← IO.currentDir) / path.text
  if ← file.isDir then return some .folder
  if ← file.pathExists then
    return some (.file (← if read then do pure (← IO.FS.readBinFile file).toList else pure []))
  return none

/-- Add what there is at a path and on the way to it, apart from what is known. -/
def addPath (read : Bool) (files : FileTree) (path : Path) : IO FileTree :=
  (path.parents ++ [path]).foldlM (fun files p => do
    if (files.find? p).isSome then return files
    match ← lookAt (read && p == path) p with
    | some entry => return files.set p entry
    | none => return files) files

def store (before after : FileTree) : IO Unit :=
  after.entries.forM (fun (path, entry) => do
    if before.find? path ≠ some entry then
      match entry with
      | .folder => IO.FS.createDirAll path.text
      | .file content => IO.FS.writeBinFile path.text ⟨content.toArray⟩)

def homeOfUser? (line : String) : Option (String × Path) :=
  match line.splitOn ":" with
  | [user, _, _, _, _, home, _] => some (user, Path.follow [] (Path.parts home))
  | _ => none

def userHomes : IO (List (String × Path)) := do
  try
    let users ← IO.FS.lines "/etc/passwd"
    return users.toList.filterMap homeOfUser?
  catch _ => return []

def environment : IO Environment := do
  let folder := ((← IO.currentDir).components).filter (· ≠ "")
  let home := Path.follow [] (Path.parts ((← IO.getEnv "HOME").getD "/"))
  let time := (← Std.Time.PlainTime.now).format "HH:mm:ss"
  return ⟨folder, ("", home) :: (← userHomes), time, .standard, true⟩

end DialogueFlow.Command

open DialogueFlow.Command in
def main (arguments : List String) : IO UInt32 := do
  let here ← environment
  let (sources, targets) := match Invocation.ofArguments here.dropsMark arguments with
    | .ok i => i.paths here
    | .error _ => ([], [])
  let files ← sources.foldlM (addPath true) ⟨[([], .folder)]⟩
  let files ← targets.foldlM (addPath false) files
  let outcome := run here arguments files
  store files outcome.session.files
  IO.print outcome.session.out
  IO.eprint outcome.session.err
  match outcome.ending with
  | .returned code | .exited code => return code.toUInt32
  | .broken f =>
    IO.eprintln f.message
    return 1
