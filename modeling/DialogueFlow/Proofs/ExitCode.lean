import DialogueFlow.Proofs.Analysis
import DialogueFlow.Proofs.Looking

namespace DialogueFlow

namespace FileTree

variable {t t' : FileTree} {p q : Path} {e : Entry}

theorem lookup_setEntryAt (p q : Path) (e : Entry) (entries : List (Path × Entry)) :
    (setEntryAt p e entries).lookup q = if q = p then some e else entries.lookup q := by
  induction entries with
  | nil => grind [setEntryAt]
  | cons entry rest ih => grind [setEntryAt]

theorem find?_set (t : FileTree) (p q : Path) (e : Entry) :
    (t.set p e).find? q = if q = p then some e else t.find? q :=
  lookup_setEntryAt p q e t.entries

theorem descend_set (p : Path) {found : Option Entry} {start : Path} {rest : List String}
    (h : t.descend p start rest = .ok found) :
    (t.set (start ++ rest) e).descend p start rest = .ok (some e) := by
  induction rest generalizing start with
  | nil => simp [descend, find?_set]
  | cons name rest ih =>
    have hne : start ≠ start ++ name :: rest := by simp
    rw [descend] at h
    rw [descend, find?_set, if_neg hne]
    cases hfind : t.find? start with
    | none => simp [hfind] at h
    | some entry =>
      cases entry with
      | file content => simp [hfind] at h
      | folder =>
        by_cases hlong : maxNameBytes < name.utf8ByteSize
        · simp [hfind, hlong] at h
        · simp only [hfind, if_neg hlong] at h ⊢
          rw [List.append_cons]
          exact ih h

theorem locate_set {found : Option Entry} (h : t.locate p = .ok found) :
    (t.set p e).locate p = .ok (some e) := by
  rw [locate] at h
  split at h
  · contradiction
  · next hlong =>
    rw [locate, if_neg hlong]
    exact descend_set p h

theorem read_of_write {content : List UInt8} {u : Unit}
    (h : (write p content).run t = .ok u t') : t'.read p = .ok content := by
  have hset : ∀ found, t.locate p = .ok found → (t.set p (.file content)).read p = .ok content := by
    intro found hfound
    rw [read, locate_set hfound]
  cases hl : t.locate p with
  | error f => simp [write, hl] at h
  | ok found =>
    have ht : t.set p (.file content) = t' := by
      cases found with
      | none => simpa [write, hl] using h
      | some entry =>
        cases entry with
        | folder => simp [write, hl] at h
        | file old => simpa [write, hl] using h
    rw [← ht]
    exact hset found hl

end FileTree

namespace Program

variable {p : Program}

theorem Keyed.isOk_analyse (h : p.Keyed) (hstop : p.analyse.stop = none) :
    p.analyse.isOk = true ↔ ∀ node ∈ p.nodes.values, ∃ f, node.flow = .ok f := by
  rw [Analysis.isOk, h.failures_analyse, reached_eq_values hstop, List.isEmpty_iff,
    List.filterMap_eq_nil_iff]
  refine forall₂_congr (fun node _ => ?_)
  rw [Node.fault?]
  cases node.flow <;> simp

end Program

namespace Command

/-- The text that a subcommand makes of an analysis. -/
inductive Environment.Makes (e : Environment) (files : FileTree) (a : Analysis) (s : Settings) :
    Command → String → Prop where
  | blocks : Makes e files a s .blocks (blocksText a s.node)
  | connections (h : s.nodesOnly = true) :
      Makes e files a s .dot (Export.Dot.connections s.titleText a.connections)
  | dot {vertices : List Vertex} (h : s.nodesOnly = false) (hv : Selects a s.node vertices) :
      Makes e files a s .dot (Export.Dot.blocks s.drawing vertices)
  | mermaid {vertices : List Vertex} (hv : Selects a s.node vertices)
      (hd : s.direction ≠ .nothing) :
      Makes e files a s .mermaid (Export.Mermaid.blocks s.drawing vertices)
  | lines {table : StringTable} {report : LineReport}
      (ht : e.LoadsStrings files (s.strings.bind Value.text?) table)
      (hr : (LineRuns.collect table s.unnamed
        (a.flows.entries.map (fun (name, flow) => (name, flow.blocks)))).1 = .ok report) :
      Makes e files a s .lines (linesText report)

/-- The part of a subcommand between reading the program and writing. -/
def compose (c : Context) (r : Request) (a : Analysis) : Run String :=
  match r.command with
  | .blocks => pure (blocksText a r.settings.node)
  | .dot =>
    if r.settings.nodesOnly then pure (Export.Dot.connections r.settings.titleText a.connections)
    else do pure (Export.Dot.blocks r.settings.drawing (← selected c a r.settings.node))
  | .mermaid => do
    let vertices ← selected c a r.settings.node
    if r.settings.direction = .nothing then throw (.broken .nothingAsName)
    else pure (Export.Mermaid.blocks r.settings.drawing vertices)
  | .lines => do
    let table ← loadStrings c (r.settings.strings.bind Value.text?)
    let (report, entries) := LineRuns.collect table r.settings.unnamed
      (a.flows.entries.map (fun (name, flow) => (name, flow.blocks)))
    entries.forM (log c)
    return linesText (← orBreak .lines report)

def look (c : Context) (r : Request) : Run (Analysis × String) := do
  let a ← analyse c r.program
  return (a, ← compose c r a)

theorem throw_bind {α β : Type} (halt : Halt) (f : α → Run β) :
    (throw halt >>= f : Run β) = throw halt := rfl

theorem perform_eq (c : Context) (r : Request) :
    perform c r = look c r >>= fun found => do
      write c r.settings.output found.2
      return status found.1 := by
  obtain ⟨command, program, settings⟩ := r
  cases command with
  | blocks => simp [perform, runBlocks, look, compose]
  | dot =>
    by_cases h : settings.nodesOnly = true
    · simp [perform, runDot, look, compose, h]
    · simp [perform, runDot, look, compose, h]
  | mermaid =>
    by_cases h : settings.direction = .nothing
    · simp [perform, runMermaid, look, compose, h, throw_bind]
    · simp [perform, runMermaid, look, compose, h]
  | lines => simp [perform, runLines, look, compose]

theorem finds_compose (c : Context) (r : Request) (a : Analysis) :
    Finds (compose c r a) (fun files text =>
      c.environment.Makes files a r.settings r.command text) := by
  obtain ⟨command, program, settings⟩ := r
  cases command with
  | blocks =>
    refine (finds_pure _).congr (fun files text => ⟨?_, ?_⟩)
    · rintro rfl
      exact .blocks
    · intro h
      cases h
      rfl
  | dot =>
    rw [compose]
    by_cases hnodes : settings.nodesOnly = true
    · simp only [hnodes, if_true]
      refine (finds_pure _).congr (fun files text => ⟨?_, ?_⟩)
      · rintro rfl
        exact .connections hnodes
      · intro h
        cases h with
        | connections _ => rfl
        | dot hblocks _ => simp [hnodes] at hblocks
    · simp only [hnodes]
      refine ((finds_selected c a settings.node).bind (fun _ => finds_pure _)).congr
        (fun files text => ⟨?_, ?_⟩)
      · rintro ⟨vertices, hv, rfl⟩
        exact .dot (by simpa using hnodes) hv
      · intro h
        cases h with
        | connections htrue => contradiction
        | dot _ hv => exact ⟨_, hv, rfl⟩
  | mermaid =>
    rw [compose]
    by_cases hnothing : settings.direction = .nothing
    · simp only [hnothing, if_true]
      refine ((finds_selected c a settings.node).bind (fun _ => finds_broken _)).congr
        (fun files text => ⟨fun ⟨_, _, hfalse⟩ => hfalse.elim, ?_⟩)
      intro h
      cases h with
      | mermaid _ hd => contradiction
    · simp only [hnothing, if_false]
      refine ((finds_selected c a settings.node).bind (fun _ => finds_pure _)).congr
        (fun files text => ⟨?_, ?_⟩)
      · rintro ⟨vertices, hv, rfl⟩
        exact .mermaid hv hnothing
      · intro h
        cases h with
        | mermaid hv _ => exact ⟨_, hv, rfl⟩
  | lines =>
    refine ((finds_loadStrings c _).bind (fun table => (finds_forM (finds_log c) _).andThen
      ((finds_orBreak _ _).bind (fun report => finds_pure _)))).congr (fun files text => ⟨?_, ?_⟩)
    · rintro ⟨table, ht, report, hr, rfl⟩
      exact .lines ht hr
    · intro h
      cases h with
      | lines ht hr => exact ⟨_, ht, _, hr, rfl⟩

theorem finds_look (c : Context) (r : Request) :
    Finds (look c r) (fun files found => ∃ p, c.environment.Loads files r.program p ∧
      found.1 = p.analyse ∧ c.environment.Makes files p.analyse r.settings r.command found.2) := by
  refine ((finds_analyse c r.program).bind (fun a => (finds_compose c r a).bind
    (fun text => finds_pure (a, text)))).congr (fun files found => ⟨?_, ?_⟩)
  · rintro ⟨_, ⟨p, hp, rfl⟩, text, htext, rfl⟩
    exact ⟨p, hp, rfl, htext⟩
  · rintro ⟨p, hp, hfound, htext⟩
    exact ⟨p.analyse, ⟨p, hp, rfl⟩, found.2, htext, by rw [← hfound]⟩

/-- `text` is on the output, or in the file to which the target leads. -/
inductive Environment.Written (e : Environment) (files : FileTree) (text : String) :
    Option Value → Session → Prop where
  | output {err : String} : Written e files text none ⟨files, text, err⟩
  | hyphen {err : String} : Written e files text (some (.text "-")) ⟨files, text, err⟩
  | file {raw err : String} {path : Path} {after : FileTree} (hraw : raw ≠ "-")
      (hpath : Path.resolve e.folder e.homes raw = .ok path)
      (hread : after.read path = .ok text.toUTF8.toList) :
      Written e files text (some (.text raw)) ⟨after, "", err⟩

def endLine (text : String) : String := if endsLine text then text else text ++ "\n"

theorem endLine_eq (text : String) : endLine text = text ∨ endLine text = text ++ "\n" := by
  rw [endLine]
  split
  · exact .inl rfl
  · exact .inr rfl

theorem getLast?_endLine (text : String) : (endLine text).toList.getLast? = some '\n' := by
  rw [endLine]
  split
  · next h => simpa [endsLine] using h
  · simp

theorem changeFiles_eq_ok {change : FileTree.Change} {s s' : Session} {u : Unit}
    (h : changeFiles change s = .ok u s') :
    ∃ files, change.run s.files = .ok () files ∧ s' = { s with files } := by
  rw [changeFiles] at h
  split at h
  · next files hchange =>
    cases h
    exact ⟨files, hchange, rfl⟩
  · contradiction

theorem written_of_write {c : Context} {target : Option Value} {text : String} {s s' : Session}
    {u : Unit} (hout : s.out = "") (h : write c target text s = .ok u s') :
    c.environment.Written s.files (endLine text) target s' := by
  have hprint : printOut (endLine text) s = .ok u s' → s' = ⟨s.files, endLine text, s.err⟩ := by
    intro hprint
    cases hprint
    simp [hout]
  cases target with
  | none =>
    rw [hprint h]
    exact .output
  | some value =>
    cases value with
    | nothing => contradiction
    | text raw =>
      by_cases hraw : raw = "-"
      · subst raw
        rw [hprint h]
        exact .hyphen
      · simp only [write, if_neg hraw] at h
        obtain ⟨path, s₁, hpath, h⟩ := bind_eq_ok h
        obtain ⟨u₂, s₂, hfolder, h⟩ := bind_eq_ok h
        obtain ⟨folders, -, rfl⟩ := changeFiles_eq_ok hfolder
        obtain ⟨after, hwrite, rfl⟩ := changeFiles_eq_ok h
        obtain ⟨⟨-, hout₁⟩, hfound⟩ := (finds_orBreak _ _).ok hpath
        simp only [hout₁, hout]
        exact .file hraw ((hfound path).mpr rfl) (FileTree.read_of_write hwrite)

def NeverQuits {α : Type} (m : Run α) : Prop :=
  ∀ s code s', m s ≠ .error (.quit code) s'

theorem NeverQuits.bind {α β : Type} {m : Run α} {f : α → Run β} (hm : NeverQuits m)
    (hf : ∀ a, NeverQuits (f a)) : NeverQuits (m >>= f) := by
  intro s code s' h
  obtain h | ⟨a, s₁, -, h⟩ := bind_eq_error h
  · exact hm s code s' h
  · exact hf a s₁ code s' h

theorem neverQuits_changeFiles (change : FileTree.Change) : NeverQuits (changeFiles change) := by
  intro s code s' h
  rw [changeFiles] at h
  split at h
  · contradiction
  · cases h

theorem neverQuits_orBreak {ε α : Type} (wrap : ε → Failure) (x : Except ε α) :
    NeverQuits (orBreak wrap x) := by
  intro s code s' h
  cases x <;> cases h

theorem neverQuits_write (c : Context) (target : Option Value) (text : String) :
    NeverQuits (write c target text) := by
  have hprint : ∀ text, NeverQuits (printOut text) := by
    intro text s code s' h
    cases h
  cases target with
  | none => exact hprint _
  | some value =>
    cases value with
    | nothing =>
      intro s code s' h
      cases h
    | text raw =>
      rw [write]
      split
      · exact hprint _
      · exact (neverQuits_orBreak _ _).bind (fun path =>
          (neverQuits_changeFiles _).bind (fun _ => neverQuits_changeFiles _))

/-- The program is loaded, and the text that the subcommand makes of it is written. -/
structure Environment.Completes (e : Environment) (files : FileTree) (r : Request) (p : Program)
    (text : String) (session : Session) : Prop where
  loaded : e.Loads files r.program p
  made : ∃ body, e.Makes files p.analyse r.settings r.command body ∧
    (text = body ∨ text = body ++ "\n")
  written : e.Written files text r.settings.output session

variable {e : Environment} {files : FileTree} {r : Request} {session : Session} {code : Nat}

theorem perform_of_makes {c : Context} {s : Session} {p : Program} {body : String}
    (hout : r.settings.output = none) (hp : c.environment.Loads s.files r.program p)
    (hbody : c.environment.Makes s.files p.analyse r.settings r.command body) :
    ∃ err, perform c r s = .ok (status p.analyse) ⟨s.files, s.out ++ endLine body, err⟩ := by
  obtain ⟨s', hlook, hfiles, hsame⟩ := (finds_look c r).eq_ok (a := (p.analyse, body))
    ⟨p, hp, rfl, hbody⟩
  rw [perform_eq, hout, bind_of_eq_ok hlook, ← hfiles, ← hsame]
  exact ⟨s'.err, rfl⟩

/-- A run without a text to write halts as it started, apart from the log. -/
theorem perform_of_not_makes {c : Context} {s : Session} {p : Program}
    (hp : c.environment.Loads s.files r.program p)
    (hnone : ∀ body, ¬ c.environment.Makes s.files p.analyse r.settings r.command body) :
    ∃ halt err, perform c r s = .error halt ⟨s.files, s.out, err⟩ := by
  cases hlook : look c r s with
  | ok found s' =>
    obtain ⟨p', hp', -, hbody⟩ := (((finds_look c r).ok hlook).2 found).mpr rfl
    cases hp.eq hp'
    exact absurd hbody (hnone _)
  | error halt s' =>
    obtain ⟨⟨hfiles, hsame⟩, -⟩ := (finds_look c r).error hlook
    rw [perform_eq, bind_of_eq_error hlook, ← hfiles, ← hsame]
    exact ⟨halt, s'.err, rfl⟩

theorem completes_of_perform {verbosity : Nat}
    (h : perform ⟨e, verbosity⟩ r ⟨files, "", ""⟩ = .ok code session) :
    ∃ p text, e.Completes files r p text session ∧ text.toList.getLast? = some '\n' ∧
      code = status p.analyse := by
  rw [perform_eq] at h
  obtain ⟨found, s₁, hlook, h⟩ := bind_eq_ok h
  obtain ⟨u, s₂, hwrite, h⟩ := bind_eq_ok h
  cases h
  obtain ⟨⟨hfiles, hout⟩, hfound⟩ := (finds_look _ r).ok hlook
  obtain ⟨p, hp, ha, htext⟩ := (hfound found).mpr rfl
  have hwritten := written_of_write hout hwrite
  rw [hfiles] at hwritten
  exact ⟨p, endLine found.2, ⟨hp, ⟨found.2, htext, endLine_eq _⟩, hwritten⟩, getLast?_endLine _,
    congrArg status ha⟩

theorem unusable_of_perform {verbosity : Nat}
    (h : perform ⟨e, verbosity⟩ r ⟨files, "", ""⟩ = .error (.quit code) session) :
    code = exitUnusable ∧ session.out = "" ∧ session.files = files ∧
      ∀ p text, ¬ e.Completes files r p text session := by
  rw [perform_eq] at h
  obtain h | ⟨found, s₁, -, h⟩ := bind_eq_error h
  · obtain ⟨⟨hfiles, hout⟩, hquit, hnone⟩ := (finds_look _ r).error h
    refine ⟨hquit code rfl, hout, hfiles, fun p text hdone => ?_⟩
    obtain ⟨body, hbody, -⟩ := hdone.made
    exact hnone (p.analyse, body) ⟨p, hdone.loaded, rfl, hbody⟩
  · obtain h | ⟨_, _, -, h⟩ := bind_eq_error h
    · exact absurd h (neverQuits_write _ _ _ _ _ _)
    · cases h

theorem perform_of_run {arguments : List String} {invocation : Invocation}
    (hargs : Invocation.ofArguments e.dropsMark arguments = .ok invocation)
    (hrun : run e arguments files = ⟨.returned code, session⟩) :
    (invocation.request = none ∧ code = exitUnusable ∧ session.out = "" ∧ session.files = files) ∨
      ∃ r, invocation.request = some r ∧
        (perform ⟨e, invocation.verbosity⟩ r ⟨files, "", ""⟩ = .ok code session ∨
          perform ⟨e, invocation.verbosity⟩ r ⟨files, "", ""⟩ = .error (.quit code) session) := by
  simp only [run, hargs] at hrun
  cases hr : invocation.request with
  | none =>
    simp only [hr] at hrun
    cases hrun
    exact .inl ⟨rfl, rfl, rfl, rfl⟩
  | some r =>
    refine .inr ⟨r, rfl, ?_⟩
    simp only [hr] at hrun
    split at hrun
    · next hperform =>
      cases hrun
      exact .inl hperform
    · next hperform =>
      cases hrun
      exact .inr hperform
    · cases hrun

theorem status_eq {p : Program} {raw : String} (h : e.Loads files raw p) :
    (status p.analyse = 0 ∧ ∀ node ∈ p.nodes.values, ∃ f, node.flow = .ok f) ∨
      (status p.analyse = 1 ∧ ∃ node ∈ p.nodes.values, ∃ fault, node.flow = .error fault) := by
  obtain ⟨text, -, hp⟩ := h
  have hok := (Program.keyed_ofText hp).isOk_analyse (Program.stop_ofText hp)
  by_cases h : p.analyse.isOk = true
  · exact .inl ⟨by rw [status, if_pos h, exitOk], hok.mp h⟩
  · refine .inr ⟨by rw [status, if_neg h, exitError], ?_⟩
    rw [hok] at h
    push Not at h
    obtain ⟨node, hnode, hnone⟩ := h
    cases hflow : node.flow with
    | ok f => exact absurd hflow (hnone f)
    | error fault => exact ⟨node, hnode, fault, hflow⟩

/-- A run that returns 2 leaves the output empty and the files as they are. It returns 1 exactly if
it is complete and some node has no flow, and 0 exactly if it is complete and all nodes have one,
whichever node is asked for. A complete run has written a text that ends with a line end. -/
theorem exit_code_of_run {arguments : List String} {invocation : Invocation}
    (hargs : Invocation.ofArguments e.dropsMark arguments = .ok invocation)
    (hrun : run e arguments files = ⟨.returned code, session⟩) :
    (code = 0 ∨ code = 1 ∨ code = 2) ∧
    (code = 2 → session.out = "" ∧ session.files = files) ∧
    (code = 1 ↔ ∃ r p text, invocation.request = some r ∧ e.Completes files r p text session ∧
      ∃ node ∈ p.nodes.values, ∃ fault, node.flow = .error fault) ∧
    (code = 0 ↔ ∃ r p text, invocation.request = some r ∧ e.Completes files r p text session ∧
      ∀ node ∈ p.nodes.values, ∃ f, node.flow = .ok f) ∧
    (code ≠ 2 → ∃ r p text, invocation.request = some r ∧ e.Completes files r p text session ∧
      text.toList.getLast? = some '\n') := by
  obtain ⟨hnone, hcode, huntouched⟩ | ⟨r, hr, hperform | hperform⟩ := perform_of_run hargs hrun
  · simp [hnone, hcode, exitUnusable, huntouched]
  · obtain ⟨p, text, hdone, hline, hcode⟩ := completes_of_perform hperform
    -- Nothing but `p` can be loaded, so the code speaks of its nodes.
    have hunique : ∀ {r' p' text'}, invocation.request = some r' →
        e.Completes files r' p' text' session → p' = p := by
      intro r' p' text' hr' hdone'
      cases hr.symm.trans hr'
      exact hdone'.loaded.eq hdone.loaded
    obtain ⟨hstatus, hok⟩ | ⟨hstatus, node, hnode, fault, hfault⟩ := status_eq hdone.loaded
    · have hzero : code = 0 := hcode.trans hstatus
      refine ⟨by simp [hzero], by simp [hzero], ⟨by simp [hzero], ?_⟩,
        ⟨fun _ => ⟨r, p, text, hr, hdone, hok⟩, fun _ => hzero⟩,
        fun _ => ⟨r, p, text, hr, hdone, hline⟩⟩
      rintro ⟨r', p', text', hr', hdone', node, hnode, fault, hfault⟩
      cases hunique hr' hdone'
      obtain ⟨f, hf⟩ := hok node hnode
      cases hf.symm.trans hfault
    · have hone : code = 1 := hcode.trans hstatus
      refine ⟨by simp [hone], by simp [hone],
        ⟨fun _ => ⟨r, p, text, hr, hdone, node, hnode, fault, hfault⟩, fun _ => hone⟩,
        ⟨by simp [hone], ?_⟩, fun _ => ⟨r, p, text, hr, hdone, hline⟩⟩
      rintro ⟨r', p', text', hr', hdone', hok⟩
      cases hunique hr' hdone'
      obtain ⟨f, hf⟩ := hok node hnode
      cases hf.symm.trans hfault
  · obtain ⟨hcode, hout, hfiles, hnone⟩ := unusable_of_perform hperform
    simp [hr, hcode, exitUnusable, hout, hfiles, hnone]

def Outcome.returned? (o : Outcome) : Option (Nat × Session) :=
  match o.ending with
  | .returned code => some (code, o.session)
  | .exited _ => none
  | .broken _ => none

theorem exists_session_of_returned? {o : Outcome}
    (h : o.returned?.map Prod.fst = some code) : ∃ session, o = ⟨.returned code, session⟩ := by
  obtain ⟨ending, session⟩ := o
  cases ending with
  | returned code' =>
    cases h
    exact ⟨session, rfl⟩
  | exited code' => cases h
  | broken f => cases h

def workplace : Environment := ⟨["work"], [], "12:00:00", .standard, true⟩

def taleText : String :=
  "\x7b\"nodes\": \x7b\"Pier\": \x7b\"instructions\": [\x7b\"opcode\": \"JUMP_TO\", " ++
    "\"operands\": [\"Sea\"]\x7d]\x7d, \"Mast\": \x7b\x7d\x7d\x7d"

def taleFiles : FileTree :=
  ⟨[([], .folder), (["work"], .folder), (["work", "tale.json"], .file taleText.toUTF8.toList)]⟩

def listing : List String := ["blocks", "tale.json", "--node", "Mast", "-o", "out/blocks.txt"]

def drawing : List String := ["dot", "tale.json", "--node", "Pier", "-o", "out/pier.dot"]

theorem exit_code_of_run_tale :
    (∃ invocation session, Invocation.ofArguments workplace.dropsMark listing = .ok invocation ∧
      run workplace listing taleFiles = ⟨.returned 1, session⟩ ∧
      ∃ r p text, invocation.request = some r ∧
        workplace.Completes taleFiles r p text session ∧
        ∃ node ∈ p.nodes.values, ∃ fault, node.flow = .error fault) ∧
    (∃ invocation session, Invocation.ofArguments workplace.dropsMark drawing = .ok invocation ∧
      run workplace drawing taleFiles = ⟨.returned 2, session⟩ ∧
      session.out = "" ∧ session.files = taleFiles) := by
  have hlisting : (Invocation.ofArguments workplace.dropsMark listing).toOption.map
      Invocation.verbosity = some 0 := by
    decide +kernel
  have hdrawing : (Invocation.ofArguments workplace.dropsMark drawing).toOption.map
      Invocation.verbosity = some 0 := by
    decide +kernel
  have hone : (run workplace listing taleFiles).returned?.map Prod.fst = some 1 := by decide +kernel
  have htwo : (run workplace drawing taleFiles).returned?.map Prod.fst = some 2 := by decide +kernel
  obtain ⟨i, hi, -⟩ := exists_ok_of_map hlisting
  obtain ⟨j, hj, -⟩ := exists_ok_of_map hdrawing
  obtain ⟨s, hs⟩ := exists_session_of_returned? hone
  obtain ⟨t, ht⟩ := exists_session_of_returned? htwo
  exact ⟨⟨i, s, hi, hs, (exit_code_of_run hi hs).2.2.1.mp rfl⟩,
    ⟨j, t, hj, ht, (exit_code_of_run hj ht).2.1 rfl⟩⟩

end Command

end DialogueFlow
