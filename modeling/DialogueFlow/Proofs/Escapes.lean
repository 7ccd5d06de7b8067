import DialogueFlow.Proofs.ExitCode
import DialogueFlow.Proofs.Mute
import DialogueFlow.Proofs.Overflow

namespace DialogueFlow

namespace Program

variable {p : Program}

def ofFile (d : Json.Dialect) (path : Path) (content : List UInt8) : Read Program :=
  match Text.decodeUtf8 content with
  | .error f => malformed (.invalidUtf8 path.text f)
  | .ok raw => ofText d (Text.unifyLines raw)

theorem Keyed.mem_flows_iff (h : p.Keyed) (hstop : p.analyse.stop = none) {e : String × Flow} :
    e ∈ p.analyse.flows.entries ↔
      ∃ node ∈ p.nodes.values, node.name = e.1 ∧ node.flow = .ok e.2 := by
  rw [h.flows_analyse, reached_eq_values hstop, List.mem_filterMap]
  refine exists_congr (fun node => and_congr_right (fun _ => ?_))
  obtain ⟨name, f⟩ := e
  cases node.flow <;> simp [Except.toOption]

end Program

namespace Command

/-- What the tool has words for: a malformed document, or a fault in a block. -/
def Failure.isReport : Failure → Bool
  | .read (.malformed _) => true
  | .lines (.content _) => true
  | _ => false

section NoReport

variable {α β ε : Type} {m : Run α}

def NoReport (m : Run α) : Prop :=
  ∀ s f s', m s = .error (.broken f) s' → f.isReport = false

theorem NoReport.bind {f : α → Run β} (hm : NoReport m) (hf : ∀ a, NoReport (f a)) :
    NoReport (m >>= f) := by
  intro s fault s' h
  obtain h | ⟨a, s₁, -, h⟩ := bind_eq_error h
  · exact hm s fault s' h
  · exact hf a s₁ fault s' h

theorem noReport_pure (a : α) : NoReport (pure a : Run α) := by
  intro s f s' h
  cases h

theorem noReport_quit (code : Nat) : NoReport (throw (.quit code) : Run α) := by
  intro s f s' h
  cases h

theorem noReport_broken {f : Failure} (hf : f.isReport = false) :
    NoReport (throw (.broken f) : Run α) := by
  intro s f' s' h
  cases h
  exact hf

theorem noReport_get {f : Session → Run α} (hf : ∀ s, NoReport (f s)) : NoReport (get >>= f) :=
  fun s => hf s s

theorem noReport_orBreak {wrap : ε → Failure} (hwrap : ∀ e, (wrap e).isReport = false)
    (x : Except ε α) : NoReport (orBreak wrap x) := by
  cases x with
  | ok a => exact noReport_pure a
  | error e => exact noReport_broken (hwrap e)

theorem noReport_printError (text : String) : NoReport (printError text) := by
  intro s f s' h
  cases h

theorem noReport_log (c : Context) (e : Log.Entry) : NoReport (log c e) := by
  rw [log]
  split
  · exact noReport_printError _
  · exact noReport_pure ()

theorem noReport_forM {f : α → Run PUnit} (hf : ∀ a, NoReport (f a)) (l : List α) :
    NoReport (l.forM f) := by
  induction l with
  | nil => exact noReport_pure _
  | cons a l ih => exact (hf a).bind (fun _ => ih)

theorem noReport_complaint (c : Context) (message : String) :
    NoReport (logError c message >>= fun _ => throw (.quit exitUnusable) : Run α) :=
  (noReport_log c _).bind (fun _ => noReport_quit _)

theorem noReport_changeFiles (change : FileTree.Change) : NoReport (changeFiles change) := by
  intro s f s' h
  rw [changeFiles] at h
  split at h
  · contradiction
  · cases h
    rfl

variable (c : Context)

theorem noReport_resolveExisting (raw what : String) : NoReport (resolveExisting c raw what) := by
  refine (noReport_orBreak (fun _ => rfl) _).bind (fun path => noReport_get (fun s =>
    (noReport_orBreak (fun _ => rfl) _).bind (fun present => ?_)))
  cases present with
  | false => exact noReport_complaint c _
  | true => exact noReport_pure path

theorem noReport_readText (path : Path) : NoReport (readText path) :=
  noReport_get (fun _ => (noReport_orBreak (fun _ => rfl) _).bind (fun _ => noReport_pure _))

theorem noReport_load (raw : String) : NoReport (load c raw) := by
  refine (noReport_resolveExisting c raw _).bind (fun path => (noReport_log c _).bind (fun _ =>
    (noReport_readText path).bind (fun text => ?_)))
  cases text with
  | error f => exact noReport_complaint c _
  | ok text =>
    dsimp only
    cases Program.ofText c.environment.dialect text with
    | ok p => exact (noReport_log c _).bind (fun _ => noReport_pure p)
    | error f =>
      cases f with
      | malformed cause => exact noReport_complaint c _
      | _ => exact noReport_broken rfl

theorem noReport_analyse (raw : String) : NoReport (analyse c raw) := by
  refine (noReport_load c raw).bind (fun p => (noReport_forM (noReport_log c) _).bind (fun _ => ?_))
  dsimp only
  cases p.analyse.stop with
  | some f => exact noReport_broken rfl
  | none => exact (noReport_forM (fun _ => noReport_printError _) _).bind (fun _ => noReport_pure _)

theorem noReport_selected (a : Analysis) (node : Option Value) :
    NoReport (selected c a node) := by
  cases node with
  | none => exact noReport_pure _
  | some value =>
    cases value with
    | nothing => exact noReport_broken rfl
    | text name =>
      rw [selected]
      cases a.flows.get? name with
      | none => exact noReport_complaint c _
      | some flow => exact noReport_pure _

theorem noReport_loadStrings (raw : Option String) : NoReport (loadStrings c raw) := by
  rw [loadStrings]
  cases raw.filter (· ≠ "") with
  | none => exact noReport_pure _
  | some raw =>
    refine (noReport_resolveExisting c raw _).bind (fun path => (noReport_readText path).bind
      (fun text => (noReport_orBreak (fun _ => rfl) text).bind (fun text => ?_)))
    cases Json.read c.environment.dialect text with
    | ok document => exact noReport_pure _
    | error f =>
      cases f with
      | problem what offset => exact noReport_complaint c _
      | _ => exact noReport_broken rfl

theorem noReport_write (target : Option Value) (text : String) :
    NoReport (write c target text) := by
  have hprint : ∀ text, NoReport (printOut text) := by
    intro text s f s' h
    cases h
  cases target with
  | none => exact hprint _
  | some value =>
    cases value with
    | nothing => exact noReport_broken rfl
    | text raw =>
      rw [write]
      split
      · exact hprint _
      · exact (noReport_orBreak (fun _ => rfl) _).bind (fun path =>
          (noReport_changeFiles _).bind (fun _ => noReport_changeFiles _))

theorem noReport_compose {r : Request} (hr : r.command ≠ .lines) (a : Analysis) :
    NoReport (compose c r a) := by
  rw [compose]
  cases hcommand : r.command with
  | blocks => exact noReport_pure _
  | dot =>
    dsimp only
    split
    · exact noReport_pure _
    · exact (noReport_selected c a _).bind (fun _ => noReport_pure _)
  | mermaid =>
    refine (noReport_selected c a _).bind (fun _ => ?_)
    split
    · exact noReport_broken rfl
    · exact noReport_pure _
  | lines => exact absurd hcommand hr

end NoReport

def linesOf (table : StringTable) (unnamed : Unnamed) (a : Analysis) :
    Except LineFault LineReport :=
  (LineRuns.collect table unnamed
    (a.flows.entries.map (fun (name, flow) => (name, flow.blocks)))).1

theorem unnamed_ne_refuse {s : Settings} (h : s.defaultCharacter ≠ some .nothing) :
    s.unnamed ≠ .refuse := by
  rw [Settings.unnamed]
  split
  · simp
  · simp
  · next hnothing => exact absurd hnothing h

/-- There is a report, or a text to be shown is missing, or the table is no table of texts. With a
report no text is missing in nodes whose blocks have distinct names. -/
theorem linesOf_cases (table : StringTable) (unnamed : Unnamed) {p : Program} (hp : p.Keyed)
    (hstop : p.analyse.stop = none) :
    (∃ report, linesOf table unnamed p.analyse = .ok report ∧
      ∀ node ∈ p.nodes.values, ∀ f, node.flow = .ok f → (f.blocks.map Block.name).Nodup →
        ∀ fault, ¬ node.Mute fault) ∨
    (∃ fault, linesOf table unnamed p.analyse = .error (.content fault) ∧ p.Mute fault) ∨
    ∃ fault, linesOf table unnamed p.analyse = .error fault ∧ (∀ f, fault ≠ .content f) ∧
      ¬ (table.HoldsTexts ∧ unnamed ≠ .refuse) := by
  obtain ⟨report, hok, hall⟩ | ⟨fault, herror, e, he, b, hb, hend⟩ | hother :=
    LineRuns.collect_cases table unnamed
      (p.analyse.flows.entries.map (fun (name, flow) => (name, flow.blocks)))
  · refine .inl ⟨report, hok, fun node hnode f hflow hnames fault hmute => ?_⟩
    have hentry : (node.name, f) ∈ p.analyse.flows.entries :=
      (hp.mem_flows_iff hstop).mpr ⟨node, hnode, rfl, hflow⟩
    obtain ⟨b, hb, hno⟩ := hmute.exists_block hflow
    exact hno (hall _ (List.mem_map_of_mem hentry) hnames b hb)
  · obtain ⟨entry, hentry, rfl⟩ := List.mem_map.mp he
    obtain ⟨node, hnode, -, hflow⟩ := (hp.mem_flows_iff hstop).mp hentry
    exact .inr (.inl ⟨fault, herror, node, hnode, Node.mute_of_ending_eq_error hflow hb hend⟩)
  · exact .inr (.inr hother)

section Runs

variable {α : Type} {m : Run α} {e : Environment} {files : FileTree}
  {r : Request} {c : Context} {s : Session} {path : Path} {content : List UInt8} {p : Program}
  {table : StringTable}

theorem loads_of_ofFile {raw : String} (hpath : Path.resolve e.folder e.homes raw = .ok path)
    (hread : files.read path = .ok content) (hp : Program.ofFile e.dialect path content = .ok p) :
    e.Loads files raw p := by
  rw [Program.ofFile] at hp
  split at hp
  · cases hp
  · next raw hraw => exact ⟨_, ⟨path, hpath, content, raw, hread, hraw, rfl⟩, hp⟩

theorem complaint_eq (c : Context) (message : String) (s : Session) :
    ∃ s', (logError c message >>= fun _ => throw (.quit exitUnusable) : Run α) s =
      .error (.quit exitUnusable) s' := by
  obtain ⟨s', hlog, -⟩ := (finds_log c ⟨.error, .command, message⟩).eq_ok (s := s) (a := ()) trivial
  exact ⟨s', bind_of_eq_ok hlog⟩

/-- How a run halts at a fault of its program file. -/
def haltOf : ReadFault → Halt
  | .malformed _ => .quit exitUnusable
  | f => .broken (.read f)

theorem load_of_ofFile {raw : String} {fault : ReadFault}
    (hpath : Path.resolve c.environment.folder c.environment.homes raw = .ok path)
    (hread : s.files.read path = .ok content)
    (hfault : Program.ofFile c.environment.dialect path content = .error fault) :
    ∃ s', load c raw s = .error (haltOf fault) s' := by
  obtain ⟨s₁, hresolve, hsame, -⟩ :=
    (finds_resolveExisting c raw "program").eq_ok ⟨hpath, FileTree.has_of_read hread⟩
  obtain ⟨s₂, hlog, hsame', -⟩ := (finds_log c ⟨.debug, .program,
    s!"Loading program from {path.text}"⟩).eq_ok (s := s₁) (a := ()) trivial
  rw [← hsame, ← hsame'] at hread
  obtain ⟨s₃, htext, -⟩ := (finds_readText path).eq_ok ⟨content, hread, rfl⟩
  rw [load, bind_of_eq_ok hresolve, bind_of_eq_ok hlog, bind_of_eq_ok htext]
  rw [Program.ofFile] at hfault
  cases hdecoded : Text.decodeUtf8 content with
  | error f =>
    rw [hdecoded] at hfault
    cases hfault
    exact complaint_eq c _ s₃
  | ok raw =>
    simp only [hdecoded] at hfault
    simp only [Except.map, hfault]
    cases fault with
    | malformed cause => exact complaint_eq c _ s₃
    | _ => exact ⟨s₃, rfl⟩

theorem perform_of_ofFile {fault : ReadFault}
    (hpath : Path.resolve c.environment.folder c.environment.homes r.program = .ok path)
    (hread : s.files.read path = .ok content)
    (hfault : Program.ofFile c.environment.dialect path content = .error fault) :
    ∃ s', perform c r s = .error (haltOf fault) s' := by
  obtain ⟨s', h⟩ := load_of_ofFile hpath hread hfault
  rw [perform_eq]
  exact ⟨s', bind_of_eq_error (bind_of_eq_error (bind_of_eq_error h))⟩

theorem perform_lines_of_error (hlines : r.command = .lines)
    (hp : c.environment.Loads s.files r.program p)
    (htable : c.environment.LoadsStrings s.files (r.settings.strings.bind Value.text?) table)
    {fault : LineFault} (hfault : linesOf table r.settings.unnamed p.analyse = .error fault) :
    ∃ s', perform c r s = .error (.broken (.lines fault)) s' := by
  obtain ⟨s₁, hanalyse, hsame, -⟩ := (finds_analyse c r.program).eq_ok ⟨p, hp, rfl⟩
  rw [← hsame] at htable
  obtain ⟨s₂, hstrings, -⟩ := (finds_loadStrings c _).eq_ok htable
  obtain ⟨s₃, hlog, -⟩ := (finds_forM (finds_log c) (LineRuns.collect table r.settings.unnamed
    (p.analyse.flows.entries.map (fun (name, flow) => (name, flow.blocks)))).2).eq_ok
      (s := s₂) (a := ()) trivial
  rw [perform_eq]
  refine ⟨s₃, bind_of_eq_error ((bind_of_eq_ok hanalyse).trans (bind_of_eq_error ?_))⟩
  rw [linesOf] at hfault
  simp only [compose, hlines]
  rw [bind_of_eq_ok hstrings]
  refine (bind_of_eq_ok hlog).trans (bind_of_eq_error ?_)
  rw [hfault]
  rfl

theorem perform_lines_of_ok (hlines : r.command = .lines) (hout : r.settings.output = none)
    (hp : c.environment.Loads s.files r.program p)
    (htable : c.environment.LoadsStrings s.files (r.settings.strings.bind Value.text?) table)
    {report : LineReport} (hreport : linesOf table r.settings.unnamed p.analyse = .ok report) :
    ∃ s', perform c r s = .ok (status p.analyse) s' := by
  have hmakes : c.environment.Makes s.files p.analyse r.settings r.command (linesText report) :=
    hlines ▸ .lines htable hreport
  obtain ⟨err, h⟩ := perform_of_makes hout hp hmakes
  exact ⟨_, h⟩

theorem NoReport.ne_error (hm : NoReport m) {f : Failure} (hf : f.isReport = true)
    (s s' : Session) : m s ≠ .error (.broken f) s' := by
  intro h
  cases hf.symm.trans (hm s f s' h)

theorem content_of_compose {a : Analysis} {s' : Session} {f : Failure} (hlines : r.command = .lines)
    (h : compose c r a s = .error (.broken f) s') (hf : f.isReport = true) :
    ∃ table fault, linesOf table r.settings.unnamed a = .error (.content fault) ∧
      f = .lines (.content fault) := by
  simp only [compose, hlines] at h
  obtain h | ⟨table, s₁, -, h⟩ := bind_eq_error h
  · exact absurd h ((noReport_loadStrings c _).ne_error hf _ _)
  obtain h | ⟨_, s₂, -, h⟩ := bind_eq_error h
  · exact absurd h ((noReport_forM (noReport_log c) _).ne_error hf _ _)
  obtain h | ⟨_, _, -, h⟩ := bind_eq_error h
  · cases hreport : linesOf table r.settings.unnamed a with
    | ok report =>
      rw [linesOf] at hreport
      rw [hreport] at h
      cases h
    | error fault =>
      rw [linesOf] at hreport
      rw [hreport] at h
      cases h
      cases fault with
      | content fault => exact ⟨table, fault, hreport, rfl⟩
      | _ => cases hf
  · cases h

/-- Only asking for line runs breaks off with a report, and only where a text to be shown is
missing. -/
theorem mute_of_perform {s' : Session} {f : Failure} (h : perform c r s = .error (.broken f) s')
    (hf : f.isReport = true) :
    r.command = .lines ∧ ∃ p fault, c.environment.Loads s.files r.program p ∧ p.Mute fault ∧
      f = .lines (.content fault) := by
  rw [perform_eq] at h
  obtain h | ⟨found, s₁, -, h⟩ := bind_eq_error h
  · obtain h | ⟨a, s₁, ha, h⟩ := bind_eq_error h
    · exact absurd h ((noReport_analyse c r.program).ne_error hf _ _)
    obtain ⟨-, hfound⟩ := (finds_analyse c r.program).ok ha
    obtain ⟨p, hp, rfl⟩ := (hfound a).mpr rfl
    obtain h | ⟨_, _, -, h⟩ := bind_eq_error h
    · by_cases hlines : r.command = .lines
      · obtain ⟨table, fault, hfault, rfl⟩ := content_of_compose hlines h hf
        have ⟨text, _, htext⟩ := hp
        obtain ⟨report, hok, -⟩ | ⟨fault', hfault', hmute⟩ | ⟨other, hother, hne, -⟩ :=
          linesOf_cases table r.settings.unnamed (Program.keyed_ofText htext)
            (Program.stop_ofText htext)
        · cases hfault.symm.trans hok
        · cases hfault.symm.trans hfault'
          exact ⟨hlines, p, fault, hp, hmute, rfl⟩
        · cases hfault.symm.trans hother
          exact absurd rfl (hne fault)
      · exact absurd h ((noReport_compose c hlines _).ne_error hf _ _)
    · cases h
  · exact absurd h (((noReport_write c _ _).bind (fun _ => noReport_pure _)).ne_error hf _ _)

variable {arguments : List String} {invocation : Invocation}

theorem run_of_perform_ok (hargs : Invocation.ofArguments e.dropsMark arguments = .ok invocation)
    (hr : invocation.request = some r) {code : Nat} {session : Session}
    (h : perform ⟨e, invocation.verbosity⟩ r ⟨files, "", ""⟩ = .ok code session) :
    run e arguments files = ⟨.returned code, session⟩ := by
  simp only [run, hargs, hr, h]

theorem ending_of_perform_ok (hargs : Invocation.ofArguments e.dropsMark arguments = .ok invocation)
    (hr : invocation.request = some r) {code : Nat}
    (h : ∃ s', perform ⟨e, invocation.verbosity⟩ r ⟨files, "", ""⟩ = .ok code s') :
    (run e arguments files).ending = .returned code := by
  obtain ⟨s', h⟩ := h
  rw [run_of_perform_ok hargs hr h]

def Halt.ending : Halt → Ending
  | .quit code => .returned code
  | .broken f => .broken f

theorem run_of_perform_error (hargs : Invocation.ofArguments e.dropsMark arguments = .ok invocation)
    (hr : invocation.request = some r) {halt : Halt} {session : Session}
    (h : perform ⟨e, invocation.verbosity⟩ r ⟨files, "", ""⟩ = .error halt session) :
    run e arguments files = ⟨halt.ending, session⟩ := by
  cases halt <;> simp only [run, hargs, hr, h, Halt.ending]

theorem ending_of_perform_error
    (hargs : Invocation.ofArguments e.dropsMark arguments = .ok invocation)
    (hr : invocation.request = some r) {halt : Halt}
    (h : ∃ s', perform ⟨e, invocation.verbosity⟩ r ⟨files, "", ""⟩ = .error halt s') :
    (run e arguments files).ending = halt.ending := by
  obtain ⟨s', h⟩ := h
  rw [run_of_perform_error hargs hr h]

theorem perform_of_broken (hargs : Invocation.ofArguments e.dropsMark arguments = .ok invocation)
    (hr : invocation.request = some r) {f : Failure}
    (h : (run e arguments files).ending = .broken f) :
    ∃ s', perform ⟨e, invocation.verbosity⟩ r ⟨files, "", ""⟩ = .error (.broken f) s' := by
  cases hperform : perform ⟨e, invocation.verbosity⟩ r ⟨files, "", ""⟩ with
  | ok code s' => cases (ending_of_perform_ok hargs hr ⟨s', hperform⟩).symm.trans h
  | error halt s' =>
    have hend := (ending_of_perform_error hargs hr ⟨s', hperform⟩).symm.trans h
    cases halt with
    | quit code => cases hend
    | broken f' =>
      cases hend
      exact ⟨s', rfl⟩

/-- A fault that the tool reports breaks a run off only if line runs are asked for and an analysed
node has a text to show that is not there. Line runs of a program file, with a table of texts, end
with a code if the file is malformed, and break off at the limits of numbers and nesting. Of any
other file they end with a code, or break off at a missing text; they have to break off if the
blocks of its node have distinct names. -/
theorem lines_break_at_mute (hargs : Invocation.ofArguments e.dropsMark arguments = .ok invocation)
    (hr : invocation.request = some r) :
    (∀ f, (run e arguments files).ending = .broken f → f.isReport = true →
      r.command = .lines ∧ ∃ p fault, e.Loads files r.program p ∧ p.Mute fault ∧
        f = .lines (.content fault)) ∧
    (r.command = .lines → r.settings.output = none → r.settings.defaultCharacter ≠ some .nothing →
      ∀ path content table, Path.resolve e.folder e.homes r.program = .ok path →
        files.read path = .ok content →
        e.LoadsStrings files (r.settings.strings.bind Value.text?) table → table.HoldsTexts →
      (∀ cause, Program.ofFile e.dialect path content = .error (.malformed cause) →
        (run e arguments files).ending = .returned 2) ∧
      (∀ fault, Program.ofFile e.dialect path content = .error fault → ¬ fault.IsMalformed →
        (run e arguments files).ending = .broken (.read fault)) ∧
      ∀ p, Program.ofFile e.dialect path content = .ok p →
        ((run e arguments files).ending = .returned (status p.analyse) ∨
          ∃ fault, p.Mute fault ∧
            (run e arguments files).ending = .broken (.lines (.content fault))) ∧
        ∀ node ∈ p.nodes.values, ∀ f fault, node.flow = .ok f →
          (f.blocks.map Block.name).Nodup → node.Mute fault →
          ∀ code, (run e arguments files).ending ≠ .returned code) := by
  refine ⟨fun f hend hf => ?_, fun hlines hout hdefault path content table hpath hread htable
    htexts => ⟨fun cause hfile => ?_, fun fault hfile hother => ?_, fun p hfile => ?_⟩⟩
  · obtain ⟨s', h⟩ := perform_of_broken hargs hr hend
    exact mute_of_perform h hf
  · exact ending_of_perform_error hargs hr (perform_of_ofFile hpath hread hfile)
  · have hend := ending_of_perform_error hargs hr (perform_of_ofFile hpath hread hfile)
    cases fault with
    | malformed cause => exact absurd ⟨cause, rfl⟩ hother
    | _ => exact hend
  · have hp := loads_of_ofFile hpath hread hfile
    have ⟨text, _, htext⟩ := hp
    obtain ⟨report, hok, hall⟩ | ⟨fault, hfault, hmute⟩ | ⟨_, -, -, hno⟩ :=
      linesOf_cases table r.settings.unnamed (Program.keyed_ofText htext)
            (Program.stop_ofText htext)
    · refine ⟨.inl (ending_of_perform_ok hargs hr (perform_lines_of_ok hlines hout hp htable hok)),
        fun node hnode f fault hflow hnames hmute => ?_⟩
      exact absurd hmute (hall node hnode f hflow hnames fault)
    · have hend := ending_of_perform_error hargs hr
        (perform_lines_of_error hlines hp htable hfault)
      refine ⟨.inr ⟨fault, hmute, hend⟩, fun node _ f _ _ _ _ code => ?_⟩
      rw [hend]
      simp [Halt.ending]
    · exact absurd ⟨htexts, unnamed_ne_refuse hdefault⟩ hno

end Runs

def holdsTexts : Json → Bool
  | .object entries => entries.all (fun e => e.2.kind == "str")
  | _ => false

theorem holdsTexts_iff (document : Json) :
    holdsTexts document = true ↔ StringTable.HoldsTexts ⟨document⟩ := by
  have hkind : ∀ value : Json, value.kind = "str" ↔ ∃ text, value = .string text := by
    intro value
    cases value <;> simp [Json.kind]
  cases document with
  | object entries => simp [holdsTexts, StringTable.HoldsTexts, hkind]
  | _ => simp [holdsTexts, StringTable.HoldsTexts]

def recitalText (operand : String) : String :=
  "\x7b\"nodes\": \x7b\"Stage\": \x7b\"instructions\": [" ++
    "\x7b\"opcode\": \"RUN_LINE\", \"operands\": [" ++ operand ++ "]\x7d, " ++
    "\x7b\"opcode\": \"STOP\"\x7d]\x7d\x7d\x7d"

def verseText : String := "\x7b\"line:verse\": \"Ann: A verse\"\x7d"

def recitalFiles (operand : String) : FileTree := ⟨[
  ([], .folder), (["work"], .folder),
  (["work", "recital.json"], .file (recitalText operand).toUTF8.toList),
  (["work", "texts.json"], .file verseText.toUTF8.toList)]⟩

def recital : List String := ["lines", "recital.json", "--strings", "texts.json"]

def recitalRequest : Request :=
  ⟨.lines, "recital.json", { Settings.initial with strings := some (.text "texts.json") }⟩

theorem lines_break_at_mute_recital :
    ∃ p, Program.ofFile .standard ["work", "recital.json"]
        (recitalText "\"line:verse\"").toUTF8.toList = .ok p ∧
      ((run workplace recital (recitalFiles "\"line:verse\"")).ending =
          .returned (status p.analyse) ∨
        ∃ fault, p.Mute fault ∧ (run workplace recital (recitalFiles "\"line:verse\"")).ending =
          .broken (.lines (.content fault))) := by
  have harguments : (Invocation.ofArguments workplace.dropsMark recital).toOption.map id =
      some ⟨0, some recitalRequest⟩ := by
    decide +kernel
  have hprogram : (Program.ofFile .standard ["work", "recital.json"]
      (recitalText "\"line:verse\"").toUTF8.toList).toOption.map Program.size = some 1 := by
    decide +kernel
  have hdocument : (Json.read .standard (Text.unifyLines verseText.toList)).toOption.map
      holdsTexts = some true := by
    decide +kernel
  obtain ⟨invocation, hargs, rfl⟩ := exists_ok_of_map harguments
  obtain ⟨p, hp, -⟩ := exists_ok_of_map hprogram
  obtain ⟨document, hread, htexts⟩ := exists_ok_of_map hdocument
  have hprogramRead : (recitalFiles "\"line:verse\"").read ["work", "recital.json"] =
      .ok (recitalText "\"line:verse\"").toUTF8.toList := by
    decide +kernel
  have htableRead : (recitalFiles "\"line:verse\"").read ["work", "texts.json"] =
      .ok verseText.toUTF8.toList := by
    decide +kernel
  have hdecoded : Text.decodeUtf8 verseText.toUTF8.toList = .ok verseText.toList := by
    decide +kernel
  have htable : workplace.LoadsStrings (recitalFiles "\"line:verse\"") (some "texts.json")
      ⟨document⟩ :=
    .file (by decide) ⟨["work", "texts.json"], by decide +kernel, _, _, htableRead, hdecoded, rfl⟩
      hread
  have hbreak := (lines_break_at_mute hargs rfl).2 rfl rfl (by decide) _ _ ⟨document⟩
    (by decide +kernel) hprogramRead htable ((holdsTexts_iff document).mp htexts)
  exact ⟨p, hp, (hbreak.2.2 p hp).1⟩

def Outcome.failure? (o : Outcome) : Option Failure :=
  match o.ending with
  | .broken f => some f
  | _ => none

theorem exists_of_failure? {α : Type} {o : Outcome} {g : Failure → α} {a : α}
    (h : o.failure?.map g = some a) : ∃ f, o.ending = .broken f ∧ g f = a := by
  obtain ⟨ending, session⟩ := o
  cases ending with
  | broken f => exact ⟨f, rfl, Option.some.inj h⟩
  | _ => cases h

/-- A number is no text to show. The blocks are listed all the same, but line runs break off with
words of the tool. -/
theorem line_breaks_in_recital :
    (∃ f, (run workplace recital (recitalFiles "1")).ending = .broken f ∧ f.isReport = true ∧
      f.message = "[YA-1002] expected a string operand, got 1.0") ∧
    ∃ session, run workplace ["blocks", "recital.json"] (recitalFiles "1") =
      ⟨.returned 0, session⟩ := by
  have hlines : (run workplace recital (recitalFiles "1")).failure?.map
      (fun f => (f.isReport, f.message)) =
        some (true, "[YA-1002] expected a string operand, got 1.0") := by
    decide +kernel
  have hblocks : (run workplace ["blocks", "recital.json"] (recitalFiles "1")).returned?.map
      Prod.fst = some 0 := by
    decide +kernel
  obtain ⟨f, hf, hpair⟩ := exists_of_failure? hlines
  obtain ⟨hreport, hmessage⟩ := Prod.mk.inj hpair
  exact ⟨⟨f, hf, hreport, hmessage⟩, exists_session_of_returned? hblocks⟩

end Command

end DialogueFlow
