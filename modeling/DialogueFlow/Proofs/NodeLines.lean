import DialogueFlow.Proofs.Escapes
import DialogueFlow.Proofs.Reports
import DialogueFlow.Proofs.RoundTrip

namespace DialogueFlow

theorem Program.Keyed.flows_only {p q : Program} {name : String} (hp : p.Keyed) (hq : q.Keyed)
    (hpstop : p.analyse.stop = none) (hqstop : q.analyse.stop = none)
    (honly : q.nodes.entries = p.nodes.entries.filter (fun entry => entry.1 == name)) :
    q.analyse.flows.entries = p.analyse.flows.entries.filter (fun entry => entry.1 == name) := by
  have hvalues : q.nodes.values = p.nodes.values.filter (fun node => node.name == name) := by
    rw [Table.values, honly, hp.entries_eq, List.filter_map, List.map_map]
    exact List.map_id _
  rw [hq.flows_analyse, hp.flows_analyse, reached_eq_values hpstop, reached_eq_values hqstop,
    hvalues, List.filterMap_filter, List.filter_filterMap]
  refine congrArg (List.filterMap · _) (funext fun node => ?_)
  cases node.flow.toOption with
  | none => simp
  | some f => by_cases h : node.name == name <;> simp [Option.filter, h]

namespace LineRuns

variable {table : StringTable} {unnamed : Unnamed} {nodes : List (String × List Block)}
  {runs : List (List LineRecord)}

/-- There is a report on the nodes, and it has these runs. -/
def Gives (table : StringTable) (unnamed : Unnamed) (nodes : List (String × List Block))
    (runs : List (List LineRecord)) : Prop :=
  ∃ report, (collect table unnamed nodes).1 = .ok report ∧ report.runs = runs

theorem gives_iff : Gives table unnamed nodes runs ↔
    (collect table unnamed nodes).1.toOption.map LineReport.runs = some runs := by
  apply Iff.intro
  · rintro ⟨report, hr, rfl⟩
    rw [hr]
    rfl
  · exact exists_ok_of_map

instance (table : StringTable) (unnamed : Unnamed) (nodes : List (String × List Block))
    (runs : List (List LineRecord)) : Decidable (Gives table unnamed nodes runs) :=
  decidable_of_iff _ gives_iff.symm

theorem Gives.eq {runs' : List (List LineRecord)} (h : Gives table unnamed nodes runs)
    (h' : Gives table unnamed nodes runs') : runs = runs' := by
  obtain ⟨report, hr, rfl⟩ := h
  obtain ⟨report', hr', rfl⟩ := h'
  cases hr.symm.trans hr'
  rfl

theorem coupling_ne_nil (table : StringTable) (unnamed : Unnamed) (blocks : List Block) :
    Coupling ⟨blocks, table, unnamed⟩ ⟨blocks, table, unnamed⟩
      (fun run run' report _ => run' = run ∧ ∀ run ∈ report.runs, run ≠ []) := by
  apply coupling_self ⟨blocks, table, unnamed⟩
    (Q := fun _ report _ => ∀ run ∈ report.runs, run ≠ [])
  · intro run report _ r h
    rwa [LineReport.runs_credit]
  · intro run report _ h
    rw [LineReport.runs_close]
    cases run <;> simpa [or_imp, forall_and] using h

theorem Gives.ne_nil (h : Gives table unnamed nodes runs) : ∀ run ∈ runs, run ≠ [] := by
  obtain ⟨report, hr, rfl⟩ := h
  obtain ⟨⟨st, hrun, rfl⟩, -⟩ := collect_eq_ok_iff.mp hr
  have hcoupled := coupled_walkNodes (coupling_ne_nil table unnamed) nodes
  obtain ⟨_, t, _, _, ht, -, -, hall⟩ | ⟨fault, t, _, ht, -⟩ :=
    hcoupled ⟨.empty, [], []⟩ ⟨.empty, [], []⟩ ⟨rfl, by simp [LineReport.empty]⟩
  · cases ht.symm.trans hrun
    exact hall
  · cases ht.symm.trans hrun

/-- A walk that goes on after a report adds the runs that it would give on its own. -/
theorem gives_append_iff {first second : List (String × List Block)} :
    Gives table unnamed (first ++ second) runs ↔
      ∃ before after, Gives table unnamed first before ∧ Gives table unnamed second after ∧
        runs = before ++ after := by
  have hcoupled := fun st : State => coupled_walkNodes (coupling_joins st.report table unnamed)
    second st ⟨.empty, [], []⟩ ⟨rfl, .empty st.report⟩
  apply Iff.intro
  · rintro ⟨report, hr, rfl⟩
    obtain ⟨⟨st, hrun, rfl⟩, hsize⟩ := collect_eq_ok_iff.mp hr
    obtain ⟨mid, hfirst, hsecond⟩ := exists_of_run_forM_append hrun
    obtain ⟨_, t, _, t', ht, ht', -, hjoins⟩ | ⟨fault, t, _, ht, -⟩ := hcoupled mid
    · cases ht.symm.trans hsecond
      exact ⟨mid.report.runs, t'.report.runs,
        ⟨_, collect_eq_ok_iff.mpr ⟨⟨mid, hfirst, rfl⟩, hsize⟩, rfl⟩,
        ⟨_, collect_eq_ok_iff.mpr ⟨⟨t', ht', rfl⟩, hsize⟩, rfl⟩, hjoins.runs⟩
    · cases ht.symm.trans hsecond
  · rintro ⟨_, _, ⟨before, hb, rfl⟩, ⟨after, ha, rfl⟩, rfl⟩
    obtain ⟨⟨st, hfirst, rfl⟩, hsize⟩ := collect_eq_ok_iff.mp hb
    obtain ⟨⟨st', hsecond, rfl⟩, -⟩ := collect_eq_ok_iff.mp ha
    obtain ⟨_, t, _, t', ht, ht', -, hjoins⟩ | ⟨fault, _, t', -, ht'⟩ := hcoupled st
    · cases ht'.symm.trans hsecond
      have hboth := (run_forM_append hfirst).trans ht
      exact ⟨_, collect_eq_ok_iff.mpr ⟨⟨t, hboth, rfl⟩, hsize⟩, hjoins.runs⟩
    · cases ht'.symm.trans hsecond

theorem gives_cons_iff {node : String × List Block} :
    Gives table unnamed (node :: nodes) runs ↔
      ∃ before after, Gives table unnamed [node] before ∧ Gives table unnamed nodes after ∧
        runs = before ++ after := by
  rw [← List.singleton_append, gives_append_iff]

theorem Gives.exists_filter (keep : String × List Block → Bool)
    (h : Gives table unnamed nodes runs) :
    ∃ kept, Gives table unnamed (nodes.filter keep) kept ∧ kept.Sublist runs := by
  induction nodes generalizing runs with
  | nil => exact ⟨runs, h, .refl runs⟩
  | cons node nodes ih =>
    obtain ⟨before, after, hnode, hnodes, rfl⟩ := gives_cons_iff.mp h
    obtain ⟨kept, hkept, hsub⟩ := ih hnodes
    by_cases hkeep : keep node = true
    · rw [List.filter_cons_of_pos hkeep]
      exact ⟨before ++ kept, gives_cons_iff.mpr ⟨before, kept, hnode, hkept, rfl⟩,
        hsub.append_left before⟩
    · rw [List.filter_cons_of_neg hkeep]
      exact ⟨kept, hkept, hsub.trans (List.sublist_append_right before after)⟩

variable {keep : String × List Block → Bool}

theorem gives_of_silent (h : Gives table unnamed (nodes.filter keep) runs)
    (hsilent : ∀ node ∈ nodes, keep node = false → Gives table unnamed [node] []) :
    Gives table unnamed nodes runs := by
  induction nodes generalizing runs with
  | nil => exact h
  | cons node nodes ih =>
    obtain ⟨hnode, hnodes⟩ := List.forall_mem_cons.mp hsilent
    by_cases hkeep : keep node = true
    · rw [List.filter_cons_of_pos hkeep] at h
      obtain ⟨before, after, hbefore, hafter, rfl⟩ := gives_cons_iff.mp h
      exact gives_cons_iff.mpr ⟨before, after, hbefore, ih hafter hnodes, rfl⟩
    · rw [List.filter_cons_of_neg hkeep] at h
      exact gives_cons_iff.mpr ⟨[], runs, hnode (by simpa using hkeep), ih h hnodes, rfl⟩

theorem silent_of_gives (h : Gives table unnamed (nodes.filter keep) runs)
    (hall : Gives table unnamed nodes runs) :
    ∀ node ∈ nodes, keep node = false → Gives table unnamed [node] [] := by
  induction nodes generalizing runs with
  | nil => simp
  | cons node nodes ih =>
    obtain ⟨before, after, hbefore, hafter, rfl⟩ := gives_cons_iff.mp hall
    rw [List.forall_mem_cons]
    by_cases hkeep : keep node = true
    · rw [List.filter_cons_of_pos hkeep] at h
      obtain ⟨_, kept, hbefore', hkept, heq⟩ := gives_cons_iff.mp h
      cases hbefore.eq hbefore'
      cases List.append_cancel_left heq
      exact ⟨by simp [hkeep], ih hkept hafter⟩
    · rw [List.filter_cons_of_neg hkeep] at h
      -- What stays of the other nodes is as long as all of it, so this node has no runs.
      obtain ⟨kept, hkept, hsub⟩ := hafter.exists_filter keep
      cases hkept.eq h
      have hlength := hsub.length_le
      rw [List.length_append] at hlength
      have hnil : before = [] := List.eq_nil_of_length_eq_zero (by omega)
      subst hnil
      exact ⟨fun _ => hbefore, ih h hafter⟩

end LineRuns

namespace Command

open LineRuns

def runsText (runs : List (List LineRecord)) : String := linesText { LineReport.empty with runs }

def tabs (text : String) : Nat := text.toList.count '\t'

theorem tabs_append (s t : String) : tabs (s ++ t) = tabs s + tabs t := by
  simp [tabs]

theorem tabs_intercalate (s : String) (parts : List String) :
    tabs ("\n".intercalate (s :: parts)) = tabs s + tabs ("\n".intercalate parts) := by
  cases parts with
  | nil => simp [tabs]
  | cons t parts =>
    rw [String.intercalate_cons_of_ne_nil (by simp), tabs_append, tabs_append]
    simp [tabs]

theorem tabs_intercalate_append (first second : List String) :
    tabs ("\n".intercalate (first ++ second)) =
      tabs ("\n".intercalate first) + tabs ("\n".intercalate second) := by
  induction first with
  | nil => simp [tabs]
  | cons s first ih => rw [List.cons_append, tabs_intercalate, ih, tabs_intercalate, Nat.add_assoc]

theorem tabs_runsText_cons (run : List LineRecord) (runs : List (List LineRecord)) :
    tabs (runsText (run :: runs)) = tabs (runsText [run]) + tabs (runsText runs) := by
  simp only [runsText, linesText, List.flatMap_cons, List.flatMap_nil, tabs_intercalate_append]
  simp [tabs]

theorem tabs_line_pos (id character text : String) : 0 < tabs s!"{id}\t{character}\t{text}" := by
  have hmem : '\t' ∈ (id ++ "\t" ++ character ++ "\t" ++ text).toList := by simp
  exact List.count_pos_iff.mpr hmem

theorem tabs_runsText_pos {run : List LineRecord} (h : run ≠ []) : 0 < tabs (runsText [run]) := by
  obtain ⟨r, rest, rfl⟩ := List.exists_cons_of_ne_nil h
  simp only [runsText, linesText, List.flatMap_cons, List.flatMap_nil, List.map_cons,
    List.cons_append, tabs_intercalate]
  exact Nat.add_pos_left (tabs_line_pos _ _ _) _

theorem tabs_le_of_sublist {kept runs : List (List LineRecord)} (h : kept.Sublist runs) :
    tabs (runsText kept) ≤ tabs (runsText runs) := by
  induction h with
  | slnil => exact Nat.le_refl _
  | @cons _ runs run _ ih =>
    have hruns := tabs_runsText_cons run runs
    omega
  | @cons_cons kept runs run _ ih =>
    have hkept := tabs_runsText_cons run kept
    have hruns := tabs_runsText_cons run runs
    omega

theorem eq_of_tabs_eq {kept runs : List (List LineRecord)} (h : kept.Sublist runs)
    (hne : ∀ run ∈ runs, run ≠ []) (ht : tabs (runsText runs) = tabs (runsText kept)) :
    runs = kept := by
  induction h with
  | slnil => rfl
  | @cons _ runs run hsub _ =>
    have hpos := tabs_runsText_pos (hne run (by simp))
    have hle := tabs_le_of_sublist hsub
    have hruns := tabs_runsText_cons run runs
    omega
  | @cons_cons kept runs run _ ih =>
    have hkept := tabs_runsText_cons run kept
    have hruns := tabs_runsText_cons run runs
    rw [ih (fun r hr => hne r (by simp [hr])) (by omega)]

theorem tabs_endLine (text : String) : tabs (endLine text) = tabs text := by
  obtain h | h := endLine_eq text
  · rw [h]
  · rw [h, tabs_append]
    rfl

/-- A text with a run left out is another text. -/
theorem endLine_runsText_eq_iff {kept runs : List (List LineRecord)} (h : kept.Sublist runs)
    (hne : ∀ run ∈ runs, run ≠ []) :
    endLine (runsText runs) = endLine (runsText kept) ↔ runs = kept := by
  apply Iff.intro
  · intro heq
    apply eq_of_tabs_eq h hne
    rw [← tabs_endLine, heq, tabs_endLine]
  · intro heq
    rw [heq]

section Runs

variable {e : Environment} {files : FileTree} {arguments : List String} {invocation : Invocation}
  {r : Request} {p q : Program} {name : String}

def nodeBlocks (a : Analysis) : List (String × List Block) :=
  a.flows.entries.map (fun entry => (entry.1, entry.2.blocks))

theorem makes_lines_iff {a : Analysis} {settings : Settings} {table : StringTable}
    (ht : e.LoadsStrings files (settings.strings.bind Value.text?) table) (text : String) :
    (∃ body, e.Makes files a settings .lines body ∧ text = endLine body) ↔
      ∃ runs, Gives table settings.unnamed (nodeBlocks a) runs ∧
        text = endLine (runsText runs) := by
  apply Iff.intro
  · rintro ⟨_, _ | _ | _ | _ | @⟨table', report, ht', hreport⟩, rfl⟩
    cases (finds_loadStrings ⟨e, 0⟩ _).unique ht ht'
    exact ⟨report.runs, ⟨report, hreport, rfl⟩, rfl⟩
  · rintro ⟨_, ⟨report, hreport, rfl⟩, rfl⟩
    exact ⟨linesText report, .lines ht hreport, rfl⟩

theorem nodeBlocks_only {raw raw' : String} (hp : e.Loads files raw p) (hq : e.Loads files raw' q)
    (honly : q.nodes.entries = p.nodes.entries.filter (fun entry => entry.1 == name)) :
    nodeBlocks q.analyse = (nodeBlocks p.analyse).filter (fun node => node.1 == name) := by
  obtain ⟨_, _, hp⟩ := hp
  obtain ⟨_, _, hq⟩ := hq
  rw [nodeBlocks, (Program.keyed_ofText hp).flows_only (Program.keyed_ofText hq)
    (Program.stop_ofText hp) (Program.stop_ofText hq) honly, nodeBlocks, List.filter_map]
  rfl

theorem texts_filter_iff (table : StringTable) (unnamed : Unnamed)
    (nodes : List (String × List Block)) (keep : String × List Block → Bool) :
    (∀ text, (∃ runs, Gives table unnamed nodes runs ∧ text = endLine (runsText runs)) ↔
      ∃ kept, Gives table unnamed (nodes.filter keep) kept ∧ text = endLine (runsText kept)) ↔
      ((∃ kept, Gives table unnamed (nodes.filter keep) kept) →
        ∀ node ∈ nodes, keep node = false → Gives table unnamed [node] []) := by
  apply Iff.intro
  · rintro hsame ⟨kept, hkept⟩
    obtain ⟨runs, hruns, heq⟩ := (hsame _).mpr ⟨kept, hkept, rfl⟩
    obtain ⟨kept', hkept', hsub⟩ := hruns.exists_filter keep
    cases hkept.eq hkept'
    cases (endLine_runsText_eq_iff hsub hruns.ne_nil).mp heq.symm
    exact silent_of_gives hkept hruns
  · intro hsilent text
    apply Iff.intro
    · rintro ⟨runs, hruns, rfl⟩
      obtain ⟨kept, hkept, -⟩ := hruns.exists_filter keep
      cases hruns.eq (gives_of_silent hkept (hsilent ⟨kept, hkept⟩))
      exact ⟨runs, hkept, rfl⟩
    · rintro ⟨kept, hkept, rfl⟩
      exact ⟨kept, gives_of_silent hkept (hsilent ⟨kept, hkept⟩), rfl⟩

def Environment.Accepts (e : Environment) (files : FileTree) (target : Option Value) : Prop :=
  ∃ session, write ⟨e, 0⟩ target "" ⟨files, "", ""⟩ = .ok () session

/-- The run is complete and has written the text to the target. -/
def Environment.Writes (e : Environment) (arguments : List String) (files : FileTree)
    (target : Option Value) (text : String) : Prop :=
  ∃ code session, run e arguments files = ⟨.returned code, session⟩ ∧ code ≠ exitUnusable ∧
    e.Written files text target session

theorem toList_loop (b : ByteArray) (i : Nat) (done : List UInt8) :
    ByteArray.toList.loop b i done = done.reverse ++ b.data.toList.drop i := by
  fun_induction ByteArray.toList.loop b i done with
  | case1 i done hi ih =>
    have hlt : i < b.data.toList.length := by simpa using hi
    have hget : b.get! i = b.data.toList[i] := getElem!_pos b.data i (by simpa using hi)
    rw [ih, List.drop_eq_getElem_cons hlt, hget]
    simp
  | case2 i done hi =>
    have hle : b.data.toList.length ≤ i := by simpa using hi
    simp [List.drop_eq_nil_of_le hle]

theorem eq_of_toUTF8 {text text' : String} (h : text.toUTF8.toList = text'.toUTF8.toList) :
    text = text' := by
  rw [ByteArray.toList, ByteArray.toList, toList_loop, toList_loop] at h
  exact String.toByteArray_inj.mp (ByteArray.ext (Array.toList_inj.mp (by simpa using h)))

theorem Environment.Written.eq {text text' : String} {target : Option Value} {session : Session}
    (h : e.Written files text target session) (h' : e.Written files text' target session) :
    text = text' := by
  cases h with
  | output =>
    cases h'
    rfl
  | hyphen =>
    cases h' with
    | hyphen => rfl
    | file hraw => exact absurd rfl hraw
  | file hraw hpath hread =>
    cases h' with
    | hyphen => exact absurd rfl hraw
    | file _ hpath' hread' =>
      cases hpath.symm.trans hpath'
      exact eq_of_toUTF8 (Except.ok.inj (hread.symm.trans hread'))

theorem changeFiles_of_run {change : FileTree.Change} {s : Session} {after : FileTree}
    (h : change.run s.files = .ok () after) :
    changeFiles change s = .ok () { s with files := after } := by
  have h : change s.files = .ok () after := h
  rw [changeFiles, h]

theorem exists_write {path : Path} {content : List UInt8} {t t' : FileTree}
    (h : (FileTree.write path content).run t = .ok () t') (content' : List UInt8) :
    ∃ t', (FileTree.write path content').run t = .ok () t' := by
  cases hl : t.locate path with
  | error f => simp [FileTree.write, hl] at h
  | ok found =>
    cases found with
    | none => simp [FileTree.write, hl]
    | some entry =>
      cases entry with
      | folder => simp [FileTree.write, hl] at h
      | file old => simp [FileTree.write, hl]

/-- Whether a text can be written depends on neither the text nor the log. -/
theorem exists_write_of_write {c d : Context} {target : Option Value} {text : String}
    {s s' start : Session} (henv : d.environment = c.environment) (hfiles : start.files = s.files)
    (h : write c target text s = .ok () s') (text' : String) :
    ∃ done, write d target text' start = .ok () done := by
  cases target with
  | none => exact ⟨_, rfl⟩
  | some value =>
    cases value with
    | nothing => cases h
    | text raw =>
      by_cases hraw : raw = "-"
      · subst hraw
        exact ⟨_, rfl⟩
      · simp only [write, if_neg hraw] at h ⊢
        obtain ⟨path, s₁, hpath, h⟩ := bind_eq_ok h
        obtain ⟨_, s₂, hmake, h⟩ := bind_eq_ok h
        obtain ⟨folders, hfolder, rfl⟩ := changeFiles_eq_ok hmake
        obtain ⟨after, hwrite, rfl⟩ := changeFiles_eq_ok h
        obtain ⟨⟨hfiles₁, -⟩, hfound⟩ := (finds_orBreak _ _).ok hpath
        obtain ⟨s₃, hpath', hfiles₃, -⟩ := (finds_orBreak Failure.path _).eq_ok
          (s := start) ((hfound path).mpr rfl)
        rw [hfiles₁, ← hfiles, ← hfiles₃] at hfolder
        obtain ⟨after', hwrite'⟩ := exists_write hwrite (endLine text').toUTF8.toList
        rw [resolve, henv, bind_of_eq_ok hpath', bind_of_eq_ok (changeFiles_of_run hfolder)]
        exact ⟨_, changeFiles_of_run hwrite'⟩

/-- A run writes the text that its subcommand makes, if the target takes it. -/
theorem writes_iff (hargs : Invocation.ofArguments e.dropsMark arguments = .ok invocation)
    (hr : invocation.request = some r) (hp : e.Loads files r.program p) (text : String) :
    e.Writes arguments files r.settings.output text ↔ e.Accepts files r.settings.output ∧
      ∃ body, e.Makes files p.analyse r.settings r.command body ∧ text = endLine body := by
  apply Iff.intro
  · rintro ⟨code, session, hrun, hcode, hwritten⟩
    obtain ⟨hnone, -⟩ | ⟨r', hr', hperform | hperform⟩ := perform_of_run hargs hrun
    · cases hr.symm.trans hnone
    · cases hr.symm.trans hr'
      rw [perform_eq] at hperform
      obtain ⟨found, s₁, hlook, hperform⟩ := bind_eq_ok hperform
      obtain ⟨_, s₂, hwrite, hperform⟩ := bind_eq_ok hperform
      cases hperform
      obtain ⟨⟨hfiles, hout⟩, hfound⟩ := (finds_look _ r).ok hlook
      obtain ⟨p', hp', -, hmakes⟩ := (hfound found).mpr rfl
      cases hp.eq hp'
      have hwritten' := written_of_write hout hwrite
      rw [hfiles] at hwritten'
      exact ⟨exists_write_of_write rfl hfiles.symm hwrite "", found.2, hmakes,
        hwritten.eq hwritten'⟩
    · exact absurd (unusable_of_perform hperform).1 hcode
  · rintro ⟨⟨_, hwrite⟩, body, hmakes, rfl⟩
    obtain ⟨s₁, hlook, hfiles, hout⟩ := (finds_look ⟨e, invocation.verbosity⟩ r).eq_ok
      (s := ⟨files, "", ""⟩) (a := (p.analyse, body)) ⟨p, hp, rfl, hmakes⟩
    obtain ⟨session, hwrite⟩ := exists_write_of_write (d := ⟨e, invocation.verbosity⟩) rfl hfiles
      hwrite body
    have hperform : perform ⟨e, invocation.verbosity⟩ r ⟨files, "", ""⟩ =
        .ok (status p.analyse) session := by
      rw [perform_eq, bind_of_eq_ok hlook, bind_of_eq_ok hwrite]
      rfl
    have hwritten := written_of_write hout hwrite
    rw [hfiles] at hwritten
    refine ⟨_, _, run_of_perform_ok hargs hr hperform, ?_, hwritten⟩
    obtain ⟨hstatus, -⟩ | ⟨hstatus, -⟩ := status_eq hp <;> simp [hstatus, exitUnusable]

theorem endLine_ne_empty (text : String) : endLine text ≠ "" := by
  intro h
  have hlast := getLast?_endLine text
  rw [h] at hlast
  cases hlast

/-- The output stays empty if there is no text. -/
theorem out_iff (hargs : Invocation.ofArguments e.dropsMark arguments = .ok invocation)
    (hr : invocation.request = some r) (hout : r.settings.output = none)
    (hp : e.Loads files r.program p) (text : String) :
    ((run e arguments files).session.out = text ∧ text ≠ "") ↔
      ∃ body, e.Makes files p.analyse r.settings r.command body ∧ text = endLine body := by
  have hshown : ∀ body, e.Makes files p.analyse r.settings r.command body →
      (run e arguments files).session.out = endLine body := by
    intro body hbody
    obtain ⟨err, h⟩ := perform_of_makes (c := ⟨e, invocation.verbosity⟩) (s := ⟨files, "", ""⟩)
      hout hp hbody
    rw [run_of_perform_ok hargs hr h, String.empty_append]
  apply Iff.intro
  · rintro ⟨rfl, hne⟩
    by_cases hmakes : ∃ body, e.Makes files p.analyse r.settings r.command body
    · obtain ⟨body, hbody⟩ := hmakes
      exact ⟨body, hbody, hshown body hbody⟩
    · obtain ⟨halt, err, h⟩ := perform_of_not_makes (c := ⟨e, invocation.verbosity⟩)
        (s := ⟨files, "", ""⟩) hp (not_exists.mp hmakes)
      rw [run_of_perform_error hargs hr h] at hne
      exact absurd rfl hne
  · rintro ⟨body, hbody, rfl⟩
    exact ⟨hshown body hbody, endLine_ne_empty body⟩

theorem eq_iff_same_texts {out out' : String} :
    out = out' ↔ ∀ text, (out = text ∧ text ≠ "") ↔ (out' = text ∧ text ≠ "") := by
  apply Iff.intro
  · rintro rfl text
    rfl
  · intro h
    by_cases hout : out = ""
    · by_cases hout' : out' = ""
      · rw [hout, hout']
      · exact ((h out').mpr ⟨rfl, hout'⟩).1
    · exact ((h out).mp ⟨rfl, hout⟩).1.symm

section Lines

variable {table : StringTable}
  (hargs : Invocation.ofArguments e.dropsMark arguments = .ok invocation)
  (hr : invocation.request = some r) (hlines : r.command = .lines)
  (hp : e.Loads files r.program p)
  (ht : e.LoadsStrings files (r.settings.strings.bind Value.text?) table)

include hargs hr hlines hp ht

theorem writes_lines_iff (text : String) :
    e.Writes arguments files r.settings.output text ↔ e.Accepts files r.settings.output ∧
      ∃ runs, Gives table r.settings.unnamed (nodeBlocks p.analyse) runs ∧
        text = endLine (runsText runs) := by
  rw [writes_iff hargs hr hp, hlines, makes_lines_iff ht]

theorem exists_writes_lines_iff :
    (∃ text, e.Writes arguments files r.settings.output text) ↔
      e.Accepts files r.settings.output ∧
        ∃ runs, Gives table r.settings.unnamed (nodeBlocks p.analyse) runs := by
  simp only [writes_lines_iff hargs hr hlines hp ht, exists_and_left]
  rw [exists_comm]
  simp only [exists_and_left, exists_eq, and_true]

theorem out_lines_iff (hout : r.settings.output = none) (text : String) :
    ((run e arguments files).session.out = text ∧ text ≠ "") ↔
      ∃ runs, Gives table r.settings.unnamed (nodeBlocks p.analyse) runs ∧
        text = endLine (runsText runs) := by
  rw [out_iff hargs hr hout hp, hlines, makes_lines_iff ht]

end Lines

/-- Line runs are those of the whole program, whichever node is asked for. So what is written is
what one node would show in a program of its own exactly if no other node has runs, as long as there
is something to write for that node. -/
theorem lines_of_node_iff {arguments' : List String} {invocation' : Invocation} {alone : String}
    {table : StringTable} (hargs : Invocation.ofArguments e.dropsMark arguments = .ok invocation)
    (hr : invocation.request = some r) (hlines : r.command = .lines)
    (hargs' : Invocation.ofArguments e.dropsMark arguments' = .ok invocation')
    (hr' : invocation'.request = some ⟨.lines, alone, { r.settings with node := none }⟩)
    (hp : e.Loads files r.program p) (hq : e.Loads files alone q)
    (honly : q.nodes.entries = p.nodes.entries.filter (fun entry => entry.1 == name))
    (ht : e.LoadsStrings files (r.settings.strings.bind Value.text?) table) :
    ((∀ text, e.Writes arguments files r.settings.output text ↔
        e.Writes arguments' files r.settings.output text) ↔
      ((∃ text, e.Writes arguments' files r.settings.output text) →
        ∀ node ∈ nodeBlocks p.analyse, node.1 ≠ name →
          Gives table r.settings.unnamed [node] [])) ∧
    (r.settings.output = none →
      ((run e arguments files).session.out = (run e arguments' files).session.out ↔
        ((∃ runs, Gives table r.settings.unnamed (nodeBlocks q.analyse) runs) →
          ∀ node ∈ nodeBlocks p.analyse, node.1 ≠ name →
            Gives table r.settings.unnamed [node] []))) := by
  have hsame := texts_filter_iff table r.settings.unnamed (nodeBlocks p.analyse)
    (fun node => node.1 == name)
  rw [← nodeBlocks_only hp hq honly] at hsame
  simp only [beq_eq_false_iff_ne] at hsame
  refine ⟨?_, fun hout => ?_⟩
  · have hwhole := writes_lines_iff hargs hr hlines hp ht
    have halone := writes_lines_iff hargs' hr' rfl hq ht
    have hany := exists_writes_lines_iff hargs' hr' rfl hq ht
    by_cases haccepts : e.Accepts files r.settings.output
    · rw [and_iff_right haccepts] at hany
      rw [hany]
      refine Iff.trans (forall_congr' (fun text => ?_)) hsame
      rw [hwhole, halone, and_iff_right haccepts, and_iff_right haccepts]
      exact Iff.rfl
    · refine iff_of_true (fun text => iff_of_false ?_ ?_) (fun h => absurd (hany.mp h).1 haccepts)
      · exact fun h => haccepts ((hwhole text).mp h).1
      · exact fun h => haccepts ((halone text).mp h).1
  · rw [eq_iff_same_texts]
    simp only [out_lines_iff hargs hr hlines hp ht hout, out_lines_iff hargs' hr' rfl hq ht hout]
    exact hsame

end Runs

/-- Two nodes. The second one rings a bell or calls for it, as its first operation is. -/
def townText (opcode : String) : String :=
  "\x7b\"nodes\": \x7b" ++
    "\"Inn\": \x7b\"instructions\": [" ++
      "\x7b\"opcode\": \"RUN_LINE\", \"operands\": [\"line:inn\"]\x7d, " ++
      "\x7b\"opcode\": \"STOP\"\x7d]\x7d, " ++
    "\"Quay\": \x7b\"instructions\": [" ++
      "\x7b\"opcode\": \"" ++ opcode ++ "\", \"operands\": [\"bell\"]\x7d, " ++
      "\x7b\"opcode\": \"STOP\"\x7d]\x7d\x7d\x7d"

def innText : String :=
  "\x7b\"nodes\": \x7b" ++
    "\"Inn\": \x7b\"instructions\": [" ++
      "\x7b\"opcode\": \"RUN_LINE\", \"operands\": [\"line:inn\"]\x7d, " ++
      "\x7b\"opcode\": \"STOP\"\x7d]\x7d\x7d\x7d"

def townFiles (opcode : String) : FileTree := ⟨[
  ([], .folder), (["work"], .folder),
  (["work", "town.json"], .file (townText opcode).toUTF8.toList),
  (["work", "inn.json"], .file innText.toUTF8.toList)]⟩

def innLines : List String := ["lines", "town.json", "--node", "Inn"]

def innAlone : List String := ["lines", "inn.json"]

def saved : List String := ["-o", "out/inn.txt"]

def innEntries : List (String × Node) :=
  [("Inn", ⟨"Inn", [⟨.runLine, [.string "line:inn"]⟩, ⟨.stop, []⟩], ∅, ∅⟩)]

theorem exists_loads_town {β : Type} {opcode : String} {g : Program → β} {b : β}
    (h : (Program.ofFile .standard ["work", "town.json"]
      (townText opcode).toUTF8.toList).toOption.map g = some b) :
    ∃ p, workplace.Loads (townFiles opcode) "town.json" p ∧ g p = b := by
  have hpath : Path.resolve workplace.folder workplace.homes "town.json" =
      .ok ["work", "town.json"] := by
    decide +kernel
  obtain ⟨p, hp, h⟩ := exists_ok_of_map h
  exact ⟨p, loads_of_ofFile hpath rfl hp, h⟩

theorem exists_loads_inn (opcode : String) : ∃ q,
    workplace.Loads (townFiles opcode) "inn.json" q ∧ q.nodes.entries = innEntries := by
  have hpath : Path.resolve workplace.folder workplace.homes "inn.json" =
      .ok ["work", "inn.json"] := by
    decide +kernel
  have hentries : (Program.ofFile .standard ["work", "inn.json"]
      innText.toUTF8.toList).toOption.map (fun q => q.nodes.entries) = some innEntries := by
    decide +kernel
  obtain ⟨q, hq, hentries⟩ := exists_ok_of_map hentries
  exact ⟨q, loads_of_ofFile hpath rfl hq, hentries⟩

theorem exists_written {e : Environment} {arguments : List String} {files : FileTree}
    {invocation : Invocation} {r : Request}
    (hargs : Invocation.ofArguments e.dropsMark arguments = .ok invocation)
    (hr : invocation.request = some r)
    (h : (run e arguments files).returned?.map Prod.fst = some exitOk) :
    ∃ text, e.Writes arguments files r.settings.output text := by
  obtain ⟨session, hrun⟩ := exists_session_of_returned? h
  obtain ⟨hnone, -⟩ | ⟨r', hr', hperform | hperform⟩ := perform_of_run hargs hrun
  · cases hr.symm.trans hnone
  · cases hr.symm.trans hr'
    obtain ⟨_, text, hdone, -⟩ := completes_of_perform hperform
    exact ⟨text, exitOk, session, hrun, by decide, hdone.written⟩
  · exact absurd (unusable_of_perform hperform).1 (by decide)

theorem ofArguments_inn (rest : List String) (output : Option Value)
    (h : (rest, output) ∈ [([], none), (saved, some (.text "out/inn.txt"))]) :
    Invocation.ofArguments workplace.dropsMark (innLines ++ rest) = .ok ⟨0, some ⟨.lines,
        "town.json", { Settings.initial with node := some (.text "Inn"), output }⟩⟩ ∧
      Invocation.ofArguments workplace.dropsMark (innAlone ++ rest) = .ok ⟨0, some ⟨.lines,
        "inn.json", { Settings.initial with output }⟩⟩ := by
  have hall : ∀ asked ∈ [([], none), (saved, some (Value.text "out/inn.txt"))],
      (Invocation.ofArguments workplace.dropsMark (innLines ++ asked.1)).toOption.map id =
        some ⟨0, some ⟨.lines, "town.json", { Settings.initial with
          node := some (.text "Inn"), output := asked.2 }⟩⟩ ∧
      (Invocation.ofArguments workplace.dropsMark (innAlone ++ asked.1)).toOption.map id =
        some ⟨0, some ⟨.lines, "inn.json", { Settings.initial with output := asked.2 }⟩⟩ := by
    decide +kernel
  obtain ⟨hlines, halone⟩ := hall (rest, output) h
  obtain ⟨_, hlines, rfl⟩ := exists_ok_of_map hlines
  obtain ⟨_, halone, rfl⟩ := exists_ok_of_map halone
  exact ⟨hlines, halone⟩

/-- The second node is silent if the bell rings by a command. -/
theorem lines_of_node_iff_town :
    ∃ p q, workplace.Loads (townFiles "RUN_COMMAND") "town.json" p ∧
      workplace.Loads (townFiles "RUN_COMMAND") "inn.json" q ∧
      q.nodes.entries = p.nodes.entries.filter (fun entry => entry.1 == "Inn") ∧
      p.analyse.flows.keys = ["Inn", "Quay"] ∧
      (run workplace innLines (townFiles "RUN_COMMAND")).session.out =
        (run workplace innAlone (townFiles "RUN_COMMAND")).session.out ∧
      ∃ text, ∀ arguments ∈ [innAlone ++ saved, innLines ++ saved],
        workplace.Writes arguments (townFiles "RUN_COMMAND") (some (.text "out/inn.txt")) text := by
  have htown : (Program.ofFile .standard ["work", "town.json"]
      (townText "RUN_COMMAND").toUTF8.toList).toOption.map (fun p : Program =>
        (p.nodes.entries.filter (fun entry => entry.1 == "Inn"), p.analyse.flows.keys,
          decide (∀ node ∈ nodeBlocks p.analyse, node.1 ≠ "Inn" →
            Gives .empty .keep [node] []))) = some (innEntries, ["Inn", "Quay"], true) := by
    decide +kernel
  have hcode : (run workplace (innAlone ++ saved)
      (townFiles "RUN_COMMAND")).returned?.map Prod.fst = some exitOk := by
    decide +kernel
  obtain ⟨p, hp, htown⟩ := exists_loads_town htown
  obtain ⟨q, hq, hentries⟩ := exists_loads_inn "RUN_COMMAND"
  obtain ⟨hinn, hkeys, hsilent⟩ : p.nodes.entries.filter (fun entry => entry.1 == "Inn") =
      innEntries ∧ p.analyse.flows.keys = ["Inn", "Quay"] ∧ _ := by
    simpa only [Prod.mk.injEq] using htown
  have hsilent := of_decide_eq_true hsilent
  have honly := hentries.trans hinn.symm
  obtain ⟨hargs, hargs'⟩ := ofArguments_inn [] none (by decide)
  obtain ⟨hsave, hsave'⟩ := ofArguments_inn saved (some (.text "out/inn.txt")) (by decide)
  obtain ⟨text, htext⟩ := exists_written hsave' rfl hcode
  have hout := ((lines_of_node_iff hargs rfl rfl hargs' rfl hp hq honly .absent).2 rfl).mpr
    (fun _ => hsilent)
  have hsame := (lines_of_node_iff hsave rfl rfl hsave' rfl hp hq honly .absent).1.mpr
    (fun _ => hsilent)
  exact ⟨p, q, hp, hq, honly, hkeys, hout, text, by simpa using ⟨htext, (hsame text).mpr htext⟩⟩

theorem quay_shown_for_inn :
    ∃ p q, workplace.Loads (townFiles "RUN_LINE") "town.json" p ∧
      workplace.Loads (townFiles "RUN_LINE") "inn.json" q ∧
      q.nodes.entries = p.nodes.entries.filter (fun entry => entry.1 == "Inn") ∧
      "Inn" ∈ p.analyse.flows.keys ∧
      (run workplace innLines (townFiles "RUN_LINE")).session.out =
        "line:inn\tNO CHAR\t\n\nbell\tNO CHAR\t\n" ∧
      (run workplace innAlone (townFiles "RUN_LINE")).session.out =
        "line:inn\tNO CHAR\t\n" := by
  have htown : (Program.ofFile .standard ["work", "town.json"]
      (townText "RUN_LINE").toUTF8.toList).toOption.map (fun p =>
        (p.nodes.entries.filter (fun entry => entry.1 == "Inn"), p.analyse.flows.keys)) =
          some (innEntries, ["Inn", "Quay"]) := by
    decide +kernel
  obtain ⟨p, hp, htown⟩ := exists_loads_town htown
  obtain ⟨q, hq, hentries⟩ := exists_loads_inn "RUN_LINE"
  obtain ⟨hinn, hkeys⟩ := Prod.mk.inj htown
  refine ⟨p, q, hp, hq, hentries.trans hinn.symm, ?_, ?_, ?_⟩
  · rw [hkeys]
    decide
  · decide +kernel
  · decide +kernel

end Command

end DialogueFlow
