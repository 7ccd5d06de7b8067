import DialogueFlow.Proofs.Escapes

namespace DialogueFlow.Command

section Runs

variable {e : Environment} {files : FileTree} {arguments : List String} {invocation : Invocation}
  {r : Request} {p : Program} {name : String}

def Request.DrawsBlocks (r : Request) : Prop :=
  r.command = .dot ∧ r.settings.nodesOnly = false ∨ r.command = .mermaid

/-- The run says that it is unusable, and leaves no trace but in the log. -/
def Refuses (o : Outcome) (files : FileTree) : Prop :=
  ∃ err, o = ⟨.returned exitUnusable, ⟨files, "", err⟩⟩

variable {c : Context} {s : Session} {a : Analysis} {flow : Flow}

theorem compose_of_unknown (hdraws : r.DrawsBlocks) (hnode : r.settings.node = some (.text name))
    (hunknown : a.flows.get? name = none) :
    ∃ s', compose c r a s = .error (.quit exitUnusable) s' := by
  have hselected : ∃ s', selected c a r.settings.node s = .error (.quit exitUnusable) s' := by
    simp only [hnode, selected, hunknown]
    exact complaint_eq c _ s
  obtain ⟨s', hselected⟩ := hselected
  obtain ⟨hdot, hblocks⟩ | hmermaid := hdraws
  · simp only [compose, hdot, hblocks]
    exact ⟨s', bind_of_eq_error hselected⟩
  · simp only [compose, hmermaid]
    exact ⟨s', bind_of_eq_error hselected⟩

theorem neverQuits_pure {α : Type} (x : α) : NeverQuits (pure x : Run α) := by
  intro s code s' h
  cases h

theorem neverQuits_compose_of_known (hdraws : r.DrawsBlocks)
    (hnode : r.settings.node = some (.text name)) (hknown : a.flows.get? name = some flow) :
    NeverQuits (compose c r a) := by
  have hselected : NeverQuits (selected c a r.settings.node) := by
    simp only [hnode, selected, hknown]
    exact neverQuits_pure _
  obtain ⟨hdot, hblocks⟩ | hmermaid := hdraws
  · simp only [compose, hdot, hblocks]
    exact hselected.bind (fun _ => neverQuits_pure _)
  · simp only [compose, hmermaid]
    refine hselected.bind (fun _ => ?_)
    split
    · intro s code s' h
      cases h
    · exact neverQuits_pure _

theorem look_of_loads (hp : c.environment.Loads s.files r.program p) :
    ∃ s', s.Untouched s' ∧ look c r s = (do return (p.analyse, ← compose c r p.analyse)) s' := by
  obtain ⟨s', hanalyse, hsame⟩ := (finds_analyse c r.program).eq_ok ⟨p, hp, rfl⟩
  exact ⟨s', hsame, bind_of_eq_ok hanalyse⟩

theorem perform_of_unknown (hdraws : r.DrawsBlocks) (hnode : r.settings.node = some (.text name))
    (hp : c.environment.Loads s.files r.program p) (hunknown : p.analyse.flows.get? name = none) :
    ∃ err, perform c r s = .error (.quit exitUnusable) ⟨s.files, s.out, err⟩ := by
  obtain ⟨s₁, -, hlook⟩ := look_of_loads (r := r) hp
  obtain ⟨s', hcompose⟩ := compose_of_unknown (c := c) (s := s₁) hdraws hnode hunknown
  rw [bind_of_eq_error hcompose] at hlook
  obtain ⟨⟨hfiles, hout⟩, -⟩ := (finds_look c r).error hlook
  rw [perform_eq, bind_of_eq_error hlook, ← hfiles, ← hout]
  exact ⟨s'.err, rfl⟩

theorem perform_ne_quit (hlook : ∀ code s', look c r s ≠ .error (.quit code) s') (code : Nat)
    (s' : Session) : perform c r s ≠ .error (.quit code) s' := by
  intro h
  rw [perform_eq] at h
  obtain h | ⟨found, s₁, -, h⟩ := bind_eq_error h
  · exact hlook code s' h
  · exact ((neverQuits_write c _ _).bind (fun _ => neverQuits_pure _)) s₁ code s' h

theorem perform_ne_quit_of_known (hdraws : r.DrawsBlocks)
    (hnode : r.settings.node = some (.text name))
    (hp : c.environment.Loads s.files r.program p) (hknown : p.analyse.flows.get? name = some flow)
    (code : Nat) (s' : Session) : perform c r s ≠ .error (.quit code) s' := by
  obtain ⟨s₁, -, hlook⟩ := look_of_loads (r := r) hp
  apply perform_ne_quit
  intro code s' h
  rw [hlook] at h
  exact ((neverQuits_compose_of_known hdraws hnode hknown).bind (fun _ => neverQuits_pure _))
    s₁ code s' h

theorem perform_ne_quit_of_makes {body : String} (hp : c.environment.Loads s.files r.program p)
    (hbody : c.environment.Makes s.files p.analyse r.settings r.command body)
    (code : Nat) (s' : Session) : perform c r s ≠ .error (.quit code) s' := by
  apply perform_ne_quit
  intro code s' h
  exact ((finds_look c r).error h).2.2 (p.analyse, body) ⟨p, hp, rfl, hbody⟩

theorem blocksText_of_unknown (hunknown : name ∉ a.flows.keys) :
    blocksText a (some (.text name)) = "" := by
  have hnone : a.flows.entries.filter (fun entry => (some (Value.text name)).isNone ||
      some (Value.text name) == some (.text entry.1)) = [] := by
    rw [List.filter_eq_nil_iff]
    intro entry hentry
    have hne : name ≠ entry.1 := by
      rintro rfl
      exact hunknown (List.mem_map_of_mem hentry)
    simpa using hne
  rw [blocksText, hnone]
  rfl

theorem makes_blocks_iff {body : String} (hblocks : r.command = .blocks)
    (hnode : r.settings.node = some (.text name)) (hunknown : name ∉ a.flows.keys) :
    e.Makes files a r.settings r.command body ↔ body = "" := by
  rw [hblocks]
  apply Iff.intro
  · intro h
    cases h
    rw [hnode, blocksText_of_unknown hunknown]
  · rintro rfl
    rw [← blocksText_of_unknown hunknown, ← hnode]
    exact .blocks

theorem status_ne_unusable {raw : String} (hp : e.Loads files raw p) :
    status p.analyse ≠ exitUnusable := by
  obtain ⟨hstatus, -⟩ | ⟨hstatus, -⟩ := status_eq hp
  · rw [hstatus]
    decide
  · rw [hstatus]
    decide

theorem refuses_iff (hargs : Invocation.ofArguments e.dropsMark arguments = .ok invocation)
    (hr : invocation.request = some r) (hp : e.Loads files r.program p)
    (hnode : r.settings.node = some (.text name)) (hdraws : r.DrawsBlocks) :
    Refuses (run e arguments files) files ↔ name ∉ p.analyse.flows.keys := by
  apply Iff.intro
  · rintro ⟨err, hrun⟩ hmem
    obtain ⟨flow, hknown⟩ := Table.mem_keys_iff.mp hmem
    obtain ⟨hnone, -⟩ | ⟨r', hr', hperform | hperform⟩ := perform_of_run hargs hrun
    · cases hr.symm.trans hnone
    · cases hr.symm.trans hr'
      obtain ⟨p', _, hdone, -, hcode⟩ := completes_of_perform hperform
      exact status_ne_unusable hdone.loaded hcode.symm
    · cases hr.symm.trans hr'
      exact perform_ne_quit_of_known hdraws hnode hp hknown _ _ hperform
  · intro hunknown
    have hnone : p.analyse.flows.get? name = none := by
      rw [Table.mem_keys_iff] at hunknown
      exact Option.eq_none_iff_forall_ne_some.mpr (not_exists.mp hunknown)
    obtain ⟨err, h⟩ := perform_of_unknown (c := ⟨e, invocation.verbosity⟩)
      (s := ⟨files, "", ""⟩) hdraws hnode hp hnone
    exact ⟨err, run_of_perform_error hargs hr h⟩

/-- Drawings of blocks refuse the node that is asked for exactly if it has no flow. The list of
blocks never refuses it: for a node without a flow it shows an empty line, and the code is the one
for the whole program. -/
theorem unknown_node_refused_iff
    (hargs : Invocation.ofArguments e.dropsMark arguments = .ok invocation)
    (hr : invocation.request = some r) (hp : e.Loads files r.program p)
    (hnode : r.settings.node = some (.text name)) :
    (r.DrawsBlocks → (Refuses (run e arguments files) files ↔ name ∉ p.analyse.flows.keys)) ∧
    (r.command = .blocks → name ∉ p.analyse.flows.keys →
      (∀ code session, run e arguments files = ⟨.returned code, session⟩ →
        code = status p.analyse ∧ e.Written files "\n" r.settings.output session) ∧
      (r.settings.output = none →
        ∃ err, run e arguments files = ⟨.returned (status p.analyse), ⟨files, "\n", err⟩⟩)) := by
  refine ⟨refuses_iff hargs hr hp hnode, fun hblocks hunknown => ?_⟩
  have hmakes : ∀ body, e.Makes files p.analyse r.settings r.command body ↔ body = "" :=
    fun body => makes_blocks_iff hblocks hnode hunknown
  refine ⟨fun code session hrun => ?_, fun hout => ?_⟩
  · obtain ⟨hnone, -⟩ | ⟨r', hr', hperform | hperform⟩ := perform_of_run hargs hrun
    · cases hr.symm.trans hnone
    · cases hr.symm.trans hr'
      obtain ⟨p', text, ⟨hloaded, ⟨body, hbody, htext⟩, hwritten⟩, hline, hcode⟩ :=
        completes_of_perform hperform
      cases hp.eq hloaded
      cases (hmakes body).mp hbody
      obtain rfl | rfl := htext
      · cases hline
      · exact ⟨hcode, hwritten⟩
    · cases hr.symm.trans hr'
      exact absurd hperform (perform_ne_quit_of_makes hp ((hmakes "").mpr rfl) _ _)
  · obtain ⟨err, h⟩ := perform_of_makes (c := ⟨e, invocation.verbosity⟩) (s := ⟨files, "", ""⟩)
      hout hp ((hmakes "").mpr rfl)
    exact ⟨err, run_of_perform_ok hargs hr h⟩

end Runs

def pierListing : List String := ["blocks", "tale.json", "--node", "Pier"]

theorem exists_loads_tale : ∃ p, workplace.Loads taleFiles "tale.json" p ∧
    p.analyse.flows.keys = ["Mast"] := by
  have hpath : Path.resolve workplace.folder workplace.homes "tale.json" =
      .ok ["work", "tale.json"] := by
    decide +kernel
  have hread : taleFiles.read ["work", "tale.json"] = .ok taleText.toUTF8.toList := by
    decide +kernel
  have hkeys : (Program.ofFile .standard ["work", "tale.json"] taleText.toUTF8.toList).toOption.map
      (fun p => p.analyse.flows.keys) = some ["Mast"] := by
    decide +kernel
  obtain ⟨p, hp, hkeys⟩ := exists_ok_of_map hkeys
  exact ⟨p, loads_of_ofFile hpath hread hp, hkeys⟩

theorem unknown_node_refused_iff_tale :
    ∃ p, workplace.Loads taleFiles "tale.json" p ∧ "Pier" ∉ p.analyse.flows.keys ∧
      Refuses (run workplace drawing taleFiles) taleFiles ∧
      ∃ err, run workplace pierListing taleFiles =
        ⟨.returned (status p.analyse), ⟨taleFiles, "\n", err⟩⟩ := by
  have hdrawing : (Invocation.ofArguments workplace.dropsMark drawing).toOption.map id =
      some ⟨0, some ⟨.dot, "tale.json", { Settings.initial with
        output := some (.text "out/pier.dot"), node := some (.text "Pier") }⟩⟩ := by
    decide +kernel
  have hlisting : (Invocation.ofArguments workplace.dropsMark pierListing).toOption.map id =
      some ⟨0, some ⟨.blocks, "tale.json", { Settings.initial with
        node := some (.text "Pier") }⟩⟩ := by
    decide +kernel
  obtain ⟨_, hdraw, rfl⟩ := exists_ok_of_map hdrawing
  obtain ⟨_, hlist, rfl⟩ := exists_ok_of_map hlisting
  obtain ⟨p, hp, hkeys⟩ := exists_loads_tale
  have hunknown : "Pier" ∉ p.analyse.flows.keys := by
    rw [hkeys]
    decide
  exact ⟨p, hp, hunknown,
    ((unknown_node_refused_iff hdraw rfl hp rfl).1 (.inl ⟨rfl, rfl⟩)).mpr hunknown,
    ((unknown_node_refused_iff hlist rfl hp rfl).2 rfl hunknown).2 rfl⟩

/-- A node without a flow is not drawn, but the list of its blocks is shown, with nothing in it. -/
theorem pier_listed_in_tale :
    ∃ p, workplace.Loads taleFiles "tale.json" p ∧ "Pier" ∉ p.analyse.flows.keys ∧
      (run workplace ["dot", "tale.json", "--node", "Pier"] taleFiles).returned?.map
        (fun x => (x.1, x.2.out)) = some (2, "") ∧
      (run workplace ["mermaid", "tale.json", "--node", "Pier"] taleFiles).returned?.map
        (fun x => (x.1, x.2.out)) = some (2, "") ∧
      (run workplace pierListing taleFiles).returned?.map
        (fun x => (x.1, x.2.out)) = some (1, "\n") := by
  obtain ⟨p, hp, hkeys⟩ := exists_loads_tale
  refine ⟨p, hp, ?_, ?_, ?_, ?_⟩
  · rw [hkeys]
    decide
  all_goals decide +kernel

end DialogueFlow.Command
