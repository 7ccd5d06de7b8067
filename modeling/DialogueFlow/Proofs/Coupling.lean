import DialogueFlow.Proofs.Walk

namespace DialogueFlow

namespace LineReport

def credit (unnamed : Unnamed) (character : String) (r : LineReport) : LineReport :=
  if character = "" ∧ unnamed = .keep then { r with hasUnnamed := true }
  else if character ∈ r.characters then r
  else { r with characters := r.characters ++ [character] }

def close (run : List LineRecord) (r : LineReport) : LineReport :=
  if run.isEmpty then r else { r with runs := r.runs ++ [run] }

variable (unnamed : Unnamed) (character : String) (run : List LineRecord) (r : LineReport)

theorem runs_credit : (r.credit unnamed character).runs = r.runs := by
  rw [credit]
  split
  · rfl
  · split <;> rfl

theorem mem_characters_credit (c : String) :
    c ∈ (r.credit unnamed character).characters ↔
      c ∈ r.characters ∨ c = character ∧ ¬ (character = "" ∧ unnamed = .keep) := by
  rw [credit]
  split
  · simp [*]
  · split
    · next hmem =>
      apply Iff.intro
      · exact .inl
      · rintro (hc | ⟨rfl, -⟩)
        · exact hc
        · exact hmem
    · simp [*]

theorem hasUnnamed_credit :
    (r.credit unnamed character).hasUnnamed =
      (r.hasUnnamed || decide (character = "" ∧ unnamed = .keep)) := by
  rw [credit]
  split
  · simp [*]
  · split <;> simp [*]

theorem runs_close :
    (r.close run).runs = r.runs ++ if run.isEmpty then [] else [run] := by
  cases run <;> simp [close]

theorem characters_close : (r.close run).characters = r.characters := by
  cases run <;> rfl

theorem hasUnnamed_close : (r.close run).hasUnnamed = r.hasUnnamed := by
  cases run <;> rfl

end LineReport

theorem ofList_ne_empty_of_speech? {text speaker said : List Char}
    (h : speech? text = some (speaker, said)) : String.ofList speaker ≠ "" := by
  rw [speech?] at h
  split at h
  · cases h
    simp [← String.toList_inj]
  · cases h

namespace LineRuns

/-- What is recorded of a line with the text `text`, or why it cannot be recorded. -/
def Setting.recordOf (s : Setting) (id text : String) : Except LineFault LineRecord :=
  match speech? text.toList, s.unnamed with
  | some (speaker, said), _ => .ok ⟨id, String.ofList said, String.ofList speaker⟩
  | none, .assign character => .ok ⟨id, text, character⟩
  | none, .keep => .ok ⟨id, text, ""⟩
  | none, .refuse => .error .noSpeaker

def Setting.lineRecord (s : Setting) (id : String) : Except LineFault LineRecord :=
  s.table.text id >>= s.recordOf id

theorem addRun_eq (run : List LineRecord) : addRun run = modifyReport (LineReport.close run) := by
  rw [addRun]
  cases run <;> rfl

theorem addCharacter_eq (unnamed : Unnamed) (character : String)
    (h : ¬ (character = "" ∧ unnamed = .keep)) :
    addCharacter character = modifyReport (LineReport.credit unnamed character) := by
  rw [addCharacter]
  congr 1
  funext r
  simp [LineReport.credit, h]

theorem record_eq (s : Setting) (id : String) :
    record s id = do
      let r ← lift (s.lineRecord id)
      modifyReport (LineReport.credit s.unnamed r.character)
      return r := by
  rw [record]
  cases htext : s.table.text id with
  | error fault =>
    have hrecord : s.lineRecord id = .error fault := by rw [Setting.lineRecord, htext]; rfl
    rw [hrecord]
    rfl
  | ok text =>
    have hrecord : s.lineRecord id = s.recordOf id text := by rw [Setting.lineRecord, htext]; rfl
    rw [hrecord, Setting.recordOf]
    cases hspeech : speech? text.toList with
    | some speech =>
      have hname := ofList_ne_empty_of_speech? hspeech
      have hadd := addCharacter_eq s.unnamed _ (fun h => hname h.1)
      simp only [lift, pure_bind, hspeech, hadd]
    | none =>
      cases hu : s.unnamed with
      | assign character =>
        have hadd := addCharacter_eq (.assign character) character (by simp)
        simp only [lift, pure_bind, hspeech, hadd]
      | keep =>
        simp only [lift, pure_bind, hspeech]
        rfl
      | refuse =>
        simp only [lift, pure_bind, hspeech]
        rfl

section Coupled

variable {α β γ δ : Type} {pre : State → State → Prop}

/-- From states that `pre` relates both walks succeed, and `post` relates their results and the
states that they reach, or both fail with the same fault. -/
def Coupled (pre : State → State → Prop) (m : Walk α) (m' : Walk β)
    (post : α → β → State → State → Prop) : Prop :=
  ∀ st st', pre st st' →
    (∃ a t a' t', m.run st = .ok a t ∧ m'.run st' = .ok a' t' ∧ post a a' t t') ∨
    ∃ fault t t', m.run st = .error fault t ∧ m'.run st' = .error fault t'

theorem Coupled.bind {m : Walk α} {m' : Walk β} {f : α → Walk γ} {f' : β → Walk δ}
    {mid : α → β → State → State → Prop} {post : γ → δ → State → State → Prop}
    (hm : Coupled pre m m' mid) (hf : ∀ a a', Coupled (mid a a') (f a) (f' a') post) :
    Coupled pre (m >>= f) (m' >>= f') post := by
  intro st st' hpre
  obtain ⟨a, t, a', t', ha, ha', hmid⟩ | ⟨fault, t, t', hfault, hfault'⟩ := hm st st' hpre
  · rw [run_bind_of_eq_ok ha, run_bind_of_eq_ok ha']
    exact hf a a' t t' hmid
  · exact .inr ⟨fault, t, t', run_bind_of_eq_error hfault, run_bind_of_eq_error hfault'⟩

theorem Coupled.next {m m' : Walk α} {f : α → Walk γ} {f' : α → Walk δ}
    {mid : α → State → State → Prop} {post : γ → δ → State → State → Prop}
    (hm : Coupled pre m m' (fun a a' st st' => a' = a ∧ mid a st st'))
    (hf : ∀ a, Coupled (mid a) (f a) (f' a) post) : Coupled pre (m >>= f) (m' >>= f') post := by
  refine hm.bind (fun a a' st st' hmid => ?_)
  obtain ⟨rfl, hmid⟩ := hmid
  exact hf a' st st' hmid

theorem coupled_pure {a : α} {a' : β} {post : α → β → State → State → Prop}
    (h : ∀ st st', pre st st' → post a a' st st') : Coupled pre (pure a) (pure a') post :=
  fun st st' hpre => .inl ⟨a, st, a', st', rfl, rfl, h st st' hpre⟩

theorem coupled_throw (fault : LineFault) {post : α → β → State → State → Prop} :
    Coupled pre (throw fault) (throw fault) post :=
  fun st st' _ => .inr ⟨fault, st, st', rfl, rfl⟩

theorem coupled_modify {f f' : State → State} {post : State → State → Prop}
    (h : ∀ st st', pre st st' → post (f st) (f' st')) :
    Coupled pre (modify f) (modify f') (fun _ _ => post) :=
  fun st st' hpre => .inl ⟨(), f st, (), f' st', rfl, rfl, h st st' hpre⟩

theorem coupled_forM {enter enter' : α → Walk Unit} {xs : List α}
    (h : ∀ x ∈ xs, Coupled pre (enter x) (enter' x) (fun _ _ => pre)) :
    Coupled pre (xs.forM enter) (xs.forM enter') (fun _ _ => pre) := by
  induction xs with
  | nil => exact coupled_pure (fun _ _ hpre => hpre)
  | cons x xs ih =>
    exact (h x (by simp)).bind (fun _ _ => ih (fun y hy => h y (by simp [hy])))

end Coupled

/-- The same blocks are marked, and `R` holds of the lines that wait for their run on either side
and of the reports. -/
structure Beside (R : List LineRecord → List LineRecord → LineReport → LineReport → Prop)
    (run run' : List LineRecord) (st st' : State) : Prop where
  visited : st'.visited = st.visited
  reports : R run run' st.report st'.report

/-- `R` is kept by the walks over the same blocks in two settings: a line is recorded in both or
refused in both for the same reason, and runs are closed at the same time. -/
structure Coupling (s s' : Setting)
    (R : List LineRecord → List LineRecord → LineReport → LineReport → Prop) : Prop where
  blocks : s'.blocks = s.blocks
  line : ∀ id, (∃ fault, s.lineRecord id = .error fault ∧ s'.lineRecord id = .error fault) ∨
    ∃ r r', s.lineRecord id = .ok r ∧ s'.lineRecord id = .ok r' ∧
      ∀ run run' report report', R run run' report report' →
        R (run ++ [r]) (run' ++ [r']) (report.credit s.unnamed r.character)
          (report'.credit s'.unnamed r'.character)
  close : ∀ run run' report report', R run run' report report' →
    R [] [] (report.close run) (report'.close run')

theorem coupling_self (s : Setting) {Q : List LineRecord → LineReport → LineReport → Prop}
    (hline : ∀ run report report' (r : LineRecord), Q run report report' →
      Q (run ++ [r]) (report.credit s.unnamed r.character) (report'.credit s.unnamed r.character))
    (hclose : ∀ run report report', Q run report report' →
      Q [] (report.close run) (report'.close run)) :
    Coupling s s (fun run run' report report' => run' = run ∧ Q run report report') where
  blocks := rfl
  line id := by
    cases s.lineRecord id with
    | error fault => exact .inl ⟨fault, rfl, rfl⟩
    | ok r =>
      refine .inr ⟨r, r, rfl, rfl, ?_⟩
      rintro _ run report report' ⟨rfl, hq⟩
      exact ⟨rfl, hline run report report' r hq⟩
  close := by
    rintro _ run report report' ⟨rfl, hq⟩
    exact ⟨rfl, hclose run report report' hq⟩

section Steps

variable {s s' : Setting} {R : List LineRecord → List LineRecord → LineReport → LineReport → Prop}
  {run run' : List LineRecord}

theorem coupled_noteUnshown (b : Block) (options : List OptionItem) :
    Coupled (Beside R run run') (noteUnshown b options) (noteUnshown b options)
      (fun _ _ => Beside R run run') := by
  rw [noteUnshown]
  split
  · exact coupled_pure (fun _ _ h => h)
  · exact coupled_modify (fun _ _ h => ⟨h.visited, h.reports⟩)

theorem coupled_finish (b : Block) :
    Coupled (Beside R run run') (finish b) (finish b) (fun _ _ => Beside R run run') := by
  rw [finish]
  cases b.content.ending with
  | ok unshown => exact coupled_noteUnshown b unshown
  | error f => exact coupled_throw _

theorem coupled_hasContent (b : Block) :
    Coupled (Beside R run run') (hasContent b) (hasContent b)
      (fun present present' st st' => present' = present ∧ Beside R run run' st st') := by
  rw [hasContent]
  split
  · exact (coupled_finish b).bind (fun _ _ => coupled_pure (fun _ _ h => ⟨rfl, h⟩))
  · exact coupled_pure (fun _ _ h => ⟨rfl, h⟩)

variable (h : Coupling s s' R)

include h

theorem coupled_record (id : String) :
    Coupled (Beside R run run') (record s id) (record s' id)
      (fun r r' => Beside R (run ++ [r]) (run' ++ [r'])) := by
  rw [record_eq, record_eq]
  obtain ⟨fault, hfault, hfault'⟩ | ⟨r, r', hr, hr', hkeep⟩ := h.line id
  · rw [hfault, hfault']
    exact fun st st' _ => .inr ⟨fault, st, st', rfl, rfl⟩
  · rw [hr, hr']
    intro st st' hpre
    exact .inl ⟨r, _, r', _, rfl, rfl, hpre.visited, hkeep _ _ _ _ hpre.reports⟩

theorem coupled_addRun :
    Coupled (Beside R run run') (addRun run) (addRun run') (fun _ _ => Beside R [] []) := by
  rw [addRun_eq, addRun_eq]
  exact coupled_modify (fun _ _ hpre => ⟨hpre.visited, h.close _ _ _ _ hpre.reports⟩)

theorem coupled_target (label : String) :
    Coupled (Beside R run run') (target s label) (target s' label)
      (fun b? b?' st st' => b?' = b? ∧ Beside R run run' st st') := by
  have hlabelled : s'.labelled? label = s.labelled? label := by
    rw [Setting.labelled?, Setting.labelled?, h.blocks]
  rw [target, target, hlabelled]
  cases s.labelled? label with
  | none => exact coupled_pure (fun _ _ hpre => ⟨rfl, hpre⟩)
  | some b =>
    exact (coupled_hasContent b).next (fun present => coupled_pure (fun _ _ hpre => ⟨rfl, hpre⟩))

theorem coupled_followUps (items : List OptionItem) :
    Coupled (Beside R [] []) (followUps s items) (followUps s' items)
      (fun targets targets' st st' => targets' = targets ∧ Beside R [] [] st st') := by
  induction items with
  | nil => exact coupled_pure (fun _ _ hpre => ⟨rfl, hpre⟩)
  | cons item items ih =>
    rw [followUps, followUps]
    refine (coupled_target h item.destination).next (fun b? => ?_)
    cases b? with
    | some b => exact ih.next (fun later => coupled_pure (fun _ _ hpre => ⟨rfl, hpre⟩))
    | none =>
      refine (coupled_record h item.line).bind (fun r r' => ?_)
      exact (coupled_addRun h).bind (fun _ _ => ih)

theorem coupled_elements {enter enter' : String × Block → Walk Unit}
    (henter : ∀ e, Coupled (Beside R [] []) (enter e) (enter' e) (fun _ _ => Beside R [] []))
    (run run' : List LineRecord) (es : List Element) :
    Coupled (Beside R run run') (elements s enter run es) (elements s' enter' run' es)
      (fun rest rest' => Beside R rest rest') := by
  induction es generalizing run run' with
  | nil => exact coupled_pure (fun _ _ hpre => hpre)
  | cons e es ih =>
    cases e with
    | line id => exact (coupled_record h id).bind (fun r r' => ih (run ++ [r]) (run' ++ [r']))
    | command text => exact ih run run'
    | options items =>
      refine (coupled_addRun h).bind (fun _ _ => ?_)
      refine (coupled_followUps h items).next (fun targets => ?_)
      exact (coupled_forM (fun e _ => henter e)).bind (fun _ _ => ih [] [])

theorem coupled_heading (opening : Option String) :
    Coupled (Beside R [] []) (heading s opening) (heading s' opening)
      (fun head head' => Beside R head head') := by
  rw [heading, heading]
  cases opening.filter (· ≠ "") with
  | none => exact coupled_pure (fun _ _ hpre => hpre)
  | some id =>
    exact (coupled_record h id).bind (fun r r' => coupled_pure (fun _ _ hpre => hpre))

theorem coupled_visit {enter enter' : String × Block → Walk Unit}
    (henter : ∀ e, Coupled (Beside R [] []) (enter e) (enter' e) (fun _ _ => Beside R [] []))
    (opening : Option String) (b : Block) :
    Coupled (Beside R [] []) (visit s enter opening b) (visit s' enter' opening b)
      (fun _ _ => Beside R [] []) := by
  have hmark : Coupled (Beside R [] [])
      (modify (fun st => { st with visited := b.name :: st.visited }))
      (modify (fun st => { st with visited := b.name :: st.visited }))
      (fun _ _ => Beside R [] []) :=
    coupled_modify (fun _ _ hpre => ⟨congrArg (b.name :: ·) hpre.visited, hpre.reports⟩)
  refine hmark.bind (fun _ _ => ?_)
  refine (coupled_heading h opening).bind (fun head head' => ?_)
  refine (coupled_elements h henter head head' _).bind (fun rest rest' => ?_)
  exact (coupled_finish b).bind (fun _ _ => coupled_addRun h)

theorem coupled_walk (depth : Nat) (opening : Option String) (b : Block) :
    Coupled (Beside R [] []) (walk s depth opening b) (walk s' depth opening b)
      (fun _ _ => Beside R [] []) := by
  induction depth generalizing opening b with
  | zero => exact coupled_pure (fun _ _ hpre => hpre)
  | succ depth ih =>
    rw [walk, walk]
    refine (coupled_hasContent b).next (fun present => ?_)
    have hvisit := coupled_visit h (fun e => ih (some e.1) e.2) opening b
    intro st st' hpre
    have hget : ∀ st : State, (get : Walk State).run st = .ok st st := fun _ => rfl
    rw [run_bind_of_eq_ok (hget st), run_bind_of_eq_ok (hget st'), hpre.visited]
    split
    · exact hvisit st st' hpre
    · exact .inl ⟨(), st, (), st', rfl, rfl, hpre⟩

end Steps

section Nodes

variable {table table' : StringTable} {unnamed unnamed' : Unnamed}
  {R : List LineRecord → List LineRecord → LineReport → LineReport → Prop}

/-- Marks are taken off before a node is walked, so that only the reports need to agree. -/
theorem coupled_walkNode {blocks : List Block}
    (h : Coupling ⟨blocks, table, unnamed⟩ ⟨blocks, table', unnamed'⟩ R) (name : String) :
    Coupled (fun st st' => R [] [] st.report st'.report) (walkNode table unnamed name blocks)
      (walkNode table' unnamed' name blocks) (fun _ _ st st' => R [] [] st.report st'.report) := by
  have hreset : Coupled (fun st st' => R [] [] st.report st'.report)
      (modify (fun st => { st with visited := [] })) (modify (fun st => { st with visited := [] }))
      (fun _ _ => Beside R [] []) :=
    coupled_modify (fun _ _ hpre => ⟨rfl, hpre⟩)
  refine hreset.bind (fun _ _ => ?_)
  refine (coupled_forM (fun b _ => coupled_walk h (blocks.length + 1) none b)).bind (fun _ _ => ?_)
  exact fun st st' hpre => .inl ⟨(), _, (), _, rfl, rfl, hpre.reports⟩

theorem coupled_walkNodes
    (h : ∀ blocks, Coupling ⟨blocks, table, unnamed⟩ ⟨blocks, table', unnamed'⟩ R)
    (nodes : List (String × List Block)) :
    Coupled (fun st st' => R [] [] st.report st'.report)
      (nodes.forM (fun (name, blocks) => walkNode table unnamed name blocks))
      (nodes.forM (fun (name, blocks) => walkNode table' unnamed' name blocks))
      (fun _ _ st st' => R [] [] st.report st'.report) :=
  coupled_forM (fun e _ => coupled_walkNode (h e.2) e.1)

theorem collect_eq_ok_iff {nodes : List (String × List Block)} {report : LineReport} :
    (collect table unnamed nodes).1 = .ok report ↔
      (∃ st, (nodes.forM (fun (name, blocks) => walkNode table unnamed name blocks)).run
        ⟨.empty, [], []⟩ = .ok () st ∧ st.report = report) ∧ ∃ n, table.size = .ok n := by
  apply Iff.intro
  · intro h
    cases hrun : (nodes.forM (fun (name, blocks) => walkNode table unnamed name blocks)).run
        ⟨.empty, [], []⟩ with
    | error fault st => cases h.symm.trans (collect_of_error (run_bind_of_eq_error hrun))
    | ok a st =>
      cases hsize : table.size with
      | error fault =>
        have hend : (walkAll table unnamed nodes).run ⟨.empty, [], []⟩ = .error fault st := by
          rw [walkAll, run_bind_of_eq_ok hrun, hsize]
          rfl
        cases h.symm.trans (collect_of_error hend)
      | ok n =>
        cases h.symm.trans (collect_of_walkNodes hrun hsize)
        exact ⟨⟨st, rfl, rfl⟩, n, rfl⟩
  · rintro ⟨⟨st, hrun, rfl⟩, n, hsize⟩
    exact collect_of_walkNodes hrun hsize

end Nodes

end LineRuns

end DialogueFlow
