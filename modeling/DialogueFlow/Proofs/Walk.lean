import DialogueFlow.Flow.Graph
import DialogueFlow.Proofs.Tour

namespace DialogueFlow

/-- Nothing is wrong with the operands that the content of a block needs. -/
def Block.Iterates (b : Block) : Prop := ∃ unshown, b.content.ending = .ok unshown

instance (b : Block) : Decidable b.Iterates :=
  match h : b.content.ending with
  | .ok unshown => isTrue ⟨unshown, h⟩
  | .error f => isFalse (fun ⟨_, hu⟩ => by simp [h] at hu)

def StringTable.HoldsTexts (t : StringTable) : Prop :=
  ∃ entries, t.document = .object entries ∧ ∀ e ∈ entries, ∃ text, e.2 = .string text

theorem StringTable.HoldsTexts.exists_text {t : StringTable} (h : t.HoldsTexts) (id : String) :
    ∃ text, t.text id = .ok text := by
  obtain ⟨entries, hd, ht⟩ := h
  cases hl : entries.lookup id with
  | none => exact ⟨"", by simp [StringTable.text, hd, hl]⟩
  | some entry =>
    obtain ⟨l₁, l₂, hs, -⟩ := List.lookup_eq_some_iff.mp hl
    obtain ⟨text, rfl⟩ := ht (id, entry) (by simp [hs])
    exact ⟨text, by simp [StringTable.text, hd, hl]⟩

theorem StringTable.HoldsTexts.exists_size {t : StringTable} (h : t.HoldsTexts) :
    ∃ n, t.size = .ok n := by
  obtain ⟨entries, hd, -⟩ := h
  exact ⟨entries.length, by rw [StringTable.size, hd]⟩

theorem Unnamed.ofDefault_ne_refuse (default : Option String) : ofDefault default ≠ .refuse := by
  cases default <;> simp [ofDefault]

def LineReport.lineIds (r : LineReport) : List (List String) :=
  r.runs.map (fun run => run.map LineRecord.id)

namespace LineRuns

def asRun (run : List String) : List (List String) := if run.isEmpty then [] else [run]

/-- The runs of elements that follow the lines `run`, without those of other blocks. -/
def runsFrom (blocks : List Block) (run : List String) : List Element → List (List String)
  | [] => asRun run
  | .line id :: rest => runsFrom blocks (run ++ [id]) rest
  | .command _ :: rest => runsFrom blocks run rest
  | .options items :: rest =>
    asRun run ++ (singles blocks items).map (fun line => [line]) ++ runsFrom blocks [] rest

def Call.runs (blocks : List Block) (c : Call) : List (List String) :=
  runsFrom blocks c.head?.toList c.block.content.elements

theorem flatten_asRun (run : List String) : (asRun run).flatten = run := by
  cases run <;> simp [asRun]

section Performs

open scoped List

variable {α β : Type} {s : Setting} {depth : Nat}

/-- Number of blocks whose names have not been visited. -/
def Setting.unvisited (s : Setting) (visited : List String) : Nat :=
  s.blocks.countP (fun b => !visited.contains b.name)

theorem unvisited_after_le (s : Setting) (visited : List String) (visits : List Call) :
    s.unvisited (after visited visits) ≤ s.unvisited visited := by
  refine List.countP_mono_left (fun b _ hb => ?_)
  simp_all [after]

theorem unvisited_cons_lt {b : Block} (hb : b ∈ s.blocks) {visited : List String}
    (hn : b.name ∉ visited) : s.unvisited (b.name :: visited) < s.unvisited visited := by
  refine Graph.countP_lt_countP (fun c hc => ?_) ?_ ?_ hb
  · simp_all
  · simp
  · simpa using hn

/-- From every state in which fewer than `depth` blocks are left to visit, `m` succeeds and makes
the tour of `agenda`. Besides the runs of the visits it writes down some of its own, which satisfy
`post` together with its result. -/
def Performs (s : Setting) (depth : Nat) (m : Walk α) (agenda : List Call)
    (post : α → List (List String) → Prop) : Prop :=
  ∀ st : State, s.unvisited st.visited < depth → ∃ a st' visits own,
    m.run st = .ok a st' ∧ post a own ∧ Tour s.blocks st.visited agenda visits ∧
      st'.visited = after st.visited visits ∧
      st'.report.lineIds.Perm (st.report.lineIds ++ (own ++ visits.flatMap (Call.runs s.blocks)))

theorem run_bind_of_eq_ok {m : Walk α} {f : α → Walk β} {st st' : State} {a : α}
    (h : m.run st = .ok a st') : (m >>= f).run st = (f a).run st' := by
  rw [EStateM.run_bind, h]

theorem run_bind_of_eq_error {m : Walk α} {f : α → Walk β} {st st' : State} {fault : LineFault}
    (h : m.run st = .error fault st') : (m >>= f).run st = .error fault st' := by
  rw [EStateM.run_bind, h]

theorem run_forM_append {f : α → Walk Unit} {xs ys : List α} {st st' : State}
    (h : (xs.forM f).run st = .ok () st') : ((xs ++ ys).forM f).run st = (ys.forM f).run st' := by
  have happend : (xs ++ ys).forM f = (do xs.forM f; ys.forM f) := List.forM_append
  rw [happend, run_bind_of_eq_ok h]

theorem exists_of_run_forM_append {f : α → Walk Unit} {xs ys : List α} {st st' : State}
    (h : ((xs ++ ys).forM f).run st = .ok () st') :
    ∃ mid, (xs.forM f).run st = .ok () mid ∧ (ys.forM f).run mid = .ok () st' := by
  cases hxs : (xs.forM f).run st with
  | ok a mid => exact ⟨mid, rfl, (run_forM_append hxs).symm.trans h⟩
  | error fault mid =>
    have happend : (xs ++ ys).forM f = (do xs.forM f; ys.forM f) := List.forM_append
    rw [happend, run_bind_of_eq_error hxs] at h
    cases h

section Rules

variable {m : Walk α} {f : α → Walk β} {agenda agenda' : List Call}
  {post : α → List (List String) → Prop} {post' : β → List (List String) → Prop}

theorem Performs.bind (hm : Performs s depth m agenda post)
    (hf : ∀ a own, post a own →
      Performs s depth (f a) agenda' (fun b own' => post' b (own ++ own'))) :
    Performs s depth (m >>= f) (agenda ++ agenda') post' := by
  intro st hd
  obtain ⟨a, st₁, us, own, hma, hp, htour, hv, hruns⟩ := hm st hd
  have hd₁ : s.unvisited st₁.visited < depth := by
    rw [hv]
    exact Nat.lt_of_le_of_lt (unvisited_after_le s _ us) hd
  obtain ⟨b, st₂, vs, own', hfb, hp', htour', hv', hruns'⟩ := hf a own hp st₁ hd₁
  refine ⟨b, st₂, us ++ vs, own ++ own', ?_, hp', htour.append (hv ▸ htour'), ?_, ?_⟩
  · rw [run_bind_of_eq_ok hma, hfb]
  · rw [hv', hv, after_append]
  · calc st₂.report.lineIds
      _ ~ st₁.report.lineIds ++ (own' ++ vs.flatMap (Call.runs s.blocks)) := hruns'
      _ ~ st.report.lineIds ++ (own ++ us.flatMap (Call.runs s.blocks)) ++
            (own' ++ vs.flatMap (Call.runs s.blocks)) := hruns.append_right _
      _ ~ st.report.lineIds ++ (own ++ own' ++ (us ++ vs).flatMap (Call.runs s.blocks)) := by
        simp only [List.flatMap_append, List.append_assoc]
        exact ((List.perm_append_comm_assoc _ _ _).append_left _).append_left _

theorem Performs.next (hm : Performs s depth m [] post)
    (hf : ∀ a own, post a own →
      Performs s depth (f a) agenda (fun b own' => post' b (own ++ own'))) :
    Performs s depth (m >>= f) agenda post' :=
  hm.bind hf

theorem Performs.andThen (hm : Performs s depth m agenda post)
    (hf : ∀ a own, post a own → Performs s depth (f a) [] (fun b own' => post' b (own ++ own'))) :
    Performs s depth (m >>= f) agenda post' :=
  agenda.append_nil ▸ hm.bind hf

theorem Performs.imp {goal : α → List (List String) → Prop} (hm : Performs s depth m agenda post)
    (h : ∀ a own, post a own → goal a own) : Performs s depth m agenda goal := by
  intro st hd
  obtain ⟨a, st', visits, own, hma, hp, hrest⟩ := hm st hd
  exact ⟨a, st', visits, own, hma, h a own hp, hrest⟩

theorem performs_of_quiet
    (h : ∀ st, ∃ a st' own, m.run st = .ok a st' ∧ post a own ∧ st'.visited = st.visited ∧
      st'.report.lineIds = st.report.lineIds ++ own) : Performs s depth m [] post := by
  intro st _
  obtain ⟨a, st', own, hm, hp, hv, hr⟩ := h st
  exact ⟨a, st', [], own, hm, hp, .nil, hv, by simp [hr]⟩

theorem performs_pure {a : α} (h : post a []) : Performs s depth (pure a) [] post :=
  performs_of_quiet (fun st => ⟨a, st, [], rfl, h, rfl, by simp⟩)

theorem performs_lift {x : Except LineFault α} {a : α} (h : x = .ok a) :
    Performs s depth (lift x) [] (fun b own => b = a ∧ own = []) := by
  rw [h]
  exact performs_pure ⟨rfl, rfl⟩

end Rules

theorem performs_addRun (run : List LineRecord) :
    Performs s depth (addRun run) [] (fun _ own => own = asRun (run.map LineRecord.id)) := by
  apply performs_of_quiet
  intro st
  rw [addRun]
  cases run with
  | nil => exact ⟨(), st, [], rfl, rfl, rfl, by simp⟩
  | cons r run => exact ⟨(), _, _, rfl, rfl, rfl, by simp [LineReport.lineIds, asRun]⟩

structure Setting.Sound (s : Setting) : Prop where
  iterates : ∀ b ∈ s.blocks, b.Iterates
  texts : ∀ id, ∃ text, s.table.text id = .ok text
  unnamed : s.unnamed ≠ .refuse

theorem performs_modifyReport {f : LineReport → LineReport} (h : ∀ r, (f r).runs = r.runs) :
    Performs s depth (modifyReport f) [] (fun _ own => own = []) :=
  performs_of_quiet (fun st =>
    ⟨(), _, [], rfl, rfl, rfl, by simp [LineReport.lineIds, h]⟩)

theorem performs_addCharacter (character : String) :
    Performs s depth (addCharacter character) [] (fun _ own => own = []) := by
  refine performs_modifyReport (fun r => ?_)
  split <;> rfl

theorem performs_record (h : s.Sound) (id : String) :
    Performs s depth (record s id) [] (fun r own => r.id = id ∧ own = []) := by
  have hreturn : ∀ {m : Walk Unit}, Performs s depth m [] (fun _ own => own = []) →
      ∀ r : LineRecord, r.id = id →
        Performs s depth (do m; return r) [] (fun r own => r.id = id ∧ own = []) := by
    intro m hm r hr
    refine hm.next (fun _ own ho => ?_)
    subst ho
    exact performs_pure ⟨hr, rfl⟩
  obtain ⟨text, ht⟩ := h.texts id
  refine (performs_lift ht).next ?_
  rintro _ _ ⟨rfl, rfl⟩
  split
  · exact hreturn (performs_addCharacter _) _ rfl
  · exact hreturn (performs_addCharacter _) _ rfl
  · exact hreturn (performs_modifyReport (fun r => by rfl)) _ rfl
  · next hu => exact absurd hu h.unnamed

theorem performs_noteUnshown (b : Block) (options : List OptionItem) :
    Performs s depth (noteUnshown b options) [] (fun _ own => own = []) := by
  apply performs_of_quiet
  intro st
  rw [noteUnshown]
  split
  · exact ⟨(), st, [], rfl, rfl, rfl, by simp⟩
  · exact ⟨(), _, [], rfl, rfl, rfl, by simp⟩

theorem performs_finish {b : Block} (hb : b.Iterates) :
    Performs s depth (finish b) [] (fun _ own => own = []) := by
  obtain ⟨unshown, hu⟩ := hb
  rw [finish, hu]
  exact performs_noteUnshown b unshown

theorem performs_hasContent {b : Block} (hb : b.Iterates) :
    Performs s depth (hasContent b) []
      (fun present own => (present = true ↔ b.content.elements ≠ []) ∧ own = []) := by
  rw [hasContent]
  split
  · next he =>
    refine (performs_finish hb).next ?_
    rintro _ _ rfl
    exact performs_pure ⟨by simpa using he, rfl⟩
  · next he => exact performs_pure ⟨by simpa using he, rfl⟩

theorem performs_target (h : s.Sound) (item : OptionItem) :
    Performs s depth (target s item.destination) []
      (fun b? own => b? = lead? s.blocks item ∧ own = []) := by
  have hlead : lead? s.blocks item =
      (s.labelled? item.destination).filter (fun b => !b.content.elements.isEmpty) := rfl
  rw [target, hlead]
  cases hl : s.labelled? item.destination with
  | none => exact performs_pure ⟨rfl, rfl⟩
  | some b =>
    refine (performs_hasContent (h.iterates b (List.mem_of_find?_eq_some hl))).next ?_
    rintro present _ ⟨hp, rfl⟩
    apply performs_pure
    cases present <;> simp_all [Option.filter]

theorem performs_followUps (h : s.Sound) (items : List OptionItem) :
    Performs s depth (followUps s items) [] (fun targets own =>
      targets = follows s.blocks items ∧
        own = (singles s.blocks items).map (fun line => [line])) := by
  induction items with
  | nil => exact performs_pure ⟨rfl, rfl⟩
  | cons item items ih =>
    rw [followUps]
    refine (performs_target h item).next ?_
    rintro b? _ ⟨rfl, rfl⟩
    split
    · next b hb =>
      refine ih.next ?_
      rintro _ _ ⟨rfl, rfl⟩
      exact performs_pure (by simp [follows, singles, hb])
    · next hb =>
      refine (performs_record h item.line).next ?_
      rintro r _ ⟨hr, rfl⟩
      refine (performs_addRun [r]).next ?_
      rintro _ _ rfl
      refine ih.imp ?_
      rintro _ _ ⟨rfl, rfl⟩
      simp [follows, singles, hb, asRun, hr]

theorem performs_forM {enter : α → Walk Unit} {call : α → Call} {xs : List α}
    (h : ∀ x ∈ xs, Performs s depth (enter x) [call x] (fun _ own => own = [])) :
    Performs s depth (xs.forM enter) (xs.map call) (fun _ own => own = []) := by
  induction xs with
  | nil => exact performs_pure rfl
  | cons x xs ih =>
    refine (h x (by simp)).bind ?_
    rintro _ _ rfl
    exact ih (fun y hy => h y (by simp [hy]))

theorem performs_elements (h : s.Sound) {enter : String × Block → Walk Unit}
    (henter : ∀ line, ∀ b ∈ s.blocks,
      Performs s depth (enter (line, b)) [⟨some line, b⟩] (fun _ own => own = []))
    (run : List LineRecord) (es : List Element) :
    Performs s depth (elements s enter run es)
      ((follows s.blocks (es.flatMap Element.items)).map Call.ofOption)
      (fun rest own =>
        own ++ asRun (rest.map LineRecord.id) = runsFrom s.blocks (run.map LineRecord.id) es) := by
  induction es generalizing run with
  | nil => exact performs_pure rfl
  | cons e es ih =>
    cases e with
    | line id =>
      refine (performs_record h id).next ?_
      rintro r _ ⟨hr, rfl⟩
      refine (ih (run ++ [r])).imp ?_
      intro rest own ho
      simpa [runsFrom, hr] using ho
    | command text => exact ih run
    | options items =>
      rw [List.flatMap_cons, Element.items, follows_append, List.map_append, elements]
      refine (performs_addRun run).next ?_
      rintro _ _ rfl
      refine (performs_followUps h items).next ?_
      rintro _ _ ⟨rfl, rfl⟩
      have hin : ∀ e ∈ follows s.blocks items,
          Performs s depth (enter e) [Call.ofOption e] (fun _ own => own = []) := by
        intro e he
        obtain ⟨item, -, hl⟩ := List.mem_filterMap.mp he
        obtain ⟨b, hb, rfl⟩ := Option.map_eq_some_iff.mp hl
        exact henter _ b (mem_of_lead? hb).1
      refine (performs_forM hin).bind ?_
      rintro _ _ rfl
      refine (ih []).imp ?_
      intro rest own ho
      simpa [runsFrom] using ho

theorem performs_heading (h : s.Sound) (c : Call) :
    Performs s depth (heading s c.opening) []
      (fun run own => run.map LineRecord.id = c.head?.toList ∧ own = []) := by
  rw [heading, Call.head?]
  cases c.opening.filter (· ≠ "") with
  | none => exact performs_pure ⟨rfl, rfl⟩
  | some id =>
    refine (performs_record h id).next ?_
    rintro r _ ⟨rfl, rfl⟩
    exact performs_pure ⟨rfl, rfl⟩

/-- What is left of a visit once the block is marked. -/
theorem performs_marked (h : s.Sound) {enter : String × Block → Walk Unit}
    (henter : ∀ line, ∀ b ∈ s.blocks,
      Performs s depth (enter (line, b)) [⟨some line, b⟩] (fun _ own => own = []))
    {c : Call} (hb : c.block ∈ s.blocks) :
    Performs s depth (do
      let head ← heading s c.opening
      let run ← elements s enter head c.block.content.elements
      finish c.block
      addRun run) (calls s.blocks c.block) (fun _ own => own = c.runs s.blocks) := by
  refine (performs_heading h c).next ?_
  rintro head _ ⟨hh, rfl⟩
  refine (performs_elements h henter head _).andThen ?_
  intro run own ho
  refine (performs_finish (h.iterates _ hb)).next ?_
  rintro _ _ rfl
  refine (performs_addRun run).imp ?_
  rintro _ _ rfl
  rw [Call.runs, ← hh, ← ho]
  simp

theorem visit_eq_ok (h : s.Sound) {enter : String × Block → Walk Unit}
    (henter : ∀ line, ∀ b ∈ s.blocks,
      Performs s depth (enter (line, b)) [⟨some line, b⟩] (fun _ own => own = []))
    {c : Call} (hb : c.block ∈ s.blocks) {st : State}
    (hd : s.unvisited (c.name :: st.visited) < depth) :
    ∃ st' inner, (visit s enter c.opening c.block).run st = .ok () st' ∧
      Tour s.blocks (c.name :: st.visited) (calls s.blocks c.block) inner ∧
      st'.visited = after st.visited (c :: inner) ∧
      st'.report.lineIds ~ st.report.lineIds ++ (c :: inner).flatMap (Call.runs s.blocks) := by
  obtain ⟨_, st', inner, _, hm, rfl, htour, hv, hruns⟩ :=
    performs_marked h henter hb { st with visited := c.name :: st.visited } hd
  refine ⟨st', inner, hm, htour, ?_, ?_⟩
  · rw [hv, after_cons]
  · rwa [List.flatMap_cons]

theorem performs_walk (h : s.Sound) (depth : Nat) (opening : Option String) {b : Block}
    (hb : b ∈ s.blocks) :
    Performs s depth (walk s depth opening b) [⟨opening, b⟩] (fun _ own => own = []) := by
  -- The depth is enough: every visit marks a block that was counted as not visited.
  induction depth generalizing opening b with
  | zero => exact fun _ hd => absurd hd (Nat.not_lt_zero _)
  | succ depth ih =>
    rw [walk]
    refine (performs_hasContent (h.iterates b hb)).next ?_
    rintro present _ ⟨hp, rfl⟩ st hd
    let enter : String × Block → Walk Unit := fun e => walk s depth (some e.1) e.2
    show ∃ a st' visits own, (if present && !st.visited.contains b.name then
      visit s enter opening b else pure ()).run st = .ok a st' ∧ _
    by_cases hgo : b.content.elements ≠ [] ∧ b.name ∉ st.visited
    · have hd' : s.unvisited (b.name :: st.visited) < depth := by
        have := unvisited_cons_lt hb hgo.2
        omega
      have henter : ∀ line, ∀ b ∈ s.blocks,
          Performs s depth (enter (line, b)) [⟨some line, b⟩] (fun _ own => own = []) :=
        fun line b hb => ih (some line) hb
      obtain ⟨st', inner, hm, htour, hv, hruns⟩ := visit_eq_ok h henter (c := ⟨opening, b⟩) hb hd'
      rw [if_pos (by simp [hp, hgo])]
      refine ⟨(), st', _, [], hm, rfl, ?_, hv, hruns⟩
      have := Tour.enter hgo.1 hgo.2 htour .nil
      rwa [List.append_nil] at this
    · rw [if_neg (by simpa [hp] using hgo)]
      refine ⟨(), st, [], [], rfl, rfl, .skip ?_ .nil, rfl, by simp⟩
      simpa [or_iff_not_imp_left, Call.name] using hgo

end Performs

/-- The runs are those of a tour over all blocks. -/
def Collects (blocks : List Block) (runs : List (List String)) : Prop :=
  ∃ visits, Tour blocks [] (blocks.map Call.ofBlock) visits ∧
    runs = visits.flatMap (Call.runs blocks)

variable {table : StringTable} {unnamed : Unnamed}

theorem walkNode_eq_ok {blocks : List Block} (h : (⟨blocks, table, unnamed⟩ : Setting).Sound)
    (name : String) (st : State) :
    ∃ st' runs, (walkNode table unnamed name blocks).run st = .ok () st' ∧
      Collects blocks runs ∧ st'.report.lineIds.Perm (st.report.lineIds ++ runs) := by
  let s : Setting := ⟨blocks, table, unnamed⟩
  have hd : s.unvisited [] < blocks.length + 1 := Nat.lt_succ_of_le List.countP_le_length
  have hreset : (modify (fun st => { st with visited := [] }) : Walk Unit).run st =
      .ok () { st with visited := [] } := rfl
  obtain ⟨_, st', visits, _, hm, rfl, htour, -, hruns⟩ :=
    performs_forM (fun b hb => performs_walk h (blocks.length + 1) none hb)
      { st with visited := [] } hd
  exact ⟨_, _, (run_bind_of_eq_ok hreset).trans ((run_bind_of_eq_ok hm).trans rfl),
    ⟨visits, htour, rfl⟩, hruns⟩

theorem walkNodes_eq_ok {nodes : List (String × List Block)}
    (h : ∀ e ∈ nodes, (⟨e.2, table, unnamed⟩ : Setting).Sound) (st : State) :
    ∃ st' runs, (nodes.forM (fun (name, blocks) => walkNode table unnamed name blocks)).run st =
        .ok () st' ∧
      List.Forall₂ (fun e own => Collects e.2 own) nodes runs ∧
      st'.report.lineIds.Perm (st.report.lineIds ++ runs.flatten) := by
  induction nodes generalizing st with
  | nil => exact ⟨st, [], rfl, .nil, by simp⟩
  | cons e nodes ih =>
    obtain ⟨st₁, own, hm, hown, hp⟩ := walkNode_eq_ok (h e (by simp)) e.1 st
    obtain ⟨st₂, runs, hm', hruns, hp'⟩ := ih (fun e' he => h e' (by simp [he])) st₁
    refine ⟨st₂, own :: runs, (run_bind_of_eq_ok hm).trans hm', .cons hown hruns, ?_⟩
    rw [List.flatten_cons, ← List.append_assoc]
    exact hp'.trans (hp.append_right _)

theorem collect_of_walkNodes {nodes : List (String × List Block)} {st : State} {n : Nat}
    (h : (nodes.forM (fun (name, blocks) => walkNode table unnamed name blocks)).run
      ⟨.empty, [], []⟩ = .ok () st) (hsize : table.size = .ok n) :
    (collect table unnamed nodes).1 = .ok st.report := by
  have hall : ∃ log, (walkAll table unnamed nodes).run ⟨.empty, [], []⟩ =
      .ok () { st with log } := by
    rw [walkAll, run_bind_of_eq_ok h, hsize]
    show ∃ log, EStateM.run (if st.report.lineCount ≠ n then _ else _) st = _
    split
    · exact ⟨_, rfl⟩
    · exact ⟨_, rfl⟩
  obtain ⟨log, hall⟩ := hall
  rw [EStateM.run] at hall
  simp only [collect, hall]

theorem collect_of_error {nodes : List (String × List Block)} {st : State} {fault : LineFault}
    (h : (walkAll table unnamed nodes).run ⟨.empty, [], []⟩ = .error fault st) :
    (collect table unnamed nodes).1 = .error fault := by
  rw [EStateM.run] at h
  simp only [collect, h]

/-- Extraction succeeds and gives the runs of one tour over the blocks of each node. -/
theorem extract_eq_ok (ht : table.HoldsTexts) (default : Option String)
    {nodes : List (String × List Block)} (hb : ∀ e ∈ nodes, ∀ b ∈ e.2, b.Iterates) :
    ∃ report runs, extract table default nodes = .ok report ∧
      List.Forall₂ (fun e own => Collects e.2 own) nodes runs ∧
      report.lineIds.Perm runs.flatten := by
  have hs : ∀ e ∈ nodes, (⟨e.2, table, .ofDefault default⟩ : Setting).Sound := by
    intro e he
    exact ⟨hb e he, ht.exists_text, Unnamed.ofDefault_ne_refuse default⟩
  obtain ⟨st, runs, hm, hruns, hp⟩ := walkNodes_eq_ok hs ⟨.empty, [], []⟩
  obtain ⟨n, hsize⟩ := ht.exists_size
  exact ⟨st.report, runs, collect_of_walkNodes hm hsize, hruns, hp⟩

end LineRuns

end DialogueFlow
