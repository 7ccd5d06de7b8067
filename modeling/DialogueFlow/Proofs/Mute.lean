import DialogueFlow.Proofs.Acceptance
import DialogueFlow.Proofs.Walk

namespace DialogueFlow

def Opcode.telling : List Opcode := [.runLine, .runCommand, .addOption]

/-- The text to be shown cannot be read, and `fault` says why. -/
def Instruction.Mute (i : Instruction) (fault : Fault) : Prop :=
  i.opcode ∈ Opcode.telling ∧ i.stringOperand 0 = .error fault

namespace Content

theorem ending_cons (pending : List OptionItem) (i : Instruction) (rest : List Instruction) :
    (∃ fault, (ofInstructions pending (i :: rest)).ending = .error fault ∧
      (i.Mute fault ∨ i.opcode = .addOption ∧ i.stringOperand 1 = .error fault)) ∨
    ∃ pending', (ofInstructions pending (i :: rest)).ending =
      (ofInstructions pending' rest).ending ∧ ∀ fault, ¬ i.Mute fault := by
  have htold : ∀ {text}, i.stringOperand 0 = .ok text → ∀ fault, ¬ i.Mute fault := by
    intro text h fault hmute
    cases h.symm.trans hmute.2
  rw [ofInstructions.eq_def]
  dsimp only
  split
  · next ho =>
    split
    · next h => exact .inr ⟨pending, rfl, htold h⟩
    · next h => exact .inl ⟨_, rfl, .inl ⟨by simp [ho, Opcode.telling], h⟩⟩
  · next ho =>
    split
    · next h => exact .inr ⟨pending, rfl, htold h⟩
    · next h => exact .inl ⟨_, rfl, .inl ⟨by simp [ho, Opcode.telling], h⟩⟩
  · next ho =>
    split
    · next h _ => exact .inr ⟨_, rfl, htold h⟩
    · next h => exact .inl ⟨_, rfl, .inl ⟨by simp [ho, Opcode.telling], h⟩⟩
    · next h => exact .inl ⟨_, rfl, .inr ⟨ho, h⟩⟩
  · next ho =>
    exact .inr ⟨[], rfl, fun fault hm => by simp [Instruction.Mute, Opcode.telling, ho] at hm⟩
  · next hline hcommand hoption _ =>
    refine .inr ⟨pending, rfl, fun fault hm => ?_⟩
    have ho : i.opcode = .runLine ∨ i.opcode = .runCommand ∨ i.opcode = .addOption := by
      simpa [Opcode.telling] using hm.1
    obtain ho | ho | ho := ho
    · exact hline ho
    · exact hcommand ho
    · exact hoption ho

variable {pending : List OptionItem} {instructions : List Instruction} {fault : Fault}

theorem exists_of_ending_eq_error
    (h : (ofInstructions pending instructions).ending = .error fault) :
    ∃ i ∈ instructions,
      i.Mute fault ∨ i.opcode = .addOption ∧ i.stringOperand 1 = .error fault := by
  induction instructions generalizing pending with
  | nil => cases h
  | cons i rest ih =>
    obtain ⟨fault', hend, hi⟩ | ⟨pending', hend, -⟩ := ending_cons pending i rest
    · cases hend.symm.trans h
      exact ⟨i, by simp, hi⟩
    · obtain ⟨j, hj, hfault⟩ := ih (hend.symm.trans h)
      exact ⟨j, by simp [hj], hfault⟩

theorem exists_ending_of_mute (pending : List OptionItem) {i : Instruction}
    (hi : i ∈ instructions) (hmute : i.Mute fault) :
    ∃ fault', (ofInstructions pending instructions).ending = .error fault' := by
  induction instructions generalizing pending with
  | nil => cases hi
  | cons j rest ih =>
    obtain ⟨fault', hend, -⟩ | ⟨pending', hend, hnone⟩ := ending_cons pending j rest
    · exact ⟨fault', hend⟩
    · obtain rfl | hi := List.mem_cons.mp hi
      · exact absurd hmute (hnone fault)
      · rw [hend]
        exact ih pending' hi

end Content

namespace Node

variable {node : Node} {f : Flow} {fault : Fault}

def Mute (node : Node) (fault : Fault) : Prop :=
  (∃ f, node.flow = .ok f) ∧ ∃ i ∈ node.instructions, i.Mute fault

theorem supplied_of_flow (hf : node.flow = .ok f) {i : Instruction} (hi : i ∈ node.instructions) :
    i.IsSupplied := by
  obtain ⟨hl, hlink, -⟩ := flow_eq_ok_iff.mp hf
  exact ((link_fault_iff_continues (hl (List.ne_nil_of_mem hi))).mp hlink).1 i hi

theorem mem_instructions_iff {i : Instruction} :
    i ∈ node.instructions ↔ ∃ b ∈ node.cut, i ∈ b.instructions := by
  apply Iff.intro
  · intro hi
    obtain ⟨p, hp⟩ := List.mem_iff_getElem?.mp hi
    obtain ⟨s, e, hseg, hs, he⟩ := exists_segment_at (List.getElem?_eq_some_iff.mp hp).1
    exact ⟨_, slice_mem_cut hseg, mem_slice hs he hp⟩
  · rintro ⟨b, hb, hi⟩
    obtain ⟨s, e, -, rfl⟩ := exists_segment hb
    exact List.mem_of_mem_drop (List.mem_of_mem_take hi)

/-- The content of a block of a flow breaks off at a mute instruction only, as linking has read the
label of each option. -/
theorem mute_of_ending_eq_error (hf : node.flow = .ok f) {b : Block} (hb : b ∈ f.blocks)
    (h : b.content.ending = .error fault) : node.Mute fault := by
  obtain ⟨i, hi, hfault⟩ := Content.exists_of_ending_eq_error h
  rw [(linked_of_flow hf).blocks] at hb
  have hi := mem_instructions_iff.mpr ⟨b, hb, hi⟩
  obtain hmute | ⟨hoption, hlabel⟩ := hfault
  · exact ⟨⟨f, hf⟩, i, hi, hmute⟩
  · obtain ⟨label, hs⟩ := (supplied_of_flow hf hi).1 hoption
    cases ((i.stringOperand_eq_ok_iff 1 label).mpr hs).symm.trans hlabel

theorem Mute.exists_block (h : node.Mute fault) (hf : node.flow = .ok f) :
    ∃ b ∈ f.blocks, ¬ b.Iterates := by
  obtain ⟨-, i, hi, hmute⟩ := h
  obtain ⟨b, hb, hi⟩ := mem_instructions_iff.mp hi
  obtain ⟨fault', hend⟩ := Content.exists_ending_of_mute [] hi hmute
  refine ⟨b, (linked_of_flow hf).blocks ▸ hb, ?_⟩
  rintro ⟨unshown, hok⟩
  cases hok.symm.trans hend

end Node

def Program.Mute (p : Program) (fault : Fault) : Prop := ∃ node ∈ p.nodes.values, node.Mute fault

namespace LineRuns

variable {α β : Type} {s : Setting}

structure Setting.Readable (s : Setting) : Prop where
  texts : ∀ id, ∃ text, s.table.text id = .ok text
  unnamed : s.unnamed ≠ .refuse

def Setting.Cleared (s : Setting) (name : String) : Prop :=
  ∃ b ∈ s.blocks, b.name = name ∧ b.Iterates

/-- What a walk can fail with: the fault of a block, or something about a line. -/
def Setting.Blames (s : Setting) (fault : LineFault) : Prop :=
  (∃ b ∈ s.blocks, ∃ f, b.content.ending = .error f ∧ fault = .content f) ∨
    ¬ s.Readable ∧ ∀ f, fault ≠ .content f

/-- Where `m` succeeds, it has visited more names, all of blocks that can be gone through, and
`post` holds of its result and the names. Where it fails, it has a reason. -/
structure Guarded (s : Setting) (m : Walk α) (post : α → List String → Prop) : Prop where
  ok : ∀ {st a st'}, m.run st = .ok a st' → st.visited ⊆ st'.visited ∧
    (∀ name ∈ st'.visited, name ∈ st.visited ∨ s.Cleared name) ∧ post a st'.visited
  error : ∀ {st fault st'}, m.run st = .error fault st' → s.Blames fault

section Rules

variable {m : Walk α} {f : α → Walk β} {post : α → List String → Prop}
  {post' : β → List String → Prop}

theorem Guarded.imp {goal : α → List String → Prop} (hm : Guarded s m post)
    (h : ∀ a visited, post a visited → goal a visited) : Guarded s m goal where
  ok hrun := ⟨(hm.ok hrun).1, (hm.ok hrun).2.1, h _ _ (hm.ok hrun).2.2⟩
  error := hm.error

theorem Guarded.bind (hm : Guarded s m post)
    (hf : ∀ a visited, post a visited → Guarded s (f a) post') :
    Guarded s (m >>= f) (fun b visited =>
      post' b visited ∧ ∃ a earlier, earlier ⊆ visited ∧ post a earlier) where
  ok := by
    intro st b st' h
    rw [EStateM.run_bind] at h
    cases hrun : m.run st with
    | error fault st₁ =>
      rw [hrun] at h
      cases h
    | ok a st₁ =>
      rw [hrun] at h
      obtain ⟨hmore, hcleared, hpost⟩ := hm.ok hrun
      obtain ⟨hmore', hcleared', hpost'⟩ := (hf a _ hpost).ok h
      refine ⟨List.Subset.trans hmore hmore', fun name hname => ?_, hpost', a, _, hmore', hpost⟩
      obtain hname | hname := hcleared' name hname
      · exact hcleared name hname
      · exact .inr hname
  error := by
    intro st fault st' h
    rw [EStateM.run_bind] at h
    cases hrun : m.run st with
    | error fault₁ st₁ =>
      rw [hrun] at h
      cases h
      exact hm.error hrun
    | ok a st₁ =>
      rw [hrun] at h
      exact (hf a _ (hm.ok hrun).2.2).error h

theorem Guarded.next (hm : Guarded s m post)
    (hf : ∀ a visited, post a visited → Guarded s (f a) post') : Guarded s (m >>= f) post' :=
  (hm.bind hf).imp (fun _ _ h => h.1)

theorem guarded_of_quiet {P : α → Prop}
    (h : ∀ st, ∃ a st', m.run st = .ok a st' ∧ P a ∧ st'.visited = st.visited) :
    Guarded s m (fun a _ => P a) where
  ok := by
    intro st a st' hrun
    obtain ⟨a', st₁, hrun', ha, hsame⟩ := h st
    cases hrun'.symm.trans hrun
    rw [hsame]
    exact ⟨List.Subset.refl _, fun _ => .inl, ha⟩
  error := by
    intro st fault st' hrun
    obtain ⟨a, st₁, hrun', -⟩ := h st
    cases hrun'.symm.trans hrun

theorem guarded_pure {P : α → Prop} {a : α} (h : P a) : Guarded s (pure a) (fun a _ => P a) :=
  guarded_of_quiet (fun st => ⟨a, st, rfl, h, rfl⟩)

theorem guarded_throw {fault : LineFault} (h : s.Blames fault) :
    Guarded s (throw fault : Walk α) post where
  ok h := by cases h
  error h' := by
    cases h'
    exact h

/-- What stays true as more names are visited is true of all in the end. -/
theorem guarded_forM {enter : α → Walk Unit} {P : α → List String → Prop} {xs : List α}
    (hmore : ∀ x visited visited', visited ⊆ visited' → P x visited → P x visited')
    (h : ∀ x ∈ xs, Guarded s (enter x) (fun _ => P x)) :
    Guarded s (xs.forM enter) (fun _ visited => ∀ x ∈ xs, P x visited) := by
  induction xs with
  | nil => exact (guarded_pure (P := fun _ => True) trivial).imp (by simp)
  | cons x xs ih =>
    refine ((h x (by simp)).bind (fun _ _ _ => ih (fun y hy => h y (by simp [hy])))).imp ?_
    rintro _ visited ⟨hrest, _, earlier, hsub, hx⟩
    exact List.forall_mem_cons.mpr ⟨hmore x _ _ hsub hx, hrest⟩

end Rules

theorem guarded_modifyReport (change : LineReport → LineReport) :
    Guarded s (modifyReport change) (fun _ _ => True) :=
  guarded_of_quiet (fun _ => ⟨(), _, rfl, trivial, rfl⟩)

theorem guarded_addRun (run : List LineRecord) : Guarded s (addRun run) (fun _ _ => True) := by
  rw [addRun]
  split
  · exact guarded_pure trivial
  · exact guarded_modifyReport _

theorem guarded_noteUnshown (b : Block) (options : List OptionItem) :
    Guarded s (noteUnshown b options) (fun _ _ => True) := by
  rw [noteUnshown]
  split
  · exact guarded_pure trivial
  · exact guarded_of_quiet (fun _ => ⟨(), _, rfl, trivial, rfl⟩)

theorem text_ne_content {table : StringTable} {id : String} {fault : LineFault}
    (h : table.text id = .error fault) (f : Fault) : fault ≠ .content f := by
  rw [StringTable.text] at h
  split at h
  · split at h
    · cases h
    · cases h
    · cases h
      simp
  · cases h
    simp

theorem guarded_text (id : String) : Guarded s (lift (s.table.text id)) (fun _ _ => True) := by
  cases ht : s.table.text id with
  | error fault =>
    refine guarded_throw (.inr ⟨fun h => ?_, text_ne_content ht⟩)
    obtain ⟨text, htext⟩ := h.texts id
    cases htext.symm.trans ht
  | ok text => exact guarded_pure trivial

theorem guarded_record (id : String) : Guarded s (record s id) (fun _ _ => True) := by
  have hreturn : ∀ (change : LineReport → LineReport) (r : LineRecord),
      Guarded s (do modifyReport change; return r) (fun _ _ => True) :=
    fun change r => (guarded_modifyReport change).next (fun _ _ _ => guarded_pure trivial)
  refine (guarded_text id).next (fun text _ _ => ?_)
  split
  · exact hreturn _ _
  · exact hreturn _ _
  · exact hreturn _ _
  · next hu => exact guarded_throw (.inr ⟨fun h => h.unnamed hu, by simp⟩)

theorem guarded_finish {b : Block} (hb : b ∈ s.blocks) :
    Guarded s (finish b) (fun _ _ => b.Iterates) := by
  rw [finish]
  cases he : b.content.ending with
  | ok unshown => exact (guarded_noteUnshown b unshown).imp (fun _ _ _ => ⟨unshown, he⟩)
  | error f => exact guarded_throw (.inl ⟨b, hb, f, he, rfl⟩)

theorem guarded_hasContent {b : Block} (hb : b ∈ s.blocks) :
    Guarded s (hasContent b) (fun present _ => present = false → b.Iterates) := by
  rw [hasContent]
  split
  · exact (guarded_finish hb).next (fun _ _ h => guarded_pure (fun _ => h))
  · exact guarded_pure (by simp)

theorem guarded_target (label : String) :
    Guarded s (target s label) (fun b? _ => ∀ b ∈ b?, b ∈ s.blocks) := by
  rw [target]
  cases hl : s.labelled? label with
  | none => exact guarded_pure (by simp)
  | some b =>
    have hb := List.mem_of_find?_eq_some hl
    refine (guarded_hasContent hb).next (fun present _ _ => guarded_pure ?_)
    cases present <;> simp [hb]

theorem guarded_followUps (items : List OptionItem) :
    Guarded s (followUps s items) (fun targets _ => ∀ e ∈ targets, e.2 ∈ s.blocks) := by
  induction items with
  | nil => exact guarded_pure (by simp)
  | cons item items ih =>
    rw [followUps]
    refine (guarded_target item.destination).next (fun b? _ hb => ?_)
    split
    · next b =>
      exact ih.next (fun later _ h => guarded_pure (List.forall_mem_cons.mpr ⟨hb b rfl, h⟩))
    · exact (guarded_record item.line).next (fun _ _ _ => (guarded_addRun _).next (fun _ _ _ => ih))

theorem guarded_elements {enter : String × Block → Walk Unit}
    (henter : ∀ line, ∀ b ∈ s.blocks, Guarded s (enter (line, b)) (fun _ _ => True))
    (run : List LineRecord) (es : List Element) :
    Guarded s (elements s enter run es) (fun _ _ => True) := by
  induction es generalizing run with
  | nil => exact guarded_pure trivial
  | cons e es ih =>
    cases e with
    | line id => exact (guarded_record id).next (fun _ _ _ => ih _)
    | command text => exact ih run
    | options items =>
      refine (guarded_addRun run).next (fun _ _ _ => (guarded_followUps items).next
        (fun targets _ hin => ?_))
      have hforM := guarded_forM (P := fun _ _ => True) (fun _ _ _ _ _ => trivial)
        (fun e he => henter e.1 e.2 (hin e he))
      exact hforM.next (fun _ _ _ => ih [])

theorem guarded_heading (opening : Option String) :
    Guarded s (heading s opening) (fun _ _ => True) := by
  rw [heading]
  cases opening.filter (· ≠ "") with
  | none => exact guarded_pure trivial
  | some id => exact (guarded_record id).next (fun _ _ _ => guarded_pure trivial)

theorem guarded_visit {enter : String × Block → Walk Unit}
    (henter : ∀ line, ∀ b ∈ s.blocks, Guarded s (enter (line, b)) (fun _ _ => True))
    (opening : Option String) {b : Block} (hb : b ∈ s.blocks) :
    Guarded s (visit s enter opening b) (fun _ visited => b.name ∈ visited) := by
  let marked : Walk Unit := do
    let head ← heading s opening
    let run ← elements s enter head b.content.elements
    finish b
    addRun run
  have hmarked : Guarded s marked (fun _ _ => b.Iterates) :=
    (guarded_heading opening).next (fun head _ _ => (guarded_elements henter head _).next
      (fun run _ _ => (guarded_finish hb).next (fun _ _ h => (guarded_addRun run).imp
        (fun _ _ _ => h))))
  constructor
  case ok =>
    intro st a st' h
    replace h : marked.run { st with visited := b.name :: st.visited } = .ok a st' := h
    obtain ⟨hmore, hcleared, hiterates⟩ := hmarked.ok h
    obtain ⟨hname, hmore⟩ := List.cons_subset.mp hmore
    refine ⟨hmore, fun name hn => ?_, hname⟩
    obtain hn | hn := hcleared name hn
    · obtain rfl | hn := List.mem_cons.mp hn
      · exact .inr ⟨b, hb, rfl, hiterates⟩
      · exact .inl hn
    · exact .inr hn
  case error =>
    intro st fault st' h
    replace h : marked.run { st with visited := b.name :: st.visited } = .error fault st' := h
    exact hmarked.error h

theorem guarded_walk (depth : Nat) (opening : Option String) {b : Block} (hb : b ∈ s.blocks) :
    Guarded s (walk s depth opening b)
      (fun _ visited => depth = 0 ∨ b.Iterates ∨ b.name ∈ visited) := by
  induction depth generalizing opening b with
  | zero => exact (guarded_pure (P := fun _ => True) trivial).imp (fun _ _ _ => .inl rfl)
  | succ depth ih =>
    rw [walk]
    refine (guarded_hasContent hb).next (fun present _ hpresent => ?_)
    let enter : String × Block → Walk Unit := fun e => walk s depth (some e.1) e.2
    have hvisit : Guarded s (visit s enter opening b) (fun _ visited => b.name ∈ visited) :=
      guarded_visit (fun line b hb => (ih (some line) hb).imp (fun _ _ _ => trivial)) opening hb
    constructor
    case ok =>
      intro st a st' h
      replace h : (if present && !st.visited.contains b.name then visit s enter opening b
        else pure ()).run st = .ok a st' := h
      split at h
      · obtain ⟨hmore, hcleared, hname⟩ := hvisit.ok h
        exact ⟨hmore, hcleared, .inr (.inr hname)⟩
      · next hstay =>
        cases h
        refine ⟨List.Subset.refl _, fun _ => .inl, .inr ?_⟩
        cases present with
        | false => exact .inl (hpresent rfl)
        | true => exact .inr (by simpa using hstay)
    case error =>
      intro st fault st' h
      replace h : (if present && !st.visited.contains b.name then visit s enter opening b
        else pure ()).run st = .error fault st' := h
      split at h
      · exact hvisit.error h
      · cases h

variable {table : StringTable} {unnamed : Unnamed} {nodes : List (String × List Block)}

theorem guarded_blocks (blocks : List Block) :
    Guarded ⟨blocks, table, unnamed⟩
      (blocks.forM (walk ⟨blocks, table, unnamed⟩ (blocks.length + 1) none))
      (fun _ visited => ∀ b ∈ blocks, b.Iterates ∨ b.name ∈ visited) := by
  apply guarded_forM
  · rintro b visited visited' hsub (hb | hb)
    · exact .inl hb
    · exact .inr (hsub hb)
  · exact fun b hb => (guarded_walk (blocks.length + 1) none hb).imp (by simp)

/-- A walk over a node that succeeds has come by every block, if their names are distinct. -/
theorem walkNode_cases (name : String) (blocks : List Block) (st : State) :
    (∃ st', (walkNode table unnamed name blocks).run st = .ok () st' ∧
      ((blocks.map Block.name).Nodup → ∀ b ∈ blocks, b.Iterates)) ∨
    ∃ fault st', (walkNode table unnamed name blocks).run st = .error fault st' ∧
      (⟨blocks, table, unnamed⟩ : Setting).Blames fault := by
  have hreset : (modify (fun st => { st with visited := [] }) : Walk Unit).run st =
      .ok () { st with visited := [] } := rfl
  cases hrun : (blocks.forM (walk ⟨blocks, table, unnamed⟩ (blocks.length + 1) none)).run
      { st with visited := [] } with
  | error fault st₁ =>
    exact .inr ⟨fault, st₁, (run_bind_of_eq_ok hreset).trans (run_bind_of_eq_error hrun),
      (guarded_blocks blocks).error hrun⟩
  | ok a st₁ =>
    refine .inl ⟨_, (run_bind_of_eq_ok hreset).trans ((run_bind_of_eq_ok hrun).trans rfl),
      fun hnames b hb => ?_⟩
    obtain ⟨-, hcleared, hall⟩ := (guarded_blocks blocks).ok hrun
    obtain hiterates | hname := hall b hb
    · exact hiterates
    · obtain hname | ⟨c, hc, hsame, hiterates⟩ := hcleared b.name hname
      · cases hname
      · rwa [← List.inj_on_of_nodup_map hnames hc hb hsame]

theorem walkNodes_cases (table : StringTable) (unnamed : Unnamed)
    (nodes : List (String × List Block)) (st : State) :
    (∃ st', (nodes.forM (fun (name, blocks) => walkNode table unnamed name blocks)).run st =
        .ok () st' ∧ ∀ e ∈ nodes, (e.2.map Block.name).Nodup → ∀ b ∈ e.2, b.Iterates) ∨
    ∃ fault st', (nodes.forM (fun (name, blocks) => walkNode table unnamed name blocks)).run st =
        .error fault st' ∧ ∃ e ∈ nodes, (⟨e.2, table, unnamed⟩ : Setting).Blames fault := by
  induction nodes generalizing st with
  | nil => exact .inl ⟨st, rfl, by simp⟩
  | cons e nodes ih =>
    obtain ⟨st₁, hrun, hfirst⟩ | ⟨fault, st₁, hrun, hblames⟩ := walkNode_cases e.1 e.2 st
    · obtain ⟨st₂, hrest, hall⟩ | ⟨fault, st₂, hrest, e', he', hblames⟩ := ih st₁
      · exact .inl ⟨st₂, (run_bind_of_eq_ok hrun).trans hrest,
          List.forall_mem_cons.mpr ⟨hfirst, hall⟩⟩
      · exact .inr ⟨fault, st₂, (run_bind_of_eq_ok hrun).trans hrest, e', by simp [he'], hblames⟩
    · exact .inr ⟨fault, st₁, run_bind_of_eq_error hrun, e, by simp, hblames⟩

theorem size_eq_error {table : StringTable} {fault : LineFault} (h : table.size = .error fault) :
    (∀ f, fault ≠ .content f) ∧ ¬ table.HoldsTexts := by
  apply And.intro
  · rw [StringTable.size] at h
    split at h <;> cases h
    simp
  · rintro ⟨entries, hd, -⟩
    simp [StringTable.size, hd] at h

/-- How collecting line runs ends, whatever the table is: with a report, with the fault of a block,
or with something about a line or the table. -/
theorem collect_cases (table : StringTable) (unnamed : Unnamed)
    (nodes : List (String × List Block)) :
    (∃ report, (collect table unnamed nodes).1 = .ok report ∧
      ∀ e ∈ nodes, (e.2.map Block.name).Nodup → ∀ b ∈ e.2, b.Iterates) ∨
    (∃ f, (collect table unnamed nodes).1 = .error (.content f) ∧
      ∃ e ∈ nodes, ∃ b ∈ e.2, b.content.ending = .error f) ∨
    ∃ fault, (collect table unnamed nodes).1 = .error fault ∧ (∀ f, fault ≠ .content f) ∧
      ¬ (table.HoldsTexts ∧ unnamed ≠ .refuse) := by
  obtain ⟨st, hrun, hall⟩ | ⟨fault, st, hrun, e, he, hblames⟩ :=
    walkNodes_cases table unnamed nodes ⟨.empty, [], []⟩
  · cases hsize : table.size with
    | error fault =>
      have hend : (walkAll table unnamed nodes).run ⟨.empty, [], []⟩ = .error fault st := by
        rw [walkAll, run_bind_of_eq_ok hrun, hsize]
        rfl
      obtain ⟨hother, hno⟩ := size_eq_error hsize
      exact .inr (.inr ⟨fault, collect_of_error hend, hother, fun h => hno h.1⟩)
    | ok n => exact .inl ⟨st.report, collect_of_walkNodes hrun hsize, hall⟩
  · have hend := collect_of_error (run_bind_of_eq_error hrun)
    obtain ⟨b, hb, f, hf, rfl⟩ | ⟨hreadable, hother⟩ := hblames
    · exact .inr (.inl ⟨f, hend, e, he, b, hb, hf⟩)
    · exact .inr (.inr ⟨fault, hend, hother, fun h => hreadable ⟨h.1.exists_text, h.2⟩⟩)

end LineRuns

end DialogueFlow
