import DialogueFlow.Proofs.Mute
import Mathlib.Data.Finset.Card

namespace DialogueFlow.LineRuns

variable {α β : Type} {s : Setting} {depth : Nat}

/-- What one call does, if it walks the blocks behind options by `call`. -/
def turn (s : Setting) (call : Option String → Block → Walk Unit) (opening : Option String)
    (b : Block) : Walk Unit := do
  let present ← hasContent b
  let st ← get
  if present && !st.visited.contains b.name then
    visit s (fun e => call (some e.1) e.2) opening b
  else pure ()

/-- The walk with at most `depth` calls open at once. A call inside of these is left to `deeper`,
which may do anything. -/
def walkDown (s : Setting) (deeper : Option String → Block → Walk Unit) :
    Nat → Option String → Block → Walk Unit
  | 0 => deeper
  | depth + 1 => turn s (walkDown s deeper depth)

theorem walk_succ (s : Setting) (depth : Nat) (opening : Option String) (b : Block) :
    walk s (depth + 1) opening b = turn s (walk s depth) opening b :=
  rfl

theorem walk_eq_walkDown (s : Setting) (depth : Nat) :
    walk s depth = walkDown s (fun _ _ => pure ()) depth := by
  induction depth with
  | zero =>
    funext opening b
    rfl
  | succ depth ih =>
    funext opening b
    rw [walk_succ, ih, walkDown]

theorem turn_of_nil {b : Block} (hb : b.content.elements = [])
    (call call' : Option String → Block → Walk Unit) (opening : Option String) :
    turn s call opening b = turn s call' opening b := by
  simp [turn, hasContent, hb]

theorem run_turn {b : Block} (hb : b.content.elements ≠ [])
    (call : Option String → Block → Walk Unit) (opening : Option String) (st : State) :
    (turn s call opening b).run st = if b.name ∈ st.visited then .ok () st
      else (visit s (fun e => call (some e.1) e.2) opening b).run st := by
  have hpresent : hasContent b = pure true := by
    rw [hasContent, if_neg (by simpa using hb)]
  by_cases hv : b.name ∈ st.visited
  · rw [turn, hpresent, if_pos hv]
    show EStateM.run (if _ then _ else _) st = _
    rw [if_neg (by simpa using hv)]
    rfl
  · rw [turn, hpresent, if_neg hv]
    show EStateM.run (if _ then _ else _) st = _
    rw [if_pos (by simpa using hv)]

def contentNames (blocks : List Block) : Finset String :=
  ((blocks.filter (fun b => !b.content.elements.isEmpty)).map Block.name).toFinset

theorem mem_contentNames {blocks : List Block} {name : String} :
    name ∈ contentNames blocks ↔ ∃ b ∈ blocks, b.content.elements ≠ [] ∧ b.name = name := by
  simp [contentNames, and_assoc]

theorem card_contentNames_le (blocks : List Block) :
    (contentNames blocks).card ≤ blocks.length := by
  calc (contentNames blocks).card
    _ ≤ ((blocks.filter (fun b => !b.content.elements.isEmpty)).map Block.name).length :=
      List.toFinset_card_le _
    _ = (blocks.filter (fun b => !b.content.elements.isEmpty)).length := List.length_map _
    _ ≤ blocks.length := List.length_filter_le _ _

def Setting.namesLeft (s : Setting) (visited : List String) : Nat :=
  (contentNames s.blocks \ visited.toFinset).card

theorem namesLeft_nil (s : Setting) : s.namesLeft [] = (contentNames s.blocks).card := by
  simp [Setting.namesLeft]

theorem namesLeft_le_of_subset {visited visited' : List String} (h : visited ⊆ visited') :
    s.namesLeft visited' ≤ s.namesLeft visited := by
  refine Finset.card_le_card (Finset.sdiff_subset_sdiff (Finset.Subset.refl _) ?_)
  intro name hname
  exact List.mem_toFinset.mpr (h (List.mem_toFinset.mp hname))

theorem namesLeft_cons_lt {b : Block} (hb : b ∈ s.blocks) (hc : b.content.elements ≠ [])
    {visited : List String} (hv : b.name ∉ visited) :
    s.namesLeft (b.name :: visited) < s.namesLeft visited := by
  have hname : b.name ∈ contentNames s.blocks \ visited.toFinset := by
    simpa [mem_contentNames, hv] using ⟨b, hb, hc, rfl⟩
  have herase : contentNames s.blocks \ (b.name :: visited).toFinset =
      (contentNames s.blocks \ visited.toFinset).erase b.name := by
    ext name
    simp only [List.toFinset_cons, Finset.mem_sdiff, Finset.mem_insert, Finset.mem_erase]
    tauto
  rw [Setting.namesLeft, herase]
  exact Finset.card_erase_lt_of_mem hname

/-- The two do the same in all states in which fewer than `depth` names are left. -/
def Same (s : Setting) (depth : Nat) (m m' : Walk α) : Prop :=
  ∀ st : State, s.namesLeft st.visited < depth → m.run st = m'.run st

theorem Same.refl (m : Walk α) : Same s depth m m := fun _ _ => rfl

theorem Same.bind {m m' : Walk α} {f f' : α → Walk β} {post : α → List String → Prop}
    (hm : Same s depth m m') (hg : Guarded s m' post)
    (hf : ∀ a visited, post a visited → Same s depth (f a) (f' a)) :
    Same s depth (m >>= f) (m' >>= f') := by
  intro st hd
  rw [EStateM.run_bind, EStateM.run_bind, hm st hd]
  cases hrun : m'.run st with
  | error fault st₁ => rfl
  | ok a st₁ =>
    obtain ⟨hmore, -, hpost⟩ := hg.ok hrun
    exact hf a _ hpost st₁ (Nat.lt_of_le_of_lt (namesLeft_le_of_subset hmore) hd)

theorem Same.next {m : Walk α} {f f' : α → Walk β} {post : α → List String → Prop}
    (hg : Guarded s m post) (hf : ∀ a visited, post a visited → Same s depth (f a) (f' a)) :
    Same s depth (m >>= f) (m >>= f') :=
  (Same.refl m).bind hg hf

theorem same_forM {enter enter' : α → Walk Unit} {xs : List α}
    (h : ∀ x ∈ xs, Same s depth (enter x) (enter' x))
    (hg : ∀ x ∈ xs, Guarded s (enter' x) (fun _ _ => True)) :
    Same s depth (xs.forM enter) (xs.forM enter') := by
  induction xs with
  | nil => exact .refl _
  | cons x xs ih =>
    exact (h x (by simp)).bind (hg x (by simp)) (fun _ _ _ =>
      ih (fun y hy => h y (by simp [hy])) (fun y hy => hg y (by simp [hy])))

section Enter

variable {enter enter' : String × Block → Walk Unit}
  (h : ∀ line, ∀ b ∈ s.blocks, Same s depth (enter (line, b)) (enter' (line, b)))
  (hg : ∀ line, ∀ b ∈ s.blocks, Guarded s (enter' (line, b)) (fun _ _ => True))

include h hg

theorem same_elements (run : List LineRecord) (es : List Element) :
    Same s depth (elements s enter run es) (elements s enter' run es) := by
  induction es generalizing run with
  | nil => exact .refl _
  | cons e es ih =>
    cases e with
    | line id => exact .next (guarded_record id) (fun _ _ _ => ih _)
    | command text => exact ih run
    | options items =>
      refine .next (guarded_addRun run) (fun _ _ _ => ?_)
      refine .next (guarded_followUps items) (fun targets _ hin => ?_)
      have hforM := same_forM (fun e he => h e.1 e.2 (hin e he)) (fun e he => hg e.1 e.2 (hin e he))
      have hguard := guarded_forM (P := fun _ _ => True) (fun _ _ _ _ _ => trivial)
        (fun e he => hg e.1 e.2 (hin e he))
      exact hforM.bind hguard (fun _ _ _ => ih [])

theorem run_visit_eq (opening : Option String) {b : Block} {st : State}
    (hd : s.namesLeft (b.name :: st.visited) < depth) :
    (visit s enter opening b).run st = (visit s enter' opening b).run st := by
  let marked (enter : String × Block → Walk Unit) : Walk Unit := do
    let head ← heading s opening
    let run ← elements s enter head b.content.elements
    finish b
    addRun run
  have hmarked : Same s depth (marked enter) (marked enter') := by
    refine .next (guarded_heading opening) (fun head _ _ => ?_)
    exact (same_elements h hg head _).bind (guarded_elements hg head _) (fun _ _ _ => .refl _)
  exact hmarked { st with visited := b.name :: st.visited } hd

end Enter

/-- As long as fewer than `depth` names are left, nothing is left to `deeper`. -/
theorem same_walkDown (deeper : Option String → Block → Walk Unit) (depth more : Nat)
    (opening : Option String) {b : Block} (hb : b ∈ s.blocks) :
    Same s depth (walkDown s deeper depth opening b) (walk s (depth + more) opening b) := by
  induction depth generalizing opening b with
  | zero => exact fun _ hd => absurd hd (Nat.not_lt_zero _)
  | succ depth ih =>
    rw [walkDown, Nat.add_right_comm, walk_succ]
    by_cases hc : b.content.elements = []
    · rw [turn_of_nil hc _ (walk s (depth + more))]
      exact .refl _
    · intro st hd
      rw [run_turn hc, run_turn hc]
      by_cases hv : b.name ∈ st.visited
      · rw [if_pos hv, if_pos hv]
      · rw [if_neg hv, if_neg hv]
        -- The block marks its name, so that one name less is left to the calls inside of it.
        have hless := namesLeft_cons_lt hb hc hv
        refine run_visit_eq (fun line d hd => ih (some line) hd) (fun line d hd => ?_) opening
          (Nat.lt_of_lt_of_le hless (Nat.le_of_lt_succ hd))
        exact (guarded_walk (depth + more) (some line) hd).imp (fun _ _ _ => trivial)

variable {blocks : List Block} {table : StringTable}

theorem Tour.toFinset_after {visits : List Call}
    (h : Tour blocks [] (blocks.map Call.ofBlock) visits) :
    (after [] visits).toFinset = contentNames blocks := by
  ext name
  rw [List.mem_toFinset, mem_contentNames]
  apply Iff.intro
  · intro hname
    obtain ⟨v, hv, rfl⟩ : ∃ v ∈ visits, v.name = name := by simpa [after] using hname
    exact ⟨v.block, h.mem_blocks (by simp [Call.ofBlock]) hv, h.content v hv, rfl⟩
  · rintro ⟨b, hb, hc, rfl⟩
    exact h.closed.1 (.ofBlock b) (List.mem_map_of_mem hb) hc

theorem same_blocks (unnamed : Unnamed) (deeper : Option String → Block → Walk Unit) :
    Same ⟨blocks, table, unnamed⟩ ((contentNames blocks).card + 1)
      (blocks.forM (walkDown ⟨blocks, table, unnamed⟩ deeper ((contentNames blocks).card + 1) none))
      (blocks.forM (walk ⟨blocks, table, unnamed⟩ (blocks.length + 1) none)) := by
  obtain ⟨more, hmore⟩ := Nat.exists_eq_add_of_le (card_contentNames_le blocks)
  have hlength : blocks.length + 1 = (contentNames blocks).card + 1 + more := by omega
  refine same_forM (fun b hb => ?_) (fun b hb => ?_)
  · rw [hlength]
    exact same_walkDown deeper _ more none hb
  · exact (guarded_walk _ none hb).imp (fun _ _ _ => trivial)

/-- The walk over a node ends with at most one call more open at once than blocks with content have
names: what calls inside of these would do makes no difference. It goes through blocks of different
names, writes down their runs, and has marked the names of all blocks with content. -/
theorem walk_nested_within (hb : ∀ b ∈ blocks, b.Iterates) (ht : table.HoldsTexts)
    (default : Option String) (st : State) :
    let s : Setting := ⟨blocks, table, .ofDefault default⟩
    ∃ st', (∀ deeper, (blocks.forM (walkDown s deeper ((contentNames blocks).card + 1) none)).run
        { st with visited := [] } = .ok () st') ∧
      (∀ name, ∃ log, (walkNode table (.ofDefault default) name blocks).run st =
        .ok () { st' with log }) ∧
      (∃ visits : List Call, (∀ v ∈ visits, v.block ∈ blocks) ∧ (visits.map Call.name).Nodup ∧
        st'.visited = (visits.map Call.name).reverse ∧
        st'.report.lineIds.Perm (st.report.lineIds ++ visits.flatMap (Call.runs blocks))) ∧
      st'.visited.toFinset = contentNames blocks := by
  intro s
  have hsound : s.Sound := ⟨hb, ht.exists_text, by cases default <;> simp [s, Unnamed.ofDefault]⟩
  have hleft : s.unvisited [] < blocks.length + 1 := Nat.lt_succ_of_le List.countP_le_length
  obtain ⟨_, st', visits, _, hrun, rfl, htour, hvisited, hruns⟩ :=
    performs_forM (fun b hb => performs_walk hsound (blocks.length + 1) none hb)
      { st with visited := [] } hleft
  have hin : ∀ v ∈ visits, v.block ∈ blocks := fun v => htour.mem_blocks (by simp)
  have hnames : st'.visited = (visits.map Call.name).reverse := by
    simpa [after] using hvisited
  refine ⟨st', fun deeper => ?_, fun name => ?_, ⟨visits, hin, ?_, hnames, ?_⟩, ?_⟩
  · rw [same_blocks (.ofDefault default) deeper _ (by simp [namesLeft_nil]), hrun]
  · have hreset : (modify (fun st => { st with visited := [] }) : Walk Unit).run st =
        .ok () { st with visited := [] } := rfl
    exact ⟨_, (run_bind_of_eq_ok hreset).trans ((run_bind_of_eq_ok hrun).trans rfl)⟩
  · have hnodup := htour.nodup List.nodup_nil
    rwa [← hvisited, hnames, List.nodup_reverse] at hnodup
  · simpa using hruns
  · rw [hvisited]
    exact htour.toFinset_after

def carousel : List Block := [
  ⟨"Ride", 0, none, [
    ⟨.runLine, [.string "line:enter"]⟩,
    ⟨.addOption, [.string "line:left", .string "Left"]⟩,
    ⟨.showOptions, []⟩]⟩,
  ⟨"Ride", 3, some "Left", [
    ⟨.addOption, [.string "line:right", .string "Right"]⟩,
    ⟨.showOptions, []⟩]⟩,
  ⟨"Ride", 5, some "Right", [
    ⟨.addOption, [.string "line:left", .string "Left"]⟩,
    ⟨.addOption, [.string "line:off", .string "Exit"]⟩,
    ⟨.showOptions, []⟩]⟩,
  ⟨"Ride", 8, some "Left", [⟨.runLine, [.string "line:again"]⟩]⟩,
  ⟨"Ride", 9, some "Exit", [⟨.stop, []⟩]⟩]

theorem walk_nested_within_carousel :
    let s : Setting := ⟨carousel, .empty, .keep⟩
    (contentNames carousel).card = 3 ∧ (∀ b ∈ carousel, b.Iterates) ∧
      StringTable.empty.HoldsTexts ∧ ∃ st',
        (∀ deeper, (carousel.forM (walkDown s deeper 4 none)).run ⟨.empty, [], []⟩ =
          .ok () st') ∧ st'.visited.toFinset = contentNames carousel := by
  intro s
  have hcard : (contentNames carousel).card = 3 := by decide +kernel
  have hb : ∀ b ∈ carousel, b.Iterates := by decide +kernel
  have ht : StringTable.empty.HoldsTexts := ⟨[], rfl, by simp⟩
  obtain ⟨st', hrun, -, -, hvisited⟩ := walk_nested_within hb ht none ⟨.empty, [], []⟩
  rw [hcard] at hrun
  exact ⟨hcard, hb, ht, st', hrun, hvisited⟩

end DialogueFlow.LineRuns
