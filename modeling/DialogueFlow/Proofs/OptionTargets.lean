import DialogueFlow.Proofs.Analysis
import DialogueFlow.Proofs.OptionLines

namespace DialogueFlow

namespace Node

variable {node : Node} {label : String} {k : Int} {b : Block}

/-- The block to which jumps to a label lead. -/
def jumpTarget? (node : Node) (label : String) : Option Block :=
  (node.index.labelled label).toOption.map node.unlinked.block

theorem jumpTarget?_eq_some_iff :
    node.jumpTarget? label = some b ↔
      ∃ k, node.labels.get? label = some k ∧ b ∈ node.cut ∧ b.first = k := by
  have hlabelled := node.index_finds.labelled label
  simp only [node.unlinked_apart.startsAt_iff] at hlabelled
  rw [jumpTarget?, Option.map_eq_some_iff]
  apply Iff.intro
  · rintro ⟨j, hj, rfl⟩
    have hok : node.index.labelled label = .ok j := by
      cases h : node.index.labelled label <;> simp_all [Except.toOption]
    obtain ⟨k, hk, hfirst⟩ := (hlabelled j).mp hok
    exact ⟨k, hk, node.block_unlinked_mem j, hfirst⟩
  · rintro ⟨k, hk, hb, hfirst⟩
    obtain ⟨j, rfl⟩ := List.mem_iff_get.mp hb
    have hblock : node.unlinked.block j = node.cut.get j := Graph.block_ofBlocks _ j
    have hok := (hlabelled j).mpr ⟨k, hk, hblock ▸ hfirst⟩
    exact ⟨j, by rw [hok]; rfl, hblock⟩

theorem exists_jumpTarget? (hn : ∀ e ∈ node.labels.entries, node.Holds e.2)
    (hl : node.labels.get? label = some k) :
    ∃ b ∈ node.cut, b.first = k ∧ node.jumpTarget? label = some b := by
  have he := Table.mem_entries_of_get? hl
  have hfirst := (mem_map_first_cut k).mpr (exists_leads_of_label he (hn _ he))
  obtain ⟨b, hb, hk⟩ := List.mem_map.mp hfirst
  exact ⟨b, hb, hk, jumpTarget?_eq_some_iff.mpr ⟨k, hl, hb, hk⟩⟩

theorem jumpTarget?_of_label (hb : b ∈ node.cut) (hl : b.label = some label) :
    node.jumpTarget? label = some b := by
  rw [label_of_mem_cut hb, labelAt?_eq_some_iff] at hl
  obtain ⟨earlier, later, he, -⟩ := hl
  have hk : node.labels.get? label = some b.first := by
    rw [Table.get?_eq_some_iff, he]
    simp
  exact jumpTarget?_eq_some_iff.mpr ⟨b.first, hk, hb, rfl⟩

theorem label_iff_firstLabel (hl : node.labels.get? label = some k)
    (hb : node.jumpTarget? label = some b) : b.label = some label ↔ node.FirstLabel label k := by
  obtain ⟨k', hk', hm, hfirst⟩ := jumpTarget?_eq_some_iff.mp hb
  rw [hl, Option.some.injEq] at hk'
  rw [label_of_mem_cut hm, hfirst, ← hk', labelAt?_eq_some_iff]

end Node

namespace LineRuns

variable {node : Node} {label : String} {k : Int} {s : Setting}

theorem labelled?_eq_filter (hs : s.blocks = node.cut) (label : String) :
    s.labelled? label = (node.jumpTarget? label).filter (fun b => b.label = some label) := by
  rw [Setting.labelled?, hs]
  cases hfind : node.cut.find? (fun b => b.label == some label) with
  | some b =>
    have hlabel : b.label = some label := by simpa using List.find?_some hfind
    rw [Node.jumpTarget?_of_label (List.mem_of_find?_eq_some hfind) hlabel]
    simp [Option.filter, hlabel]
  | none =>
    symm
    rw [Option.filter_eq_none_iff]
    intro b hb
    obtain ⟨_, -, hm, -⟩ := Node.jumpTarget?_eq_some_iff.mp hb
    simpa using List.find?_eq_none.mp hfind b hm

theorem labelled?_of_firstLabel (hs : s.blocks = node.cut) (hl : node.labels.get? label = some k)
    (hf : node.FirstLabel label k) : s.labelled? label = node.jumpTarget? label := by
  rw [labelled?_eq_filter hs]
  cases hb : node.jumpTarget? label with
  | none => rfl
  | some b => simp [Option.filter, (Node.label_iff_firstLabel hl hb).mpr hf]

theorem labelled?_of_not_firstLabel (hs : s.blocks = node.cut)
    (hl : node.labels.get? label = some k) (hf : ¬ node.FirstLabel label k) :
    s.labelled? label = none := by
  rw [labelled?_eq_filter hs]
  cases hb : node.jumpTarget? label with
  | none => rfl
  | some b => simp [Option.filter, mt (Node.label_iff_firstLabel hl hb).mp hf]

/-- The block whose run an option heads, unless it has been walked: jumps to the label of the option
lead there, it is named after that label, and it has content. -/
def headed? (node : Node) (item : OptionItem) : Option Block :=
  (node.jumpTarget? item.destination).filter
    (fun b => b.label = some item.destination ∧ b.content.elements ≠ [])

theorem lead?_eq_headed? (hs : s.blocks = node.cut) (item : OptionItem) :
    lead? s.blocks item = headed? node item := by
  have hlead : lead? s.blocks item =
      (s.labelled? item.destination).filter (fun b => !b.content.elements.isEmpty) := rfl
  rw [hlead, labelled?_eq_filter hs, headed?, Option.filter_filter]
  congr 1
  funext b
  by_cases hlabel : b.label = some item.destination <;>
    by_cases hcontent : b.content.elements = [] <;> simp [hlabel, hcontent]

def opener : List Element → List String
  | .line id :: rest => id :: opener rest
  | .command _ :: rest => opener rest
  | _ => []

theorem opener_mem_runsFrom (blocks : List Block) {run : List String} (hr : run ≠ [])
    (es : List Element) : run ++ opener es ∈ runsFrom blocks run es := by
  have hrun : run ∈ asRun run := by simp [asRun, hr]
  induction es generalizing run with
  | nil => simpa [opener, runsFrom] using hrun
  | cons e es ih =>
    cases e with
    | line id =>
      have h := @ih (run ++ [id]) (by simp) (by simp [asRun])
      simpa [opener, runsFrom] using h
    | command text => simpa [opener, runsFrom] using ih hr hrun
    | options items => simp [opener, runsFrom, hrun]

theorem Tour.entered {blocks : List Block} {visited : List String} {c : Call}
    {rest visits : List Call} (h : Tour blocks visited (c :: rest) visits)
    (hc : c.block.content.elements ≠ []) (hv : c.name ∉ visited) : c ∈ visits := by
  cases h with
  | skip hskip _ => exact absurd hskip (not_or.mpr ⟨hc, hv⟩)
  | enter _ _ _ _ => simp

theorem walk_heads (h : s.Sound) {depth : Nat} {st : State} (hd : s.unvisited st.visited < depth)
    {line : String} (hline : line ≠ "") {b : Block} (hb : b ∈ s.blocks)
    (hc : b.content.elements ≠ []) (hv : b.name ∉ st.visited) :
    ∃ st' more, (walk s depth (some line) b).run st = .ok () st' ∧
      st'.report.lineIds.Perm
        (st.report.lineIds ++ (line :: opener b.content.elements) :: more) := by
  obtain ⟨_, st', visits, _, hrun, rfl, htour, -, hruns⟩ :=
    performs_walk h depth (some line) hb st hd
  let c : Call := ⟨some line, b⟩
  have hhead : c.head? = some line := by simp [c, Call.head?, hline]
  have hmem : line :: opener b.content.elements ∈ c.runs s.blocks := by
    rw [Call.runs, hhead]
    exact opener_mem_runsFrom s.blocks (List.cons_ne_nil line []) _
  have hentered : c ∈ visits := htour.entered hc hv
  obtain ⟨before, later, hsplit⟩ := List.append_of_mem (List.mem_flatMap.mpr ⟨c, hentered, hmem⟩)
  refine ⟨st', before ++ later, hrun, hruns.trans ?_⟩
  rw [List.nil_append, hsplit]
  exact List.perm_middle.append_left _

structure Resolves (node : Node) (s : Setting) : Prop where
  jump : ∀ label k, node.labels.get? label = some k → node.instructions ≠ [] →
    ∃ b ∈ s.blocks, b.first = k ∧ node.jumpTarget? label = some b
  first : ∀ label k, node.labels.get? label = some k → node.FirstLabel label k →
    s.labelled? label = node.jumpTarget? label
  other : ∀ label k, node.labels.get? label = some k → ¬ node.FirstLabel label k →
    s.labelled? label = none

structure Follows (node : Node) (s : Setting) : Prop where
  followed : ∀ items st, ∃ targets st', (followUps s items).run st = .ok targets st' ∧
    targets = items.filterMap (fun item => (headed? node item).map (fun b => (item.line, b))) ∧
    st'.visited = st.visited ∧ st'.report.lineIds.Perm (st.report.lineIds ++
      (items.filter (fun item => (headed? node item).isNone)).map (fun item => [item.line]))
  heads : ∀ depth st line b, s.unvisited st.visited < depth → line ≠ "" → b ∈ s.blocks →
    b.content.elements ≠ [] → b.name ∉ st.visited →
    ∃ st' more, (walk s depth (some line) b).run st = .ok () st' ∧
      st'.report.lineIds.Perm (st.report.lineIds ++ (line :: opener b.content.elements) :: more)

end LineRuns

namespace Node

open LineRuns

/-- Options find the block to which jumps lead exactly if their label is the first one there. Such
an option heads the run of that block, if it has content and has not been walked; an option with
another label of the block is a run of its own. -/
theorem options_find_first_label {node : Node} {f : Flow} (hf : node.flow = .ok f)
    (table : StringTable) (default : Option String) :
    Resolves node ⟨f.blocks, table, .ofDefault default⟩ ∧
      (table.HoldsTexts → (∀ b ∈ f.blocks, b.Iterates) →
        Follows node ⟨f.blocks, table, .ofDefault default⟩) := by
  let s : Setting := ⟨f.blocks, table, .ofDefault default⟩
  have hs : s.blocks = node.cut := (linked_of_flow hf).blocks
  refine ⟨?_, fun ht hb => ?_⟩
  · constructor
    case jump =>
      intro label k hl hne
      rw [hs]
      exact exists_jumpTarget? ((flow_eq_ok_iff.mp hf).1 hne) hl
    case first => exact fun label k hl => labelled?_of_firstLabel hs hl
    case other => exact fun label k hl => labelled?_of_not_firstLabel hs hl
  have hsound : s.Sound := ⟨hb, ht.exists_text, by cases default <;> simp [s, Unnamed.ofDefault]⟩
  constructor
  case followed =>
    intro items st
    obtain ⟨targets, st', visits, own, hrun, ⟨htargets, hown⟩, htour, hv, hruns⟩ :=
      performs_followUps hsound items st (Nat.lt_succ_self _)
    cases htour
    simp only [follows, singles, lead?_eq_headed? hs] at htargets hown
    refine ⟨targets, st', hrun, htargets, hv, ?_⟩
    simpa [hown, Function.comp_def] using hruns
  case heads => exact fun depth st line b hd hline hm hc => walk_heads hsound hd hline hm hc

/-- The alcove has two labels, and the option that leads there uses the second one. -/
def bazaar : Node where
  name := "Market"
  instructions := [
    ⟨.runLine, [.string "line:hello"]⟩,
    ⟨.addOption, [.string "line:buy", .string "Shop"]⟩,
    ⟨.addOption, [.string "line:leave", .string "Gate"]⟩,
    ⟨.showOptions, []⟩,
    ⟨.jump, []⟩,
    ⟨.runLine, [.string "line:wares"]⟩,
    ⟨.stop, []⟩,
    ⟨.stop, []⟩]
  labels := .ofList [("Alcove", 5), ("Shop", 5), ("Gate", 7)]
  headers := ∅

def alcove : Block := ⟨"Market", 5, some "Alcove", [
  ⟨.runLine, [.string "line:wares"]⟩,
  ⟨.stop, []⟩]⟩

def bazaarBlocks : List Block := [
  ⟨"Market", 0, none, bazaar.instructions.take 5⟩,
  alcove,
  ⟨"Market", 7, some "Gate", [⟨.stop, []⟩]⟩]

theorem exists_flow_bazaar : ∃ f, bazaar.flow = .ok f ∧ f.blocks = bazaarBlocks := by
  have hflow : bazaar.flow.toOption.map Flow.blocks = some bazaarBlocks := by decide +kernel
  exact exists_ok_of_map hflow

theorem iterates_bazaarBlocks : ∀ b ∈ bazaarBlocks, b.Iterates := by decide +kernel

theorem options_find_first_label_bazaar :
    ∃ f, bazaar.flow = .ok f ∧ (∀ b ∈ f.blocks, b.Iterates) ∧ marketTexts.HoldsTexts ∧
      Resolves bazaar ⟨f.blocks, marketTexts, .ofDefault none⟩ ∧
      Follows bazaar ⟨f.blocks, marketTexts, .ofDefault none⟩ ∧
      (⟨f.blocks, marketTexts, .ofDefault none⟩ : Setting).labelled? "Alcove" =
        bazaar.jumpTarget? "Alcove" ∧
      (⟨f.blocks, marketTexts, .ofDefault none⟩ : Setting).labelled? "Shop" = none := by
  obtain ⟨f, hf, hblocks⟩ := exists_flow_bazaar
  have hb : ∀ b ∈ f.blocks, b.Iterates := hblocks ▸ iterates_bazaarBlocks
  obtain ⟨hfinds, hfollows⟩ := options_find_first_label hf marketTexts none
  have hfirst : bazaar.labelAt? 5 = some "Alcove" := by decide
  have halcove := (labelAt?_eq_some_iff 5 "Alcove").mp hfirst
  have hshop : ¬ bazaar.FirstLabel "Shop" 5 := by
    rw [← labelAt?_eq_some_iff, hfirst]
    decide
  exact ⟨f, hf, hb, marketTexts_holdsTexts, hfinds, hfollows marketTexts_holdsTexts hb,
    hfinds.first "Alcove" 5 (by decide) halcove, hfinds.other "Shop" 5 (by decide) hshop⟩

theorem option_misses_alcove_in_bazaar :
    ∃ f, bazaar.flow = .ok f ∧ alcove ∈ f.blocks ∧ bazaar.labels.get? "Shop" = some alcove.first ∧
      bazaar.jumpTarget? "Shop" = some alcove ∧ alcove.hasContent = .ok true ∧
      (⟨f.blocks, marketTexts, .keep⟩ : Setting).labelled? "Shop" = none ∧
      ∃ report, extract marketTexts none [("Market", f.blocks)] = .ok report ∧
        report.lineIds = [["line:hello"], ["line:buy"], ["line:leave"], ["line:wares"]] := by
  obtain ⟨f, hf, hblocks⟩ := exists_flow_bazaar
  have hextract : (extract marketTexts none [("Market", bazaarBlocks)]).toOption.map
      LineReport.lineIds = some [["line:hello"], ["line:buy"], ["line:leave"], ["line:wares"]] := by
    decide +kernel
  refine ⟨f, hf, ?_⟩
  rw [hblocks]
  exact ⟨by simp [bazaarBlocks], by decide, by decide +kernel, rfl, by decide +kernel,
    exists_ok_of_map hextract⟩

end Node

end DialogueFlow
