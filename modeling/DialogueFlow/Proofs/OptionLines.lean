import DialogueFlow.Proofs.Link
import DialogueFlow.Proofs.LineCount

namespace DialogueFlow

namespace LineRuns

variable {blocks : List Block}

theorem exists_mem_runsFrom_of_head (blocks : List Block) (x : String) (run : List String)
    (es : List Element) : ∃ rest, x :: rest ∈ runsFrom blocks (x :: run) es := by
  induction es generalizing run with
  | nil => exact ⟨run, by simp [runsFrom, asRun]⟩
  | cons e es ih =>
    cases e with
    | line id => exact ih (run ++ [id])
    | command text => exact ih run
    | options items => exact ⟨run, by simp [runsFrom, asRun]⟩

theorem mem_runsFrom_of_single {x : String} (run : List String) {es : List Element}
    (h : x ∈ singles blocks (es.flatMap Element.items)) : [x] ∈ runsFrom blocks run es := by
  induction es generalizing run with
  | nil => simp [singles] at h
  | cons e es ih =>
    rw [List.flatMap_cons, singles_append, List.mem_append] at h
    cases e with
    | line id => exact ih _ (h.resolve_left (by simp [singles, Element.items]))
    | command text => exact ih _ (h.resolve_left (by simp [singles, Element.items]))
    | options items =>
      rw [runsFrom, List.mem_append, List.mem_append]
      obtain h | h := h
      · exact .inl (.inr (List.mem_map_of_mem h))
      · exact .inr (ih [] h)

theorem exists_mem_runs_of_head? (blocks : List Block) {v : Call} {x : String}
    (h : v.head? = some x) : ∃ rest, x :: rest ∈ v.runs blocks := by
  rw [Call.runs, h]
  exact exists_mem_runsFrom_of_head blocks x [] _

variable {agenda visits : List Call} {b d : Block} {item : OptionItem}

theorem exists_visit_of_shown (hn : (blocks.map Block.name).Nodup)
    (h : Tour blocks [] agenda visits) (ha : ∀ c ∈ agenda, c.block ∈ blocks)
    (hb : Call.ofBlock b ∈ agenda) (hi : item ∈ b.shown) : ∃ v ∈ visits, v.block = b := by
  have hcontent : b.content.elements ≠ [] := by
    intro hnil
    simp [Block.shown, hnil] at hi
  exact h.exists_visit hn ha (ha _ hb) (h.closed.1 _ hb hcontent)

def leadingTo (blocks : List Block) (d : Block) : List OptionItem :=
  (blocks.flatMap Block.shown).filter (fun item => lead? blocks item = some d)

theorem mem_leadingTo : item ∈ leadingTo blocks d ↔
    (∃ b ∈ blocks, item ∈ b.shown) ∧ lead? blocks item = some d := by
  rw [leadingTo, List.mem_filter, List.mem_flatMap, decide_eq_true_eq]

theorem exists_visit_by_option (hn : (blocks.map Block.name).Nodup)
    (h : Tour blocks [] agenda visits) (ha : ∀ c ∈ agenda, c.block ∈ blocks)
    (hb : Call.ofBlock b ∈ agenda) (hi : item ∈ b.shown) (hl : lead? blocks item = some d)
    (hd : ∀ c ∈ agenda, c.block ≠ d) :
    ∃ v ∈ visits, ∃ other ∈ leadingTo blocks d, v.opening = some other.line := by
  obtain ⟨v, hv, rfl⟩ := exists_visit_of_shown hn h ha hb hi
  have hcall : ⟨some item.line, d⟩ ∈ calls blocks v.block := mem_calls_iff.mpr ⟨item, hi, hl, rfl⟩
  obtain ⟨w, hw, hwd⟩ := h.exists_visit hn ha (mem_of_lead? hl).1 (h.closed.2 v hv _ hcall)
  obtain hin | ⟨u, hu, hcalls⟩ := h.mem_visits hw
  · exact absurd hwd (hd w hin)
  · obtain ⟨other, ho, hlo, hopen⟩ := mem_calls_iff.mp hcalls
    have hother := mem_leadingTo.mpr ⟨⟨u.block, h.mem_blocks ha hu, ho⟩, hwd ▸ hlo⟩
    exact ⟨w, hw, other, hother, hopen⟩

theorem exists_split_of_lt (hs : blocks.Pairwise (fun b c => b.first < c.first)) (hb : b ∈ blocks)
    (hd : d ∈ blocks) (hlt : b.first < d.first) :
    ∃ earlier later, blocks = earlier ++ later ∧ b ∈ earlier ∧ d ∉ earlier := by
  obtain ⟨earlier, later, rfl⟩ := List.append_of_mem hd
  rw [List.pairwise_append, List.pairwise_cons] at hs
  obtain ⟨-, ⟨hlater, -⟩, hearlier⟩ := hs
  refine ⟨earlier, d :: later, rfl, ?_, fun h => ?_⟩
  · obtain hb | hb := List.mem_append.mp hb
    · exact hb
    · obtain rfl | hb := List.mem_cons.mp hb
      · omega
      · have := hlater b hb
        omega
  · exact Int.lt_irrefl _ (hearlier d h d (by simp))

/-- When `d` comes up by itself it has been visited, as `b` was before. So the visit to `d` was by
way of an option. -/
theorem exists_visit_of_lt (hn : (blocks.map Block.name).Nodup)
    (hs : blocks.Pairwise (fun b c => b.first < c.first))
    (h : Tour blocks [] (blocks.map Call.ofBlock) visits) (hb : b ∈ blocks) (hi : item ∈ b.shown)
    (hl : lead? blocks item = some d) (hlt : b.first < d.first) :
    ∃ v ∈ visits, ∃ other ∈ leadingTo blocks d, v.opening = some other.line := by
  obtain ⟨earlier, later, hsplit, hbe, hde⟩ := exists_split_of_lt hs hb (mem_of_lead? hl).1 hlt
  have hin : ∀ c ∈ earlier.map Call.ofBlock, c.block ∈ earlier := mem_ofBlock
  have htour : Tour blocks [] (earlier.map Call.ofBlock ++ later.map Call.ofBlock) visits := by
    rwa [← List.map_append, ← hsplit]
  obtain ⟨us, vs, rfl, hfirst, -⟩ := htour.exists_of_append
  obtain ⟨v, hv, hother⟩ := exists_visit_by_option hn hfirst
    (fun c hc => hsplit ▸ List.mem_append_left _ (hin c hc)) (List.mem_map_of_mem hbe) hi hl
    (fun c hc hcd => hde (hcd ▸ hin c hc))
  exact ⟨v, List.mem_append_left _ hv, hother⟩

/-- What becomes of an option of `b` in the runs of a node. -/
structure Kept (blocks : List Block) (runs : List (List String)) (b : Block) (item : OptionItem) :
    Prop where
  single : lead? blocks item = none → [item.line] ∈ runs
  rival : ∀ d, lead? blocks item = some d → b.first < d.first →
    ∃ other ∈ leadingTo blocks d, other.line = "" ∨ ∃ rest, other.line :: rest ∈ runs

theorem Collects.kept {runs : List (List String)} (h : Collects blocks runs)
    (hn : (blocks.map Block.name).Nodup) (hs : blocks.Pairwise (fun b c => b.first < c.first))
    (hb : b ∈ blocks) (hi : item ∈ b.shown) : Kept blocks runs b item := by
  obtain ⟨visits, htour, rfl⟩ := h
  apply Kept.mk
  · intro hl
    obtain ⟨v, hv, rfl⟩ :=
      exists_visit_of_shown hn htour mem_ofBlock (List.mem_map_of_mem hb) hi
    have hsingle : item.line ∈ singles blocks v.block.shown :=
      List.mem_map_of_mem (List.mem_filter.mpr ⟨hi, by simp [hl]⟩)
    exact List.mem_flatMap.mpr ⟨v, hv, mem_runsFrom_of_single _ hsingle⟩
  · intro d hl hlt
    obtain ⟨v, hv, other, hother, hopen⟩ := exists_visit_of_lt hn hs htour hb hi hl hlt
    refine ⟨other, hother, ?_⟩
    by_cases hempty : other.line = ""
    · exact .inl hempty
    · have hhead : v.head? = some other.line := by simp [Call.head?, hopen, hempty]
      obtain ⟨rest, hrest⟩ := exists_mem_runs_of_head? blocks hhead
      exact .inr ⟨rest, List.mem_flatMap.mpr ⟨v, hv, hrest⟩⟩

/-- An option has no rival if it leads nowhere, or on to a later block to which no option with
another line leads. -/
def Unrivalled (blocks : List Block) (b : Block) (item : OptionItem) : Prop :=
  ∀ d ∈ lead? blocks item, item.line ≠ "" ∧ b.first < d.first ∧
    ∀ other ∈ leadingTo blocks d, other.line = item.line

instance (blocks : List Block) (b : Block) (item : OptionItem) :
    Decidable (Unrivalled blocks b item) :=
  inferInstanceAs (Decidable (∀ d ∈ lead? blocks item, _ ∧ _ ∧ _))

theorem Kept.mono {runs runs' : List (List String)} (h : Kept blocks runs b item)
    (hsub : ∀ run ∈ runs, run ∈ runs') : Kept blocks runs' b item := by
  apply Kept.mk
  · exact fun hl => hsub _ (h.single hl)
  · intro d hl hlt
    obtain ⟨other, hother, hline⟩ := h.rival d hl hlt
    exact ⟨other, hother, hline.imp id (fun ⟨rest, hrest⟩ => ⟨rest, hsub _ hrest⟩)⟩

theorem Kept.exists_run {runs : List (List String)} (h : Kept blocks runs b item)
    (hu : Unrivalled blocks b item) : ∃ rest, item.line :: rest ∈ runs := by
  cases hl : lead? blocks item with
  | none => exact ⟨[], h.single hl⟩
  | some d =>
    obtain ⟨hne, hlt, hsame⟩ := hu d hl
    obtain ⟨other, hother, hline⟩ := h.rival d hl hlt
    rw [hsame other hother] at hline
    exact hline.resolve_left hne

end LineRuns

namespace Node

open LineRuns

variable {node : Node} {f : Flow}

theorem pairwise_first_cut (node : Node) :
    node.cut.Pairwise (fun b c => b.first < c.first) := by
  have h := node.starts_pairwise node.leaders
  rw [← List.pairwise_map (f := Block.first) (R := (· < ·)), cut, map_first_slices,
    List.pairwise_map]
  exact h.imp Int.ofNat_lt.mpr

/-- An option that leads nowhere is a run of its own. If an option leads on to a later block, then
one of the options that lead there heads a run, unless that one has no line. So every option
without rivals heads a run. -/
theorem option_heads_run (hf : node.flow = .ok f) (hn : (f.blocks.map Block.name).Nodup)
    {table : StringTable} (ht : table.HoldsTexts) (default : Option String)
    {nodes : List (String × List Block)} (hm : (node.name, f.blocks) ∈ nodes)
    (hb : ∀ e ∈ nodes, ∀ b ∈ e.2, b.Iterates) :
    ∃ report, extract table default nodes = .ok report ∧
      ∀ b ∈ f.blocks, ∀ item ∈ b.shown, Kept f.blocks report.lineIds b item ∧
        (Unrivalled f.blocks b item → ∃ rest, item.line :: rest ∈ report.lineIds) := by
  obtain ⟨report, runs, hr, hruns, hp⟩ := extract_eq_ok ht default hb
  obtain ⟨own, hown, hcollects⟩ := exists_mem_of_forall₂ hruns hm
  have hs : f.blocks.Pairwise (fun b c => b.first < c.first) := by
    rw [(linked_of_flow hf).blocks]
    exact node.pairwise_first_cut
  have hsub : ∀ run ∈ own, run ∈ report.lineIds :=
    fun run hrun => hp.mem_iff.mpr (List.mem_flatten.mpr ⟨own, hown, hrun⟩)
  refine ⟨report, hr, fun b hbf item hi => ?_⟩
  have hkept := (hcollects.kept hn hs hbf hi).mono hsub
  exact ⟨hkept, hkept.exists_run⟩

def ferry : Node where
  name := "Ferry"
  instructions := [
    ⟨.addOption, [.string "line:row", .string "Shore"]⟩,
    ⟨.addOption, [.string "line:wait", .string "End"]⟩,
    ⟨.showOptions, []⟩,
    ⟨.jump, []⟩,
    ⟨.runLine, [.string "line:land"]⟩,
    ⟨.stop, []⟩]
  labels := .ofList [("Shore", 4), ("End", 5)]
  headers := ∅

def ferryBlocks : List Block := [
  ⟨"Ferry", 0, none, ferry.instructions.take 4⟩,
  ⟨"Ferry", 4, some "Shore", [⟨.runLine, [.string "line:land"]⟩]⟩,
  ⟨"Ferry", 5, some "End", [⟨.stop, []⟩]⟩]

theorem option_heads_run_ferry :
    ∃ f, ferry.flow = .ok f ∧ (f.blocks.map Block.name).Nodup ∧ (∀ b ∈ f.blocks, b.Iterates) ∧
      marketTexts.HoldsTexts ∧ ∃ b ∈ f.blocks, ∃ item ∈ b.shown,
        (lead? f.blocks item).isSome = true ∧ Unrivalled f.blocks b item ∧
        ∃ report, extract marketTexts none [("Ferry", f.blocks)] = .ok report ∧
          Kept f.blocks report.lineIds b item ∧ ∃ rest, item.line :: rest ∈ report.lineIds := by
  have hflow : ferry.flow.toOption.map Flow.blocks = some ferryBlocks := by decide +kernel
  obtain ⟨f, hf, hblocks⟩ := exists_ok_of_map hflow
  have hn : (f.blocks.map Block.name).Nodup := by
    rw [hblocks]
    decide +kernel
  have hb : ∀ b ∈ f.blocks, b.Iterates := by
    rw [hblocks]
    decide +kernel
  have hitem : ∃ b ∈ f.blocks, ∃ item ∈ b.shown,
      (lead? f.blocks item).isSome = true ∧ Unrivalled f.blocks b item := by
    rw [hblocks]
    decide +kernel
  obtain ⟨b, hbf, item, hi, hl, hu⟩ := hitem
  obtain ⟨report, hr, hall⟩ := option_heads_run hf hn marketTexts_holdsTexts none
    (List.mem_singleton_self ("Ferry", f.blocks)) (by simpa using hb)
  obtain ⟨hkept, hhead⟩ := hall b hbf item hi
  exact ⟨f, hf, hn, hb, marketTexts_holdsTexts, b, hbf, item, hi, hl, hu, report, hr, hkept,
    hhead hu⟩

def fair : Node where
  name := "Market"
  instructions := [
    ⟨.runLine, [.string "line:hello"]⟩,
    ⟨.addOption, [.string "line:buy", .string "Stall"]⟩,
    ⟨.addOption, [.string "line:steal", .string "Stall"]⟩,
    ⟨.addOption, [.string "line:leave", .string "Gate"]⟩,
    ⟨.showOptions, []⟩,
    ⟨.jump, []⟩,
    ⟨.runLine, [.string "line:wares"]⟩,
    ⟨.stop, []⟩,
    ⟨.stop, []⟩]
  labels := .ofList [("Stall", 6), ("Gate", 8)]
  headers := ∅

def fairBlocks : List Block := [
  ⟨"Market", 0, none, fair.instructions.take 6⟩,
  ⟨"Market", 6, some "Stall", [⟨.runLine, [.string "line:wares"]⟩, ⟨.stop, []⟩]⟩,
  ⟨"Market", 8, some "Gate", [⟨.stop, []⟩]⟩]

theorem option_lost_in_fair :
    ∃ f, fair.flow = .ok f ∧ (f.blocks.map Block.name).Nodup ∧
      (∀ b ∈ f.blocks, b.Iterates) ∧ marketTexts.HoldsTexts ∧
      ∃ b ∈ f.blocks, ∃ item ∈ b.shown,
        ∃ report, extract marketTexts none [("Market", f.blocks)] = .ok report ∧
          ∀ run ∈ report.lineIds, item.line ∉ run := by
  have hflow : fair.flow.toOption.map Flow.blocks = some fairBlocks := by decide +kernel
  obtain ⟨f, hf, hblocks⟩ := exists_ok_of_map hflow
  have hextract : (extract marketTexts none [("Market", fairBlocks)]).toOption.map
      LineReport.lineIds = some [["line:hello"], ["line:leave"], ["line:buy", "line:wares"]] := by
    decide +kernel
  obtain ⟨report, hr, hids⟩ := exists_ok_of_map hextract
  refine ⟨f, hf, ?_⟩
  rw [hblocks]
  refine ⟨by decide +kernel, by decide +kernel, marketTexts_holdsTexts,
    fairBlocks.head (by decide), by decide +kernel, ⟨"line:steal", "Stall"⟩, by decide +kernel,
    report, hr, ?_⟩
  rw [hids]
  decide

end Node

end DialogueFlow
