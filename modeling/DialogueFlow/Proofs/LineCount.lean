import DialogueFlow.Proofs.Plan
import DialogueFlow.Proofs.Walk
import Mathlib.Data.List.Nodup

namespace DialogueFlow

def Instruction.speaks (i : Instruction) (id : String) : Bool :=
  i.opcode == .runLine && i.operands[0]? == some (.string id)

theorem Content.count_lines {pending unshown : List OptionItem} {instructions : List Instruction}
    (h : (ofInstructions pending instructions).ending = .ok unshown) (x : String) :
    ((ofInstructions pending instructions).elements.flatMap Element.lines).count x =
      instructions.countP (fun i => i.speaks x) := by
  induction instructions generalizing pending with
  | nil => rfl
  | cons i rest ih =>
    have h0 : ∀ id, i.stringOperand 0 = .ok id ↔ i.operands[0]? = some (.string id) :=
      fun id => i.stringOperand_eq_ok_iff 0 id
    rw [List.countP_cons]
    rw [ofInstructions] at h ⊢
    cases ho : i.opcode with
    | runLine =>
      cases hi : i.stringOperand 0 with
      | error f => simp [ho, hi, stop] at h
      | ok id =>
        simp only [ho, hi, cons] at h ⊢
        have hop := (h0 id).mp hi
        simp [ih h, Element.lines, Instruction.speaks, ho, hop, List.count_cons]
    | runCommand =>
      cases hi : i.stringOperand 0 with
      | error f => simp [ho, hi, stop] at h
      | ok text =>
        simp only [ho, hi, cons] at h ⊢
        simp [ih h, Element.lines, Instruction.speaks, ho]
    | addOption =>
      cases hl : i.stringOperand 0 with
      | error f => simp [ho, hl, stop] at h
      | ok line =>
        cases hd : i.stringOperand 1 with
        | error f => simp [ho, hl, hd, stop] at h
        | ok destination =>
          simp only [ho, hl, hd] at h ⊢
          simp [ih h, Instruction.speaks, ho]
    | showOptions =>
      simp only [ho, cons] at h ⊢
      simp [ih h, Element.lines, Instruction.speaks, ho]
    | _ =>
      simp only [ho] at h ⊢
      simp [ih h, Instruction.speaks, ho]

theorem Block.Iterates.count_spoken {b : Block} (h : b.Iterates) (x : String) :
    b.spoken.count x = b.instructions.countP (fun i => i.speaks x) := by
  obtain ⟨unshown, hu⟩ := h
  exact Content.count_lines hu x

theorem flatMap_filter_of_nil {α β : Type} {p : α → Bool} {f : α → List β} (xs : List α)
    (h : ∀ x, p x = false → f x = []) : (xs.filter p).flatMap f = xs.flatMap f := by
  induction xs with
  | nil => rfl
  | cons x xs ih =>
    cases hp : p x with
    | false => rw [List.filter_cons_of_neg (by simp [hp]), List.flatMap_cons, h x hp, ih]; rfl
    | true => rw [List.filter_cons_of_pos hp, List.flatMap_cons, List.flatMap_cons, ih]

namespace LineRuns

variable {blocks : List Block} {visits : List Call}

/-- The runs of a visit hold its heading, the lines of the block and the options that lead
nowhere. -/
theorem flatten_runsFrom_perm (blocks : List Block) (run : List String) (es : List Element) :
    (runsFrom blocks run es).flatten.Perm
      (run ++ (es.flatMap Element.lines ++ singles blocks (es.flatMap Element.items))) := by
  induction es generalizing run with
  | nil => simp [runsFrom, flatten_asRun, singles]
  | cons e es ih =>
    cases e with
    | line id => simpa [runsFrom, Element.lines, Element.items] using ih (run ++ [id])
    | command text => simpa [runsFrom, Element.lines, Element.items] using ih run
    | options items =>
      have hs : ((singles blocks items).map (fun line => [line])).flatten =
          singles blocks items := by
        simp [List.flatten_eq_flatMap, List.flatMap_map]
      simp only [runsFrom, List.flatten_append, flatten_asRun, hs, List.flatMap_cons,
        Element.lines, Element.items, List.nil_append, singles_append, List.append_assoc]
      have hp := (ih []).append_left (singles blocks items)
      rw [List.nil_append] at hp
      exact (hp.trans (List.perm_append_comm_assoc _ _ _)).append_left run

theorem count_visits (blocks : List Block) (visits : List Call) (x : String) :
    (visits.flatMap (Call.runs blocks)).flatten.count x =
      (visits.filterMap Call.head?).count x + (visits.flatMap (fun v => v.block.spoken)).count x +
        (visits.flatMap (fun v => singles blocks v.block.shown)).count x := by
  induction visits with
  | nil => rfl
  | cons v visits ih =>
    have hv := (flatten_runsFrom_perm blocks v.head?.toList v.block.content.elements).count_eq x
    rw [← Call.runs, ← Block.spoken, ← Block.shown] at hv
    have hh : ((v :: visits).filterMap Call.head?).count x =
        v.head?.toList.count x + (visits.filterMap Call.head?).count x := by
      cases hv : v.head? <;> simp [hv, List.count_cons, Nat.add_comm]
    simp only [List.flatMap_cons, List.flatten_append, List.count_append, hh, hv, ih]
    omega

theorem mem_ofBlock : ∀ c ∈ blocks.map Call.ofBlock, c.block ∈ blocks := by
  simp [Call.ofBlock]

theorem visits_perm (hn : (blocks.map Block.name).Nodup)
    (h : Tour blocks [] (blocks.map Call.ofBlock) visits) :
    (visits.map Call.block).Perm (blocks.filter (fun b => !b.content.elements.isEmpty)) := by
  have hv : (visits.map Call.block).Nodup := by
    have := h.nodup List.nodup_nil
    rw [after, List.append_nil, List.nodup_reverse] at this
    refine List.Nodup.of_map Block.name ?_
    rwa [List.map_map]
  rw [List.perm_ext_iff_of_nodup hv (hn.of_map.filter _)]
  intro b
  rw [List.mem_filter]
  apply Iff.intro
  · intro hb
    obtain ⟨v, hv, rfl⟩ := List.mem_map.mp hb
    exact ⟨h.mem_blocks mem_ofBlock hv, by simpa using h.content v hv⟩
  · rintro ⟨hb, hc⟩
    have hm := h.closed.1 (Call.ofBlock b) (List.mem_map_of_mem hb)
      (by simpa [Call.ofBlock] using hc)
    exact List.mem_map.mpr (h.exists_visit hn mem_ofBlock hb hm)

theorem flatMap_visits_perm {β : Type} (hn : (blocks.map Block.name).Nodup)
    (h : Tour blocks [] (blocks.map Call.ofBlock) visits) {f : Block → List β}
    (hf : ∀ b : Block, b.content.elements = [] → f b = []) :
    (visits.flatMap (fun v => f v.block)).Perm (blocks.flatMap f) := by
  have hp := (visits_perm hn h).flatMap_right f
  rw [flatMap_filter_of_nil _ (fun b hb => hf b (by simpa using hb)), List.flatMap_map] at hp
  exact hp

theorem heads_sublist (targets : List (String × Block)) :
    ((targets.map Call.ofOption).filterMap Call.head?).Sublist (targets.map Prod.fst) := by
  induction targets with
  | nil => exact List.Sublist.refl _
  | cons e targets ih =>
    by_cases he : e.1 = ""
    · simpa [Call.ofOption, Call.head?, he] using ih.cons ""
    · simpa [Call.ofOption, Call.head?, Option.filter, he] using ih

/-- The lines that head runs are among the options that lead to blocks. -/
theorem count_heads_le (h : Tour blocks [] (blocks.map Call.ofBlock) visits) (x : String) :
    (visits.filterMap Call.head?).count x ≤
      (visits.flatMap (fun v => (follows blocks v.block.shown).map Prod.fst)).count x := by
  obtain ⟨called, hp, hsub⟩ := h.subperm
  have hnone : (blocks.map Call.ofBlock).filterMap Call.head? = [] := by
    simp [Call.ofBlock, Call.head?]
  have hcalls : ∀ vs : List Call,
      ((vs.flatMap (fun v => calls blocks v.block)).filterMap Call.head?).Sublist
        (vs.flatMap (fun v => (follows blocks v.block.shown).map Prod.fst)) := by
    intro vs
    induction vs with
    | nil => exact List.Sublist.refl _
    | cons v vs ih =>
      rw [List.flatMap_cons, List.flatMap_cons, List.filterMap_append]
      exact (heads_sublist _).append ih
  have hle := (hsub.filterMap Call.head?).count_le x
  rw [List.filterMap_append, hnone, List.nil_append, (hp.filterMap Call.head?).count_eq] at hle
  exact Nat.le_trans hle ((hcalls visits).count_le x)

theorem count_follows_singles (blocks : List Block) (visits : List Call) (x : String) :
    (visits.flatMap (fun v => (follows blocks v.block.shown).map Prod.fst)).count x +
        (visits.flatMap (fun v => singles blocks v.block.shown)).count x =
      (visits.flatMap (fun v => v.block.shown.map OptionItem.line)).count x := by
  induction visits with
  | nil => rfl
  | cons v visits ih =>
    have hv := (follows_singles_perm blocks v.block.shown).count_eq x
    rw [List.count_append] at hv
    simp only [List.flatMap_cons, List.count_append]
    omega

theorem Collects.count_bounds {runs : List (List String)} (h : Collects blocks runs)
    (hn : (blocks.map Block.name).Nodup) (x : String) :
    (blocks.flatMap Block.spoken).count x ≤ runs.flatten.count x ∧
      runs.flatten.count x ≤ (blocks.flatMap Block.spoken).count x +
        (blocks.flatMap (fun b => b.shown.map OptionItem.line)).count x := by
  obtain ⟨visits, htour, rfl⟩ := h
  have hcount := count_visits blocks visits x
  have hspoken := (flatMap_visits_perm hn htour (f := Block.spoken)
    (fun b hb => by simp [Block.spoken, hb])).count_eq x
  have hshown := (flatMap_visits_perm hn htour (f := fun b => b.shown.map OptionItem.line)
    (fun b hb => by simp [Block.shown, hb])).count_eq x
  have hheads := count_heads_le htour x
  have hoptions := count_follows_singles blocks visits x
  omega

variable {table : StringTable} {nodes : List (String × List Block)}

def spokenCount (nodes : List (String × List Block)) (x : String) : Nat :=
  ((nodes.flatMap Prod.snd).flatMap Block.instructions).countP (fun i => i.speaks x)

def shownCount (nodes : List (String × List Block)) (x : String) : Nat :=
  ((nodes.flatMap Prod.snd).flatMap Block.shown).countP (fun item => item.line == x)

theorem count_spoken_eq {blocks : List Block} (hb : ∀ b ∈ blocks, b.Iterates) (x : String) :
    (blocks.flatMap Block.spoken).count x =
      (blocks.flatMap Block.instructions).countP (fun i => i.speaks x) := by
  induction blocks with
  | nil => rfl
  | cons b blocks ih =>
    rw [List.flatMap_cons, List.flatMap_cons, List.count_append, List.countP_append,
      (hb b (by simp)).count_spoken, ih (fun c hc => hb c (by simp [hc]))]

theorem count_shown_eq (blocks : List Block) (x : String) :
    (blocks.flatMap (fun b => b.shown.map OptionItem.line)).count x =
      (blocks.flatMap Block.shown).countP (fun item => item.line == x) := by
  rw [← List.map_flatMap, List.count, List.countP_map]
  rfl

theorem count_bounds_of_forall₂ {runs : List (List (List String))}
    (h : List.Forall₂ (fun e own => Collects e.2 own) nodes runs)
    (hn : ∀ e ∈ nodes, (e.2.map Block.name).Nodup) (hb : ∀ e ∈ nodes, ∀ b ∈ e.2, b.Iterates)
    (x : String) :
    spokenCount nodes x ≤ runs.flatten.flatten.count x ∧
      runs.flatten.flatten.count x ≤ spokenCount nodes x + shownCount nodes x := by
  induction h with
  | nil => exact ⟨Nat.le_refl _, Nat.zero_le _⟩
  | @cons e own nodes runs hown _ ih =>
    have hnode := hown.count_bounds (hn e (by simp)) x
    have hrest := ih (fun e' he => hn e' (by simp [he])) (fun e' he => hb e' (by simp [he]))
    simp only [count_spoken_eq (hb e (by simp)), count_shown_eq] at hnode
    simp only [spokenCount, shownCount, List.flatMap_cons, List.flatMap_append, List.countP_append,
      List.flatten_cons, List.flatten_append, List.count_append] at hrest ⊢
    omega

/-- Every line is recorded as often as it is spoken, and as often more as at most it is shown as an
option. -/
theorem extract_count_bounds (ht : table.HoldsTexts) (default : Option String)
    (hn : ∀ e ∈ nodes, (e.2.map Block.name).Nodup) (hb : ∀ e ∈ nodes, ∀ b ∈ e.2, b.Iterates) :
    ∃ report, extract table default nodes = .ok report ∧ ∀ x,
      spokenCount nodes x ≤ report.runs.flatten.countP (fun r => r.id == x) ∧
        report.runs.flatten.countP (fun r => r.id == x) ≤
          spokenCount nodes x + shownCount nodes x := by
  obtain ⟨report, runs, hr, hruns, hp⟩ := extract_eq_ok ht default hb
  refine ⟨report, hr, fun x => ?_⟩
  have hids : report.runs.flatten.countP (fun r => r.id == x) = runs.flatten.flatten.count x := by
    rw [← hp.flatten.count_eq, LineReport.lineIds, ← List.map_flatten, List.count, List.countP_map]
    rfl
  rw [hids]
  exact count_bounds_of_forall₂ hruns hn hb x

/-- Two options lead to the stall, and the one that is shown there leads back to it. -/
def market : List Block := [
  ⟨"Market", 0, none, [
    ⟨.runLine, [.string "line:hello"]⟩,
    ⟨.addOption, [.string "line:buy", .string "Stall"]⟩,
    ⟨.addOption, [.string "line:steal", .string "Stall"]⟩,
    ⟨.addOption, [.string "line:leave", .string "Gate"]⟩,
    ⟨.showOptions, []⟩,
    ⟨.jump, []⟩]⟩,
  ⟨"Market", 6, some "Stall", [
    ⟨.runLine, [.string "line:wares"]⟩,
    ⟨.addOption, [.string "line:again", .string "Stall"]⟩,
    ⟨.showOptions, []⟩,
    ⟨.jump, []⟩]⟩,
  ⟨"Market", 10, some "Gate", [⟨.stop, []⟩]⟩]

def marketTexts : StringTable :=
  ⟨.object [("line:hello", .string "Ann: Hello"), ("line:buy", .string "Buy")]⟩

theorem marketTexts_holdsTexts : marketTexts.HoldsTexts := ⟨_, rfl, by simp⟩

theorem extract_count_bounds_market :
    let nodes := [("Market", market)]
    marketTexts.HoldsTexts ∧ (∀ e ∈ nodes, (e.2.map Block.name).Nodup) ∧
      (∀ e ∈ nodes, ∀ b ∈ e.2, b.Iterates) ∧
      ∃ report, extract marketTexts none nodes = .ok report ∧ ∀ x,
        spokenCount nodes x ≤ report.runs.flatten.countP (fun r => r.id == x) ∧
          report.runs.flatten.countP (fun r => r.id == x) ≤
            spokenCount nodes x + shownCount nodes x := by
  have hn : ∀ e ∈ [("Market", market)], (e.2.map Block.name).Nodup := by decide +kernel
  have hb : ∀ e ∈ [("Market", market)], ∀ b ∈ e.2, b.Iterates := by decide +kernel
  exact ⟨marketTexts_holdsTexts, hn, hb, extract_count_bounds marketTexts_holdsTexts none hn hb⟩

end LineRuns

end DialogueFlow
