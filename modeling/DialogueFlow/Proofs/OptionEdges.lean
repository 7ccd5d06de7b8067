import DialogueFlow.Proofs.Content
import DialogueFlow.Proofs.Pairing

namespace DialogueFlow

variable {n : Nat} {node : Node}

namespace Graph

variable {g : Graph n} {b : Block} {last : Instruction} {edges : List (Edge n)} {e : Edge n}

theorem RunsInto.condition_ne_option (h : g.RunsInto b edges) (he : e ∈ edges) :
    e.condition ≠ .option := by
  obtain ⟨j, -, rfl⟩ := h
  rw [List.mem_singleton.mp he]
  simp

theorem Exits.condition_ne_option (h : g.Exits node b last edges) (ho : last.opcode ≠ .jump)
    (he : e ∈ edges) : e.condition ≠ .option := by
  rw [Exits] at h
  cases hop : last.opcode with
  | jump => exact absurd hop ho
  | jumpTo =>
    simp only [hop] at h
    obtain ⟨j, -, rfl⟩ := h
    rw [List.mem_singleton.mp he]
    simp
  | jumpIfFalse =>
    simp only [hop] at h
    obtain ⟨j, k, -, -, rfl⟩ := h
    obtain rfl | he := List.mem_cons.mp he
    · simp
    · rw [List.mem_singleton.mp he]
      simp
  | runNode =>
    simp only [hop] at h
    obtain ⟨t, s, -, -, -, -, rfl⟩ | ⟨-, hr⟩ := h
    · rw [List.mem_singleton.mp he]
      simp
    · exact hr.condition_ne_option he
  | stop =>
    simp only [hop] at h
    subst h
    cases he
  | _ =>
    simp only [hop] at h
    exact h.condition_ne_option he

theorem Exits.exists_added (h : g.Exits node b last edges) (ho : last.opcode = .jump)
    (he : e ∈ edges) (hc : e.condition = .option) :
    ∃ a ∈ addedOptions b.instructions, ∃ j, g.Names node a 1 j ∧ e.target = .block j := by
  simp only [Exits, ho] at h
  split at h
  · exact absurd hc (h.condition_ne_option he)
  · obtain ⟨js, hjs, rfl⟩ := h
    obtain ⟨j, hj, rfl⟩ := List.mem_map.mp he
    obtain ⟨a, ha, hnames⟩ := exists_mem_of_forall₂ hjs.flip (List.mem_eraseDups.mp hj)
    exact ⟨a, ha, j, hnames, rfl⟩

theorem Exits.mem_of_added (h : g.Exits node b last edges) (ho : last.opcode = .jump)
    {a : Instruction} (ha : a ∈ addedOptions b.instructions) :
    ∃ j, g.Names node a 1 j ∧ ⟨.option, .block j⟩ ∈ edges := by
  simp only [Exits, ho] at h
  rw [if_neg (List.ne_nil_of_mem ha)] at h
  obtain ⟨js, hjs, rfl⟩ := h
  obtain ⟨j, hj, hnames⟩ := exists_mem_of_forall₂ hjs ha
  exact ⟨j, hnames, List.mem_map_of_mem (List.mem_eraseDups.mpr hj)⟩

/-- What the block at `i` shows as options, and its edges for options. -/
structure OptionsAgree (g : Graph n) (node : Node) (i : Fin n) : Prop where
  jump : ∀ e ∈ g.edges i, e.condition = .option →
    ∃ last, (g.block i).last? = some last ∧ last.opcode = .jump
  edge : ∀ last, (g.block i).last? = some last → last.opcode = .jump →
    ∀ items, .options items ∈ (g.block i).content.elements → ∀ item ∈ items,
      ∃ k j, node.labels.get? item.destination = some k ∧ g.StartsAt j k ∧
        ⟨.option, .block j⟩ ∈ g.edges i ∧ i ∈ g.sources j
  added : ∀ e ∈ g.edges i, e.condition = .option →
    ∃ a ∈ (g.block i).instructions, a.opcode = .addOption ∧
      ∃ j, g.Names node a 1 j ∧ e.target = .block j

end Graph

namespace Node

variable {f : Flow}

theorem paired_of_flow (hf : node.flow = .ok f) : f.graph.Paired := by
  obtain ⟨-, -, rfl⟩ := flow_eq_ok_iff.mp hf
  exact (Graph.grows_linkBlocks _ _ _).paired node.unlinked_apart.distinct
    (Graph.paired_ofBlocks node.cut)

/-- Edges for options leave a block only if it ends in a jump. Then each option that it shows has
its edge, and is known as an ancestor where that leads; and each edge comes of an option that the
block adds. -/
theorem options_agree (hf : node.flow = .ok f) (i : Fin f.size) :
    f.graph.OptionsAgree node i := by
  obtain ⟨last, hlast, hexits⟩ := (linked_of_flow hf).exits i
  have hjump : ∀ e ∈ f.graph.edges i, e.condition = .option → last.opcode = .jump := by
    intro e he hc
    by_contra ho
    exact hexits.condition_ne_option ho he hc
  constructor
  case jump => exact fun e he hc => ⟨last, hlast, hjump e he hc⟩
  case edge =>
    intro last' hlast' ho items hitems item hitem
    cases hlast.symm.trans hlast'
    obtain ⟨a, ha, hopcode, -, hlabel⟩ :=
      Block.exists_offers (List.mem_flatMap.mpr ⟨_, hitems, hitem⟩)
    obtain ⟨j, ⟨k, ⟨label, hlabel', hk⟩, hj⟩, hmem⟩ :=
      hexits.mem_of_added ho (List.mem_filter.mpr ⟨ha, by simpa using hopcode⟩)
    cases hlabel.symm.trans hlabel'
    have hnext := Graph.mem_next_iff.mpr ⟨_, hmem, rfl⟩
    exact ⟨k, j, hk, hj, hmem, ((paired_of_flow hf).mirrored i j).mp hnext⟩
  case added =>
    intro e he hc
    obtain ⟨a, ha, hj⟩ := hexits.exists_added (hjump e he hc) he hc
    obtain ⟨ha, hopcode⟩ := List.mem_filter.mp ha
    exact ⟨a, ha, by simpa using hopcode, hj⟩

def jetty : Node where
  name := "Jetty"
  instructions := [
    ⟨.addOption, [.string "line:sail", .string "Boat"]⟩,
    ⟨.addOption, [.string "line:row", .string "Skiff"]⟩,
    ⟨.showOptions, []⟩,
    ⟨.addOption, [.string "line:stay", .string "Shore"]⟩,
    ⟨.showOptions, []⟩,
    ⟨.jump, []⟩,
    ⟨.stop, []⟩,
    ⟨.stop, []⟩]
  labels := .ofList [("Boat", 6), ("Skiff", 6), ("Shore", 7)]
  headers := ∅

theorem options_agree_jetty :
    ∃ f, jetty.flow = .ok f ∧ f.blocks.map (fun b => b.shown.length) = [3, 0, 0] ∧
      f.vertices.map (fun v => v.destinations.length) = [2, 0, 0] ∧
      ∀ i, f.graph.OptionsAgree jetty i := by
  have hflow : jetty.flow.toOption.map (fun f => (f.blocks.map (fun b => b.shown.length),
      f.vertices.map (fun v => v.destinations.length))) = some ([3, 0, 0], [2, 0, 0]) := by
    decide +kernel
  obtain ⟨f, hf, heq⟩ := exists_ok_of_map hflow
  obtain ⟨hshown, hedges⟩ := Prod.mk.inj heq
  exact ⟨f, hf, hshown, hedges, fun i => options_agree hf i⟩

end Node

end DialogueFlow
