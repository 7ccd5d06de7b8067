import DialogueFlow.Proofs.Link

namespace DialogueFlow.Node

variable {node : Node}

/-- `label` is the first label that targets `k`. -/
def FirstLabel (node : Node) (label : String) (k : Int) : Prop :=
  ∃ earlier later, node.labels.entries = earlier ++ (label, k) :: later ∧ ∀ e ∈ earlier, e.2 ≠ k

theorem labelAt?_eq_some_iff (k : Int) (label : String) :
    node.labelAt? k = some label ↔ node.FirstLabel label k := by
  rw [labelAt?, Option.map_eq_some_iff]
  apply Iff.intro
  · rintro ⟨⟨label', k'⟩, he, rfl⟩
    obtain ⟨hk, earlier, later, hl, hn⟩ := List.find?_eq_some_iff_append.mp he
    obtain rfl : k' = k := by simpa using hk
    exact ⟨earlier, later, hl, fun e he => by simpa using hn e he⟩
  · rintro ⟨earlier, later, hl, hn⟩
    refine ⟨(label, k), List.find?_eq_some_iff_append.mpr ⟨by simp, earlier, later, hl, ?_⟩, rfl⟩
    exact fun e he => by simpa using hn e he

theorem labelAt?_eq_none_iff (k : Int) :
    node.labelAt? k = none ↔ ∀ e ∈ node.labels.entries, e.2 ≠ k := by
  simp [labelAt?]

/-- The blocks cover the instructions of the node one after the other. They start where they have
to and are named after the first label there. -/
structure Tiling (node : Node) (blocks : List Block) : Prop where
  nonempty : ∀ b ∈ blocks, b.instructions ≠ []
  first : blocks.head?.map Block.first = some 0
  next : blocks.IsChain (fun a b => b.first = a.endIndex)
  last : blocks.getLast?.map Block.endIndex = some (node.instructions.length : Int)
  slice : ∀ b ∈ blocks, ∃ s e : Nat, b.first = s ∧ b.endIndex = e ∧
    b.instructions = (node.instructions.take e).drop s
  starts : ∀ k, k ∈ blocks.map Block.first ↔ k = 0 ∨ (∃ label, (label, k) ∈ node.labels.entries) ∨
    ∃ (p : Nat) (i : Instruction), node.instructions[p]? = some i ∧
      i.opcode ∈ [.jumpTo, .jump, .jumpIfFalse, .stop, .runNode] ∧
      p + 1 < node.instructions.length ∧ k = p + 1
  unique : ∀ label k, (label, k) ∈ node.labels.entries → (blocks.map Block.first).count k = 1
  labelled : ∀ b ∈ blocks, ∀ label, (label, b.first) ∈ node.labels.entries →
    ∃ name, node.FirstLabel name b.first ∧ b.label = some name
  unlabelled : ∀ b ∈ blocks, (∀ e ∈ node.labels.entries, e.2 ≠ b.first) → b.label = none

theorem leads_iff (hn : ∀ e ∈ node.labels.entries, node.Holds e.2)
    (h : node.instructions ≠ []) (k : Int) :
    (∃ p : Nat, k = p ∧ p < node.instructions.length ∧ node.Leads p) ↔
      k = 0 ∨ (∃ label, (label, k) ∈ node.labels.entries) ∨
        ∃ (p : Nat) (i : Instruction), node.instructions[p]? = some i ∧
          i.opcode ∈ Opcode.terminators ∧ p + 1 < node.instructions.length ∧ k = p + 1 := by
  apply Iff.intro
  · rintro ⟨p, rfl, hp, hl⟩
    obtain rfl | hl | ⟨i, hi, ho⟩ := hl
    · exact .inl rfl
    · obtain ⟨⟨label, k⟩, he, hk⟩ := List.mem_map.mp hl
      exact .inr (.inl ⟨label, hk ▸ he⟩)
    · cases p with
      | zero => exact .inl rfl
      | succ p => exact .inr (.inr ⟨p, i, hi, ho, hp, by simp⟩)
  · rintro (rfl | ⟨label, he⟩ | ⟨p, i, hi, ho, hp, rfl⟩)
    · exact ⟨0, rfl, List.length_pos_iff.mpr h, .inl rfl⟩
    · exact exists_leads_of_label he (hn _ he)
    · exact ⟨p + 1, by simp, hp, .inr (.inr ⟨i, hi, ho⟩)⟩

theorem tiling_cut (h : node.instructions ≠ [])
    (hn : ∀ e ∈ node.labels.entries, node.Holds e.2) : node.Tiling node.cut := by
  obtain ⟨rest, hs⟩ := exists_starts h
  have hlt : ∀ p ∈ node.starts node.leaders, p < node.instructions.length := starts_lt
  have hstarts : ∀ k, k ∈ node.cut.map Block.first ↔ _ :=
    fun k => (mem_map_first_cut k).trans (leads_iff hn h k)
  constructor
  case nonempty =>
    intro b hb
    obtain ⟨s, e, hseg, rfl⟩ := exists_segment hb
    obtain ⟨i, hi⟩ := hseg.exists_last
    simp [hseg.instructions_slice hi]
  case first =>
    obtain ⟨e, tail, he⟩ := node.head_slices 0 rest
    rw [cut, hs, he]
    rfl
  case next => exact chain_slices (node.starts_pairwise _) hlt
  case last => exact last_slices (by simp [hs]) hlt
  case slice =>
    intro b hb
    obtain ⟨s, e, hseg, rfl⟩ := exists_segment hb
    exact ⟨s, e, rfl, hseg.endIndex_slice, (List.drop_take).symm⟩
  case starts => exact hstarts
  case unique =>
    intro label k he
    exact List.count_eq_one_of_mem node.nodup_first_cut ((hstarts k).mpr (.inr (.inl ⟨label, he⟩)))
  case labelled =>
    intro b hb label he
    obtain ⟨s, e, hseg, rfl⟩ := exists_segment hb
    cases hl : node.labelAt? (node.slice s e).first with
    | none => exact absurd rfl ((labelAt?_eq_none_iff _).mp hl _ he)
    | some name => exact ⟨name, (labelAt?_eq_some_iff _ _).mp hl, hl⟩
  case unlabelled =>
    intro b hb he
    obtain ⟨s, e, hseg, rfl⟩ := exists_segment hb
    exact (labelAt?_eq_none_iff _).mpr he

theorem blocks_tile {f : Flow} (hne : node.instructions ≠ []) (h : node.flow = .ok f) :
    node.Tiling f.blocks := by
  rw [(linked_of_flow h).blocks]
  exact tiling_cut hne ((flow_eq_ok_iff.mp h).1 hne)

theorem blocks_tile_crossroads :
    crossroads.instructions ≠ [] ∧ ∃ f, crossroads.flow = .ok f ∧ crossroads.Tiling f.blocks := by
  have hne : crossroads.instructions ≠ [] := List.cons_ne_nil _ _
  have hsize : crossroads.flow.toOption.map Flow.size = some 4 := by decide +kernel
  obtain ⟨f, hf, -⟩ := exists_flow_of_size hsize
  exact ⟨hne, f, hf, blocks_tile hne hf⟩

end DialogueFlow.Node
