import DialogueFlow.Proofs.Cutting
import DialogueFlow.Proofs.Link

namespace DialogueFlow

structure Part where
  first : Int
  instructions : List Instruction

def Part.stop (p : Part) : Int := p.first + p.instructions.length

def Block.part (b : Block) : Part := ⟨b.first, b.instructions⟩

theorem Block.stop_part (b : Block) : b.part.stop = b.endIndex := rfl

def placedFrom (s : Int) : List (List Instruction) → List Part
  | [] => []
  | instructions :: rest => ⟨s, instructions⟩ :: placedFrom (s + instructions.length) rest

theorem exists_of_mem_placedFrom {s : Int} {parts : List (List Instruction)} {p : Part}
    (h : p ∈ placedFrom s parts) :
    ∃ earlier later, parts = earlier ++ p.instructions :: later ∧
      p.first = s + earlier.flatten.length := by
  induction parts generalizing s with
  | nil => simp [placedFrom] at h
  | cons instructions rest ih =>
    obtain rfl | h := List.mem_cons.mp h
    · exact ⟨[], rest, rfl, by simp⟩
    · obtain ⟨earlier, later, rfl, hf⟩ := ih h
      refine ⟨instructions :: earlier, later, rfl, ?_⟩
      rw [hf, List.flatten_cons, List.length_append]
      omega

namespace Node

variable {node : Node}

/-- A way to divide the instructions of a node into parts that are not empty. -/
structure Division (node : Node) where
  parts : List (List Instruction)
  nonempty : ∀ part ∈ parts, part ≠ []
  joined : parts.flatten = node.instructions

def Division.placed (d : node.Division) : List Part := placedFrom 0 d.parts

/-- Only the last instruction ends a block, and labels target only the first one. -/
structure BasicPart (node : Node) (p : Part) : Prop where
  exit : ∀ i ∈ p.instructions.dropLast, i.opcode ∉ [.jumpTo, .jump, .jumpIfFalse, .stop, .runNode]
  entry : ∀ e ∈ node.labels.entries, ¬ (p.first < e.2 ∧ e.2 < p.stop)

def Division.IsBasic (d : node.Division) : Prop := ∀ p ∈ d.placed, node.BasicPart p

/-- Each part of the first division lies inside one part of the second. -/
def Division.Refines (d d' : node.Division) : Prop :=
  ∀ p ∈ d.placed, ∃ q ∈ d'.placed, q.first ≤ p.first ∧ p.stop ≤ q.stop

theorem Division.exists_place (d : node.Division) {p : Part} (h : p ∈ d.placed) :
    ∃ s : Nat, p.first = s ∧ 0 < p.instructions.length ∧
      s + p.instructions.length ≤ node.instructions.length ∧
      ∀ k < p.instructions.length, node.instructions[s + k]? = p.instructions[k]? := by
  obtain ⟨earlier, later, hparts, hf⟩ := exists_of_mem_placedFrom h
  have hne : p.instructions ≠ [] := d.nonempty _ (by simp [hparts])
  have hall : node.instructions = earlier.flatten ++ (p.instructions ++ later.flatten) := by
    rw [← d.joined, hparts, List.flatten_append, List.flatten_cons]
  refine ⟨earlier.flatten.length, by simpa using hf, List.length_pos_iff.mpr hne, ?_, ?_⟩
  · simp [hall]
  · intro k hk
    rw [hall, List.getElem?_append_right (by omega), Nat.add_sub_cancel_left,
      List.getElem?_append_left hk]

theorem placedFrom_slices {s : Nat} {rest : List Nat} (hl : (s :: rest).Pairwise (· < ·))
    (hn : ∀ p ∈ s :: rest, p < node.instructions.length) :
    placedFrom s ((node.slices (s :: rest)).map Block.instructions) =
      (node.slices (s :: rest)).map Block.part := by
  induction rest generalizing s with
  | nil => rfl
  | cons e rest ih =>
    obtain ⟨hs, ht⟩ := List.pairwise_cons.mp hl
    have he := node.endIndex_slice (Nat.le_of_lt (hs e (by simp))) (Nat.le_of_lt (hn e (by simp)))
    have hrest := ih ht (fun p hp => hn p (List.mem_cons_of_mem s hp))
    rw [slices, List.map_cons, placedFrom, List.map_cons, ← hrest, ← he]
    rfl

theorem placedFrom_cut (node : Node) :
    placedFrom 0 (node.cut.map Block.instructions) = node.cut.map Block.part := by
  obtain ⟨-, hcut⟩ | ⟨rest, hcut, hl, hn⟩ := node.cut_cases
  · simp [hcut, placedFrom]
  · rw [hcut]
    exact placedFrom_slices hl hn

theorem flatMap_instructions_cut (node : Node) :
    node.cut.flatMap Block.instructions = node.instructions := by
  obtain ⟨hnil, hcut⟩ | ⟨rest, hcut, hl, -⟩ := node.cut_cases
  · simp [hcut, hnil]
  · rw [hcut, flatMap_instructions_slices hl, List.drop_zero]

def division (node : Node) : node.Division where
  parts := node.cut.map Block.instructions
  nonempty := by
    intro part h
    obtain ⟨b, hb, rfl⟩ := List.mem_map.mp h
    obtain ⟨s, e, hseg, rfl⟩ := exists_segment hb
    obtain ⟨i, hi⟩ := hseg.exists_last
    simp [hseg.instructions_slice hi]
  joined := by rw [← List.flatMap_def, flatMap_instructions_cut]

theorem placed_division (node : Node) : node.division.placed = node.cut.map Block.part :=
  node.placedFrom_cut

theorem Segment.basicPart {s e : Nat} (h : node.Segment s e) :
    node.BasicPart (node.slice s e).part := by
  constructor
  case exit =>
    intro i hi hterm
    obtain ⟨last, hlast⟩ := h.exists_last
    rw [Block.part, h.instructions_slice hlast, List.dropLast_concat] at hi
    have hgoes := h.body_goesOn i hi
    rw [(Opcode.endsBlock_iff _).mpr hterm] at hgoes
    cases hgoes
  case entry =>
    rintro ⟨label, k⟩ he ⟨hs, hk⟩
    rw [Block.stop_part, h.endIndex_slice] at hk
    have hs : (s : Int) < k := hs
    have hcast : ((k.toNat : Nat) : Int) = k := Int.toNat_of_nonneg (by omega)
    refine h.inside k.toNat (by omega) (by omega) (.inr (.inl ?_))
    rw [hcast]
    exact List.mem_map_of_mem he

theorem Segment.stop_le {s e : Nat} (h : node.Segment s e) {d : node.Division} {p : Part}
    (hp : p ∈ d.placed) (hb : node.BasicPart p) (he : p.first < e) : p.stop ≤ e := by
  by_contra hlt
  obtain ⟨t, ht, -, hle, hget⟩ := d.exists_place hp
  have hstop : p.stop = t + p.instructions.length := by rw [Part.stop, ht]
  -- The block ends inside the part, so a label targets its end or the instruction before ends it.
  obtain h0 | hlabel | ⟨i, hi, hterm⟩ := h.stops (by omega)
  · omega
  · obtain ⟨⟨label, k⟩, hentry, hk⟩ := List.mem_map.mp hlabel
    have hk : k = (e : Int) := hk
    exact hb.entry _ hentry ⟨by omega, by omega⟩
  · have hi : node.instructions[t + (e - 1 - t)]? = some i := by
      rw [Nat.add_sub_cancel' (by omega)]
      exact hi
    rw [hget _ (by omega)] at hi
    refine hb.exit i (List.mem_of_getElem? (i := e - 1 - t) ?_) hterm
    rw [List.getElem?_dropLast, if_pos (by omega), hi]

/-- The blocks of a flow divide the node into basic parts, and every division into basic parts
divides the blocks further. -/
theorem blocks_coarsest {f : Flow} (h : node.flow = .ok f) :
    ∃ d : node.Division, d.placed = f.blocks.map Block.part ∧ d.IsBasic ∧
      ∀ d' : node.Division, d'.IsBasic → d'.Refines d := by
  refine ⟨node.division, ?_, ?_, ?_⟩
  · rw [placed_division, (linked_of_flow h).blocks]
  · intro p hp
    rw [placed_division] at hp
    obtain ⟨b, hb, rfl⟩ := List.mem_map.mp hp
    obtain ⟨s, e, hseg, rfl⟩ := exists_segment hb
    exact hseg.basicPart
  · intro d hd p hp
    obtain ⟨t, ht, hpos, hle, -⟩ := d.exists_place hp
    obtain ⟨s, e, hseg, hs, he⟩ := node.exists_segment_at (p := t) (by omega)
    refine ⟨(node.slice s e).part, ?_, ?_, ?_⟩
    · rw [placed_division]
      exact List.mem_map_of_mem (slice_mem_cut hseg)
    · rw [ht]
      exact Int.ofNat_le.mpr hs
    · rw [Block.stop_part, hseg.endIndex_slice]
      exact hseg.stop_le hp (hd p hp) (by omega)

def perPlace (node : Node) : node.Division where
  parts := node.instructions.map (fun i => [i])
  nonempty := by simp
  joined := by rw [← List.flatMap_def, List.flatMap_singleton']

theorem isBasic_perPlace (node : Node) : node.perPlace.IsBasic := by
  rintro ⟨first, instructions⟩ hp
  obtain ⟨earlier, later, hparts, -⟩ := exists_of_mem_placedFrom hp
  have hmem : instructions ∈ node.perPlace.parts := by simp [hparts]
  obtain ⟨i, -, rfl⟩ := List.mem_map.mp hmem
  constructor
  case exit => simp
  case entry =>
    intro e _ h
    simp only [Part.stop, List.length_singleton] at h
    omega

theorem blocks_coarsest_crossroads :
    ∃ f, crossroads.flow = .ok f ∧ ∃ d : crossroads.Division,
      d.placed = f.blocks.map Block.part ∧ d.IsBasic ∧ crossroads.perPlace.IsBasic ∧
        crossroads.perPlace.Refines d ∧ crossroads.perPlace.placed.length = 8 ∧
        d.placed.length = 4 := by
  have hsize : crossroads.flow.toOption.map Flow.size = some 4 := by decide +kernel
  obtain ⟨f, hf, hfour⟩ := exists_flow_of_size hsize
  obtain ⟨d, hd, hbasic, hcoarsest⟩ := blocks_coarsest hf
  have hfine := crossroads.isBasic_perPlace
  refine ⟨f, hf, d, hd, hbasic, hfine, hcoarsest _ hfine, by decide, ?_⟩
  rw [hd, List.length_map, Flow.blocks, Vector.length_toList, hfour]

end Node

end DialogueFlow
