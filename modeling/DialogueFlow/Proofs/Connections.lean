import DialogueFlow.Proofs.Analysis

namespace DialogueFlow

variable {n : Nat}

def Instruction.pushedText? (i : Instruction) : Option String :=
  match i.opcode, (i.operands[0]? : Option Operand) with
  | .pushString, some (.string text) => some text
  | _, _ => none

namespace Node

/-- The node to which the instruction at `p` jumps: the text that was pushed before it in the same
block, if nothing else was pushed since. -/
def jumpAt? (node : Node) (p : Nat) : Option String :=
  if node.instructions[p]?.map Instruction.opcode = some .runNode then
    (lastPush? (node.since p)).bind Instruction.pushedText?
  else none

def nodeJumps (node : Node) : List String :=
  ((List.range node.instructions.length).filterMap node.jumpAt?).eraseDups

end Node

namespace Graph

variable {g : Graph n} {node : Node} {b : Block} {last : Instruction} {es : List (Edge n)}

theorem RunsInto.isSome_block? (h : g.RunsInto b es) : ∀ e ∈ es, e.target.block?.isSome = true := by
  obtain ⟨j, -, rfl⟩ := h
  simp [Target.block?]

theorem Exits.isSome_block? (h : g.Exits node b last es) (ho : last.opcode ≠ .runNode) :
    ∀ e ∈ es, e.target.block?.isSome = true := by
  rw [Exits] at h
  cases hl : last.opcode with
  | jumpTo =>
    obtain ⟨j, -, rfl⟩ := by simpa only [hl] using h
    simp [Target.block?]
  | jumpIfFalse =>
    obtain ⟨j, k, -, -, rfl⟩ := by simpa only [hl] using h
    simp [Target.block?]
  | jump =>
    simp only [hl] at h
    split at h
    · exact h.isSome_block?
    · obtain ⟨js, -, rfl⟩ := h
      simp [Target.block?]
  | runNode => exact absurd hl ho
  | stop =>
    obtain rfl : es = [] := by simpa only [hl] using h
    simp
  | _ => exact RunsInto.isSome_block? (by simpa only [hl] using h)

theorem nodeDestinations_eq_nil {i : Fin n}
    (h : ∀ e ∈ g.edges i, e.target.block?.isSome = true) : (g.vertex i).nodeDestinations = [] := by
  rw [Vertex.nodeDestinations, List.filterMap_eq_nil_iff]
  intro d hd
  obtain ⟨e, he, rfl⟩ := List.mem_map.mp hd
  have hb := h e he
  cases ht : e.target with
  | block j => simp [destination, place, ht, Place.node?]
  | node name => simp [ht, Target.block?] at hb

theorem nodeDestinations_of_exits {i : Fin n} (h : g.Exits node b last (g.edges i)) :
    (g.vertex i).nodeDestinations =
      if last.opcode = .runNode then
        ((lastPush? b.instructions).bind Instruction.pushedText?).toList
      else [] := by
  by_cases ho : last.opcode = .runNode
  · rw [if_pos ho]
    simp only [Exits, ho] at h
    obtain ⟨t, text, hlast, hpush, h0, -, he⟩ | ⟨hnone, hruns⟩ := h
    · have ht : t.pushedText? = some text := by simp [Instruction.pushedText?, hpush, h0]
      simp [Vertex.nodeDestinations, vertex, he, destination, place, Place.node?, hlast, ht]
    · have hbind : (lastPush? b.instructions).bind Instruction.pushedText? = none := by
        rw [Option.bind_eq_none_iff]
        intro t ht
        have hne := hnone t ht
        rw [Instruction.pushedText?]
        split
        · next hpush _ => exact absurd hpush hne
        · rfl
      rw [nodeDestinations_eq_nil hruns.isSome_block?, hbind]
      rfl
  · rw [if_neg ho, nodeDestinations_eq_nil (h.isSome_block? ho)]

end Graph

def Block.places (b : Block) : List Nat := List.range' b.first.toNat b.instructions.length

namespace Node

variable {node : Node}

theorem places_slice {s e : Nat} (hs : s ≤ e) (he : e ≤ node.instructions.length) :
    (node.slice s e).places = List.range' s (e - s) := by
  simp only [Block.places, slice, List.length_take, List.length_drop, Int.toNat_natCast]
  congr 1
  omega

theorem flatMap_places_slices {s : Nat} {rest : List Nat} (hl : (s :: rest).Pairwise (· < ·))
    (hn : ∀ p ∈ s :: rest, p < node.instructions.length) :
    (node.slices (s :: rest)).flatMap Block.places =
      List.range' s (node.instructions.length - s) := by
  induction rest generalizing s with
  | nil =>
    have hs := hn s (by simp)
    rw [slices, List.flatMap_singleton, places_slice (Nat.le_of_lt hs) (Nat.le_refl _)]
  | cons e rest ih =>
    have hse : s < e := (List.pairwise_cons.mp hl).1 e (by simp)
    have he : e < node.instructions.length := hn e (by simp)
    have ht := ih (List.pairwise_cons.mp hl).2 (fun p hp => hn p (List.mem_cons_of_mem s hp))
    have hsum : node.instructions.length - s =
        (e - s) + (node.instructions.length - e) := by omega
    have hmid : e = s + (e - s) := by omega
    rw [slices, List.flatMap_cons, ht, places_slice (Nat.le_of_lt hse) (Nat.le_of_lt he), hsum,
      ← List.range'_append_1, ← hmid]

/-- The blocks of a node hold its places one after the other. -/
theorem flatMap_places_cut (node : Node) :
    node.cut.flatMap Block.places = List.range node.instructions.length := by
  obtain ⟨hnil, hcut⟩ | ⟨rest, hcut, hl, hn⟩ := node.cut_cases
  · simp [hcut, hnil]
  · rw [hcut, flatMap_places_slices hl hn, Nat.sub_zero, List.range_eq_range']

theorem Segment.filterMap_places {s e : Nat} (h : node.Segment s e) {last : Instruction}
    (hl : node.instructions[e - 1]? = some last) :
    (node.slice s e).places.filterMap node.jumpAt? =
      if last.opcode = .runNode then
        ((lastPush? (node.slice s e).instructions).bind Instruction.pushedText?).toList
      else [] := by
  have hlt := h.lt
  have hplaces : (node.slice s e).places = List.range' s (e - 1 - s) ++ [e - 1] := by
    have hlen : e - s = (e - 1 - s) + 1 := by omega
    have hend : s + (e - 1 - s) = e - 1 := by omega
    rw [places_slice (Nat.le_of_lt hlt) h.le, hlen, List.range'_1_concat, hend]
  have hbody : (List.range' s (e - 1 - s)).filterMap node.jumpAt? = [] := by
    rw [List.filterMap_eq_nil_iff]
    intro q hq
    rw [List.mem_range'_1] at hq
    rw [jumpAt?, if_neg]
    intro hrun
    obtain ⟨i, hi, ho⟩ := Option.map_eq_some_iff.mp hrun
    have hgoes := h.goesOn hq.1 (by omega) hi
    simp [ho, Opcode.endsBlock] at hgoes
  have hlast : node.jumpAt? (e - 1) =
      if last.opcode = .runNode then
        (lastPush? (node.slice s e).instructions).bind Instruction.pushedText?
      else none := by
    rw [jumpAt?, hl, h.since_eq (by omega) (by omega), h.instructions_slice hl, lastPush?_concat]
    by_cases ho : last.opcode = .runNode
    · simp [ho, Opcode.pushes]
    · simp [ho]
  rw [hplaces, List.filterMap_append, hbody, List.nil_append, List.filterMap_cons, hlast]
  by_cases ho : last.opcode = .runNode
  · rw [if_pos ho, if_pos ho]
    cases (lastPush? (node.slice s e).instructions).bind Instruction.pushedText? <;> rfl
  · rw [if_neg ho, if_neg ho]
    rfl

theorem nodeDestinations_eq {f : Flow} (hf : node.flow = .ok f) (i : Fin f.size) :
    (f.graph.vertex i).nodeDestinations = (f.graph.block i).places.filterMap node.jumpAt? := by
  have hlinked := linked_of_flow hf
  have hb : f.graph.block i ∈ node.cut := by
    rw [← hlinked.blocks]
    simp [Flow.blocks, Graph.block]
  obtain ⟨last, hlast, hexits⟩ := hlinked.exits i
  obtain ⟨s, e, hseg, hslice⟩ := exists_segment hb
  rw [hslice, hseg.last_slice] at hlast
  rw [Graph.nodeDestinations_of_exits hexits, hslice, hseg.filterMap_places hlast]

theorem nodeDestinations_vertices {f : Flow} (hf : node.flow = .ok f) :
    f.vertices.flatMap Vertex.nodeDestinations =
      (List.range node.instructions.length).filterMap node.jumpAt? := by
  have hv : ∀ v ∈ f.vertices, v.nodeDestinations = v.block.places.filterMap node.jumpAt? := by
    intro v hv
    obtain ⟨i, -, rfl⟩ := List.mem_map.mp hv
    exact nodeDestinations_eq hf i
  calc f.vertices.flatMap Vertex.nodeDestinations
    _ = f.vertices.flatMap (fun v => v.block.places.filterMap node.jumpAt?) :=
      List.flatMap_congr hv
    _ = ((f.vertices.map Vertex.block).flatMap Block.places).filterMap node.jumpAt? := by
      rw [List.flatMap_map, List.filterMap_flatMap]
    _ = (List.range node.instructions.length).filterMap node.jumpAt? := by
      rw [f.map_block_vertices, (linked_of_flow hf).blocks, flatMap_places_cut]

end Node

namespace Program

/-- The connections of a program have an entry for each node with a flow, in program order: the
nodes to which its instructions jump. An analysis that is stopped has come to some of the nodes, one
that is not to all. -/
theorem connections_eq_nodeJumps {p : Program} (h : (p.nodes.values.map Node.name).Nodup) :
    p.analyse.connections.entries =
      (p.reached.filter (fun node => node.flow.toOption.isSome)).map
        (fun node => (node.name, node.nodeJumps)) ∧
      (p.analyse.stop = none → p.reached = p.nodes.values) := by
  refine ⟨?_, reached_eq_values⟩
  rw [Analysis.connections, Table.entries_map, flows_analyse h]
  induction p.reached with
  | nil => rfl
  | cons node rest ih =>
    cases hf : node.flow with
    | error fault => simpa [hf, Except.toOption] using ih
    | ok f =>
      have hjumps : (f.vertices.flatMap Vertex.nodeDestinations).eraseDups = node.nodeJumps := by
        rw [Node.nodeDestinations_vertices hf, Node.nodeJumps]
      simpa [hf, Except.toOption, hjumps] using ih

def quay : Node where
  name := "Quay"
  instructions := [
    ⟨.pushString, [.string "Sea"]⟩,
    ⟨.callFunc, [.string "visited"]⟩,
    ⟨.runNode, []⟩,
    ⟨.pushString, [.string "Isle"]⟩,
    ⟨.pushBool, [.bool true]⟩,
    ⟨.runNode, []⟩,
    ⟨.runNode, []⟩,
    ⟨.pushString, [.string "Sea"]⟩,
    ⟨.runNode, []⟩,
    ⟨.pushString, [.string "Quay"]⟩,
    ⟨.runNode, []⟩]
  labels := ∅
  headers := ∅

def reef : Node :=
  ⟨"Reef", [⟨.pushString, [.string "Sea"]⟩, ⟨.runNode, []⟩, ⟨.jumpTo, [.string "Deep"]⟩], ∅, ∅⟩

def sea : Node := ⟨"Sea", [⟨.stop, []⟩], ∅, ∅⟩

def crossing : Program := ⟨"Crossing", .ofList [("1", quay), ("2", reef), ("3", sea)], ∅⟩

theorem connections_eq_nodeJumps_crossing :
    (crossing.nodes.values.map Node.name).Nodup ∧ crossing.analyse.stop = none ∧
      crossing.analyse.connections.entries = [("Quay", ["Sea", "Quay"]), ("Sea", [])] := by
  have hn : (crossing.nodes.values.map Node.name).Nodup := by decide +kernel
  have hstop : crossing.analyse.stop = none := by decide +kernel
  have hjumps : (crossing.nodes.values.filter (fun node => node.flow.toOption.isSome)).map
      (fun node => (node.name, node.nodeJumps)) = [("Quay", ["Sea", "Quay"]), ("Sea", [])] := by
    decide +kernel
  obtain ⟨hentries, hall⟩ := connections_eq_nodeJumps hn
  rw [hall hstop] at hentries
  exact ⟨hn, hstop, hentries.trans hjumps⟩

end Program

end DialogueFlow
