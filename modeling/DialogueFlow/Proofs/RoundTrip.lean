import DialogueFlow.Proofs.Analysis

namespace DialogueFlow

open List (forall₂_map_left_iff forall₂_same)

theorem Opcode.ofName?_name (op : Opcode) : ofName? op.name = some op := by
  cases op <;> decide +kernel

theorem Operand.ofJson_toJson (op : Operand) : ofJson op.toJson = .ok op := by
  cases op <;> rfl

theorem Instruction.ofJson_toJson (i : Instruction) : ofJson i.toJson = .ok i := by
  rw [ofJson_eq_ok_iff]
  refine ⟨_, .string i.opcode.name, i.operands.map Operand.toJson, rfl, rfl, rfl, ?_, ?_⟩
  · simp only [Opcode.ofJson, Opcode.ofName?_name]
  · rw [forall₂_map_left_iff, forall₂_same]
    exact fun op _ => op.ofJson_toJson

theorem Node.ofFields_toJson {node : Node} (h : node.Sound) :
    ofFields node.name [
      ("name", .string node.name),
      ("instructions", .array (node.instructions.map Instruction.toJson)),
      ("labels", .object (node.labels.entries.map (fun e => (e.1, .int e.2)))),
      ("headers", .object (node.headers.entries.map (fun e => (e.1, .string e.2))))] =
      .ok node := by
  rw [ofFields_eq_ok_iff]
  refine ⟨_, _, _, node.headers.entries, node.labels.entries,
    Json.optionalArray_eq_ok_iff.mpr (.inl rfl), Json.optionalObject_eq_ok_iff.mpr (.inl rfl),
    Json.optionalObject_eq_ok_iff.mpr (.inl rfl), ?_, ?_, ?_, rfl, (Table.ofList_entries _).symm,
    (Table.ofList_entries _).symm⟩
  · rw [forall₂_map_left_iff, forall₂_same]
    exact fun i _ => i.ofJson_toJson
  · rw [forall₂_map_left_iff, forall₂_same]
    exact fun e _ => ⟨rfl, rfl⟩
  · rw [forall₂_map_left_iff, forall₂_same]
    exact fun e he => ⟨rfl, labelIndex_eq_ok_iff.mpr ⟨rfl, h.labels e he⟩⟩

theorem Node.ofJson_toJson {node : Node} (h : node.Sound) :
    ofJson (some node.name) node.toJson = .ok node :=
  ofJson_eq_ok_iff.mpr ⟨_, rfl, rfl, h.named, ofFields_toJson h⟩

namespace Program

variable {p : Program}

theorem Keyed.entries_eq (h : p.Keyed) :
    p.nodes.entries = p.nodes.values.map (fun node => (node.name, node)) := by
  have hn : ∀ e ∈ p.nodes.entries, e.2.name = e.1 := by
    rw [Keyed, Table.values, Table.keys, List.map_map] at h
    exact List.map_inj_left.mp h
  rw [Table.values, List.map_map]
  calc p.nodes.entries
    _ = p.nodes.entries.map id := (List.map_id _).symm
    _ = p.nodes.entries.map (fun e => (e.2.name, e.2)) :=
      List.map_congr_left (fun e he => by rw [hn e he]; rfl)

theorem Keyed.ofJson_toJson (h : p.Keyed) (hs : ∀ node ∈ p.nodes.values, node.Sound) :
    ofJson p.toJson = .ok p := by
  rw [ofJson_eq_ok_iff]
  refine ⟨_, _, p.nodes.values, _, p.initialValues.entries, rfl, rfl, ?_, h.nodup,
    Json.optionalObject_eq_ok_iff.mpr (.inl rfl), ?_, rfl, h.entries_eq,
    (Table.ofList_entries _).symm⟩
  · rw [h.entries_eq, List.map_map, List.map_map, forall₂_map_left_iff, forall₂_same]
    exact fun node hn => Node.ofJson_toJson (hs node hn)
  · rw [forall₂_map_left_iff, forall₂_same]
    exact fun e _ => ⟨rfl, e.2.ofJson_toJson⟩

/-- The document that is written for a program that was read is read as that very program. -/
theorem toJson_reads_back {data : Json} (h : ofJson data = .ok p) : ofJson p.toJson = .ok p :=
  (keyed_ofJson h).ofJson_toJson (sound_ofJson h)

/-- A list of nodes, operation codes in other spellings, whole numbers and a blank part. -/
def voyage : Json := .object [
  ("name", .int 7),
  ("nodes", .array [
    .object [
      ("name", .string "Deck"),
      ("instructions", .array [
        .object [("opcode", .string "push_FLOAT"), ("operands", .array [.int 3, .float .nan])],
        .object [("opcode", .int 15)]]),
      ("labels", .object [("Aft", .int 1)]),
      ("headers", .object [("crew", .int 12)])],
    .object [("name", .string "Mast"), ("instructions", .null)]]),
  ("initial_values", .object [("$gold", .int 2), ("$open", .bool true)])]

theorem toJson_reads_back_voyage :
    ∃ p, ofJson voyage = .ok p ∧ p.name = "7" ∧ p.nodes.keys = ["Deck", "Mast"] ∧
      (p.nodes.values.flatMap Node.instructions).map Instruction.text =
        ["PushFloat 3.0 nan", "Stop"] ∧
      p.initialValues.entries.map (fun e => (e.1, e.2.text)) =
        [("$gold", "2.0"), ("$open", "true")] ∧
      ofJson p.toJson = .ok p := by
  have hread : (ofJson voyage).toOption.map (fun p => (p.name, p.nodes.keys,
      (p.nodes.values.flatMap Node.instructions).map Instruction.text,
      p.initialValues.entries.map (fun e => (e.1, e.2.text)))) =
      some ("7", ["Deck", "Mast"], ["PushFloat 3.0 nan", "Stop"],
        [("$gold", "2.0"), ("$open", "true")]) := by decide +kernel
  obtain ⟨p, hp, hparts⟩ := exists_ok_of_map hread
  simp only [Prod.mk.injEq] at hparts
  obtain ⟨hname, hkeys, htexts, hvalues⟩ := hparts
  exact ⟨p, hp, hname, hkeys, htexts, hvalues, toJson_reads_back hp⟩

end Program

end DialogueFlow
