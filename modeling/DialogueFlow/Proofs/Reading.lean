import DialogueFlow.Program.Document
import DialogueFlow.Proofs.Outcome
import DialogueFlow.Proofs.Table

namespace DialogueFlow

open List (Forall₂)

namespace Json

theorem optionalArray_eq_ok_iff {value : Json} {otherwise : Malformed} {items : List Json} :
    value.optionalArray otherwise = .ok items ↔
      value = .array items ∨ value.isBlank = true ∧ items = [] := by
  rw [optionalArray.eq_def]
  by_cases hb : value.isBlank = true
  · rw [if_pos hb]
    refine ⟨fun h => .inr ⟨hb, (Except.ok.inj h).symm⟩, ?_⟩
    rintro (rfl | ⟨-, rfl⟩)
    · rw [List.isEmpty_iff.mp hb]
    · rfl
  · rw [if_neg hb]
    cases value <;> simp [malformed, hb]

theorem optionalObject_eq_ok_iff {value : Json} {otherwise : Malformed}
    {fields : List (String × Json)} :
    value.optionalObject otherwise = .ok fields ↔
      value = .object fields ∨ value.isBlank = true ∧ fields = [] := by
  rw [optionalObject.eq_def]
  by_cases hb : value.isBlank = true
  · rw [if_pos hb]
    refine ⟨fun h => .inr ⟨hb, (Except.ok.inj h).symm⟩, ?_⟩
    rintro (rfl | ⟨-, rfl⟩)
    · rw [List.isEmpty_iff.mp hb]
    · rfl
  · rw [if_neg hb]
    cases value <;> simp [malformed, hb]

/-- The nodes of a document, each with the name that it is given from outside. -/
def nodeEntries? : Json → Option (List (Option String × Json))
  | .object nodes => some (nodes.map (fun e => (some e.1, e.2)))
  | .array nodes => some (nodes.map (fun data => (none, data)))
  | _ => none

end Json

theorem mapM_entries_eq_ok_iff {α β ε : Type} {f : String → α → Except ε β}
    {entries : List (String × α)} {read : List (String × β)} :
    entries.mapM (fun (key, value) => (f key value).map (fun v => (key, v))) = .ok read ↔
      Forall₂ (fun e r => e.1 = r.1 ∧ f e.1 e.2 = .ok r.2) entries read := by
  rw [mapM_eq_ok_iff]
  have hstep : ∀ (e : String × α) (r : String × β),
      (f e.1 e.2).map (fun v => (e.1, v)) = .ok r ↔ e.1 = r.1 ∧ f e.1 e.2 = .ok r.2 := by
    rintro ⟨key, value⟩ ⟨key', v⟩
    rw [map_eq_ok_iff]
    apply Iff.intro
    · rintro ⟨w, hw, he⟩
      obtain ⟨rfl, rfl⟩ := Prod.mk.inj he
      exact ⟨rfl, hw⟩
    · rintro ⟨rfl, hv⟩
      exact ⟨v, hv, rfl⟩
  apply Iff.intro
  · exact List.Forall₂.imp (fun e r => (hstep e r).mp)
  · exact List.Forall₂.imp (fun e r => (hstep e r).mpr)

theorem Instruction.make_eq_ok_iff {opcode : Json} {operands : List Json} {i : Instruction} :
    make opcode operands = .ok i ↔ Opcode.ofJson opcode = .ok i.opcode ∧
      Forall₂ (fun value op => Operand.ofJson value = .ok op) operands i.operands := by
  rw [make, bind_eq_ok_iff]
  apply Iff.intro
  · rintro ⟨op, hop, h⟩
    obtain ⟨ops, hops, h⟩ := bind_eq_ok_iff.mp h
    cases h
    exact ⟨hop, mapM_eq_ok_iff.mp hops⟩
  · rintro ⟨hop, hops⟩
    exact ⟨_, hop, bind_eq_ok_iff.mpr ⟨_, mapM_eq_ok_iff.mpr hops, rfl⟩⟩

theorem Instruction.ofJson_eq_ok_iff {data : Json} {i : Instruction} :
    ofJson data = .ok i ↔ ∃ fields opcode operands, data = .object fields ∧
      fields.lookup "opcode" = some opcode ∧
      Json.field "operands" (.array []) fields = .array operands ∧
      Opcode.ofJson opcode = .ok i.opcode ∧
      Forall₂ (fun value op => Operand.ofJson value = .ok op) operands i.operands := by
  apply Iff.intro
  · intro h
    rw [ofJson.eq_def] at h
    split at h
    · next fields =>
      split at h
      · cases h
      · next opcode hopcode =>
        split at h
        · next operands hoperands =>
          exact ⟨fields, opcode, operands, rfl, hopcode, hoperands, make_eq_ok_iff.mp h⟩
        · cases h
    · cases h
  · rintro ⟨fields, opcode, operands, rfl, hopcode, hoperands, h⟩
    simp only [ofJson, hopcode, hoperands]
    exact make_eq_ok_iff.mpr h

namespace Node

variable {node : Node}

theorem labelIndex_eq_ok_iff {name label : String} {count : Nat} {value : Json} {k : Int} :
    labelIndex name count label value = .ok k ↔ value = .int k ∧ 0 ≤ k ∧ k < count := by
  cases value with
  | int index =>
    rw [labelIndex, Json.int.injEq]
    split
    · next h =>
      rw [Except.ok.injEq]
      exact ⟨fun hk => ⟨hk, hk ▸ h⟩, fun hk => hk.1⟩
    · next h => exact iff_of_false (by simp [malformed]) (fun hk => h (hk.1 ▸ hk.2))
  | _ => simp [labelIndex, malformed]

theorem ofFields_eq_ok_iff {name : String} {fields : List (String × Json)} :
    ofFields name fields = .ok node ↔ ∃ items labels headers texts indices,
      (Json.field "instructions" .null fields).optionalArray (.instructionsShape name) = .ok items ∧
      (Json.field "labels" .null fields).optionalObject (.labelsShape name) = .ok labels ∧
      (Json.field "headers" .null fields).optionalObject (.headersShape name) = .ok headers ∧
      Forall₂ (fun data i => Instruction.ofJson data = .ok i) items node.instructions ∧
      Forall₂ (fun e r => e.1 = r.1 ∧ e.2.readText = .ok r.2) headers texts ∧
      Forall₂ (fun e r => e.1 = r.1 ∧
        labelIndex name node.instructions.length e.1 e.2 = .ok r.2) labels indices ∧
      node.name = name ∧ node.labels = .ofList indices ∧ node.headers = .ofList texts := by
  rw [ofFields, bind_eq_ok_iff]
  apply Iff.intro
  · rintro ⟨items, hitems, h⟩
    obtain ⟨labels, hlabels, h⟩ := bind_eq_ok_iff.mp h
    obtain ⟨headers, hheaders, h⟩ := bind_eq_ok_iff.mp h
    obtain ⟨instructions, hinstructions, h⟩ := bind_eq_ok_iff.mp h
    obtain ⟨texts, htexts, h⟩ := bind_eq_ok_iff.mp h
    obtain ⟨indices, hindices, h⟩ := bind_eq_ok_iff.mp h
    cases h
    exact ⟨items, labels, headers, texts, indices, hitems, hlabels, hheaders,
      mapM_eq_ok_iff.mp hinstructions,
      (mapM_entries_eq_ok_iff (f := fun _ => Json.readText)).mp htexts,
      mapM_entries_eq_ok_iff.mp hindices, rfl, rfl, rfl⟩
  · rintro ⟨items, labels, headers, texts, indices, hitems, hlabels, hheaders, hinstructions,
      htexts, hindices, rfl, hl, hh⟩
    refine ⟨items, hitems, bind_eq_ok_iff.mpr ⟨labels, hlabels, bind_eq_ok_iff.mpr
      ⟨headers, hheaders, bind_eq_ok_iff.mpr ⟨_, mapM_eq_ok_iff.mpr hinstructions,
        bind_eq_ok_iff.mpr ⟨texts,
          (mapM_entries_eq_ok_iff (f := fun _ => Json.readText)).mpr htexts,
          bind_eq_ok_iff.mpr ⟨indices, mapM_entries_eq_ok_iff.mpr hindices, ?_⟩⟩⟩⟩⟩⟩
    obtain ⟨name, instructions, labels', headers'⟩ := node
    cases hl
    cases hh
    rfl

theorem ofJson_eq_ok_iff {name : Option String} {data : Json} :
    ofJson name data = .ok node ↔ ∃ fields, data = .object fields ∧
      (name.map Json.string).getD (Json.field "name" .null fields) = .string node.name ∧
      node.name ≠ "" ∧ ofFields node.name fields = .ok node := by
  apply Iff.intro
  · intro h
    rw [ofJson.eq_def] at h
    split at h
    · next fields =>
      split at h
      · next s hs =>
        split at h
        · cases h
        · next hne =>
          obtain ⟨_, _, _, _, _, -, -, -, -, -, -, hname, -⟩ := ofFields_eq_ok_iff.mp h
          rw [← hname] at hs hne h
          exact ⟨fields, rfl, hs, by simpa using hne, h⟩
      · cases h
    · cases h
  · rintro ⟨fields, rfl, hs, hne, h⟩
    have he : ¬ node.name.isEmpty = true := by simpa using hne
    simp only [ofJson, hs, if_neg he]
    exact h

/-- A node with a name whose labels target instructions, as every node is that is read. -/
structure Sound (node : Node) : Prop where
  named : node.name ≠ ""
  labels : ∀ e ∈ node.labels.entries, node.Holds e.2

theorem sound_ofJson {name : Option String} {data : Json} (h : ofJson name data = .ok node) :
    node.Sound := by
  obtain ⟨fields, -, -, hne, h⟩ := ofJson_eq_ok_iff.mp h
  refine ⟨hne, fun e he => ?_⟩
  obtain ⟨_, _, _, _, indices, -, -, -, -, -, hindices, -, hlabels, -⟩ := ofFields_eq_ok_iff.mp h
  rw [hlabels] at he
  obtain ⟨_, -, -, hk⟩ := exists_mem_of_forall₂ hindices.flip (Table.mem_of_mem_ofList he)
  exact (labelIndex_eq_ok_iff.mp hk).2

/-- The check of a node asks for what reading it has made sure of. -/
theorem validate_eq_ok_iff :
    node.validate = .ok () ↔ ∀ e ∈ node.labels.entries, node.Holds e.2 := by
  rw [validate]
  induction node.labels.entries with
  | nil => simp [List.forM, pure, Except.pure]
  | cons e entries ih =>
    have hindex : (∃ k, labelIndex node.name node.instructions.length e.1 (.int e.2) = .ok k) ↔
        node.Holds e.2 := by
      simp [labelIndex_eq_ok_iff, Holds]
    rw [List.forM_eq_forM] at ih ⊢
    rw [List.forM_cons, bind_eq_ok_iff, List.forall_mem_cons, ← ih, ← hindex]
    simp [bind_eq_ok_iff, pure, Except.pure]

theorem validate_ofJson {name : Option String} {data : Json} (h : ofJson name data = .ok node) :
    node.validate = .ok () :=
  validate_eq_ok_iff.mpr (sound_ofJson h).labels

end Node

namespace Program

variable {p q : Program}

theorem ext_parts (hname : p.name = q.name) (hnodes : p.nodes = q.nodes)
    (hvalues : p.initialValues = q.initialValues) : p = q := by
  cases p
  cases q
  cases hname
  cases hnodes
  cases hvalues
  rfl

theorem add_eq_ok_iff {node : Node} :
    p.add node = .ok q ↔
      node.name ∉ p.nodes.keys ∧ q = { p with nodes := p.nodes.insert node.name node } := by
  rw [add, ← Table.contains_iff]
  split
  · next h => exact iff_of_false (by simp) (fun hn => hn.1 h)
  · next h => simp [h, eq_comm]

theorem addJson_eq_ok_iff {name : Option String} {data : Json} :
    p.addJson name data = .ok q ↔
      ∃ node, Node.ofJson name data = .ok node ∧ p.add node = .ok q := by
  rw [addJson, bind_eq_ok_iff]
  refine exists_congr (fun node => and_congr_right (fun _ => ?_))
  cases p.add node <;> simp [malformed]

theorem foldlM_addJson_eq_ok_iff {entries : List (Option String × Json)} :
    entries.foldlM (fun p e => p.addJson e.1 e.2) p = .ok q ↔ ∃ nodes,
      Forall₂ (fun e node => Node.ofJson e.1 e.2 = .ok node) entries nodes ∧
      (p.nodes.keys ++ nodes.map Node.name).Nodup ∧ q.name = p.name ∧
      q.initialValues = p.initialValues ∧
      q.nodes.entries = p.nodes.entries ++ nodes.map (fun node => (node.name, node)) := by
  induction entries generalizing p with
  | nil =>
    simp only [List.foldlM_nil, List.forall₂_nil_left_iff, exists_eq_left, List.map_nil,
      List.append_nil]
    apply Iff.intro
    · intro h
      obtain rfl : p = q := Except.ok.inj h
      exact ⟨p.nodes.nodup, rfl, rfl, rfl⟩
    · rintro ⟨-, hname, hvalues, hentries⟩
      exact congrArg _ (ext_parts hname (Table.ext_entries hentries) hvalues).symm
  | cons e entries ih =>
    rw [List.foldlM_cons, bind_eq_ok_iff]
    apply Iff.intro
    · rintro ⟨p', hp', h⟩
      obtain ⟨node, hnode, hadd⟩ := addJson_eq_ok_iff.mp hp'
      obtain ⟨hnew, rfl⟩ := add_eq_ok_iff.mp hadd
      obtain ⟨nodes, hread, hnodup, hname, hvalues, hentries⟩ := ih.mp h
      refine ⟨node :: nodes, .cons hnode hread, ?_, hname, hvalues, ?_⟩
      · rw [Table.keys_insert, if_neg hnew] at hnodup
        simpa using hnodup
      · rw [Table.entries_insert hnew] at hentries
        simpa using hentries
    · rintro ⟨nodes, hread, hnodup, hname, hvalues, hentries⟩
      obtain ⟨node, rest, hnode, hrest, rfl⟩ := List.forall₂_cons_left_iff.mp hread
      have hnew : node.name ∉ p.nodes.keys := by
        intro hm
        exact List.disjoint_of_nodup_append hnodup hm (by simp)
      refine ⟨_, addJson_eq_ok_iff.mpr ⟨node, hnode, add_eq_ok_iff.mpr ⟨hnew, rfl⟩⟩, ?_⟩
      refine ih.mpr ⟨rest, hrest, ?_, hname, hvalues, ?_⟩
      · rw [Table.keys_insert, if_neg hnew]
        simpa using hnodup
      · rw [Table.entries_insert hnew]
        simpa using hentries

theorem addNodes_eq_foldlM {value : Json} {entries : List (Option String × Json)}
    (h : value.nodeEntries? = some entries) :
    p.addNodes value = entries.foldlM (fun p e => p.addJson e.1 e.2) p := by
  cases value with
  | object nodes | array nodes =>
    cases h
    rw [List.foldlM_map]
    rfl
  | _ => simp [Json.nodeEntries?] at h

theorem addNodes_of_nodeEntries_none {value : Json} (h : value.nodeEntries? = none) :
    p.addNodes value = malformed .nodesShape := by
  cases value with
  | object nodes | array nodes => simp [Json.nodeEntries?] at h
  | _ => rfl

theorem addNodes_eq_ok_iff {value : Json} :
    p.addNodes value = .ok q ↔ ∃ entries, value.nodeEntries? = some entries ∧
      entries.foldlM (fun p e => p.addJson e.1 e.2) p = .ok q := by
  cases h : value.nodeEntries? with
  | none => simp [addNodes_of_nodeEntries_none h, malformed]
  | some entries => simp [addNodes_eq_foldlM h]

/-- The parts of a document that are read as the parts of a program. -/
theorem ofJson_eq_ok_iff {data : Json} :
    ofJson data = .ok p ↔ ∃ fields entries nodes values operands, data = .object fields ∧
      (Json.field "nodes" (.object []) fields).nodeEntries? = some entries ∧
      Forall₂ (fun e node => Node.ofJson e.1 e.2 = .ok node) entries nodes ∧
      (nodes.map Node.name).Nodup ∧
      (Json.field "initial_values" .null fields).optionalObject .initialValuesShape = .ok values ∧
      Forall₂ (fun e r => e.1 = r.1 ∧ Operand.ofJson e.2 = .ok r.2) values operands ∧
      (Json.field "name" (.string "") fields).readText = .ok p.name ∧
      p.nodes.entries = nodes.map (fun node => (node.name, node)) ∧
      p.initialValues = .ofList operands := by
  apply Iff.intro
  · intro h
    rw [ofJson.eq_def] at h
    split at h
    · next fields =>
      obtain ⟨name, hreadName, h⟩ := bind_eq_ok_iff.mp h
      obtain ⟨q, hq, h⟩ := bind_eq_ok_iff.mp h
      obtain ⟨values, hvalues, h⟩ := bind_eq_ok_iff.mp h
      obtain ⟨operands, hoperands, h⟩ := bind_eq_ok_iff.mp h
      cases h
      obtain ⟨entries, hentries, hq⟩ := addNodes_eq_ok_iff.mp hq
      obtain ⟨nodes, hread, hnodup, hname, -, hnodes⟩ := foldlM_addJson_eq_ok_iff.mp hq
      rw [← show q.name = name from hname] at hreadName
      exact ⟨fields, entries, nodes, values, operands, rfl, hentries, hread, hnodup, hvalues,
        (mapM_entries_eq_ok_iff (f := fun _ => Operand.ofJson)).mp hoperands, hreadName, hnodes,
        rfl⟩
    · cases h
  · rintro ⟨fields, entries, nodes, values, operands, rfl, hentries, hread, hnodup, hvalues,
      hoperands, hname, hnodes, hinitial⟩
    have hq := addNodes_eq_ok_iff.mpr ⟨entries, hentries,
      foldlM_addJson_eq_ok_iff (p := named p.name) (q := { p with initialValues := ∅ }) |>.mpr
        ⟨nodes, hread, hnodup, rfl, rfl, hnodes⟩⟩
    rw [ofJson, bind_eq_ok_iff]
    refine ⟨_, hname, bind_eq_ok_iff.mpr ⟨_, hq, bind_eq_ok_iff.mpr ⟨values, hvalues,
      bind_eq_ok_iff.mpr ⟨operands,
        (mapM_entries_eq_ok_iff (f := fun _ => Operand.ofJson)).mpr hoperands, ?_⟩⟩⟩⟩
    rw [← hinitial]
    rfl

theorem sound_ofJson {data : Json} (h : ofJson data = .ok p) :
    ∀ node ∈ p.nodes.values, node.Sound := by
  intro node hn
  obtain ⟨_, entries, nodes, _, _, -, -, hread, -, -, -, -, hnodes, -⟩ := ofJson_eq_ok_iff.mp h
  rw [Table.values, hnodes, List.map_map] at hn
  obtain ⟨other, ho, rfl⟩ := List.mem_map.mp hn
  obtain ⟨e, -, he⟩ := exists_mem_of_forall₂ hread.flip ho
  exact Node.sound_ofJson he

theorem exists_ofJson_of_ofText {d : Json.Dialect} {text : List Char} (h : ofText d text = .ok p) :
    ∃ data, ofJson data = .ok p := by
  rw [ofText] at h
  split at h
  · next data _ => exact ⟨data, h⟩
  all_goals contradiction

end Program

end DialogueFlow
