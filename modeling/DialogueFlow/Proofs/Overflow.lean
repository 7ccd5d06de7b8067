import DialogueFlow.Proofs.Schema

namespace DialogueFlow

def ReadFault.IsMalformed (fault : ReadFault) : Prop := ∃ cause, fault = .malformed cause

def ReadFault.IsOfDocument (fault : ReadFault) : Prop := fault.IsMalformed ∨ fault = .overflow

theorem FailsOnly.ne_overflow {α : Type} {x : Read α} (h : FailsOnly ReadFault.IsMalformed x) :
    x ≠ .error .overflow := by
  intro he
  obtain ⟨_, hc⟩ := h _ he
  cases hc

theorem FailsOnly.ofDocument {α : Type} {x : Read α} (h : FailsOnly ReadFault.IsMalformed x) :
    FailsOnly ReadFault.IsOfDocument x :=
  h.imp (fun _ => .inl)

namespace Json

def IsHuge : Json → Prop
  | .int n => Double.limit ≤ n.natAbs
  | _ => False

/-- The operation code is fine, and among the operands a huge integer is the first thing wrong. -/
def InstructionOverflows : Json → Prop
  | .object fields =>
    (∃ opcode ∈ fields.lookup "opcode", opcode.IsOpcode) ∧
      ∃ operands, fields.lookup "operands" = some (.array operands) ∧
        BreaksAt (fun before => ∀ value ∈ before, value.IsOperand) IsHuge operands
  | _ => False

/-- The parts have their shapes, and an instruction that overflows is the first one wrong. Places of
labels are only looked at later. -/
def NodeOverflows : Json → Prop
  | .object fields =>
    AllowsBlank fields "labels" (IsObjectOf (fun _ => True)) ∧
      AllowsBlank fields "headers" (IsObjectOf (fun _ => True)) ∧
      ∃ items, fields.lookup "instructions" = some (.array items) ∧
        BreaksAt (fun before => ∀ data ∈ before, data.IsInstruction) InstructionOverflows items
  | _ => False

def entryName? (e : Option String × Json) : Option String := e.1.or e.2.ownName?

def AreNodes (entries : List (Option String × Json)) : Prop :=
  (entries.map entryName?).Nodup ∧
    ∀ e ∈ entries, (∃ name ∈ entryName? e, name ≠ "") ∧ e.2.IsNode IsText

def NodesOverflow (value : Json) : Prop :=
  ∃ entries, value.nodeEntries? = some entries ∧
    BreaksAt AreNodes (fun e => (∃ name ∈ entryName? e, name ≠ "") ∧ e.2.NodeOverflows) entries

/-- The name is fine, and a node overflows behind nodes that are fine, or all nodes are fine and a
huge integer is the first thing wrong among the initial values. -/
def Overflows : Json → Prop
  | .object fields =>
    Allows fields "name" IsText ∧
      (NodesOverflow (field "nodes" (.object []) fields) ∨
        Allows fields "nodes" (IsNodes IsText) ∧
          ∃ values, fields.lookup "initial_values" = some (.object values) ∧
            BreaksAt (fun before => ∀ e ∈ before, e.2.IsOperand) (fun e => e.2.IsHuge) values)
  | _ => False

variable {fields : List (String × Json)} {key : String}

theorem malformedOnly_optionalArray (otherwise : Malformed) (value : Json) :
    FailsOnly ReadFault.IsMalformed (value.optionalArray otherwise) := by
  rw [optionalArray.eq_def]
  by_cases hb : value.isBlank = true
  · rw [if_pos hb]
    exact failsOnly_ok _
  · rw [if_neg hb]
    cases value with
    | array items => exact failsOnly_ok _
    | _ => exact failsOnly_error ⟨_, rfl⟩

theorem malformedOnly_optionalObject (otherwise : Malformed) (value : Json) :
    FailsOnly ReadFault.IsMalformed (value.optionalObject otherwise) := by
  rw [optionalObject.eq_def]
  by_cases hb : value.isBlank = true
  · rw [if_pos hb]
    exact failsOnly_ok _
  · rw [if_neg hb]
    cases value with
    | object fields => exact failsOnly_ok _
    | _ => exact failsOnly_error ⟨_, rfl⟩

theorem exists_optionalObject_ok_iff (otherwise : Malformed) :
    (∃ entries, (field key .null fields).optionalObject otherwise = .ok entries) ↔
      AllowsBlank fields key (IsObjectOf (fun _ => True)) := by
  rw [← exists_optionalObject_iff otherwise]
  simp

theorem field_eq_iff {default value : Json} (hne : default ≠ value) :
    field key default fields = value ↔ fields.lookup key = some value := by
  rw [field]
  cases fields.lookup key with
  | none => simp [hne]
  | some other => simp

/-- A list with a fault in it is not blank, so it stands there itself. -/
theorem exists_breaksAt_items_iff (otherwise : Malformed) {fine : List Json → Prop}
    {bad : Json → Prop} :
    (∃ items, (field key .null fields).optionalArray otherwise = .ok items ∧
      BreaksAt fine bad items) ↔
      ∃ items, fields.lookup key = some (.array items) ∧ BreaksAt fine bad items := by
  refine exists_congr (fun items => and_congr_left (fun hbreaks => ?_))
  rw [optionalArray_eq_ok_iff, field_eq_iff (by simp)]
  refine or_iff_left (fun h => ?_)
  rw [h.2] at hbreaks
  exact not_breaksAt_nil _ _ hbreaks

theorem exists_breaksAt_entries_iff (otherwise : Malformed)
    {fine : List (String × Json) → Prop} {bad : String × Json → Prop} :
    (∃ entries, (field key .null fields).optionalObject otherwise = .ok entries ∧
      BreaksAt fine bad entries) ↔
      ∃ entries, fields.lookup key = some (.object entries) ∧ BreaksAt fine bad entries := by
  refine exists_congr (fun entries => and_congr_left (fun hbreaks => ?_))
  rw [optionalObject_eq_ok_iff, field_eq_iff (by simp)]
  refine or_iff_left (fun h => ?_)
  rw [h.2] at hbreaks
  exact not_breaksAt_nil _ _ hbreaks

end Json

theorem Operand.ofJson_overflow_iff (value : Json) :
    ofJson value = .error .overflow ↔ value.IsHuge := by
  cases value with
  | int n =>
    rw [ofJson, Json.IsHuge, ← Nat.not_lt, ← Double.ofInt?_isSome_iff]
    cases Double.ofInt? n <;> simp
  | _ => simp [ofJson, Json.IsHuge, malformed]

theorem Opcode.malformedOnly_ofJson (value : Json) :
    FailsOnly ReadFault.IsMalformed (ofJson value) := by
  cases value with
  | int n =>
    rw [ofJson]
    cases ofNumber? n with
    | none => exact failsOnly_error ⟨_, rfl⟩
    | some op => exact failsOnly_ok op
  | string s =>
    rw [ofJson]
    cases ofName? s with
    | none => exact failsOnly_error ⟨_, rfl⟩
    | some op => exact failsOnly_ok op
  | _ => exact failsOnly_error ⟨_, rfl⟩

theorem Instruction.make_overflow_iff (opcode : Json) (operands : List Json) :
    make opcode operands = .error .overflow ↔ opcode.IsOpcode ∧
      BreaksAt (fun before => ∀ value ∈ before, value.IsOperand) Json.IsHuge operands := by
  simp only [make, bind_eq_error_iff, (Opcode.malformedOnly_ofJson _).ne_overflow, false_or,
    mapM_eq_error_iff, Operand.exists_ofJson_iff, Operand.ofJson_overflow_iff,
    ← Opcode.exists_ofJson_iff]
  apply Iff.intro
  · rintro ⟨op, hop, h | ⟨_, -, h⟩⟩
    · exact ⟨⟨op, hop⟩, h⟩
    · cases h
  · rintro ⟨⟨op, hop⟩, h⟩
    exact ⟨op, hop, .inl h⟩

theorem Instruction.ofJson_overflow_iff (data : Json) :
    ofJson data = .error .overflow ↔ data.InstructionOverflows := by
  cases data with
  | object fields =>
    rw [Json.InstructionOverflows]
    cases hopcode : fields.lookup "opcode" with
    | none => simp [ofJson, hopcode, malformed]
    | some opcode =>
      cases hoperands : fields.lookup "operands" with
      | none =>
        simp only [ofJson, hopcode, Json.field, hoperands, Option.getD_none, make_overflow_iff]
        exact iff_of_false (fun h => not_breaksAt_nil _ _ h.2) (by simp)
      | some value =>
        cases value with
        | array operands => simp [ofJson, hopcode, Json.field, hoperands, make_overflow_iff]
        | _ => simp [ofJson, hopcode, Json.field, hoperands, malformed]
  | _ => simp [ofJson, Json.InstructionOverflows, malformed]

namespace Node

theorem malformedOnly_labelIndex (name label : String) (count : Nat) (value : Json) :
    FailsOnly ReadFault.IsMalformed (labelIndex name count label value) := by
  cases value with
  | int index =>
    rw [labelIndex]
    split
    · exact failsOnly_ok index
    · exact failsOnly_error ⟨_, rfl⟩
  | _ => exact failsOnly_error ⟨_, rfl⟩

theorem malformedOnly_labels (name : String) (count : Nat) (labels : List (String × Json)) :
    FailsOnly ReadFault.IsMalformed (labels.mapM (fun (label, index) =>
      (labelIndex name count label index).map (fun n => (label, n)))) :=
  FailsOnly.mapM (fun e _ => (malformedOnly_labelIndex name e.1 count e.2).map)

theorem readTexts_ne_overflow (headers : List (String × Json)) :
    headers.mapM (fun (key, value) => value.readText.map (fun text => (key, text))) ≠
      .error .overflow := by
  intro h
  cases FailsOnly.mapM (fun e _ => (Json.failsOnly_readText e.2).map) _ h

theorem ofFields_overflow_iff (name : String) (fields : List (String × Json)) :
    ofFields name fields = .error .overflow ↔ (Json.object fields).NodeOverflows := by
  have hitems (items : List Json) : items.mapM Instruction.ofJson = .error .overflow ↔
      BreaksAt (fun before => ∀ data ∈ before, data.IsInstruction)
        Json.InstructionOverflows items := by
    simp only [mapM_eq_error_iff, Instruction.exists_ofJson_iff, Instruction.ofJson_overflow_iff]
  rw [Json.NodeOverflows, ← Json.exists_optionalObject_ok_iff (.labelsShape name),
    ← Json.exists_optionalObject_ok_iff (.headersShape name),
    ← Json.exists_breaksAt_items_iff (.instructionsShape name)]
  simp only [ofFields, bind_eq_error_iff, (Json.malformedOnly_optionalArray _ _).ne_overflow,
    (Json.malformedOnly_optionalObject _ _).ne_overflow, false_or, hitems]
  apply Iff.intro
  · rintro ⟨items, hi, labels, hl, headers, hh, h | ⟨instructions, -, h | ⟨_, -, h | ⟨_, -, h⟩⟩⟩⟩
    · exact ⟨⟨labels, hl⟩, ⟨headers, hh⟩, items, hi, h⟩
    · exact (readTexts_ne_overflow headers h).elim
    · exact ((malformedOnly_labels _ _ _).ne_overflow h).elim
    · cases h
  · rintro ⟨⟨labels, hl⟩, ⟨headers, hh⟩, items, hi, h⟩
    exact ⟨items, hi, labels, hl, headers, hh, .inl h⟩

theorem ofJson_overflow_iff (name : Option String) (data : Json) :
    ofJson name data = .error .overflow ↔
      (∃ s ∈ Json.entryName? (name, data), s ≠ "") ∧ data.NodeOverflows := by
  cases data with
  | object fields =>
    have hname (s : String) : s ∈ Json.entryName? (name, .object fields) ↔
        (name.map Json.string).getD (Json.field "name" .null fields) = .string s := by
      cases name with
      | none => exact Json.ownName?_object
      | some t => simp [Json.entryName?]
    simp only [hname, ofJson.eq_def]
    split
    · next s hs =>
      by_cases he : s.isEmpty = true
      · rw [if_pos he]
        refine iff_of_false (by simp [malformed]) ?_
        rintro ⟨⟨t, ht, hne⟩, -⟩
        obtain rfl := Json.string.inj (hs.symm.trans ht)
        exact hne (by simpa using he)
      · rw [if_neg he, ofFields_overflow_iff]
        exact (and_iff_right ⟨s, hs, by simpa using he⟩).symm
    · next hs =>
      refine iff_of_false (by simp [malformed]) ?_
      rintro ⟨⟨t, ht, -⟩, -⟩
      exact hs t ht
  | _ => simp [ofJson, Json.NodeOverflows, malformed]

end Node

namespace Program

theorem addJson_overflow_iff (p : Program) (e : Option String × Json) :
    p.addJson e.1 e.2 = .error .overflow ↔ Node.ofJson e.1 e.2 = .error .overflow := by
  rw [addJson, bind_eq_error_iff]
  refine or_iff_left ?_
  rintro ⟨node, -, h⟩
  cases hadd : p.add node <;> simp [hadd, malformed] at h

theorem exists_addNodes_iff (name : String) (entries : List (Option String × Json)) :
    (∃ q, entries.foldlM (fun p e => p.addJson e.1 e.2) (named name) = .ok q) ↔
      Json.AreNodes entries := by
  rw [Json.AreNodes]
  refine Iff.trans ?_ (exists_nodes_iff entries)
  simp only [foldlM_addJson_eq_ok_iff]
  apply Iff.intro
  · rintro ⟨q, nodes, hread, hnodup, -⟩
    exact ⟨nodes, hread, hnodup⟩
  · rintro ⟨nodes, hread, hnodup⟩
    refine ⟨⟨name, ⟨nodes.map (fun node => (node.name, node)), ?_⟩, ∅⟩, nodes, hread, hnodup, rfl,
      rfl, rfl⟩
    rw [List.map_map]
    exact hnodup

theorem addNodes_overflow_iff (name : String) (value : Json) :
    (named name).addNodes value = .error .overflow ↔ value.NodesOverflow := by
  have hfold (entries : List (Option String × Json)) :
      entries.foldlM (fun p e => p.addJson e.1 e.2) (named name) = .error .overflow ↔
        BreaksAt Json.AreNodes
          (fun e => (∃ s ∈ Json.entryName? e, s ≠ "") ∧ e.2.NodeOverflows) entries := by
    rw [foldlM_eq_error_iff addJson_overflow_iff]
    simp only [exists_addNodes_iff, Node.ofJson_overflow_iff]
  rw [Json.NodesOverflow]
  simp only [← hfold]
  cases h : value.nodeEntries? with
  | none => simp [addNodes_of_nodeEntries_none h, malformed]
  | some entries => simp [addNodes_eq_foldlM h]

theorem exists_ok_addNodes_iff (name : String) (value : Json) :
    (∃ q, (named name).addNodes value = .ok q) ↔ value.IsNodes Json.IsText := by
  rw [← exists_nodeEntries_iff]
  simp only [addNodes_eq_ok_iff]
  rw [exists_comm]
  refine exists_congr (fun entries => ?_)
  rw [exists_and_left, exists_addNodes_iff]
  exact and_congr_right (fun _ => (exists_nodes_iff entries).symm)

/-- Reading a document overflows exactly if the first thing wrong with it is a huge integer. -/
theorem ofJson_overflow_iff_overflows (data : Json) :
    ofJson data = .error .overflow ↔ data.Overflows := by
  have hvalues (values : List (String × Json)) :
      values.mapM (fun (key, value) => (Operand.ofJson value).map (fun v => (key, v))) =
        .error .overflow ↔
        BreaksAt (fun before => ∀ e ∈ before, e.2.IsOperand) (fun e => e.2.IsHuge) values := by
    have hread (e : String × Json) :
        (∃ r, (Operand.ofJson e.2).map (fun v => (e.1, v)) = .ok r) ↔ e.2.IsOperand := by
      rw [← Operand.exists_ofJson_iff]
      cases Operand.ofJson e.2 <;> simp [Except.map]
    simp only [mapM_eq_error_iff, hread, map_eq_error_iff, Operand.ofJson_overflow_iff]
  cases data with
  | object fields =>
    have hname : (Json.field "name" (.string "") fields).readText ≠ .error .overflow := by
      intro h
      cases Json.failsOnly_readText _ _ h
    rw [ofJson, Json.Overflows, Json.allows_iff (P := Json.IsText) (.string "") rfl,
      Json.allows_iff (.object []) (by simp [Json.IsNodes]),
      ← Json.exists_breaksAt_entries_iff .initialValuesShape, ← Json.exists_readText_iff]
    simp only [bind_eq_error_iff, addNodes_overflow_iff, hname,
      (Json.malformedOnly_optionalObject _ _).ne_overflow, false_or, hvalues]
    apply Iff.intro
    · rintro ⟨name, hn, h | ⟨q, hq, values, hv, h | ⟨_, -, h⟩⟩⟩
      · exact ⟨⟨name, hn⟩, .inl h⟩
      · exact ⟨⟨name, hn⟩, .inr ⟨(exists_ok_addNodes_iff name _).mp ⟨q, hq⟩, values, hv, h⟩⟩
      · cases h
    · rintro ⟨⟨name, hn⟩, h | ⟨hnodes, values, hv, h⟩⟩
      · exact ⟨name, hn, .inl h⟩
      · obtain ⟨q, hq⟩ := (exists_ok_addNodes_iff name _).mpr hnodes
        exact ⟨name, hn, .inr ⟨q, hq, values, hv, .inl h⟩⟩
  | _ => simp [ofJson, Json.Overflows, malformed]

end Program

theorem Operand.ofDocument_ofJson (value : Json) :
    FailsOnly ReadFault.IsOfDocument (ofJson value) := by
  cases value with
  | int n =>
    rw [ofJson]
    cases Double.ofInt? n with
    | none => exact failsOnly_error (.inr rfl)
    | some x => exact failsOnly_ok _
  | null | array | object => exact failsOnly_error (.inl ⟨_, rfl⟩)
  | _ => exact failsOnly_ok _

theorem Instruction.ofDocument_ofJson (data : Json) :
    FailsOnly ReadFault.IsOfDocument (ofJson data) := by
  rw [ofJson.eq_def]
  split
  · split
    · exact failsOnly_error (.inl ⟨_, rfl⟩)
    · split
      · exact (Opcode.malformedOnly_ofJson _).ofDocument.bind (fun _ _ =>
          (FailsOnly.mapM (fun value _ => Operand.ofDocument_ofJson value)).bind
            (fun _ _ => failsOnly_ok _))
      · exact failsOnly_error (.inl ⟨_, rfl⟩)
  · exact failsOnly_error (.inl ⟨_, rfl⟩)

theorem Json.IsText.optionalObject {fields entries : List (String × Json)} {key : String}
    {otherwise : Malformed} (h : (Json.object fields).IsText)
    (he : (field key .null fields).optionalObject otherwise = .ok entries) :
    ∀ e ∈ entries, e.2.IsText := by
  obtain hf | ⟨-, rfl⟩ := optionalObject_eq_ok_iff.mp he
  · exact hereditary_isText.field (hereditary_isText.lookup h ((field_eq_iff (by simp)).mp hf))
  · exact fun e he => absurd he List.not_mem_nil

theorem Node.ofDocument_ofJson (name : Option String) {data : Json} (h : data.IsText) :
    FailsOnly ReadFault.IsOfDocument (ofJson name data) := by
  rw [ofJson.eq_def]
  split
  · split
    · split
      · exact failsOnly_error (.inl ⟨_, rfl⟩)
      · refine (Json.malformedOnly_optionalArray _ _).ofDocument.bind (fun _ _ =>
          (Json.malformedOnly_optionalObject _ _).ofDocument.bind (fun _ _ =>
          (Json.malformedOnly_optionalObject _ _).ofDocument.bind (fun headers hh =>
          (FailsOnly.mapM (fun data _ => Instruction.ofDocument_ofJson data)).bind (fun _ _ =>
          FailsOnly.bind (.mapM (fun e he => .map (failsOnly_of_exists ?_))) (fun _ _ =>
          (malformedOnly_labels _ _ _).ofDocument.bind (fun _ _ => failsOnly_ok _))))))
        exact (Json.exists_readText_iff e.2).mpr (h.optionalObject hh e he)
    · exact failsOnly_error (.inl ⟨_, rfl⟩)
  · exact failsOnly_error (.inl ⟨_, rfl⟩)

namespace Program

theorem ofDocument_addJson (p : Program) (name : Option String) {data : Json} (h : data.IsText) :
    FailsOnly ReadFault.IsOfDocument (p.addJson name data) := by
  refine (Node.ofDocument_ofJson name h).bind (fun node _ => ?_)
  cases p.add node with
  | ok q => exact failsOnly_ok q
  | error cause => exact failsOnly_error (.inl ⟨cause, rfl⟩)

theorem ofDocument_addNodes (p : Program) {value : Json} (h : value.IsText) :
    FailsOnly ReadFault.IsOfDocument (p.addNodes value) := by
  cases value with
  | object nodes =>
    exact FailsOnly.foldlM (fun p e he =>
      ofDocument_addJson p (some e.1) (Json.hereditary_isText.field h e he)) p
  | array nodes =>
    exact FailsOnly.foldlM (fun p e he =>
      ofDocument_addJson p none (Json.hereditary_isText.item h e he)) p
  | _ => exact failsOnly_error (.inl ⟨_, rfl⟩)

theorem ofDocument_ofJson {data : Json} (h : data.IsText) :
    FailsOnly ReadFault.IsOfDocument (ofJson data) := by
  cases data with
  | object fields =>
    have hfield (key : String) (default : Json) (hd : default.IsText) :
        (Json.field key default fields).IsText :=
      (Json.allows_iff (P := Json.IsText) default hd).mp
        (fun _ hv => Json.hereditary_isText.lookup h hv)
    refine FailsOnly.bind (failsOnly_of_exists ?_) (fun _ _ =>
      (ofDocument_addNodes _ (hfield "nodes" (.object []) rfl)).bind (fun _ _ =>
      (Json.malformedOnly_optionalObject _ _).ofDocument.bind (fun _ _ =>
      (FailsOnly.mapM (fun (e : String × Json) _ => (Operand.ofDocument_ofJson e.2).map)).bind
        (fun _ _ => failsOnly_ok _))))
    exact (Json.exists_readText_iff _).mpr (hfield "name" (.string "") rfl)
  | _ => exact failsOnly_error (.inl ⟨_, rfl⟩)

end Program

end DialogueFlow
