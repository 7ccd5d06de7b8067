import DialogueFlow.Proofs.Reading
import DialogueFlow.Proofs.Rounding

namespace DialogueFlow

open List (Forall₂)

namespace Json

def IsArrayOf (P : Json → Prop) : Json → Prop
  | .array items => ∀ value ∈ items, P value
  | _ => False

def IsObjectOf (P : Json → Prop) : Json → Prop
  | .object fields => ∀ e ∈ fields, P e.2
  | _ => False

def Allows (fields : List (String × Json)) (key : String) (P : Json → Prop) : Prop :=
  ∀ value ∈ fields.lookup key, P value

/-- The field can be left out, also by a blank value: null, false, zero, and empty text, lists and
objects. -/
def AllowsBlank (fields : List (String × Json)) (key : String) (P : Json → Prop) : Prop :=
  Allows fields key (fun value => value.isBlank = true ∨ P value)

def IsOperand : Json → Prop
  | .string _ | .bool _ | .float _ => True
  | .int n => n.natAbs < Double.limit
  | _ => False

def opcodeNames : List String := [
  "jumpto", "jump", "runline", "runcommand", "addoption", "showoptions", "pushstring", "pushfloat",
  "pushbool", "pushnull", "jumpiffalse", "pop", "callfunc", "pushvariable", "storevariable", "stop",
  "runnode"]

/-- The number of an operation code, or a name once its underscores are deleted and its letters are
in lower case. -/
def IsOpcode : Json → Prop
  | .int n => 0 ≤ n ∧ n ≤ 16
  | .string s => String.ofList ((s.toList.filter (· ≠ '_')).map Char.toLower) ∈ opcodeNames
  | _ => False

def IsInstruction : Json → Prop
  | .object fields =>
    (∃ opcode ∈ fields.lookup "opcode", opcode.IsOpcode) ∧
      Allows fields "operands" (IsArrayOf IsOperand)
  | _ => False

def IsPlaceBelow (count : Nat) : Json → Prop
  | .int n => 0 ≤ n ∧ n < count
  | _ => False

def instructionCount (fields : List (String × Json)) : Nat :=
  match fields.lookup "instructions" with
  | some (.array items) => items.length
  | _ => 0

def IsNode (header : Json → Prop) : Json → Prop
  | .object fields =>
    AllowsBlank fields "instructions" (IsArrayOf IsInstruction) ∧
      AllowsBlank fields "labels" (IsObjectOf (IsPlaceBelow (instructionCount fields))) ∧
      AllowsBlank fields "headers" (IsObjectOf header)
  | _ => False

def ownName? : Json → Option String
  | .object fields =>
    match fields.lookup "name" with
    | some (.string name) => some name
    | _ => none
  | _ => none

/-- Nodes have a name that is not empty, as the key of an object (whose keys are distinct) or in a
list of nodes with distinct names. -/
def IsNodes (header : Json → Prop) : Json → Prop
  | .object nodes => (nodes.map Prod.fst).Nodup ∧ ∀ e ∈ nodes, e.1 ≠ "" ∧ e.2.IsNode header
  | .array nodes =>
    (nodes.map ownName?).Nodup ∧
      ∀ data ∈ nodes, (∃ name ∈ data.ownName?, name ≠ "") ∧ data.IsNode header
  | _ => False

def IsProgram (text : Json → Prop) : Json → Prop
  | .object fields =>
    Allows fields "name" text ∧ Allows fields "nodes" (IsNodes text) ∧
      AllowsBlank fields "initial_values" (IsObjectOf IsOperand)
  | _ => False

/-- The schema: name and headers may be anything. -/
def FitsSchema (data : Json) : Prop := data.IsProgram (fun _ => True)

def IsText (value : Json) : Prop := value.allWritable = true

variable {fields : List (String × Json)} {key : String} {P : Json → Prop}

theorem allows_iff (default : Json) (h : P default) :
    Allows fields key P ↔ P (field key default fields) := by
  rw [Allows, field]
  cases fields.lookup key with
  | none => simp [h]
  | some value => simp

theorem allowsBlank_iff : AllowsBlank fields key P ↔
    (field key .null fields).isBlank = true ∨ P (field key .null fields) :=
  allows_iff .null (.inl rfl)

theorem exists_optionalArray_iff (otherwise : Malformed) :
    (∃ items, (field key .null fields).optionalArray otherwise = .ok items ∧ ∀ v ∈ items, P v) ↔
      AllowsBlank fields key (IsArrayOf P) := by
  rw [allowsBlank_iff]
  generalize field key .null fields = value
  simp only [optionalArray_eq_ok_iff]
  apply Iff.intro
  · rintro ⟨items, rfl | ⟨hb, -⟩, h⟩
    · exact .inr h
    · exact .inl hb
  · rintro (hb | h)
    · exact ⟨[], .inr ⟨hb, rfl⟩, by simp⟩
    · cases value with
      | array items => exact ⟨items, .inl rfl, h⟩
      | _ => exact h.elim

theorem exists_optionalObject_iff (otherwise : Malformed) :
    (∃ entries, (field key .null fields).optionalObject otherwise = .ok entries ∧
      ∀ e ∈ entries, P e.2) ↔ AllowsBlank fields key (IsObjectOf P) := by
  rw [allowsBlank_iff]
  generalize field key .null fields = value
  simp only [optionalObject_eq_ok_iff]
  apply Iff.intro
  · rintro ⟨entries, rfl | ⟨hb, -⟩, h⟩
    · exact .inr h
    · exact .inl hb
  · rintro (hb | h)
    · exact ⟨[], .inr ⟨hb, rfl⟩, by simp⟩
    · cases value with
      | object entries => exact ⟨entries, .inl rfl, h⟩
      | _ => exact h.elim

theorem length_of_optionalArray {otherwise : Malformed} {items : List Json}
    (h : (field "instructions" .null fields).optionalArray otherwise = .ok items) :
    items.length = instructionCount fields := by
  rw [optionalArray_eq_ok_iff, field] at h
  rw [instructionCount]
  cases hl : fields.lookup "instructions" with
  | none =>
    rw [hl] at h
    obtain h | ⟨-, rfl⟩ := h
    · cases h
    · rfl
  | some value =>
    rw [hl, Option.getD_some] at h
    obtain rfl | ⟨hb, rfl⟩ := h
    · rfl
    · cases value with
      | array items => exact (congrArg List.length (List.isEmpty_iff.mp hb)).symm
      | _ => rfl

theorem exists_readText_iff (value : Json) : (∃ s, value.readText = .ok s) ↔ value.IsText := by
  rw [readText, IsText]
  cases value with
  | string s => simp [asText, allWritable, Except.mapError]
  | _ => simp only [asText]; split <;> simp_all [Except.mapError]

theorem failsOnly_readText (value : Json) :
    FailsOnly (· = ReadFault.write .longInteger) value.readText := by
  rw [readText]
  cases value with
  | string s => exact failsOnly_ok s
  | _ =>
    simp only [asText]
    split
    · exact failsOnly_ok _
    · exact failsOnly_error rfl

theorem ownName?_object {name : String} :
    ownName? (.object fields) = some name ↔ field "name" .null fields = .string name := by
  rw [ownName?, field]
  cases fields.lookup "name" with
  | none => simp
  | some value => cases value <;> simp

end Json

theorem exists_entries_iff {α β ε : Type} {f : String → α → Except ε β}
    (entries : List (String × α)) :
    (∃ read : List (String × β),
      Forall₂ (fun e r => e.1 = r.1 ∧ f e.1 e.2 = .ok r.2) entries read) ↔
      ∀ e ∈ entries, ∃ value, f e.1 e.2 = .ok value := by
  rw [exists_forall₂_iff]
  refine forall₂_congr (fun e _ => ?_)
  apply Iff.intro
  · rintro ⟨r, -, h⟩
    exact ⟨r.2, h⟩
  · rintro ⟨value, h⟩
    exact ⟨(e.1, value), rfl, h⟩

theorem Operand.exists_ofJson_iff (value : Json) :
    (∃ op, ofJson value = .ok op) ↔ value.IsOperand := by
  cases value with
  | int n =>
    rw [ofJson, Json.IsOperand, ← Double.ofInt?_isSome_iff]
    cases Double.ofInt? n <;> simp
  | string s => simp [ofJson, Json.IsOperand]
  | bool b => simp [ofJson, Json.IsOperand]
  | float x => simp [ofJson, Json.IsOperand]
  | _ => simp [ofJson, Json.IsOperand, malformed]

namespace Opcode

theorem isSome_ofNumber?_iff (n : Int) : (ofNumber? n).isSome = true ↔ 0 ≤ n ∧ n ≤ 16 := by
  have hl : all.length = 17 := rfl
  rw [ofNumber?]
  split
  · next h => exact iff_of_false (by simp) (by omega)
  · next h =>
    rw [isSome_getElem?, hl]
    omega

theorem map_plainName_all :
    all.map (fun op => String.ofList (plainName op.name)) = Json.opcodeNames := by
  decide

theorem isSome_ofName?_iff (s : String) :
    (ofName? s).isSome = true ↔ String.ofList (plainName s) ∈ Json.opcodeNames := by
  rw [ofName?, List.find?_isSome, ← map_plainName_all, List.mem_map]
  simp only [beq_iff_eq, String.ofList_inj]

theorem exists_ofJson_iff (value : Json) : (∃ op, ofJson value = .ok op) ↔ value.IsOpcode := by
  cases value with
  | int n =>
    rw [ofJson, Json.IsOpcode, ← isSome_ofNumber?_iff]
    cases ofNumber? n <;> simp [malformed]
  | string s =>
    rw [ofJson, Json.IsOpcode, ← plainName, ← isSome_ofName?_iff]
    cases ofName? s <;> simp [malformed]
  | _ => simp [ofJson, Json.IsOpcode, malformed]

end Opcode

theorem Instruction.exists_ofJson_iff (data : Json) :
    (∃ i, ofJson data = .ok i) ↔ data.IsInstruction := by
  simp only [ofJson_eq_ok_iff]
  apply Iff.intro
  · rintro ⟨i, fields, opcode, operands, rfl, hopcode, hoperands, hop, hops⟩
    refine ⟨⟨opcode, hopcode, (Opcode.exists_ofJson_iff opcode).mp ⟨_, hop⟩⟩, ?_⟩
    rw [Json.allows_iff (.array []) (by simp [Json.IsArrayOf]), hoperands]
    intro value hv
    obtain ⟨op, -, h⟩ := exists_mem_of_forall₂ hops hv
    exact (Operand.exists_ofJson_iff value).mp ⟨op, h⟩
  · intro h
    cases data with
    | object fields =>
      obtain ⟨⟨opcode, hopcode, hop⟩, hops⟩ := h
      rw [Json.allows_iff (.array []) (by simp [Json.IsArrayOf])] at hops
      obtain ⟨op, hop⟩ := (Opcode.exists_ofJson_iff opcode).mpr hop
      cases hoperands : Json.field "operands" (.array []) fields with
      | array operands =>
        rw [hoperands] at hops
        obtain ⟨ops, hops⟩ := (exists_forall₂_iff operands).mpr
          (fun value hv => (Operand.exists_ofJson_iff value).mpr (hops value hv))
        exact ⟨⟨op, ops⟩, fields, opcode, operands, rfl, hopcode, hoperands, hop, hops⟩
      | _ =>
        rw [hoperands] at hops
        exact hops.elim
    | _ => exact h.elim

namespace Node

theorem exists_labelIndex_iff (name label : String) (count : Nat) (value : Json) :
    (∃ k, labelIndex name count label value = .ok k) ↔ value.IsPlaceBelow count := by
  simp only [labelIndex_eq_ok_iff]
  cases value <;> simp [Json.IsPlaceBelow]

theorem exists_ofFields_iff (name : String) (fields : List (String × Json)) :
    (∃ node, ofFields name fields = .ok node) ↔ (Json.object fields).IsNode Json.IsText := by
  rw [Json.IsNode, ← Json.exists_optionalArray_iff (.instructionsShape name),
    ← Json.exists_optionalObject_iff (.labelsShape name),
    ← Json.exists_optionalObject_iff (.headersShape name)]
  simp only [ofFields_eq_ok_iff]
  apply Iff.intro
  · rintro ⟨node, items, labels, headers, texts, indices, hitems, hlabels, hheaders, hinstructions,
      htexts, hindices, -⟩
    refine ⟨⟨items, hitems, fun data hd => ?_⟩, ⟨labels, hlabels, fun e he => ?_⟩,
      ⟨headers, hheaders, fun e he => ?_⟩⟩
    · obtain ⟨i, -, h⟩ := exists_mem_of_forall₂ hinstructions hd
      exact (Instruction.exists_ofJson_iff data).mp ⟨i, h⟩
    · obtain ⟨r, -, -, h⟩ := exists_mem_of_forall₂ hindices he
      rw [← hinstructions.length_eq, Json.length_of_optionalArray hitems] at h
      exact (exists_labelIndex_iff name e.1 _ e.2).mp ⟨_, h⟩
    · obtain ⟨r, -, -, h⟩ := exists_mem_of_forall₂ htexts he
      exact (Json.exists_readText_iff e.2).mp ⟨_, h⟩
  · rintro ⟨⟨items, hitems, hi⟩, ⟨labels, hlabels, hl⟩, ⟨headers, hheaders, hh⟩⟩
    obtain ⟨instructions, hinstructions⟩ := (exists_forall₂_iff items).mpr
      (fun data hd => (Instruction.exists_ofJson_iff data).mpr (hi data hd))
    obtain ⟨indices, hindices⟩ := (exists_entries_iff labels).mpr
      (fun e he => (exists_labelIndex_iff name e.1 _ e.2).mpr (hl e he))
    obtain ⟨texts, htexts⟩ := (exists_entries_iff (f := fun _ => Json.readText) headers).mpr
      (fun e he => (Json.exists_readText_iff e.2).mpr (hh e he))
    rw [← Json.length_of_optionalArray hitems, hinstructions.length_eq] at hindices
    exact ⟨⟨name, instructions, .ofList indices, .ofList texts⟩, items, labels, headers, texts,
      indices, hitems, hlabels, hheaders, hinstructions, htexts, hindices, rfl, rfl, rfl⟩

theorem name_of_ofJson {name : Option String} {data : Json} {node : Node}
    (h : ofJson name data = .ok node) : name.or data.ownName? = some node.name := by
  obtain ⟨fields, rfl, hname, -⟩ := ofJson_eq_ok_iff.mp h
  cases name with
  | none => exact Json.ownName?_object.mpr hname
  | some s => exact congrArg some (Json.string.inj hname)

theorem exists_ofJson_iff (name : Option String) (data : Json) :
    (∃ node, ofJson name data = .ok node) ↔
      (∃ s ∈ name.or data.ownName?, s ≠ "") ∧ data.IsNode Json.IsText := by
  apply Iff.intro
  · rintro ⟨node, h⟩
    obtain ⟨fields, rfl, -, hne, hfields⟩ := ofJson_eq_ok_iff.mp h
    exact ⟨⟨node.name, name_of_ofJson h, hne⟩, (exists_ofFields_iff _ fields).mp ⟨node, hfields⟩⟩
  · rintro ⟨⟨s, hs, hne⟩, h⟩
    cases data with
    | object fields =>
      obtain ⟨node, hnode⟩ := (exists_ofFields_iff s fields).mpr h
      obtain ⟨_, _, _, _, _, -, -, -, -, -, -, rfl, -⟩ := ofFields_eq_ok_iff.mp hnode
      refine ⟨node, ofJson_eq_ok_iff.mpr ⟨fields, rfl, ?_, hne, hnode⟩⟩
      cases name with
      | none => exact Json.ownName?_object.mp hs
      | some t => exact congrArg Json.string (Option.some.inj hs)
    | _ => exact h.elim

end Node

namespace Program

theorem exists_nodes_iff (entries : List (Option String × Json)) :
    (∃ nodes, Forall₂ (fun e node => Node.ofJson e.1 e.2 = .ok node) entries nodes ∧
      (nodes.map Node.name).Nodup) ↔
      (entries.map (fun e => e.1.or e.2.ownName?)).Nodup ∧
        ∀ e ∈ entries, (∃ s ∈ e.1.or e.2.ownName?, s ≠ "") ∧ e.2.IsNode Json.IsText := by
  have hnames : ∀ {nodes}, Forall₂ (fun e node => Node.ofJson e.1 e.2 = .ok node) entries nodes →
      ((entries.map (fun e => e.1.or e.2.ownName?)).Nodup ↔ (nodes.map Node.name).Nodup) := by
    intro nodes hread
    have heq : entries.map (fun e => e.1.or e.2.ownName?) = nodes.map (fun n => some n.name) := by
      rw [← List.forall₂_eq_eq_eq, List.forall₂_map_left_iff, List.forall₂_map_right_iff]
      exact hread.imp (fun _ _ => Node.name_of_ofJson)
    rw [heq, ← List.nodup_map_iff (Option.some_injective String), List.map_map]
    rfl
  simp only [← Node.exists_ofJson_iff]
  rw [← exists_forall₂_iff]
  apply Iff.intro
  · rintro ⟨nodes, hread, hnodup⟩
    exact ⟨(hnames hread).mpr hnodup, nodes, hread⟩
  · rintro ⟨hnodup, nodes, hread⟩
    exact ⟨nodes, hread, (hnames hread).mp hnodup⟩

theorem isNodes_iff (header : Json → Prop) (value : Json) :
    value.IsNodes header ↔ ∃ entries, value.nodeEntries? = some entries ∧
      (entries.map (fun e => e.1.or e.2.ownName?)).Nodup ∧
      ∀ e ∈ entries, (∃ s ∈ e.1.or e.2.ownName?, s ≠ "") ∧ e.2.IsNode header := by
  cases value with
  | object nodes =>
    simp only [Json.nodeEntries?, Option.some.injEq, exists_eq_left', List.map_map, Json.IsNodes,
      List.forall_mem_map]
    refine and_congr ?_ ?_
    · rw [← List.nodup_map_iff (Option.some_injective String), List.map_map]
      rfl
    · simp
  | array nodes =>
    simp only [Json.nodeEntries?, Option.some.injEq, exists_eq_left', List.map_map, Json.IsNodes,
      List.forall_mem_map]
    rfl
  | _ => simp [Json.nodeEntries?, Json.IsNodes]

theorem exists_nodeEntries_iff (value : Json) :
    (∃ entries, value.nodeEntries? = some entries ∧ ∃ nodes,
      Forall₂ (fun e node => Node.ofJson e.1 e.2 = .ok node) entries nodes ∧
      (nodes.map Node.name).Nodup) ↔ value.IsNodes Json.IsText := by
  simp only [exists_nodes_iff, isNodes_iff]

theorem exists_ofJson_iff (data : Json) :
    (∃ p, ofJson data = .ok p) ↔ data.IsProgram Json.IsText := by
  simp only [ofJson_eq_ok_iff]
  apply Iff.intro
  · rintro ⟨p, fields, entries, nodes, values, operands, rfl, hentries, hread, hnodup, hvalues,
      hoperands, hname, -⟩
    refine ⟨(Json.allows_iff (P := Json.IsText) (.string "") rfl).mpr
        ((Json.exists_readText_iff _).mp ⟨_, hname⟩),
      (Json.allows_iff (.object []) (by simp [Json.IsNodes])).mpr
        ((exists_nodeEntries_iff _).mp ⟨entries, hentries, nodes, hread, hnodup⟩),
      (Json.exists_optionalObject_iff _).mp ⟨values, hvalues, fun e he => ?_⟩⟩
    obtain ⟨r, -, -, h⟩ := exists_mem_of_forall₂ hoperands he
    exact (Operand.exists_ofJson_iff e.2).mp ⟨r.2, h⟩
  · intro h
    cases data with
    | object fields =>
      obtain ⟨hname, hnodes, hvalues⟩ := h
      rw [Json.allows_iff (P := Json.IsText) (.string "") rfl, ← Json.exists_readText_iff] at hname
      rw [Json.allows_iff (.object []) (by simp [Json.IsNodes]),
        ← exists_nodeEntries_iff] at hnodes
      obtain ⟨name, hname⟩ := hname
      obtain ⟨entries, hentries, nodes, hread, hnodup⟩ := hnodes
      obtain ⟨values, hvalues, hv⟩ :=
        (Json.exists_optionalObject_iff .initialValuesShape).mpr hvalues
      obtain ⟨operands, hoperands⟩ := (exists_entries_iff (f := fun _ => Operand.ofJson) values).mpr
        (fun e he => (Operand.exists_ofJson_iff e.2).mpr (hv e he))
      refine ⟨⟨name, ⟨nodes.map (fun node => (node.name, node)), ?_⟩, .ofList operands⟩,
        fields, entries, nodes, values, operands, rfl, hentries, hread, hnodup, hvalues, hoperands,
        hname, rfl, rfl⟩
      rw [List.map_map]
      exact hnodup
    | _ => exact h.elim

end Program

namespace Json

/-- What holds of a value also holds of the values in it. -/
structure Hereditary (S : Json → Prop) : Prop where
  item {items : List Json} : S (.array items) → ∀ value ∈ items, S value
  field {fields : List (String × Json)} : S (.object fields) → ∀ e ∈ fields, S e.2

theorem itemsWritable_iff (items : List Json) :
    itemsWritable items = true ↔ ∀ value ∈ items, value.IsText := by
  induction items with
  | nil => simp [itemsWritable]
  | cons item items ih => simp [itemsWritable, ih, IsText]

theorem fieldsWritable_iff (fields : List (String × Json)) :
    fieldsWritable fields = true ↔ ∀ e ∈ fields, e.2.IsText := by
  induction fields with
  | nil => simp [fieldsWritable]
  | cons e fields ih => simp [fieldsWritable, ih, IsText]

theorem hereditary_isText : Hereditary IsText where
  item {items} h := (itemsWritable_iff items).mp (by simpa only [IsText, allWritable] using h)
  field {fields} h := (fieldsWritable_iff fields).mp (by simpa only [IsText, allWritable] using h)

variable {S P Q : Json → Prop} {data : Json} {fields : List (String × Json)} {key : String}

theorem Hereditary.lookup (hS : Hereditary S) (h : S (.object fields)) {value : Json}
    (hvalue : fields.lookup key = some value) : S value := by
  obtain ⟨before, after, rfl, -⟩ := List.lookup_eq_some_iff.mp hvalue
  exact hS.field h (key, value) (by simp)

theorem IsNode.imp (h : data.IsNode P) (hS : Hereditary S) (hPQ : ∀ v, S v → P v → Q v)
    (hdata : S data) : data.IsNode Q := by
  cases data with
  | object fields =>
    obtain ⟨hinstructions, hlabels, hheaders⟩ := h
    refine ⟨hinstructions, hlabels, fun value hvalue => (hheaders value hvalue).imp_right ?_⟩
    have hin := hS.lookup hdata hvalue
    cases value with
    | object headers => exact fun hobject e he => hPQ e.2 (hS.field hin e he) (hobject e he)
    | _ => exact False.elim
  | _ => exact h.elim

theorem IsNodes.imp (h : data.IsNodes P) (hS : Hereditary S) (hPQ : ∀ v, S v → P v → Q v)
    (hdata : S data) : data.IsNodes Q := by
  cases data with
  | object nodes =>
    exact ⟨h.1, fun e he => ⟨(h.2 e he).1, (h.2 e he).2.imp hS hPQ (hS.field hdata e he)⟩⟩
  | array nodes =>
    exact ⟨h.1, fun v hv => ⟨(h.2 v hv).1, (h.2 v hv).2.imp hS hPQ (hS.item hdata v hv)⟩⟩
  | _ => exact h.elim

theorem IsProgram.imp (h : data.IsProgram P) (hS : Hereditary S) (hPQ : ∀ v, S v → P v → Q v)
    (hdata : S data) : data.IsProgram Q := by
  cases data with
  | object fields =>
    obtain ⟨hname, hnodes, hvalues⟩ := h
    refine ⟨fun value hvalue => ?_, fun value hvalue => ?_, hvalues⟩
    · exact hPQ value (hS.lookup hdata hvalue) (hname value hvalue)
    · exact (hnodes value hvalue).imp hS hPQ (hS.lookup hdata hvalue)
  | _ => exact h.elim

theorem IsProgram.fitsSchema (h : data.IsProgram P) : data.FitsSchema :=
  h.imp (S := fun _ => True) ⟨by simp, by simp⟩ (fun _ _ _ => trivial) trivial

theorem FitsSchema.isProgram (h : data.FitsSchema) (hdata : data.IsText) :
    data.IsProgram IsText :=
  IsProgram.imp h hereditary_isText (fun _ hv _ => hv) hdata

end Json

variable {header : Json → Prop}

theorem Node.failsOnly_ofFields (name : String) {fields : List (String × Json)}
    (h : (Json.object fields).IsNode header) :
    FailsOnly (· = ReadFault.write .longInteger) (ofFields name fields) := by
  rw [Json.IsNode, ← Json.exists_optionalArray_iff (.instructionsShape name),
    ← Json.exists_optionalObject_iff (.labelsShape name),
    ← Json.exists_optionalObject_iff (.headersShape name)] at h
  obtain ⟨⟨items, hitems, hi⟩, ⟨labels, hlabels, hl⟩, ⟨headers, hheaders, -⟩⟩ := h
  obtain ⟨instructions, hinstructions⟩ := (exists_forall₂_iff items).mpr
    (fun data hd => (Instruction.exists_ofJson_iff data).mpr (hi data hd))
  rw [← Json.length_of_optionalArray hitems, hinstructions.length_eq] at hl
  rw [ofFields, hitems, hlabels, hheaders]
  change FailsOnly _ (items.mapM Instruction.ofJson >>= _)
  rw [mapM_eq_ok_iff.mpr hinstructions]
  change FailsOnly _ (headers.mapM _ >>= _)
  refine FailsOnly.bind (.mapM (fun e _ => (Json.failsOnly_readText e.2).map)) (fun texts _ => ?_)
  exact FailsOnly.bind (.mapM (fun e he => .map (failsOnly_of_exists
    ((exists_labelIndex_iff name e.1 _ e.2).mpr (hl e he))))) (fun indices _ => failsOnly_ok _)

theorem Node.failsOnly_ofJson {name : Option String} {data : Json}
    (hname : ∃ s ∈ name.or data.ownName?, s ≠ "") (h : data.IsNode header) :
    FailsOnly (· = ReadFault.write .longInteger) (ofJson name data) := by
  obtain ⟨s, hs, hne⟩ := hname
  cases data with
  | object fields =>
    have hfound : (name.map Json.string).getD (Json.field "name" .null fields) = .string s := by
      cases name with
      | none => exact Json.ownName?_object.mp hs
      | some t => exact congrArg Json.string (Option.some.inj hs)
    simp only [ofJson, hfound, String.isEmpty_iff, hne, if_false]
    exact failsOnly_ofFields s h
  | _ => exact h.elim

namespace Program

theorem failsOnly_addJson {p : Program} {e : Option String × Json}
    (hnew : ∀ s ∈ e.1.or e.2.ownName?, s ∉ p.nodes.keys)
    (h : (∃ s ∈ e.1.or e.2.ownName?, s ≠ "") ∧ e.2.IsNode header) :
    FailsOnly (· = ReadFault.write .longInteger) (p.addJson e.1 e.2) := by
  refine (Node.failsOnly_ofJson h.1 h.2).bind (fun node hnode => ?_)
  rw [add_eq_ok_iff.mpr ⟨hnew _ (Node.name_of_ofJson hnode), rfl⟩]
  exact failsOnly_ok _

theorem failsOnly_foldlM_addJson {entries : List (Option String × Json)} (p : Program)
    (hnodup : (p.nodes.keys.map some ++ entries.map (fun e => e.1.or e.2.ownName?)).Nodup)
    (h : ∀ e ∈ entries, (∃ s ∈ e.1.or e.2.ownName?, s ≠ "") ∧ e.2.IsNode header) :
    FailsOnly (· = ReadFault.write .longInteger)
      (entries.foldlM (fun p e => p.addJson e.1 e.2) p) := by
  induction entries generalizing p with
  | nil => exact failsOnly_ok p
  | cons e entries ih =>
    obtain ⟨he, hes⟩ := List.forall_mem_cons.mp h
    have hnew : ∀ s ∈ e.1.or e.2.ownName?, s ∉ p.nodes.keys := by
      intro s hs hmem
      rw [List.map_cons, Option.mem_def.mp hs] at hnodup
      exact List.disjoint_of_nodup_append hnodup (List.mem_map_of_mem hmem) List.mem_cons_self
    rw [List.foldlM_cons]
    refine (failsOnly_addJson hnew he).bind (fun q hq => ih q ?_ hes)
    obtain ⟨node, hnode, hadd⟩ := addJson_eq_ok_iff.mp hq
    obtain ⟨hn, rfl⟩ := add_eq_ok_iff.mp hadd
    rw [Table.keys_insert, if_neg hn]
    simpa [Node.name_of_ofJson hnode] using hnodup

theorem failsOnly_ofJson {data : Json} (h : data.FitsSchema) :
    FailsOnly (· = ReadFault.write .longInteger) (ofJson data) := by
  cases data with
  | object fields =>
    obtain ⟨-, hnodes, hvalues⟩ := h
    rw [Json.allows_iff (.object []) (by simp [Json.IsNodes]), isNodes_iff] at hnodes
    obtain ⟨entries, hentries, hnodup, hn⟩ := hnodes
    obtain ⟨values, hvalues, hv⟩ :=
      (Json.exists_optionalObject_iff .initialValuesShape).mpr hvalues
    refine (Json.failsOnly_readText _).bind (fun name _ => FailsOnly.bind ?_ (fun p _ => ?_))
    · rw [addNodes_eq_foldlM hentries]
      exact failsOnly_foldlM_addJson (named name) hnodup hn
    · rw [hvalues]
      change FailsOnly _ (values.mapM _ >>= _)
      exact FailsOnly.bind (.mapM (fun e he => .map (failsOnly_of_exists
        ((Operand.exists_ofJson_iff e.2).mpr (hv e he))))) (fun operands _ => failsOnly_ok _)
  | _ => exact h.elim

/-- A document can be read exactly if it fits the schema and its name and headers can be written as
texts. This is all that the schema misses: where it is not so, it ends the reading. -/
theorem ofJson_ok_iff_isProgram (data : Json) :
    ((∃ p, ofJson data = .ok p) ↔ data.IsProgram Json.IsText) ∧
      (data.IsProgram Json.IsText → data.FitsSchema) ∧
      (data.FitsSchema → ¬ data.IsProgram Json.IsText →
        ofJson data = .error (.write .longInteger)) ∧
      (data.IsText → ((∃ p, ofJson data = .ok p) ↔ data.FitsSchema)) := by
  refine ⟨exists_ofJson_iff data, Json.IsProgram.fitsSchema, fun hfits htext => ?_,
    fun htext => ?_⟩
  · rw [← exists_ofJson_iff] at htext
    cases hread : ofJson data with
    | ok p => exact absurd ⟨p, hread⟩ htext
    | error e => rw [failsOnly_ofJson hfits e hread]
  · rw [exists_ofJson_iff]
    exact ⟨Json.IsProgram.fitsSchema, fun h => h.isProgram htext⟩

def numbered (n : Int) : Json := .object [("name", .int n)]

theorem numbered_fits (n : Int) : (numbered n).FitsSchema := by
  refine ⟨fun _ _ => trivial, ?_, ?_⟩ <;> intro value hvalue <;>
    simp [List.lookup_cons] at hvalue

theorem ofJson_ok_iff_isProgram_numbered :
    (numbered 7).IsText ∧ (numbered 7).FitsSchema ∧ ∃ p, ofJson (numbered 7) = .ok p := by
  have htext : (numbered 7).IsText := by
    rw [Json.IsText]
    decide +kernel
  exact ⟨htext, numbered_fits 7, ((ofJson_ok_iff_isProgram _).2.2.2 htext).mpr (numbered_fits 7)⟩

theorem ofJson_numbered {n : Int} (h : isWritable n = false) :
    ofJson (numbered n) = .error (.write .longInteger) := by
  simp [ofJson, numbered, Json.field, Json.readText, Json.asText, Json.allWritable, h,
    Except.mapError, bind, Except.bind]

/-- A name with one digit too many fits the schema and cannot be read. -/
theorem long_name_fits_unread :
    (numbered writeBound).FitsSchema ∧
      ofJson (numbered writeBound) = .error (.write .longInteger) :=
  ⟨numbered_fits _, ofJson_numbered isWritable_writeBound⟩

end Program

end DialogueFlow
