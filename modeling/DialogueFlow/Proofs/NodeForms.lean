import DialogueFlow.Proofs.Schema

namespace DialogueFlow

namespace Json

variable {fields : List (String × Json)} {key other : String} {default value : Json}

theorem field_setEntry_self : field key default (setEntry key value fields) = value := by
  rw [field, Table.lookup_setEntry, if_pos rfl, Option.getD_some]

theorem field_setEntry_of_ne (h : other ≠ key) :
    field other default (setEntry key value fields) = field other default fields := by
  rw [field, Table.lookup_setEntry, if_neg h, field]

def keyedNodes (nodes : List (String × List (String × Json))) : Json :=
  .object (nodes.map (fun e => (e.1, .object e.2)))

/-- The same nodes one after the other. Each has its name as a field, in the place of any name that
it had before. -/
def listedNodes (nodes : List (String × List (String × Json))) : Json :=
  .array (nodes.map (fun e => .object (setEntry "name" (.string e.1) e.2)))

end Json

namespace Node

variable (name : String) (fields : List (String × Json))

theorem ofFields_setEntry_name (value : Json) :
    ofFields name (setEntry "name" value fields) = ofFields name fields := by
  have hinstructions : "instructions" ≠ "name" := by decide
  have hlabels : "labels" ≠ "name" := by decide
  have hheaders : "headers" ≠ "name" := by decide
  simp only [ofFields, Json.field_setEntry_of_ne hinstructions, Json.field_setEntry_of_ne hlabels,
    Json.field_setEntry_of_ne hheaders]

theorem ofJson_setEntry_name :
    ofJson none (.object (setEntry "name" (.string name) fields)) =
      ofJson (some name) (.object fields) := by
  simp only [ofJson, Option.map_none, Option.map_some, Option.getD_none, Option.getD_some,
    Json.field_setEntry_self, ofFields_setEntry_name]

end Node

namespace Program

variable (nodes : List (String × List (String × Json)))

theorem addNodes_listedNodes (p : Program) :
    p.addNodes (Json.listedNodes nodes) = p.addNodes (Json.keyedNodes nodes) := by
  simp only [Json.listedNodes, Json.keyedNodes, addNodes, List.foldlM_map, addJson,
    Node.ofJson_setEntry_name]

theorem ofJson_listedNodes (fields : List (String × Json)) :
    ofJson (.object (setEntry "nodes" (Json.listedNodes nodes) fields)) =
      ofJson (.object (setEntry "nodes" (Json.keyedNodes nodes) fields)) := by
  have hname : "name" ≠ "nodes" := by decide
  have hvalues : "initial_values" ≠ "nodes" := by decide
  simp only [ofJson, Json.field_setEntry_self, Json.field_setEntry_of_ne hname,
    Json.field_setEntry_of_ne hvalues, addNodes_listedNodes]

theorem keys_of_keyedNodes {fields : List (String × Json)} {p : Program}
    (h : ofJson (.object (setEntry "nodes" (Json.keyedNodes nodes) fields)) = .ok p) :
    p.nodes.keys = nodes.map Prod.fst := by
  obtain ⟨_, entries, read, _, _, hfields, hentries, hread, -, -, -, -, hnodes, -⟩ :=
    ofJson_eq_ok_iff.mp h
  cases hfields
  rw [Json.field_setEntry_self, Json.keyedNodes, Json.nodeEntries?, List.map_map] at hentries
  cases hentries
  rw [List.forall₂_map_left_iff] at hread
  have hnames : List.Forall₂ (· = ·) (nodes.map Prod.fst) (read.map Node.name) := by
    rw [List.forall₂_map_left_iff, List.forall₂_map_right_iff]
    refine hread.imp (fun e node hnode => ?_)
    have hname := Node.name_of_ofJson hnode
    exact Option.some.inj hname
  rw [List.forall₂_eq_eq_eq] at hnames
  rw [Table.keys, hnodes, List.map_map, hnames]
  rfl

/-- A document in which the nodes stand under their names, and the same document with a list of
these nodes, are read as the same program, or the same thing is found wrong with both. The nodes of
the program have their names in the given order. -/
theorem ofJson_node_forms_agree (fields : List (String × Json)) :
    ofJson (.object (setEntry "nodes" (Json.keyedNodes nodes) fields)) =
        ofJson (.object (setEntry "nodes" (Json.listedNodes nodes) fields)) ∧
      ∀ p, ofJson (.object (setEntry "nodes" (Json.listedNodes nodes) fields)) = .ok p →
        p.nodes.keys = nodes.map Prod.fst := by
  rw [ofJson_listedNodes]
  exact ⟨rfl, fun p => keys_of_keyedNodes nodes⟩

end Program

end DialogueFlow
