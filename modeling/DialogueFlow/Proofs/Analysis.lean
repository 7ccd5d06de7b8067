import DialogueFlow.Proofs.Faults
import DialogueFlow.Proofs.Reading
import DialogueFlow.Proofs.Tiling
import Mathlib.Data.List.TakeWhile

namespace DialogueFlow

namespace Program

variable {p p' : Program}

/-- Every node is kept under its name. -/
def Keyed (p : Program) : Prop := p.nodes.values.map Node.name = p.nodes.keys

theorem Keyed.nodup (h : p.Keyed) : (p.nodes.values.map Node.name).Nodup := by
  rw [h]
  exact p.nodes.nodup

theorem Keyed.add {node : Node} (h : p.add node = .ok p') (hp : p.Keyed) : p'.Keyed := by
  obtain ⟨hn, rfl⟩ := add_eq_ok_iff.mp h
  rw [Keyed, Table.values, Table.keys] at hp ⊢
  simp only [Table.entries_insert hn, List.map_append, hp, List.map_cons, List.map_nil]

theorem keyed_ofJson {data : Json} (h : ofJson data = .ok p) : p.Keyed := by
  obtain ⟨_, _, nodes, _, _, -, -, -, -, -, -, -, hnodes, -⟩ := ofJson_eq_ok_iff.mp h
  simp [Keyed, Table.values, Table.keys, hnodes]

theorem keyed_ofText {d : Json.Dialect} {text : List Char} (h : ofText d text = .ok p) :
    p.Keyed := by
  obtain ⟨data, hdata⟩ := exists_ofJson_of_ofText h
  exact keyed_ofJson hdata

end Program

theorem Flow.map_block_vertices (f : Flow) : f.vertices.map Vertex.block = f.blocks := by
  apply List.ext_getElem
  · simp [vertices, Graph.vertices, blocks]
  · intro i _ _
    simp [vertices, Graph.vertices, blocks, Graph.vertex, Graph.block]

namespace Node

variable {node : Node} {b : Block}

theorem node_of_mem_cut (hb : b ∈ node.cut) : b.node = node.name := by
  obtain ⟨s, e, -, rfl⟩ := exists_segment hb
  rfl

theorem label_of_mem_cut (hb : b ∈ node.cut) : b.label = node.labelAt? b.first := by
  obtain ⟨s, e, -, rfl⟩ := exists_segment hb
  rfl

def fault? (node : Node) : Option Fault :=
  match node.flow with
  | .ok _ => none
  | .error f => some f

/-- What stops an analysis at a node, if anything does. -/
def stop? (node : Node) : Option WriteFault :=
  match node.flow with
  | .error (.write f) => some f
  | _ => none

theorem stop?_eq_none_iff (node : Node) :
    node.stop? = none ↔ ¬ (node.instructions ≠ [] ∧ node.Unwritten) := by
  rw [← flow_eq_write_iff, stop?]
  split
  · next f hf =>
    cases f
    simp [hf]
  · next hf => simpa using hf .longInteger

def analysed (node : Node) : List Block :=
  match node.flow with
  | .ok f => f.blocks
  | .error _ => []

theorem analysed_sublist (node : Node) : node.analysed.Sublist node.cut := by
  rw [analysed]
  split
  · next f hf => rw [(linked_of_flow hf).blocks]
  · exact List.nil_sublist _

end Node

namespace Analysis

def blocks (a : Analysis) : List Block := a.vertices.map Vertex.block

theorem blocks_eq (a : Analysis) : a.blocks = a.flows.values.flatMap Flow.blocks := by
  rw [blocks, vertices, List.map_flatMap]
  exact congrArg a.flows.values.flatMap (funext Flow.map_block_vertices)

theorem add_of_stop {a : Analysis} (h : a.stop ≠ none) (node : Node) : a.add node = a := by
  obtain ⟨f, hf⟩ := Option.ne_none_iff_exists'.mp h
  rw [add, hf]

theorem foldl_add_of_stop {a : Analysis} (h : a.stop ≠ none) (nodes : List Node) :
    nodes.foldl add a = a := by
  induction nodes with
  | nil => rfl
  | cons node rest ih => rw [List.foldl_cons, add_of_stop h, ih]

theorem add_eq {a : Analysis} (h : a.stop = none) {node : Node} (hn : node.stop? = none) :
    a.add node =
      ⟨a.flows.put node.name node.flow.toOption, a.failures.put node.name node.fault?, none⟩ := by
  rw [add.eq_def, h, Node.fault?]
  rw [Node.stop?] at hn
  split <;> simp_all [Except.toOption, Table.put]

theorem add_of_stop? {a : Analysis} (h : a.stop = none) {node : Node} {f : WriteFault}
    (hn : node.stop? = some f) : a.add node = { a with stop := some f } := by
  rw [add.eq_def, h]
  rw [Node.stop?] at hn
  split <;> simp_all

/-- The nodes up to one that stops the analysis. -/
def reached (nodes : List Node) : List Node := nodes.takeWhile (fun node => node.stop?.isNone)

theorem foldl_add {a : Analysis} (h : a.stop = none) (nodes : List Node) :
    nodes.foldl add a =
      ⟨(reached nodes).foldl (fun t node => t.put node.name node.flow.toOption) a.flows,
        (reached nodes).foldl (fun t node => t.put node.name node.fault?) a.failures,
        nodes.findSome? Node.stop?⟩ := by
  induction nodes generalizing a with
  | nil =>
    rw [List.foldl_nil, List.findSome?_nil, ← h]
    rfl
  | cons node rest ih =>
    rw [List.foldl_cons, reached, List.takeWhile_cons, List.findSome?_cons]
    cases hn : node.stop? with
    | none =>
      rw [add_eq h hn, ih rfl]
      rfl
    | some f =>
      rw [add_of_stop? h hn, foldl_add_of_stop (by simp)]
      rfl

end Analysis

namespace Program

variable {p : Program} {b c : Block}

def reached (p : Program) : List Node := Analysis.reached p.nodes.values

theorem reached_sublist (p : Program) : p.reached.Sublist p.nodes.values :=
  List.takeWhile_sublist _

theorem stop_analyse (p : Program) : p.analyse.stop = p.nodes.values.findSome? Node.stop? := by
  rw [analyse, Analysis.foldl_add rfl]

theorem stop_analyse_eq_none_iff :
    p.analyse.stop = none ↔ ∀ node ∈ p.nodes.values, node.stop? = none := by
  rw [stop_analyse, List.findSome?_eq_none_iff]

theorem reached_eq_values (h : p.analyse.stop = none) : p.reached = p.nodes.values := by
  rw [stop_analyse_eq_none_iff] at h
  exact List.takeWhile_eq_self_iff.mpr (fun node hn => by simp [h node hn])

theorem stop_ofJson {data : Json} (h : ofJson data = .ok p) : p.analyse.stop = none := by
  rw [stop_analyse_eq_none_iff]
  intro node hn
  rw [Node.stop?_eq_none_iff]
  rintro ⟨-, e, he, -⟩
  simp [Node.stray?_eq_none_iff.mpr (sound_ofJson h node hn).labels] at he

theorem stop_ofText {d : Json.Dialect} {text : List Char} (h : ofText d text = .ok p) :
    p.analyse.stop = none := by
  obtain ⟨data, hdata⟩ := exists_ofJson_of_ofText h
  exact stop_ofJson hdata

theorem flows_analyse (h : (p.nodes.values.map Node.name).Nodup) : p.analyse.flows.entries =
    p.reached.filterMap (fun node => node.flow.toOption.map (fun f => (node.name, f))) := by
  rw [analyse, Analysis.foldl_add rfl]
  refine (Table.entries_foldl_put Node.name _ _ _ ?_ ?_).trans rfl
  · exact (p.reached_sublist.map _).nodup h
  · exact fun _ _ hm => List.not_mem_nil hm

theorem Keyed.flows_analyse (h : p.Keyed) : p.analyse.flows.entries =
    p.reached.filterMap (fun node => node.flow.toOption.map (fun f => (node.name, f))) :=
  Program.flows_analyse h.nodup

theorem Keyed.failures_analyse (h : p.Keyed) : p.analyse.failures.entries =
    p.reached.filterMap (fun node => node.fault?.map (fun f => (node.name, f))) := by
  rw [analyse, Analysis.foldl_add rfl]
  refine (Table.entries_foldl_put Node.name _ _ _ ?_ ?_).trans rfl
  · exact (p.reached_sublist.map _).nodup h.nodup
  · exact fun _ _ hm => List.not_mem_nil hm

theorem Keyed.blocks_analyse (h : p.Keyed) :
    p.analyse.blocks = p.reached.flatMap Node.analysed := by
  rw [Analysis.blocks_eq, Table.values, h.flows_analyse, List.flatMap_map,
    List.filterMap_eq_flatMap_toList, List.flatMap_assoc]
  refine congrArg p.reached.flatMap (funext fun node => ?_)
  rw [Node.analysed]
  cases node.flow <;> simp [Except.toOption]

theorem Keyed.exists_node (h : p.Keyed) (hb : b ∈ p.analyse.blocks) :
    ∃ node ∈ p.nodes.values, b ∈ node.cut := by
  rw [h.blocks_analyse] at hb
  obtain ⟨node, hn, hb⟩ := List.mem_flatMap.mp hb
  exact ⟨node, p.reached_sublist.subset hn, node.analysed_sublist.subset hb⟩

theorem Keyed.exists_first (h : p.Keyed) (hb : b ∈ p.analyse.blocks) : ∃ n : Nat, b.first = n := by
  obtain ⟨node, -, hb⟩ := h.exists_node hb
  obtain ⟨s, e, -, rfl⟩ := Node.exists_segment hb
  exact ⟨s, rfl⟩

theorem Keyed.exists_node_of_eq (h : p.Keyed) (hb : b ∈ p.analyse.blocks)
    (hc : c ∈ p.analyse.blocks) (hbc : b.node = c.node) :
    ∃ node : Node, b ∈ node.cut ∧ c ∈ node.cut := by
  obtain ⟨node, hn, hb⟩ := h.exists_node hb
  obtain ⟨other, ho, hc⟩ := h.exists_node hc
  rw [Node.node_of_mem_cut hb, Node.node_of_mem_cut hc] at hbc
  obtain rfl := List.inj_on_of_nodup_map h.nodup hn ho hbc
  exact ⟨node, hb, hc⟩

theorem Keyed.eq_of_first (h : p.Keyed) (hb : b ∈ p.analyse.blocks) (hc : c ∈ p.analyse.blocks)
    (hnode : b.node = c.node) (hfirst : b.first = c.first) : b = c := by
  obtain ⟨node, hb, hc⟩ := h.exists_node_of_eq hb hc hnode
  exact List.inj_on_of_nodup_map node.nodup_first_cut hb hc hfirst

theorem Keyed.eq_of_label (h : p.Keyed) (hb : b ∈ p.analyse.blocks) (hc : c ∈ p.analyse.blocks)
    (hnode : b.node = c.node) {label : String} (hlb : b.label = some label)
    (hlc : c.label = some label) : b = c := by
  obtain ⟨node, hb', hc'⟩ := h.exists_node_of_eq hb hc hnode
  have hmem : ∀ d ∈ node.cut, d.label = some label → (label, d.first) ∈ node.labels.entries := by
    intro d hd hl
    rw [Node.label_of_mem_cut hd] at hl
    obtain ⟨earlier, later, he, -⟩ := (Node.labelAt?_eq_some_iff _ _).mp hl
    rw [he]
    simp
  have hfirst : (label, b.first) = (label, c.first) :=
    List.inj_on_of_nodup_map node.labels.nodup (hmem b hb' hlb) (hmem c hc' hlc) rfl
  exact h.eq_of_first hb hc hnode (Prod.mk.inj hfirst).2

theorem Keyed.nodup_blocks (h : p.Keyed) : p.analyse.blocks.Nodup := by
  rw [h.blocks_analyse, List.nodup_flatMap]
  apply And.intro
  · exact fun node _ => node.analysed_sublist.nodup (List.Nodup.of_map _ node.nodup_first_cut)
  · refine (List.pairwise_map.mp ((p.reached_sublist.map _).nodup h.nodup)).imp ?_
    intro node other hne b hb hb'
    have hb := Node.node_of_mem_cut (node.analysed_sublist.subset hb)
    have hb' := Node.node_of_mem_cut (other.analysed_sublist.subset hb')
    exact hne (hb.symm.trans hb')

end Program

end DialogueFlow
