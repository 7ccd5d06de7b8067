import DialogueFlow.Proofs.Analysis

namespace DialogueFlow

namespace Program

variable {p : Program} {α : Type}

def tryAdd (p : Program) (node : Node) : Program :=
  match p.add node with
  | .ok p' => p'
  | .error _ => p

/-- Programs that are read or made from a list of nodes, and what becomes of these and of the empty
program when nodes are added, whether they are accepted or refused. -/
inductive Built : Program → Prop
  | read {data : Json} {p : Program} : ofJson data = .ok p → Built p
  | listed {name : String} {nodes : List Node} {p : Program} : ofNodes name nodes = .ok p → Built p
  | started (name : String) : Built (named name)
  | tried {p : Program} (node : Node) : Built p → Built (p.tryAdd node)

theorem Keyed.tryAdd (h : p.Keyed) (node : Node) : (p.tryAdd node).Keyed := by
  rw [Program.tryAdd]
  split
  · next hadd => exact h.add hadd
  · exact h

theorem Built.keyed (h : p.Built) : p.Keyed := by
  induction h with
  | read h => exact keyed_ofJson h
  | listed h => exact foldlM_invariant (fun _ _ _ => Keyed.add) h rfl
  | started name => rfl
  | tried node _ ih => exact ih.tryAdd node

theorem map_fst_filterMap (value? : Node → Option α) (nodes : List Node) :
    (nodes.filterMap (fun node => (value? node).map (fun v => (node.name, v)))).map Prod.fst =
      (nodes.filter (fun node => (value? node).isSome)).map Node.name := by
  induction nodes with
  | nil => rfl
  | cons node rest ih =>
    cases hv : value? node with
    | none => simpa [hv] using ih
    | some v => simpa [hv] using ih

theorem Keyed.mem_filterMap_iff (h : p.Keyed) (value? : Node → Option α) {node : Node}
    (hn : node ∈ p.reached) (v : α) :
    (node.name, v) ∈
        p.reached.filterMap (fun node => (value? node).map (fun v => (node.name, v))) ↔
      value? node = some v := by
  rw [List.mem_filterMap]
  apply Iff.intro
  · rintro ⟨other, ho, he⟩
    obtain ⟨w, hw, he⟩ := Option.map_eq_some_iff.mp he
    obtain ⟨hname, rfl⟩ := Prod.mk.inj he
    rwa [← List.inj_on_of_nodup_map h.nodup (p.reached_sublist.subset ho)
      (p.reached_sublist.subset hn) hname]
  · exact fun hv => ⟨node, hn, by rw [hv, Option.map_some]⟩

theorem Keyed.keys_flows (h : p.Keyed) : p.analyse.flows.keys =
    (p.reached.filter (fun node => node.flow.toOption.isSome)).map Node.name := by
  rw [Table.keys, h.flows_analyse, map_fst_filterMap]

theorem Keyed.keys_failures (h : p.Keyed) : p.analyse.failures.keys =
    (p.reached.filter (fun node => node.fault?.isSome)).map Node.name := by
  rw [Table.keys, h.failures_analyse, map_fst_filterMap]

theorem Keyed.flow_iff (h : p.Keyed) {node : Node} (hn : node ∈ p.reached) (f : Flow) :
    p.analyse.flows.get? node.name = some f ↔ node.flow = .ok f := by
  rw [Table.get?_eq_some_iff, h.flows_analyse, h.mem_filterMap_iff _ hn]
  cases node.flow <;> simp [Except.toOption]

theorem Keyed.failure_iff (h : p.Keyed) {node : Node} (hn : node ∈ p.reached) (f : Fault) :
    p.analyse.failures.get? node.name = some f ↔ node.flow = .error f := by
  rw [Table.get?_eq_some_iff, h.failures_analyse, h.mem_filterMap_iff _ hn, Node.fault?]
  cases node.flow <;> simp

theorem Keyed.disjoint_keys (h : p.Keyed) :
    p.analyse.flows.keys.Disjoint p.analyse.failures.keys := by
  rw [h.keys_flows, h.keys_failures]
  intro name hf hg
  obtain ⟨node, hnode, hname⟩ := List.mem_map.mp hf
  obtain ⟨other, hother, hname'⟩ := List.mem_map.mp hg
  obtain ⟨hn, hflow⟩ := List.mem_filter.mp hnode
  obtain ⟨ho, hfault⟩ := List.mem_filter.mp hother
  obtain rfl := List.inj_on_of_nodup_map h.nodup (p.reached_sublist.subset hn)
    (p.reached_sublist.subset ho) (hname.trans hname'.symm)
  rw [Node.fault?] at hfault
  cases hnf : node.flow <;> simp [hnf, Except.toOption] at hflow hfault

theorem Keyed.mem_keys_iff (h : p.Keyed) (name : String) :
    name ∈ p.reached.map Node.name ↔
      name ∈ p.analyse.flows.keys ∨ name ∈ p.analyse.failures.keys := by
  rw [h.keys_flows, h.keys_failures, ← List.mem_append, ← List.map_append]
  refine ⟨fun hm => ?_, fun hm => ?_⟩
  · obtain ⟨node, hn, rfl⟩ := List.mem_map.mp hm
    apply List.mem_map_of_mem
    rw [List.mem_append, List.mem_filter, List.mem_filter, Node.fault?]
    cases node.flow <;> simp [Except.toOption, hn]
  · obtain ⟨node, hn, rfl⟩ := List.mem_map.mp hm
    apply List.mem_map_of_mem
    obtain hn | hn := List.mem_append.mp hn
    · exact (List.mem_filter.mp hn).1
    · exact (List.mem_filter.mp hn).1

end Program

namespace Flow

variable {f : Flow} {c : Block}

def relatives (f : Flow) (i : Fin f.size) : List Block :=
  (f.graph.vertex i).blockDestinations ++ (f.graph.vertex i).ancestors ++
    (f.graph.descendants i).map f.graph.block

theorem exists_block_of_relative {i : Fin f.size} (hc : c ∈ f.relatives i) :
    ∃ j, f.graph.block j = c := by
  rw [relatives, List.mem_append, List.mem_append] at hc
  obtain (hc | hc) | hc := hc
  · rw [Vertex.blockDestinations, List.mem_filterMap] at hc
    obtain ⟨d, hd, hc⟩ := hc
    obtain ⟨e, -, rfl⟩ := List.mem_map.mp hd
    cases ht : e.target with
    | block j => exact ⟨j, by simpa [Graph.destination, Graph.place, Place.block?, ht] using hc⟩
    | node name => simp [Graph.destination, Graph.place, Place.block?, ht] at hc
  · obtain ⟨j, -, hj⟩ := List.mem_map.mp hc
    exact ⟨j, hj⟩
  · obtain ⟨j, -, hj⟩ := List.mem_map.mp hc
    exact ⟨j, hj⟩

theorem node_of_mem_blocks {node : Node} (h : node.flow = .ok f) (hc : c ∈ f.blocks) :
    c.node = node.name := by
  rw [(Node.linked_of_flow h).blocks] at hc
  exact Node.node_of_mem_cut hc

theorem node_of_relative {node : Node} (h : node.flow = .ok f) {i : Fin f.size}
    (hc : c ∈ f.relatives i) : c.node = node.name := by
  obtain ⟨j, rfl⟩ := exists_block_of_relative hc
  exact node_of_mem_blocks h (by simp [blocks, Graph.block])

end Flow

/-- An analysis that tells of every node of a program what is found for it alone. -/
structure Analysis.NodeByNode (a : Analysis) (p : Program) : Prop where
  disjoint : a.flows.keys.Disjoint a.failures.keys
  flowOrder : a.flows.keys.Sublist (p.nodes.values.map Node.name)
  failureOrder : a.failures.keys.Sublist (p.nodes.values.map Node.name)
  complete : ∀ name, name ∈ p.nodes.values.map Node.name ↔
    name ∈ a.flows.keys ∨ name ∈ a.failures.keys
  flow : ∀ node ∈ p.nodes.values, ∀ f, a.flows.get? node.name = some f ↔ node.flow = .ok f
  failure : ∀ node ∈ p.nodes.values, ∀ fault,
    a.failures.get? node.name = some fault ↔ node.flow = .error fault
  apart : ∀ m n f g, a.flows.get? m = some f → a.flows.get? n = some g → m ≠ n →
    ∀ b ∈ f.blocks, ∀ i, ∀ c ∈ g.relatives i, b.key ≠ c.key

namespace Program

variable {p : Program}

theorem Keyed.exists_node_of_flow (h : p.Keyed) {name : String} {f : Flow}
    (hf : p.analyse.flows.get? name = some f) :
    ∃ node : Node, node.name = name ∧ node.flow = .ok f := by
  have hm : name ∈ p.reached.map Node.name :=
    (h.mem_keys_iff name).mpr (.inl (Table.mem_keys_iff.mpr ⟨f, hf⟩))
  obtain ⟨node, hn, rfl⟩ := List.mem_map.mp hm
  exact ⟨node, rfl, (h.flow_iff hn f).mp hf⟩

theorem Keyed.nodeByNode (h : p.Keyed) (hstop : p.analyse.stop = none) :
    p.analyse.NodeByNode p := by
  have hall := reached_eq_values hstop
  constructor
  case disjoint => exact h.disjoint_keys
  case flowOrder =>
    rw [h.keys_flows, hall]
    exact List.filter_sublist.map _
  case failureOrder =>
    rw [h.keys_failures, hall]
    exact List.filter_sublist.map _
  case complete =>
    rw [← hall]
    exact h.mem_keys_iff
  case flow => exact fun _ hn => h.flow_iff (hall.symm ▸ hn)
  case failure => exact fun _ hn => h.failure_iff (hall.symm ▸ hn)
  case apart =>
    intro m n f g hf hg hmn b hb i c hc hkey
    obtain ⟨node, hm, hnode⟩ := h.exists_node_of_flow hf
    obtain ⟨other, hn, hother⟩ := h.exists_node_of_flow hg
    have hnames : node.name = other.name := calc
      node.name = b.node := (Flow.node_of_mem_blocks hnode hb).symm
      _ = c.node := congrArg Prod.fst hkey
      _ = other.name := Flow.node_of_relative hother hc
    exact hmn (hm.symm.trans (hnames.trans hn))

/-- The analysis of a program that is built in any way is stopped exactly by a node with a label
whose target cannot be written. Otherwise it goes node by node, so that a node is found the same in
every such program that has it. -/
theorem analyse_nodeByNode (h : p.Built) :
    (p.analyse.stop = none ↔
      ∀ node ∈ p.nodes.values, node.instructions ≠ [] → ¬ node.Unwritten) ∧
    (p.analyse.stop = none → p.analyse.NodeByNode p ∧
      ∀ q, Built q → q.analyse.stop = none →
        ∀ node ∈ p.nodes.values, node ∈ q.nodes.values →
          p.analyse.flows.get? node.name = q.analyse.flows.get? node.name ∧
            p.analyse.failures.get? node.name = q.analyse.failures.get? node.name) := by
  refine ⟨?_, fun hstop => ⟨h.keyed.nodeByNode hstop, fun q hq hqstop node hp hn => ?_⟩⟩
  · simp only [stop_analyse_eq_none_iff, Node.stop?_eq_none_iff, not_and]
  · have hbyP := h.keyed.nodeByNode hstop
    have hbyQ := hq.keyed.nodeByNode hqstop
    refine ⟨Option.ext (fun f => ?_), Option.ext (fun fault => ?_)⟩
    · rw [hbyP.flow node hp, hbyQ.flow node hn]
    · rw [hbyP.failure node hp, hbyQ.failure node hn]

def pier : Node := ⟨"Pier", [⟨.jumpTo, [.string "Sea"]⟩], ∅, ∅⟩

def deck : Node :=
  ⟨"Deck", [⟨.jumpIfFalse, [.string "Aft"]⟩, ⟨.stop, []⟩, ⟨.stop, []⟩], .ofList [("Aft", 2)], ∅⟩

def harbour : Json := .object [("nodes", .array [pier.toJson, deck.toJson, Node.mast.toJson])]

def fleet : Program :=
  (((named "Fleet").tryAdd .mast).tryAdd deck).tryAdd { pier with name := "Deck" }

theorem built_fleet : fleet.Built := .tried _ (.tried _ (.tried _ (.started _)))

theorem analyse_nodeByNode_harbour :
    ∃ p, ofJson harbour = .ok p ∧ p.analyse.stop = none ∧ p.analyse.flows.keys = ["Deck"] ∧
      p.analyse.failures.keys = ["Pier", "Mast"] ∧ p.analyse.NodeByNode p ∧
      fleet.analyse.stop = none ∧ fleet.nodes.keys = ["Mast", "Deck"] ∧
      fleet.analyse.NodeByNode fleet ∧
      p.analyse.flows.get? "Deck" = fleet.analyse.flows.get? "Deck" ∧
      p.analyse.failures.get? "Mast" = fleet.analyse.failures.get? "Mast" := by
  have hread : (ofJson harbour).toOption.map (fun p =>
      (p.nodes.values, p.analyse.flows.keys, p.analyse.failures.keys)) =
      some ([pier, deck, .mast], ["Deck"], ["Pier", "Mast"]) := by decide +kernel
  obtain ⟨p, hp, hv⟩ := exists_ok_of_map hread
  obtain ⟨hnodes, hflows, hfailures⟩ : p.nodes.values = [pier, deck, .mast] ∧
      p.analyse.flows.keys = ["Deck"] ∧ p.analyse.failures.keys = ["Pier", "Mast"] := by
    simpa using hv
  have hstop := stop_ofJson hp
  have hfleet : fleet.nodes.values = [.mast, deck] := by decide +kernel
  have hfleetStop : fleet.analyse.stop = none := by decide +kernel
  obtain ⟨hall, hsame⟩ := (analyse_nodeByNode (.read hp)).2 hstop
  have hdeck := hsame fleet built_fleet hfleetStop deck (by simp [hnodes]) (by simp [hfleet])
  have hmast := hsame fleet built_fleet hfleetStop .mast (by simp [hnodes]) (by simp [hfleet])
  exact ⟨p, hp, hstop, hflows, hfailures, hall, hfleetStop, by decide +kernel,
    ((analyse_nodeByNode built_fleet).2 hfleetStop).1, hdeck.1, hmast.2⟩

def stranded (k : Int) : Program := ((named "Fleet").tryAdd (.offing k)).tryAdd deck

theorem values_stranded (k : Int) : (stranded k).nodes.values = [.offing k, deck] := rfl

theorem analyse_stranded {k : Int} (hk : 1 < k) (hw : isWritable k = false) :
    (stranded k).analyse = ⟨∅, ∅, some .longInteger⟩ := by
  have hstop : (Node.offing k).stop? = some .longInteger := by
    rw [Node.stop?, Node.flow_offing hk hw]
  rw [analyse, Analysis.foldl_add rfl, values_stranded, Analysis.reached]
  simp only [List.takeWhile_cons, hstop, List.findSome?_cons]
  rfl

/-- The second node has a flow, but the analysis does not come to it. -/
theorem deck_unreached :
    (stranded writeBound).Built ∧
      deck ∈ (stranded writeBound).nodes.values ∧ (∃ f, deck.flow = .ok f) ∧
      (stranded writeBound).analyse.stop = some .longInteger ∧
      ¬ (stranded writeBound).analyse.NodeByNode
        (stranded writeBound) := by
  have hk := Node.one_lt_writeBound
  have hmem := values_stranded writeBound ▸
    List.mem_cons_of_mem _ List.mem_cons_self
  have hsize : deck.flow.toOption.map Flow.size = some 3 := by decide +kernel
  obtain ⟨f, hf, -⟩ := Node.exists_flow_of_size hsize
  rw [analyse_stranded hk isWritable_writeBound]
  refine ⟨.tried _ (.tried _ (.started _)), hmem, ⟨f, hf⟩, rfl, fun h => ?_⟩
  have hget := (h.flow deck hmem f).mpr hf
  cases hget

end Program

end DialogueFlow
