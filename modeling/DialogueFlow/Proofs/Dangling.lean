import DialogueFlow.Proofs.Isolation

namespace DialogueFlow

/-- The causes that stand for checks of the analysis itself. -/
def Broken.isInternal : Broken → Bool
  | .noLeader _ | .labelInside _ _ _ | .noLabelledBlock _ _ _ | .noTarget _ | .emptyTarget _ => true
  | .noBlock _ _ | .noLabel _ _ | .emptyJump _ _ => false

theorem Node.Dangling.isInternal_eq {node : Node} {cause : Broken} (h : node.Dangling cause) :
    cause.isInternal = false := by
  cases h <;> rfl

def Fault.cause? : Fault → Option Broken
  | .broken cause => some cause
  | .malformed _ | .operandKind _ _ | .write _ => none

theorem Fault.eq_of_cause? {f : Fault} {cause : Broken} (h : f.cause? = some cause) :
    f = .broken cause := by
  cases f <;> simp_all [cause?]

namespace Program

/-- In a program that was read, checks of the analysis itself never fail: when the blocks of a node
cannot be linked then it is the node that is at fault. -/
theorem analyse_blames_nodes {data : Json} {p : Program} (h : ofJson data = .ok p) :
    p.analyse.stop = none ∧
      ∀ name cause, p.analyse.failures.get? name = some (.broken cause) →
        cause.isInternal = false ∧
          ∃ node ∈ p.nodes.values, node.name = name ∧ node.Dangling cause := by
  refine ⟨stop_ofJson h, fun name cause hf => ?_⟩
  have hk := keyed_ofJson h
  have hm : name ∈ p.reached.map Node.name :=
    (hk.mem_keys_iff name).mpr (.inr (Table.mem_keys_iff.mpr ⟨_, hf⟩))
  obtain ⟨node, hr, rfl⟩ := List.mem_map.mp hm
  have hn := p.reached_sublist.subset hr
  have hflow := (hk.failure_iff hr _).mp hf
  obtain ⟨_, ⟨⟩, hd⟩ := Node.dangling_of_flow (sound_ofJson h node hn).labels rfl hflow
  exact ⟨hd.isInternal_eq, node, hn, rfl, hd⟩

def gangway : Node := ⟨"Gangway", [⟨.pushString, [.string ""]⟩, ⟨.runNode, []⟩], ∅, ∅⟩

def wrecks : Json := .object [("nodes", .array [pier.toJson, Node.mast.toJson, gangway.toJson])]

theorem analyse_blames_nodes_wrecks :
    ∃ p, ofJson wrecks = .ok p ∧ p.analyse.stop = none ∧
      ∀ e ∈ [("Pier", Broken.noLabel "Pier" "Sea"), ("Mast", Broken.noBlock "Mast" 1),
          ("Gangway", Broken.emptyJump "Gangway" 1)],
        p.analyse.failures.get? e.1 = some (.broken e.2) ∧ e.2.isInternal = false ∧
          ∃ node ∈ p.nodes.values, node.name = e.1 ∧ node.Dangling e.2 := by
  have hread : (ofJson wrecks).toOption.map (fun p =>
      ["Pier", "Mast", "Gangway"].map (fun name =>
        (p.analyse.failures.get? name).bind Fault.cause?)) =
      some [some (.noLabel "Pier" "Sea"), some (.noBlock "Mast" 1),
        some (.emptyJump "Gangway" 1)] := by decide +kernel
  obtain ⟨p, hp, hcauses⟩ := exists_ok_of_map hread
  have hfault : ∀ name cause, (p.analyse.failures.get? name).bind Fault.cause? = some cause →
      p.analyse.failures.get? name = some (.broken cause) := by
    intro name cause hc
    obtain ⟨f, hf, hc⟩ := Option.bind_eq_some_iff.mp hc
    rw [hf, Fault.eq_of_cause? hc]
  obtain ⟨hstop, hblame⟩ := analyse_blames_nodes hp
  refine ⟨p, hp, hstop, ?_⟩
  simp only [List.map_cons, List.map_nil, List.cons.injEq, and_true] at hcauses
  obtain ⟨hpier, hmast, hgangway⟩ := hcauses
  simp only [List.forall_mem_cons, List.not_mem_nil, false_implies, implies_true, and_true]
  exact ⟨⟨hfault _ _ hpier, hblame _ _ (hfault _ _ hpier)⟩,
    ⟨hfault _ _ hmast, hblame _ _ (hfault _ _ hmast)⟩,
    ⟨hfault _ _ hgangway, hblame _ _ (hfault _ _ hgangway)⟩⟩

end Program

end DialogueFlow
