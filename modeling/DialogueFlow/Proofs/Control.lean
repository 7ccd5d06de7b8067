import DialogueFlow.Proofs.Descendants
import DialogueFlow.Proofs.Link

namespace DialogueFlow

open Relation

namespace Node

/-- Control may go to `k` after the instruction `i` at `p`. -/
def GoesTo (node : Node) (p : Nat) (i : Instruction) (k : Int) : Prop :=
  match i.opcode with
  | .jumpTo => node.Targets i 0 k
  | .jumpIfFalse => node.Targets i 0 k ∨ k = p + 1
  | .jump =>
    if addedOptions (node.since p) = [] then k = p + 1
    else ∃ a ∈ addedOptions (node.since p), node.Targets a 1 k
  | .runNode => (∀ t, lastPush? (node.since p) = some t → t.opcode ≠ .pushString) ∧ k = p + 1
  | .stop => False
  | _ => k = p + 1

def Successor (node : Node) (j k : Int) : Prop :=
  ∃ (p : Nat) (i : Instruction), j = p ∧ node.instructions[p]? = some i ∧ node.GoesTo p i k

theorem successor_iff {node : Node} {p : Nat} {i : Instruction}
    (hi : node.instructions[p]? = some i) (k : Int) :
    node.Successor p k ↔ node.GoesTo p i k := by
  apply Iff.intro
  · rintro ⟨q, i', hq, hi', hg⟩
    obtain rfl : p = q := Int.ofNat.inj hq
    obtain rfl : i = i' := Option.some.inj (hi.symm.trans hi')
    exact hg
  · exact fun hg => ⟨p, i, rfl, hi, hg⟩

theorem goesTo_of_goesOn {node : Node} {i : Instruction} (h : i.opcode.endsBlock = false) (p : Nat)
    (k : Int) : node.GoesTo p i k ↔ k = p + 1 := by
  rw [GoesTo]
  cases ho : i.opcode <;> simp_all [Opcode.endsBlock]

theorem Targets.unique {node : Node} {i : Instruction} {p : Nat} {k k' : Int}
    (h : node.Targets i p k) (h' : node.Targets i p k') : k = k' := by
  obtain ⟨label, ho, hk⟩ := h
  obtain ⟨label', ho', hk'⟩ := h'
  rw [ho] at ho'
  cases ho'
  exact Option.some.inj (hk.symm.trans hk')

end Node

theorem Graph.Names.targets_iff {n : Nat} {g : Graph n} {node : Node} {i : Instruction} {p : Nat}
    {j : Fin n} (h : g.Names node i p j) (k : Int) :
    node.Targets i p k ↔ (g.block j).first = k := by
  obtain ⟨k', ht, hj⟩ := h
  apply Iff.intro
  · intro hk
    rw [hj.1, ht.unique hk]
  · intro hk
    obtain rfl : k' = k := hj.1.symm.trans hk
    exact ht

theorem exists_mem_iff_of_forall₂ {α β : Type} {R : α → β → Prop} {P : α → Prop} {Q : β → Prop}
    (hPQ : ∀ a b, R a b → (P a ↔ Q b)) {as : List α} {bs : List β} (h : List.Forall₂ R as bs) :
    (∃ a ∈ as, P a) ↔ ∃ b ∈ bs, Q b := by
  induction h with
  | nil => simp
  | cons hab _ ih => simp [hPQ _ _ hab, ih]

namespace Graph

variable {n : Nat} {g : Graph n} {i : Fin n}

theorem RunsInto.joins_iff {b : Block} (h : g.RunsInto b (g.edges i)) (k : Int) :
    k = b.endIndex ↔ ∃ j, g.Joins i j ∧ (g.block j).first = k := by
  obtain ⟨j, hj, he⟩ := h
  simp [Joins, next, he, Target.block?, hj.1, eq_comm]

theorem joins_iff_of_options {js : List (Fin n)}
    (he : g.edges i = js.eraseDups.map (fun j => ⟨.option, .block j⟩)) (j : Fin n) :
    g.Joins i j ↔ j ∈ js := by
  rw [Joins, next, he, List.filterMap_map, ← List.mem_eraseDups]
  simp [Function.comp_def, Target.block?]

theorem Exits.goesTo_iff {node : Node} {last : Instruction} {p : Nat}
    (h : g.Exits node (g.block i) last (g.edges i))
    (hins : (g.block i).instructions = node.since p ++ [last])
    (hend : (g.block i).endIndex = p + 1) (k : Int) :
    node.GoesTo p last k ↔ ∃ j, g.Joins i j ∧ (g.block j).first = k := by
  cases hb : last.opcode.endsBlock with
  | false =>
    rw [Node.goesTo_of_goesOn hb, ← hend]
    exact ((exits_iff_runsInto hb).mp h).joins_iff k
  | true =>
    rw [Exits] at h
    rw [Node.GoesTo]
    cases ho : last.opcode with
    | jumpTo =>
      simp only [ho] at h ⊢
      obtain ⟨j, hj, he⟩ := h
      rw [hj.targets_iff]
      simp [Joins, next, he, Target.block?]
    | jumpIfFalse =>
      simp only [ho] at h ⊢
      obtain ⟨j, j', hj, hj', he⟩ := h
      rw [hj.targets_iff, ← hend, ← hj'.1]
      simp [Joins, next, he, Target.block?, eq_comm]
    | jump =>
      have ha : addedOptions (g.block i).instructions = addedOptions (node.since p) := by
        rw [hins, addedOptions_concat, if_neg (by simp [ho]), List.append_nil]
      simp only [ho, ha] at h ⊢
      split at h
      · next hnil =>
        rw [if_pos hnil, ← hend]
        exact h.joins_iff k
      · next hnil =>
        obtain ⟨js, hjs, he⟩ := h
        rw [if_neg hnil]
        simp only [joins_iff_of_options he]
        exact exists_mem_iff_of_forall₂ (fun a j hj => hj.targets_iff k) hjs
    | runNode =>
      have ht : lastPush? (g.block i).instructions = lastPush? (node.since p) := by
        rw [hins, lastPush?_concat, if_neg (by simp [ho, Opcode.pushes])]
      simp only [ho, ht] at h ⊢
      obtain ⟨t, s, hlast, hpush, -, -, he⟩ | ⟨hnone, hr⟩ := h
      · refine iff_of_false (fun hk => hk.1 t hlast hpush) ?_
        simp [Joins, next, he, Target.block?]
      · rw [← hend, ← hr.joins_iff]
        exact ⟨fun hk => hk.2, fun hk => ⟨hnone, hk⟩⟩
    | stop =>
      simp only [ho] at h ⊢
      simp [Joins, next, h]
    | _ => simp [ho, Opcode.endsBlock] at hb

end Graph

namespace Node

theorem Segment.successor_iff {node : Node} {s e : Nat} (hseg : node.Segment s e) {p : Nat}
    (hs : s ≤ p) (he : p + 1 < e) (k : Int) : node.Successor p k ↔ k = p + 1 := by
  have hle := hseg.le
  have hi : node.instructions[p]? = some node.instructions[p] := List.getElem?_eq_getElem _
  rw [Node.successor_iff hi, goesTo_of_goesOn (hseg.goesOn hs he hi)]

theorem Segment.reaches {node : Node} {s e : Nat} (hseg : node.Segment s e) {p : Nat}
    (hs : s ≤ p) (he : p < e) : ReflTransGen node.Successor s p := by
  induction p, hs using Nat.le_induction with
  | base => exact .refl
  | succ p hp ih => exact .tail (ih (by omega)) ((hseg.successor_iff hp he _).mpr (by simp))

namespace Linked

variable {node : Node} {f : Flow}

theorem segment (h : node.Linked f) (i : Fin f.size) :
    ∃ s e, node.Segment s e ∧ f.graph.block i = node.slice s e := by
  apply exists_segment
  rw [← h.blocks, Flow.blocks, Graph.block]
  simp

theorem successor_last_iff (h : node.Linked f) {i : Fin f.size} {s e : Nat}
    (hseg : node.Segment s e) (hb : f.graph.block i = node.slice s e) (k : Int) :
    node.Successor (e - 1 : Nat) k ↔ ∃ j, f.graph.Joins i j ∧ (f.graph.block j).first = k := by
  obtain ⟨last, hl, hx⟩ := h.exits i
  have hlt := hseg.lt
  have hi : node.instructions[e - 1]? = some last := by
    rw [← hseg.last_slice, ← hb, hl]
  have hins : (f.graph.block i).instructions = node.since (e - 1) ++ [last] := by
    rw [hb, hseg.instructions_slice hi, hseg.since_eq (by omega) (by omega)]
  have hend : (f.graph.block i).endIndex = ((e - 1 : Nat) : Int) + 1 := by
    rw [hb, hseg.endIndex_slice]
    omega
  rw [Node.successor_iff hi, hx.goesTo_iff hins hend]

/-- An edge between blocks stands for a run through the first of them and a step to the second. -/
theorem reaches_of_joins (h : node.Linked f) {i j : Fin f.size} (hl : f.graph.Joins i j) :
    TransGen node.Successor (f.graph.block i).first (f.graph.block j).first := by
  obtain ⟨s, e, hseg, hb⟩ := h.segment i
  have hlt := hseg.lt
  have hstep := (h.successor_last_iff hseg hb _).mpr ⟨j, hl, rfl⟩
  rw [hb]
  exact TransGen.tail' (hseg.reaches (by omega) (by omega)) hstep

theorem inside_of_reaches (h : node.Linked f) {i : Fin f.size} {k : Int}
    (hr : ReflTransGen node.Successor (f.graph.block i).first k) :
    ∃ (j : Fin f.size) (s e p : Nat), ReflTransGen f.graph.Joins i j ∧ node.Segment s e ∧
      f.graph.block j = node.slice s e ∧ k = p ∧ s ≤ p ∧ p < e := by
  induction hr with
  | refl =>
    obtain ⟨s, e, hseg, hb⟩ := h.segment i
    exact ⟨i, s, e, s, .refl, hseg, hb, by rw [hb]; rfl, Nat.le_refl s, hseg.lt⟩
  | tail _ hstep ih =>
    obtain ⟨j, s, e, p, hij, hseg, hb, rfl, hs, he⟩ := ih
    by_cases hp : p + 1 < e
    · obtain rfl := (hseg.successor_iff hs hp _).mp hstep
      exact ⟨j, s, e, p + 1, hij, hseg, hb, by simp, by omega, hp⟩
    · -- The step leaves the block, so that it follows one of its edges.
      obtain rfl : p = e - 1 := by omega
      obtain ⟨j', hj', rfl⟩ := (h.successor_last_iff hseg hb _).mp hstep
      obtain ⟨s', e', hseg', hb'⟩ := h.segment j'
      exact ⟨j', s', e', s', .tail hij hj', hseg', hb', by rw [hb']; rfl, Nat.le_refl _, hseg'.lt⟩

theorem reaches_iff (h : node.Linked f) {i j : Fin f.size} (hne : i ≠ j) :
    TransGen f.graph.Joins i j ↔
      TransGen node.Successor (f.graph.block i).first (f.graph.block j).first := by
  apply Iff.intro
  · intro hl
    exact hl.lift' (fun i => (f.graph.block i).first) (fun _ _ => h.reaches_of_joins)
  · intro hr
    obtain ⟨j', s', e', p, hij, hseg', hb', hp, hs, he⟩ := h.inside_of_reaches hr.to_reflTransGen
    obtain ⟨s, e, hseg, hb⟩ := h.segment j
    -- Control is at the start of the block at `j`, and segments do not overlap.
    obtain rfl : s = p := by
      rw [hb] at hp
      exact Int.ofNat.inj hp
    obtain ⟨rfl, rfl⟩ := hseg.eq_of_mem hseg' (Nat.le_refl _) hseg.lt hs he
    obtain rfl : j' = j := h.apart j' j (by rw [hb, hb'])
    exact (reflTransGen_iff_eq_or_transGen.mp hij).resolve_left (Ne.symm hne)

end Linked

/-- Blocks reach each other by edges just if control gets from one to the other. -/
theorem mem_descendants_iff_reaches {node : Node} {f : Flow} (h : node.flow = .ok f)
    {i j : Fin f.size} (hne : i ≠ j) :
    j ∈ f.graph.descendants i ↔
      TransGen node.Successor (f.graph.block i).first (f.graph.block j).first := by
  have hf := linked_of_flow h
  rw [Graph.mem_descendants_iff hf.apart.distinct, hf.reaches_iff hne]
  exact ⟨fun hj => hj.2, fun hj => ⟨Ne.symm hne, hj⟩⟩

theorem mem_descendants_iff_reaches_crossroads :
    ∃ f, crossroads.flow = .ok f ∧ f.size = 4 ∧
      (∃ i j : Fin f.size, i ≠ j ∧ j ∈ f.graph.descendants i ∧
        TransGen crossroads.Successor (f.graph.block i).first (f.graph.block j).first) ∧
      ∃ i j : Fin f.size, i ≠ j ∧ j ∉ f.graph.descendants i ∧
        ¬ TransGen crossroads.Successor (f.graph.block i).first (f.graph.block j).first := by
  have hparts : crossroads.flow.toOption.map (fun f =>
      (f.size, List.ofFn (fun i => (f.graph.next i).map Fin.val))) =
      some (4, [[1, 2], [], [1, 3], []]) := by
    decide +kernel
  obtain ⟨⟨n, g⟩, hf, hparts⟩ := exists_ok_of_map hparts
  obtain ⟨rfl, hnext⟩ := Prod.mk.inj hparts
  simp only [List.ofFn_succ, List.ofFn_zero, List.cons.injEq] at hnext
  obtain ⟨hstart, hinn, -⟩ := hnext
  have hdescendants := Graph.mem_descendants_iff (linked_of_flow hf).apart.distinct
  have hbridge : (0 : Fin 4) ≠ 2 := by decide
  have hend : (1 : Fin 4) ≠ 3 := by decide
  have hmem : (2 : Fin 4) ∈ g.descendants 0 := by
    have hjoins : g.Joins 0 2 := by
      apply (List.mem_map_of_injective (fun _ _ => Fin.eq_of_val_eq)).mp
      rw [hstart]
      simp
    exact (hdescendants 0 2).mpr ⟨Ne.symm hbridge, .single hjoins⟩
  have hnot : (3 : Fin 4) ∉ g.descendants 1 := by
    intro h
    obtain ⟨i, hi, -⟩ := TransGen.head'_iff.mp ((hdescendants 1 3).mp h).2
    have hnil : g.next 1 = [] := List.map_eq_nil_iff.mp hinn
    rw [Graph.Joins, hnil] at hi
    cases hi
  exact ⟨_, hf, rfl, ⟨0, 2, hbridge, hmem, (mem_descendants_iff_reaches hf hbridge).mp hmem⟩,
    1, 3, hend, hnot, (mem_descendants_iff_reaches hf hend).not.mp hnot⟩

end Node

end DialogueFlow
