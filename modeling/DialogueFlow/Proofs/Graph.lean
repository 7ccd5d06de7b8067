import DialogueFlow.Flow.Link
import Mathlib.Data.List.Induction

namespace DialogueFlow.Graph

variable {n : Nat}

/-- No two places hold blocks with the same key. -/
def Distinct (g : Graph n) : Prop := ∀ i j, (g.block i).key = (g.block j).key → i = j

theorem same_iff {g : Graph n} (h : g.Distinct) (i j : Fin n) : g.same i j = true ↔ i = j := by
  rw [same, beq_iff_eq]
  exact ⟨h i j, fun e => e ▸ rfl⟩

theorem sameTarget_iff {g : Graph n} (h : g.Distinct) (s t : Target n) :
    g.sameTarget s t = true ↔ s = t := by
  cases s with
  | block i =>
    cases t with
    | block j => rw [sameTarget, same_iff h, Target.block.injEq]
    | node b => simp [sameTarget]
  | node a =>
    cases t with
    | block j => simp [sameTarget]
    | node b => simp [sameTarget]

theorem sameEdge_iff {g : Graph n} (h : g.Distinct) (e f : Edge n) :
    g.sameEdge e f = true ↔ e = f := by
  obtain ⟨c, s⟩ := e
  obtain ⟨d, t⟩ := f
  rw [sameEdge, Bool.and_eq_true, sameTarget_iff h, beq_iff_eq, Edge.mk.injEq]

theorem blocks_addOut (g : Graph n) (i : Fin n) (e : Edge n) :
    (g.addOut i e).blocks = g.blocks := by
  rw [addOut]
  split <;> rfl

theorem blocks_addAncestor (g : Graph n) (i j : Fin n) :
    (g.addAncestor i j).blocks = g.blocks := by
  rw [addAncestor]
  split <;> rfl

theorem blocks_add (g : Graph n) (i : Fin n) (e : Edge n) : (g.add i e).blocks = g.blocks := by
  rw [add]
  split
  · rw [blocks_addAncestor, blocks_addOut]
  · rw [blocks_addOut]

theorem blocks_addAll (g : Graph n) (i : Fin n) (es : List (Edge n)) :
    (g.addAll i es).blocks = g.blocks := by
  induction es generalizing g with
  | nil => rfl
  | cons e es ih => exact (ih (g.add i e)).trans (g.blocks_add i e)

theorem block_eq {g g' : Graph n} (h : g'.blocks = g.blocks) (i : Fin n) :
    g'.block i = g.block i := by
  rw [block, block, h]

theorem same_congr {g g' : Graph n} (h : g'.blocks = g.blocks) : g'.same = g.same := by
  funext i j
  rw [same, same, block_eq h, block_eq h]

theorem Distinct.of_blocks {g g' : Graph n} (hd : g.Distinct) (h : g'.blocks = g.blocks) :
    g'.Distinct := by
  intro i j hk
  rw [block_eq h, block_eq h] at hk
  exact hd i j hk

theorem edges_addAncestor (g : Graph n) (i j k : Fin n) :
    (g.addAncestor i j).edges k = g.edges k := by
  rw [addAncestor]
  split <;> rfl

theorem edges_add (g : Graph n) (i k : Fin n) (e : Edge n) :
    (g.add i e).edges k = (g.addOut i e).edges k := by
  rw [add]
  split
  · rw [edges_addAncestor]
  · rfl

theorem edges_add_of_ne (g : Graph n) {i k : Fin n} (e : Edge n) (h : k ≠ i) :
    (g.add i e).edges k = g.edges k := by
  rw [edges_add, addOut]
  split
  · rfl
  · have hv : (i : Nat) ≠ k := fun hik => h (Fin.ext hik.symm)
    simp [edges, Vector.getElem_set_ne, hv]

theorem edges_add_self {g : Graph n} (hd : g.Distinct) (i : Fin n) (e : Edge n) :
    (g.add i e).edges i = if e ∈ g.edges i then g.edges i else g.edges i ++ [e] := by
  have ha : (g.edges i).any (g.sameEdge e) = true ↔ e ∈ g.edges i := by
    simp [List.any_eq_true, sameEdge_iff hd]
  rw [edges_add, addOut]
  by_cases h : e ∈ g.edges i
  · rw [if_pos (ha.mpr h), if_pos h]
  · rw [if_neg (fun h' => h (ha.mp h')), if_neg h]
    simp [edges]

theorem edges_addAll_of_ne (g : Graph n) {i k : Fin n} (es : List (Edge n)) (h : k ≠ i) :
    (g.addAll i es).edges k = g.edges k := by
  induction es generalizing g with
  | nil => rfl
  | cons e es ih => exact (ih (g.add i e)).trans (g.edges_add_of_ne e h)

/-- A place without edges gets each of the added ones once, in the order in which they first come.
-/
theorem edges_addAll_self {g : Graph n} (hd : g.Distinct) {i : Fin n} (h : g.edges i = [])
    (es : List (Edge n)) : (g.addAll i es).edges i = es.eraseDups := by
  induction es using List.reverseRecOn with
  | nil => exact h
  | append_singleton es e ih =>
    have hf : g.addAll i (es ++ [e]) = (g.addAll i es).add i e := by
      rw [addAll, List.foldl_append]
      rfl
    rw [hf, edges_add_self (hd.of_blocks (g.blocks_addAll i es)), ih, List.eraseDups_append]
    by_cases he : e ∈ es
    · rw [if_pos (List.mem_eraseDups.mpr he)]
      simp [List.removeAll, he]
    · rw [if_neg (fun h' => he (List.mem_eraseDups.mp h'))]
      simp [List.removeAll, he, List.eraseDups_cons]

end DialogueFlow.Graph
