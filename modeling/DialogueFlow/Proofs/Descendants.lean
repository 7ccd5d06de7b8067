import DialogueFlow.Proofs.Graph
import Mathlib.Logic.Relation

namespace DialogueFlow.Graph

open Relation

variable {n : Nat} {g : Graph n}

def Joins (g : Graph n) (i j : Fin n) : Prop := j ∈ g.next i

theorem any_same_iff (hd : g.Distinct) (seen : List (Fin n)) (i : Fin n) :
    seen.any (g.same i) = true ↔ i ∈ seen := by
  simp [List.any_eq_true, same_iff hd]

theorem walk_sound (g : Graph n) (seen queue : List (Fin n)) :
    ∀ j ∈ g.walk seen queue, ∃ i ∈ queue, ReflTransGen g.Joins i j := by
  fun_induction walk g seen queue with
  | case1 => simp
  | case2 seen i queue _ ih =>
    intro j hj
    obtain ⟨k, hk, hr⟩ := ih j hj
    exact ⟨k, by simp [hk], hr⟩
  | case3 seen i queue _ ih =>
    intro j hj
    obtain rfl | hj := List.mem_cons.mp hj
    · exact ⟨j, by simp, .refl⟩
    · obtain ⟨k, hk, hr⟩ := ih j hj
      obtain hk | hk := List.mem_append.mp hk
      · exact ⟨k, by simp [hk], hr⟩
      · exact ⟨i, by simp, .head hk hr⟩

theorem notMem_of_mem_walk (hd : g.Distinct) (seen queue : List (Fin n)) :
    ∀ j ∈ g.walk seen queue, j ∉ seen := by
  fun_induction walk g seen queue with
  | case1 => simp
  | case2 seen i queue _ ih => exact ih
  | case3 seen i queue hs ih =>
    rw [any_same_iff hd] at hs
    intro j hj
    obtain rfl | hj := List.mem_cons.mp hj
    · exact hs
    · exact fun h => ih j hj (List.mem_cons_of_mem _ h)

theorem walk_closed (hd : g.Distinct) (seen queue : List (Fin n))
    (h : ∀ i ∈ seen, ∀ j ∈ g.next i, j ∈ seen ∨ j ∈ queue) :
    (∀ i ∈ queue, i ∈ seen ∨ i ∈ g.walk seen queue) ∧
      ∀ i, i ∈ seen ∨ i ∈ g.walk seen queue →
        ∀ j ∈ g.next i, j ∈ seen ∨ j ∈ g.walk seen queue := by
  -- The invariant `h`: an edge from what has been seen leads to something seen or waiting.
  fun_induction walk g seen queue with
  | case1 seen => simpa using h
  | case2 seen i queue hs ih =>
    rw [any_same_iff hd] at hs
    obtain ⟨hq, hc⟩ := ih (fun k hk j hj => by
      obtain hj | hj := h k hk j hj
      · exact .inl hj
      · obtain rfl | hj := List.mem_cons.mp hj
        · exact .inl hs
        · exact .inr hj)
    refine ⟨fun k hk => ?_, hc⟩
    obtain rfl | hk := List.mem_cons.mp hk
    · exact .inl hs
    · exact hq k hk
  | case3 seen i queue hs ih =>
    obtain ⟨hq, hc⟩ := ih (fun k hk j hj => by
      obtain rfl | hk := List.mem_cons.mp hk
      · exact .inr (List.mem_append_right _ hj)
      · obtain hj | hj := h k hk j hj
        · exact .inl (List.mem_cons_of_mem _ hj)
        · obtain rfl | hj := List.mem_cons.mp hj
          · exact .inl (by simp)
          · exact .inr (List.mem_append_left _ hj))
    have hm : ∀ k, k ∈ seen ∨ k ∈ i :: g.walk (i :: seen) (queue ++ g.next i) ↔
        k ∈ i :: seen ∨ k ∈ g.walk (i :: seen) (queue ++ g.next i) := by
      intro k
      rw [List.mem_cons, List.mem_cons, or_left_comm, or_assoc]
    refine ⟨fun k hk => (hm k).mpr ?_, fun k hk j hj => (hm j).mpr (hc k ((hm k).mp hk) j hj)⟩
    obtain rfl | hk := List.mem_cons.mp hk
    · exact .inl (by simp)
    · exact hq k (List.mem_append_left _ hk)

/-- The descendants of a block are the other blocks that edges lead to. -/
theorem mem_descendants_iff (hd : g.Distinct) (i j : Fin n) :
    j ∈ g.descendants i ↔ j ≠ i ∧ TransGen g.Joins i j := by
  rw [descendants]
  apply Iff.intro
  · intro hj
    obtain ⟨k, hk, hr⟩ := g.walk_sound _ _ j hj
    exact ⟨by simpa using notMem_of_mem_walk hd _ _ j hj, TransGen.head' hk hr⟩
  · rintro ⟨hne, hr⟩
    obtain ⟨hq, hc⟩ := walk_closed hd [i] (g.next i) (fun k hk j hj => by
      obtain rfl := List.mem_singleton.mp hk
      exact .inr hj)
    have hmem : ∀ k, TransGen g.Joins i k → k ∈ [i] ∨ k ∈ g.walk [i] (g.next i) := by
      intro k hk
      induction hk with
      | single h => exact hq _ h
      | tail _ h ih => exact hc _ ih _ h
    exact (hmem j hr).resolve_left (by simpa using hne)

end DialogueFlow.Graph
