import DialogueFlow.Proofs.Search
import Mathlib.Order.Bounds.Defs
import Mathlib.Order.Nat

namespace DialogueFlow.Graph

open Relation

variable {n : Nat} {g : Graph n} {i j : Fin n} {d : Nat}

inductive Path (g : Graph n) (i : Fin n) : Fin n → Nat → Prop
  | start : Path g i i 0
  | step {j k : Fin n} {d : Nat} {e : Edge n} :
    Path g i j d → e ∈ g.edges j → e.target = .block k → Path g i k (d + 1)

def Distance (g : Graph n) (i j : Fin n) (d : Nat) : Prop := IsLeast {m | g.Path i j m} d

theorem Path.snoc {k : Fin n} (h : g.Path i j d) (hk : k ∈ g.next j) : g.Path i k (d + 1) := by
  obtain ⟨e, he, ht⟩ := mem_next_iff.mp hk
  exact .step h he ht

theorem path_zero_iff : g.Path i j 0 ↔ j = i := by
  apply Iff.intro
  · intro h
    cases h
    rfl
  · intro h
    exact h ▸ .start

theorem path_succ_iff : g.Path i j (d + 1) ↔ ∃ k, g.Path i k d ∧ j ∈ g.next k := by
  apply Iff.intro
  · intro h
    cases h with
    | step hp he ht => exact ⟨_, hp, mem_next_iff.mpr ⟨_, he, ht⟩⟩
  · intro h
    obtain ⟨k, hp, hj⟩ := h
    exact hp.snoc hj

theorem exists_path_iff : (∃ d, g.Path i j d) ↔ ReflTransGen g.Joins i j := by
  apply Iff.intro
  · intro h
    obtain ⟨d, hp⟩ := h
    induction hp with
    | start => exact .refl
    | step _ he ht ih => exact ih.tail (mem_next_iff.mpr ⟨_, he, ht⟩)
  · intro h
    induction h with
    | refl => exact ⟨0, .start⟩
    | tail _ hj ih =>
      obtain ⟨d, hp⟩ := ih
      exact ⟨d + 1, hp.snoc hj⟩

theorem exists_distance_iff : (∃ d, g.Distance i j d) ↔ ∃ d, g.Path i j d := by
  classical
  apply Iff.intro
  · intro h
    obtain ⟨d, hd⟩ := h
    exact ⟨d, hd.1⟩
  · intro h
    exact ⟨Nat.find h, Nat.find_spec h, fun m hm => Nat.find_min' h hm⟩

theorem distance_pos_iff (h : g.Distance i j d) : 0 < d ↔ j ≠ i := by
  apply Iff.intro
  · rintro hd rfl
    have := h.2 Path.start
    omega
  · intro hne
    by_contra h0
    obtain rfl : d = 0 := by omega
    exact hne (path_zero_iff.mp h.1)

/-- Where a search from `i` stands when the places in `front` and then those in `back` wait. The
first are `d` edges away and the others one edge more; whatever is nearer has been seen. A place may
wait although it has been seen. -/
structure Frontier (g : Graph n) (i : Fin n) (d : Nat) (seen front back : List (Fin n)) :
    Prop where
  here : ∀ j ∈ front, g.Path i j d
  after : ∀ j ∈ back, g.Path i j (d + 1)
  nearer : ∀ j, ∀ m < d, g.Path i j m → j ∈ seen
  level : ∀ j, g.Path i j d → j ∈ seen ∨ j ∈ front
  closed : ∀ j ∈ seen, ∀ k ∈ g.next j, k ∈ seen ∨ k ∈ front ∨ k ∈ back

namespace Frontier

variable {seen front back queue : List (Fin n)}

theorem initial (g : Graph n) (i : Fin n) : g.Frontier i 1 [i] (g.next i) [] where
  here j hj := Path.start.snoc hj
  after j hj := by simp at hj
  nearer j m hm hp := by
    obtain rfl : m = 0 := by omega
    simpa using path_zero_iff.mp hp
  level j hp := by
    obtain ⟨k, hk, hj⟩ := path_succ_iff.mp hp
    obtain rfl := path_zero_iff.mp hk
    exact .inr hj
  closed j hj k hk := by
    obtain rfl := List.mem_singleton.mp hj
    exact .inr (.inl hk)

theorem skip (h : g.Frontier i d seen (j :: front) back) (hj : j ∈ seen) :
    g.Frontier i d seen front back where
  here k hk := h.here k (List.mem_cons_of_mem _ hk)
  after := h.after
  nearer := h.nearer
  level k hp := by
    obtain hk | hk := h.level k hp
    · exact .inl hk
    · obtain rfl | hk := List.mem_cons.mp hk
      · exact .inl hj
      · exact .inr hk
  closed l hl k hk := by
    obtain hk | hk | hk := h.closed l hl k hk
    · exact .inl hk
    · obtain rfl | hk := List.mem_cons.mp hk
      · exact .inl hj
      · exact .inr (.inl hk)
    · exact .inr (.inr hk)

theorem find (h : g.Frontier i d seen (j :: front) back) :
    g.Frontier i d (j :: seen) front (back ++ g.next j) where
  here k hk := h.here k (List.mem_cons_of_mem _ hk)
  after k hk := by
    obtain hk | hk := List.mem_append.mp hk
    · exact h.after k hk
    · exact (h.here j List.mem_cons_self).snoc hk
  nearer k m hm hp := List.mem_cons_of_mem _ (h.nearer k m hm hp)
  level k hp := by
    have hk := h.level k hp
    simp only [List.mem_cons] at hk ⊢
    tauto
  closed l hl k hk := by
    obtain rfl | hl := List.mem_cons.mp hl
    · exact .inr (.inr (List.mem_append_right _ hk))
    · have hk := h.closed l hl k hk
      simp only [List.mem_cons, List.mem_append] at hk ⊢
      tauto

/-- Once no place of a level waits, all of the level has been seen and the next one begins. -/
theorem advance (h : g.Frontier i d seen [] back) : g.Frontier i (d + 1) seen back [] := by
  have hseen : ∀ k, g.Path i k d → k ∈ seen := by
    intro k hp
    simpa using h.level k hp
  have hnext : ∀ l ∈ seen, ∀ k ∈ g.next l, k ∈ seen ∨ k ∈ back := by
    intro l hl k hk
    simpa using h.closed l hl k hk
  constructor
  case here => exact h.after
  case after => simp
  case nearer =>
    intro k m hm hp
    by_cases hmd : m = d
    · exact hseen k (hmd ▸ hp)
    · exact h.nearer k m (by omega) hp
  case level =>
    intro k hp
    obtain ⟨l, hl, hk⟩ := path_succ_iff.mp hp
    exact hnext l (hseen l hl) k hk
  case closed =>
    intro l hl k hk
    simpa using hnext l hl k hk

/-- The place that is next in the queue may be taken as one of the first level there. -/
theorem exists_front (h : g.Frontier i d seen front back) (hq : j :: queue = front ++ back) :
    ∃ d' front' back', d ≤ d' ∧ g.Frontier i d' seen (j :: front') back' ∧
      queue = front' ++ back' := by
  cases front with
  | nil =>
    obtain rfl : j :: queue = back := hq
    exact ⟨d + 1, queue, [], by omega, h.advance, by simp⟩
  | cons k front =>
    obtain ⟨rfl, rfl⟩ := List.cons.inj hq
    exact ⟨d, front, back, Nat.le_refl d, h, rfl⟩

theorem distance (h : g.Frontier i d seen (j :: front) back) (hj : j ∉ seen) :
    g.Distance i j d := by
  refine ⟨h.here j List.mem_cons_self, fun m hm => ?_⟩
  by_contra hlt
  exact hj (h.nearer j m (by omega) hm)

end Frontier

def NoFarther (g : Graph n) (i j k : Fin n) : Prop :=
  ∃ d e, g.Distance i j d ∧ g.Distance i k e ∧ d ≤ e

theorem Frontier.sorted_walk (hd : g.Distinct) {seen front back : List (Fin n)}
    (h : g.Frontier i d seen front back) :
    (g.walk seen (front ++ back)).Pairwise (g.NoFarther i) ∧
      ∀ j ∈ g.walk seen (front ++ back), ∃ e, g.Distance i j e ∧ d ≤ e := by
  -- Both parts go through the walk together: what is found later is at least as far away as the
  -- level that the queue has reached.
  generalize hq : front ++ back = queue
  fun_induction Graph.walk g seen queue generalizing d front back with
  | case1 seen => simp
  | case2 seen j queue hs ih =>
    obtain ⟨d', front', back', hle, hf, rfl⟩ := h.exists_front hq.symm
    obtain ⟨hp, hfar⟩ := ih (hf.skip ((any_same_iff hd _ _).mp hs)) rfl
    refine ⟨hp, fun k hk => ?_⟩
    obtain ⟨e, he, hde⟩ := hfar k hk
    exact ⟨e, he, by omega⟩
  | case3 seen j queue hs ih =>
    obtain ⟨d', front', back', hle, hf, rfl⟩ := h.exists_front hq.symm
    have hj : g.Distance i j d' := hf.distance (fun hm => hs ((any_same_iff hd _ _).mpr hm))
    obtain ⟨hp, hfar⟩ := ih hf.find (by simp)
    refine ⟨List.pairwise_cons.mpr ⟨fun k hk => ?_, hp⟩, fun k hk => ?_⟩
    · obtain ⟨e, he, hde⟩ := hfar k hk
      exact ⟨d', e, hj, he, hde⟩
    · obtain rfl | hk := List.mem_cons.mp hk
      · exact ⟨d', hj, hle⟩
      · obtain ⟨e, he, hde⟩ := hfar k hk
        exact ⟨e, he, by omega⟩

/-- The descendants of a block are the blocks at some distance from it, the nearer ones first. -/
theorem descendants_nearest_first (hd : g.Distinct) (i : Fin n) :
    (∀ j, j ∈ g.descendants i ↔ ∃ d, 0 < d ∧ g.Distance i j d) ∧
      (g.descendants i).Pairwise (g.NoFarther i) := by
  refine ⟨fun j => ?_, ?_⟩
  · rw [mem_descendants_iff hd]
    apply Iff.intro
    · rintro ⟨hne, hr⟩
      obtain ⟨d, hdist⟩ := exists_distance_iff.mpr (exists_path_iff.mpr hr.to_reflTransGen)
      exact ⟨d, (distance_pos_iff hdist).mpr hne, hdist⟩
    · rintro ⟨d, hpos, hdist⟩
      have hne := (distance_pos_iff hdist).mp hpos
      have hr := exists_path_iff.mp ⟨d, hdist.1⟩
      exact ⟨hne, (reflTransGen_iff_eq_or_transGen.mp hr).resolve_left hne⟩
  · have hw := ((Frontier.initial g i).sorted_walk hd).1
    rwa [List.append_nil] at hw

def warren : Graph 5 where
  blocks := #v[⟨"Warren", 0, none, []⟩, ⟨"Warren", 4, some "Den", []⟩, ⟨"Warren", 2, none, []⟩,
    ⟨"Warren", 7, none, []⟩, ⟨"Meadow", 0, none, []⟩]
  out := #v[
    [⟨.option, .block 2⟩, ⟨.option, .block 0⟩, ⟨.option, .block 1⟩],
    [⟨.expressionIsFalse, .block 3⟩, ⟨.expressionIsTrue, .block 0⟩],
    [⟨.directJump, .node "Meadow"⟩, ⟨.option, .block 1⟩, ⟨.option, .block 3⟩],
    [⟨.option, .block 2⟩, ⟨.option, .block 4⟩],
    [⟨.fallthrough, .block 0⟩]]
  ancestors := #v[[0, 1, 4], [0, 2], [0, 3], [2, 1], [3]]

theorem descendants_nearest_first_warren :
    warren.Distinct ∧ warren.descendants 0 = [2, 1, 3, 4] ∧
      [2, 1, 3, 4].Pairwise (warren.NoFarther 0) := by
  have hd : warren.Distinct := by
    rw [Distinct]
    decide
  have hnext : warren.next 0 = [2, 0, 1] ∧ warren.next 1 = [3, 0] ∧ warren.next 2 = [1, 3] ∧
      warren.next 3 = [2, 4] ∧ warren.next 4 = [0] := by decide
  have hfound : warren.descendants 0 = [2, 1, 3, 4] := by
    simp +decide [descendants, walk, hnext]
  have hsorted := (descendants_nearest_first hd 0).2
  rw [hfound] at hsorted
  exact ⟨hd, hfound, hsorted⟩

end DialogueFlow.Graph
