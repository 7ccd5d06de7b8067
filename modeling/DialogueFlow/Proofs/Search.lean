import DialogueFlow.Proofs.Descendants
import DialogueFlow.Proofs.Pairing

namespace DialogueFlow

variable {n : Nat}

def Edge.staysInside (e : Edge n) : Bool := e.target.block?.isSome

namespace Graph

open Relation

variable {g : Graph n}

/-- Where a search stands: the places it has seen and found, and those that wait. -/
structure Search (n : Nat) where
  seen : List (Fin n)
  found : List (Fin n)
  queue : List (Fin n)

inductive Runs (g : Graph n) : Search n → Search n → Nat → Prop
  | stop (seen found : List (Fin n)) : Runs g ⟨seen, found, []⟩ ⟨seen, found, []⟩ 0
  | skip {seen found queue : List (Fin n)} {i : Fin n} {t : Search n} {turns : Nat} :
    seen.any (g.same i) = true → Runs g ⟨seen, found, queue⟩ t turns →
    Runs g ⟨seen, found, i :: queue⟩ t (turns + 1)
  | find {seen found queue : List (Fin n)} {i : Fin n} {t : Search n} {turns : Nat} :
    ¬ seen.any (g.same i) = true →
    Runs g ⟨i :: seen, found ++ [i], queue ++ g.next i⟩ t turns →
    Runs g ⟨seen, found, i :: queue⟩ t (turns + 1)

/-- The loop stops in one state only, and what it has added there is what the walk gives. Each edge
that leaves a place it finds costs one turn. -/
theorem runs_iff (seen found queue : List (Fin n)) (t : Search n) (turns : Nat) :
    g.Runs ⟨seen, found, queue⟩ t turns ↔
      t = ⟨(g.walk seen queue).reverse ++ seen, found ++ g.walk seen queue, []⟩ ∧
        turns = (queue ++ (g.walk seen queue).flatMap g.next).length := by
  fun_induction walk g seen queue generalizing found turns with
  | case1 seen =>
    apply Iff.intro
    · intro h
      cases h
      simp
    · rintro ⟨rfl, rfl⟩
      simpa using Runs.stop seen found
  | case2 seen i queue hs ih =>
    apply Iff.intro
    · intro h
      cases h with
      | skip _ h =>
        obtain ⟨rfl, rfl⟩ := (ih found _).mp h
        simp
      | find hn _ => exact absurd hs hn
    · rintro ⟨rfl, rfl⟩
      exact .skip hs ((ih found _).mpr ⟨rfl, rfl⟩)
  | case3 seen i queue hs ih =>
    apply Iff.intro
    · intro h
      cases h with
      | skip hn _ => exact absurd hn hs
      | find _ h =>
        obtain ⟨rfl, rfl⟩ := (ih (found ++ [i]) _).mp h
        simp
    · rintro ⟨rfl, rfl⟩
      refine .find hs ((ih (found ++ [i]) _).mpr ⟨?_, ?_⟩)
      · simp
      · simp

theorem nodup_walk (hd : g.Distinct) (seen queue : List (Fin n)) : (g.walk seen queue).Nodup := by
  fun_induction walk g seen queue with
  | case1 => exact List.nodup_nil
  | case2 seen i queue _ ih => exact ih
  | case3 seen i queue _ ih =>
    refine List.nodup_cons.mpr ⟨fun hi => ?_, ih⟩
    exact notMem_of_mem_walk hd _ _ i hi List.mem_cons_self

theorem nodup_map_key (hd : g.Distinct) {places : List (Fin n)} (h : places.Nodup) :
    (places.map (fun j => (g.block j).key)).Nodup :=
  h.map (fun i j hk => hd i j hk)

theorem next_eq_filter (g : Graph n) (i : Fin n) :
    g.next i = ((g.edges i).filter Edge.staysInside).filterMap (fun e => e.target.block?) := by
  rw [next, List.filterMap_filter]
  congr 1
  funext e
  cases h : e.target.block? <;> simp [Edge.staysInside, h]

theorem walk_congr {g' : Graph n} (hb : g'.blocks = g.blocks) (hn : ∀ k, g'.next k = g.next k)
    (seen queue : List (Fin n)) : g'.walk seen queue = g.walk seen queue := by
  fun_induction walk g seen queue with
  | case1 seen => rw [walk]
  | case2 seen i queue hs ih => rw [walk, same_congr hb, if_pos hs, ih]
  | case3 seen i queue hs ih => rw [walk, same_congr hb, if_neg hs, hn, ih]

/-- The search for the descendants of a block ends, and each turn of it uses up an edge that leaves
the block or a descendant. It finds the other blocks that edges between blocks lead to, no two of
them with the same key. Edges to nodes change nothing. -/
theorem search_finds_reachable (hd : g.Distinct) (i : Fin n) :
    (∀ t turns, g.Runs ⟨[i], [], g.next i⟩ t turns ↔
      t = ⟨(g.descendants i).reverse ++ [i], g.descendants i, []⟩ ∧
        turns = (g.next i ++ (g.descendants i).flatMap g.next).length) ∧
    ((g.descendants i).map (fun j => (g.block j).key)).Nodup ∧
    (∀ j, j ∈ g.descendants i ↔
      j ≠ i ∧ TransGen (fun a b => ∃ e ∈ g.edges a, e.target = .block b) i j) ∧
    ∀ g' : Graph n, g'.blocks = g.blocks →
      (∀ k, (g'.edges k).filter Edge.staysInside = (g.edges k).filter Edge.staysInside) →
      g'.descendants i = g.descendants i := by
  have hjoins : g.Joins = fun a b => ∃ e ∈ g.edges a, e.target = .block b := by
    funext a b
    exact propext mem_next_iff
  refine ⟨runs_iff [i] [] (g.next i), nodup_map_key hd (nodup_walk hd _ _), fun j => ?_,
    fun g' hb he => ?_⟩
  · rw [mem_descendants_iff hd, hjoins]
  · have hn : ∀ k, g'.next k = g.next k := by
      intro k
      rw [next_eq_filter, next_eq_filter, he]
    rw [descendants, descendants, hn, walk_congr hb hn]

def maze : Graph 4 where
  blocks := #v[⟨"Maze", 0, none, []⟩, ⟨"Maze", 1, some "Well", []⟩, ⟨"Maze", 2, none, []⟩,
    ⟨"Garden", 0, none, []⟩]
  out := #v[
    [⟨.option, .block 1⟩, ⟨.option, .block 0⟩, ⟨.directJump, .node "Garden"⟩],
    [⟨.expressionIsFalse, .block 2⟩, ⟨.expressionIsTrue, .block 2⟩],
    [⟨.option, .block 1⟩, ⟨.option, .block 0⟩],
    [⟨.fallthrough, .block 0⟩]]
  ancestors := #v[[0, 2, 3], [0, 2], [1], []]

theorem search_finds_reachable_maze :
    maze.Distinct ∧ maze.descendants 0 = [1, 2] ∧
      maze.Runs ⟨[0], [], [1, 0]⟩ ⟨[2, 1, 0], [1, 2], []⟩ 6 ∧
      ¬ TransGen (fun a b => ∃ e ∈ maze.edges a, e.target = .block b) 0 3 := by
  have hd : maze.Distinct := by
    rw [Distinct]
    decide
  have hrun : maze.Runs ⟨[0], [], [1, 0]⟩ ⟨[2, 1, 0], [1, 2], []⟩ 6 :=
    .find (by decide) (.skip (by decide) (.find (by decide) (.skip (by decide)
      (.skip (by decide) (.skip (by decide) (.stop _ _))))))
  obtain ⟨hruns, -, hreach, -⟩ := search_finds_reachable hd 0
  have hfound : [1, 2] = maze.descendants 0 := (Search.mk.inj ((hruns _ _).mp hrun).1).2.1
  refine ⟨hd, hfound.symm, hrun, fun h => ?_⟩
  have hmem := (hreach 3).mpr ⟨by decide, h⟩
  rw [← hfound] at hmem
  exact absurd hmem (by decide)

end Graph

end DialogueFlow
