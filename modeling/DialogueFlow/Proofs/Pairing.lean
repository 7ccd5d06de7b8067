import DialogueFlow.Proofs.Link
import Mathlib.Logic.Relation

namespace DialogueFlow.Graph

open Relation

variable {n : Nat}

theorem sources_addOut (g : Graph n) (i j : Fin n) (e : Edge n) :
    (g.addOut i e).sources j = g.sources j := by
  rw [addOut]
  split <;> rfl

theorem sources_addAncestor_of_ne (g : Graph n) (i : Fin n) {j k : Fin n} (h : k ≠ j) :
    (g.addAncestor i j).sources k = g.sources k := by
  rw [addAncestor]
  split
  · rfl
  · have hv : (j : Nat) ≠ k := fun hjk => h (Fin.ext hjk.symm)
    simp [sources, Vector.getElem_set_ne, hv]

theorem mem_sources_addAncestor {g : Graph n} (hd : g.Distinct) (i j k : Fin n) :
    k ∈ (g.addAncestor i j).sources j ↔ k ∈ g.sources j ∨ k = i := by
  rw [addAncestor]
  split
  · next h =>
    have hi : i ∈ g.sources j := by simpa [List.any_eq_true, same_iff hd] using h
    exact ⟨.inl, fun hk => hk.elim id (fun e => e ▸ hi)⟩
  · simp [sources]

theorem mem_sources_add {g : Graph n} (hd : g.Distinct) (i j k : Fin n) (e : Edge n) :
    k ∈ (g.add i e).sources j ↔ k ∈ g.sources j ∨ k = i ∧ e.target = .block j := by
  rw [add]
  cases ht : e.target with
  | node name => simp [sources_addOut]
  | block j' =>
    by_cases hj : j = j'
    · subst hj
      rw [mem_sources_addAncestor (hd.of_blocks (g.blocks_addOut i e)), sources_addOut]
      simp
    · rw [sources_addAncestor_of_ne _ i hj, sources_addOut, Target.block.injEq]
      simp [Ne.symm hj]

theorem mem_edges_add {g : Graph n} (hd : g.Distinct) (i k : Fin n) (e f : Edge n) :
    f ∈ (g.add i e).edges k ↔ f ∈ g.edges k ∨ k = i ∧ f = e := by
  by_cases hk : k = i
  · subst hk
    rw [edges_add_self hd]
    split
    · next he => exact ⟨.inl, fun hf => hf.elim id (fun h => h.2 ▸ he)⟩
    · simp
  · rw [edges_add_of_ne g e hk]
    simp [hk]

theorem mem_next_iff {g : Graph n} {i j : Fin n} :
    j ∈ g.next i ↔ ∃ e ∈ g.edges i, e.target = .block j := by
  rw [next, List.mem_filterMap]
  refine exists_congr (fun e => and_congr_right (fun _ => ?_))
  cases e.target <;> simp [Target.block?]

theorem mem_next_add {g : Graph n} (hd : g.Distinct) (i j k : Fin n) (e : Edge n) :
    j ∈ (g.add i e).next k ↔ j ∈ g.next k ∨ k = i ∧ e.target = .block j := by
  simp only [mem_next_iff, mem_edges_add hd]
  apply Iff.intro
  · rintro ⟨f, hf | ⟨hk, rfl⟩, ht⟩
    · exact .inl ⟨f, hf, ht⟩
    · exact .inr ⟨hk, ht⟩
  · rintro (⟨f, hf, ht⟩ | ⟨hk, ht⟩)
    · exact ⟨f, .inl hf, ht⟩
    · exact ⟨e, .inr ⟨hk, rfl⟩, ht⟩

/-- Edges to blocks and ancestors mirror each other, and no edge is there twice. -/
structure Paired (g : Graph n) : Prop where
  mirrored : ∀ i j, j ∈ g.next i ↔ i ∈ g.sources j
  nodup : ∀ i, (g.edges i).Nodup

theorem Paired.add {g : Graph n} (h : g.Paired) (hd : g.Distinct) (i : Fin n) (e : Edge n) :
    (g.add i e).Paired where
  mirrored k j := by rw [mem_next_add hd, mem_sources_add hd, h.mirrored]
  nodup k := by
    by_cases hk : k = i
    · subst hk
      rw [edges_add_self hd]
      split
      · exact h.nodup k
      · next he => exact List.nodup_append_comm.mp (List.nodup_cons.mpr ⟨he, h.nodup k⟩)
    · rw [edges_add_of_ne g e hk]
      exact h.nodup k

theorem prefix_add (g : Graph n) (i k : Fin n) (e : Edge n) :
    g.edges k <+: (g.add i e).edges k := by
  by_cases hk : k = i
  · subst hk
    rw [edges_add, addOut]
    split
    · exact List.prefix_rfl
    · simp [edges]
  · have hedges := edges_add_of_ne g e hk
    exact hedges.symm ▸ List.prefix_rfl

def Grows : Graph n → Graph n → Prop := ReflTransGen (fun g g' => ∃ i e, g' = g.add i e)

theorem grows_addAll (g : Graph n) (i : Fin n) (es : List (Edge n)) : g.Grows (g.addAll i es) := by
  induction es generalizing g with
  | nil => exact .refl
  | cons e es ih => exact .head ⟨i, e, rfl⟩ (ih (g.add i e))

theorem grows_linkBlocks (g : Graph n) (ix : Index n) (is : List (Fin n)) :
    g.Grows (g.linkBlocks ix is).graph := by
  induction is generalizing g with
  | nil => exact .refl
  | cons i is ih =>
    have hi : g.Grows (g.linkBlock ix i).graph := by
      obtain ⟨es, he⟩ := g.exists_graph_linkBlock ix i
      rw [he]
      exact g.grows_addAll i es
    rw [linkBlocks]
    split
    · exact hi
    · exact hi.trans (ih _)

section Grows

variable {g g' : Graph n}

theorem Grows.blocks (h : g.Grows g') : g'.blocks = g.blocks := by
  induction h with
  | refl => rfl
  | tail _ hs ih =>
    obtain ⟨i, e, rfl⟩ := hs
    rw [blocks_add, ih]

theorem Grows.paired (h : g.Grows g') (hd : g.Distinct) (hp : g.Paired) : g'.Paired := by
  induction h with
  | refl => exact hp
  | tail hg hs ih =>
    obtain ⟨i, e, rfl⟩ := hs
    exact ih.add (hd.of_blocks (Grows.blocks hg)) i e

theorem Grows.prefix_edges (h : g.Grows g') (k : Fin n) : g.edges k <+: g'.edges k := by
  induction h with
  | refl => exact List.prefix_rfl
  | tail _ hs ih =>
    obtain ⟨i, e, rfl⟩ := hs
    exact ih.trans (prefix_add _ i k e)

end Grows

/-- What is done to the edges of a pool of blocks. -/
inductive Operation (n : Nat) where
  | addBlock (source : Fin n) (condition : Condition) (target : Option (Fin n))
  | addNode (source : Fin n) (condition : Condition) (target : String)
  | link (node : Node) (members : List (Fin n))

/-- The graph after an operation, and its fault. What was added before the fault stays. -/
def perform (g : Graph n) : Operation n → Graph n × Option Fault
  | .addBlock i condition target =>
    match g.addBlock i condition target with
    | .ok (_, g') => (g', none)
    | .error cause => (g, some (.broken cause))
  | .addNode i condition target =>
    match g.addNode i condition target with
    | .ok (_, g') => (g', none)
    | .error cause => (g, some (.broken cause))
  | .link node members =>
    let l := g.link node members
    (l.graph, l.fault)

def performAll (g : Graph n) (ops : List (Operation n)) : Graph n :=
  ops.foldl (fun g op => (g.perform op).1) g

theorem grows_perform (g : Graph n) (op : Operation n) : g.Grows (g.perform op).1 := by
  cases op with
  | addBlock i condition target =>
    cases target with
    | none => exact .refl
    | some j => exact .single ⟨i, ⟨condition, .block j⟩, rfl⟩
  | addNode i condition target =>
    rw [perform, addNode, addEdge]
    split
    · next g' hadd =>
      split at hadd
      · cases hadd
      · cases hadd
        exact .single ⟨i, ⟨condition, .node target⟩, rfl⟩
    · exact .refl
  | link node members => exact g.grows_linkBlocks _ members

theorem grows_performAll (g : Graph n) (ops : List (Operation n)) : g.Grows (g.performAll ops) := by
  induction ops generalizing g with
  | nil => exact .refl
  | cons op ops ih => exact (g.grows_perform op).trans (ih _)

theorem distinct_ofBlocks {blocks : List Block} (h : (blocks.map Block.key).Nodup) :
    (ofBlocks blocks).Distinct := by
  intro i j hk
  rw [block_ofBlocks, block_ofBlocks] at hk
  have hi := List.inj_on_of_nodup_map h (List.get_mem blocks i) (List.get_mem blocks j) hk
  exact (List.nodup_iff_injective_get.mp h.of_map) hi

theorem paired_ofBlocks (blocks : List Block) : (ofBlocks blocks).Paired where
  mirrored i j := by
    rw [mem_next_iff, edges_ofBlocks]
    simp [sources, ofBlocks]
  nodup i := by simp [edges_ofBlocks]

/-- After every operation, whether it succeeds or not, edges to blocks and ancestors mirror each
other, no edge is there twice, and the edges of each block go on where they left off. -/
theorem perform_keeps_pairing {blocks : List Block} (h : (blocks.map Block.key).Nodup)
    (ops : List (Operation blocks.length)) (op : Operation blocks.length) :
    let g := (ofBlocks blocks).performAll ops
    let g' := (g.perform op).1
    (∀ i j, j ∈ g'.next i ↔ i ∈ g'.sources j) ∧ (∀ i, (g'.edges i).Nodup) ∧
      ∀ i, g.edges i <+: g'.edges i := by
  intro g g'
  have hg : g.Grows g' := g.grows_perform op
  have hall : (ofBlocks blocks).Grows g' := (grows_performAll _ ops).trans hg
  have hp := hall.paired (distinct_ofBlocks h) (paired_ofBlocks blocks)
  exact ⟨hp.mirrored, hp.nodup, hg.prefix_edges⟩

def alley : List Block := [
  ⟨"Alley", 0, none, [
    ⟨.addOption, [.string "line:a", .string "Door"]⟩,
    ⟨.addOption, [.string "line:b", .string "Wall"]⟩,
    ⟨.jump, []⟩]⟩,
  ⟨"Alley", 3, some "Door", [⟨.stop, []⟩]⟩]

theorem perform_keeps_pairing_alley :
    let entrance : Fin alley.length := ⟨0, by decide⟩
    let door : Fin alley.length := ⟨1, by decide⟩
    let node : Node := ⟨"Alley", [], .ofList [("Door", 3)], ∅⟩
    let g := (ofBlocks alley).performAll
      [.addBlock door .directJump (some door), .addNode entrance .directJump ""]
    let g' := (g.perform (.link node [entrance, door])).1
    (alley.map Block.key).Nodup ∧
      (g.perform (.link node [entrance, door])).2.isSome = true ∧
      g'.edges entrance = [⟨.option, .block door⟩] ∧ g'.sources door = [door, entrance] ∧
      (∀ i j, j ∈ g'.next i ↔ i ∈ g'.sources j) ∧ (∀ i, (g'.edges i).Nodup) ∧
      ∀ i, g.edges i <+: g'.edges i := by
  have h : (alley.map Block.key).Nodup := by decide
  exact ⟨h, by decide +kernel, by decide +kernel, by decide +kernel, perform_keeps_pairing h _ _⟩

end DialogueFlow.Graph
