import DialogueFlow.Proofs.Pairing

namespace DialogueFlow.Graph

variable {n : Nat} {g g' : Graph n} {i : Fin n} {e : Edge n} {es : List (Edge n)}

theorem sameTarget_congr (h : g'.blocks = g.blocks) : g'.sameTarget = g.sameTarget := by
  funext s t
  cases s <;> cases t <;> simp [sameTarget, same_congr h]

theorem sameEdge_congr (h : g'.blocks = g.blocks) : g'.sameEdge = g.sameEdge := by
  funext e f
  rw [sameEdge, sameEdge, sameTarget_congr h]

theorem same_self (g : Graph n) (i : Fin n) : g.same i i = true := by
  simp [same]

theorem sameEdge_self (g : Graph n) (e : Edge n) : g.sameEdge e e = true := by
  obtain ⟨condition, target⟩ := e
  cases target <;> simp [sameEdge, sameTarget, same_self]

/-- The block at `i` has an edge like `e`, and where it leads a block like that at `i` is an
ancestor. -/
structure Absorbs (g : Graph n) (i : Fin n) (e : Edge n) : Prop where
  out : (g.edges i).any (g.sameEdge e) = true
  ancestor : ∀ j, e.target = .block j → (g.sources j).any (g.same i) = true

theorem Absorbs.add_eq (h : g.Absorbs i e) : g.add i e = g := by
  have hout : g.addOut i e = g := by rw [addOut, if_pos h.out]
  rw [add, hout]
  split
  · next j hj => rw [addAncestor, if_pos (h.ancestor j hj)]
  · rfl

theorem any_edges_addOut (g : Graph n) (i : Fin n) (e : Edge n) :
    ((g.addOut i e).edges i).any (g.sameEdge e) = true := by
  rw [addOut]
  split
  · assumption
  · simp [edges, sameEdge_self]

theorem any_sources_addAncestor (g : Graph n) (i j : Fin n) :
    ((g.addAncestor i j).sources j).any (g.same i) = true := by
  rw [addAncestor]
  split
  · assumption
  · simp [sources, same_self]

theorem absorbs_add (g : Graph n) (i : Fin n) (e : Edge n) : (g.add i e).Absorbs i e := by
  constructor
  case out =>
    rw [edges_add, sameEdge_congr (g.blocks_add i e)]
    exact g.any_edges_addOut i e
  case ancestor =>
    intro j hj
    have hadd : g.add i e = (g.addOut i e).addAncestor i j := by simp only [add, hj]
    rw [hadd, same_congr (blocks_addAncestor _ i j)]
    exact (g.addOut i e).any_sources_addAncestor i j

theorem prefix_sources_addAncestor (g : Graph n) (i j k : Fin n) :
    g.sources k <+: (g.addAncestor i j).sources k := by
  by_cases hk : k = j
  · subst hk
    rw [addAncestor]
    split
    · exact List.prefix_rfl
    · simp [sources]
  · have hsources := g.sources_addAncestor_of_ne i hk
    exact hsources.symm ▸ List.prefix_rfl

theorem prefix_sources_add (g : Graph n) (i k : Fin n) (e : Edge n) :
    g.sources k <+: (g.add i e).sources k := by
  rw [← g.sources_addOut i k e, add]
  split
  · exact (g.addOut i e).prefix_sources_addAncestor i _ k
  · exact List.prefix_rfl

theorem Grows.prefix_sources (h : g.Grows g') (k : Fin n) : g.sources k <+: g'.sources k := by
  induction h with
  | refl => exact List.prefix_rfl
  | tail _ hs ih =>
    obtain ⟨i, e, rfl⟩ := hs
    exact ih.trans (prefix_sources_add _ i k e)

theorem Absorbs.grows (h : g.Absorbs i e) (hg : g.Grows g') : g'.Absorbs i e := by
  constructor
  case out =>
    obtain ⟨f, hf, hs⟩ := List.any_eq_true.mp h.out
    rw [sameEdge_congr hg.blocks]
    exact List.any_eq_true.mpr ⟨f, (hg.prefix_edges i).subset hf, hs⟩
  case ancestor =>
    intro j hj
    obtain ⟨k, hk, hs⟩ := List.any_eq_true.mp (h.ancestor j hj)
    rw [same_congr hg.blocks]
    exact List.any_eq_true.mpr ⟨k, (hg.prefix_sources j).subset hk, hs⟩

theorem absorbs_addAll (g : Graph n) (i : Fin n) (es : List (Edge n)) :
    ∀ e ∈ es, (g.addAll i es).Absorbs i e := by
  induction es generalizing g with
  | nil => simp
  | cons f es ih =>
    intro e he
    obtain rfl | he := List.mem_cons.mp he
    · exact (g.absorbs_add i e).grows ((g.add i e).grows_addAll i es)
    · exact ih (g.add i f) e he

theorem addAll_eq_of_absorbs (h : ∀ e ∈ es, g.Absorbs i e) : g.addAll i es = g := by
  induction es with
  | nil => rfl
  | cons e es ih =>
    rw [addAll, List.foldl_cons, (h e List.mem_cons_self).add_eq]
    exact ih (fun f hf => h f (List.mem_cons_of_mem e hf))

theorem Absorbs.edges_ne_nil (h : g.Absorbs i e) : g.edges i ≠ [] := by
  intro hnil
  have hout := h.out
  simp [hnil] at hout

theorem grows_linkBlock (g : Graph n) (ix : Index n) (i : Fin n) :
    (g.addAll i (Plan.ofBlock ix (g.block i)).edges).Grows (g.linkBlock ix i).graph := by
  simp only [linkBlock, addEdges_ofBlock, addEdges_block, Option.map_none, Option.none_or]
  split
  · exact .refl
  · split
    · split
      · next j _ => exact .single ⟨i, ⟨.fallthrough, .block j⟩, rfl⟩
      · exact .refl
    · exact .refl

/-- A block that has been linked is linked again in the same way, in a graph that has grown since
or, after a fault, in the graph as it was left. -/
theorem linkBlock_of_grows (ix : Index n) (hg : (g.linkBlock ix i).graph.Grows g')
    (hf : (g.linkBlock ix i).fault = none ∨ g' = (g.linkBlock ix i).graph) :
    g'.linkBlock ix i = { g.linkBlock ix i with graph := g' } := by
  have hb : g'.block i = g.block i := block_eq (hg.blocks.trans (g.blocks_linkBlock ix i)) i
  have hgrows : (g.addAll i (Plan.ofBlock ix (g.block i)).edges).Grows g' :=
    (g.grows_linkBlock ix i).trans hg
  have hb' := block_eq (g.blocks_addAll i (Plan.ofBlock ix (g.block i)).edges) i
  have hadd : g'.addAll i (Plan.ofBlock ix (g.block i)).edges = g' :=
    addAll_eq_of_absorbs (fun e he => (g.absorbs_addAll i _ e he).grows hgrows)
  simp only [linkBlock, addEdges_ofBlock, addEdges_block, Option.map_none, Option.none_or, hb, hb',
    hadd] at hg hf ⊢
  generalize Plan.ofBlock ix (g.block i) = p at *
  cases hp : p.fault with
  | some f => rfl
  | none =>
    simp only [hp] at hg hf ⊢
    by_cases hrun : (((g.addAll i p.edges).edges i).isEmpty && (g.block i).runsOn) = true
    · simp only [hrun, if_true] at hg hf ⊢
      cases hj : ix.starting (g.block i).endIndex with
      | ok j =>
        simp only [hj] at hg
        have hne := ((absorbs_add _ i _).grows hg).edges_ne_nil
        simp [hne]
      | error cause =>
        simp only [hj, reduceCtorEq, false_or] at hf
        simp only [hf, hrun, if_true]
    · -- A block without edges had none before: edges stay.
      have hrun' : ¬ ((g'.edges i).isEmpty && (g.block i).runsOn) = true := by
        intro h
        refine hrun ?_
        rw [Bool.and_eq_true, List.isEmpty_iff] at h ⊢
        exact ⟨List.prefix_nil.mp (h.1 ▸ hgrows.prefix_edges i), h.2⟩
      rw [if_neg hrun, if_neg hrun']

theorem linkBlocks_of_fault {ix : Index n} {f : Fault} (h : (g.linkBlock ix i).fault = some f)
    (is : List (Fin n)) : g.linkBlocks ix (i :: is) = g.linkBlock ix i := by
  simp only [linkBlocks, h]

theorem linkBlocks_of_ok {ix : Index n} (h : (g.linkBlock ix i).fault = none)
    (is : List (Fin n)) :
    g.linkBlocks ix (i :: is) =
      { (g.linkBlock ix i).graph.linkBlocks ix is with
        unresolved := (g.linkBlock ix i).unresolved ++
          ((g.linkBlock ix i).graph.linkBlocks ix is).unresolved } := by
  simp only [linkBlocks, h]

theorem linkBlocks_linkBlocks (g : Graph n) (ix : Index n) (is : List (Fin n)) :
    (g.linkBlocks ix is).graph.linkBlocks ix is = g.linkBlocks ix is := by
  induction is generalizing g with
  | nil => rfl
  | cons i is ih =>
    cases hf : (g.linkBlock ix i).fault with
    | some f =>
      have hi : (g.linkBlock ix i).graph.linkBlock ix i = g.linkBlock ix i :=
        linkBlock_of_grows ix .refl (.inr rfl)
      rw [linkBlocks_of_fault hf, linkBlocks_of_fault (by rw [hi, hf]), hi]
    | none =>
      -- By the time `i` is linked again the graph holds the edges of all blocks, not of `i` alone.
      have hi := linkBlock_of_grows ix ((g.linkBlock ix i).graph.grows_linkBlocks ix is) (.inl hf)
      rw [linkBlocks_of_ok hf, linkBlocks_of_ok (by rw [hi, hf]), hi, ih]

/-- Linking the blocks of a node a second time leads to the same graph. It succeeds if it did
before, and stops at the same fault otherwise. -/
theorem link_idempotent (g : Graph n) (node : Node) (members : List (Fin n)) :
    (g.link node members).graph.link node members = g.link node members := by
  have hb : ∀ i, (g.link node members).graph.block i = g.block i :=
    block_eq (g.blocks_linkBlocks _ members)
  rw [link, funext (fun i => congrArg (fun b => (Block.first b, i)) (hb i))]
  exact g.linkBlocks_linkBlocks _ members

/-- Two blocks at one place of a node. The first of them runs on, the other one stops. -/
def gate : List Block := [
  ⟨"Gate", 0, none, [⟨.addOption, [.string "line:in", .string "Yard"]⟩, ⟨.jump, []⟩]⟩,
  ⟨"Gate", 2, some "Yard", [⟨.runLine, [.string "line:hay"]⟩]⟩,
  ⟨"Gate", 2, none, [⟨.stop, []⟩]⟩,
  ⟨"Gate", 3, none, [⟨.stop, []⟩]⟩]

example :
    let node : Node := ⟨"Gate", [], .ofList [("Yard", 2)], ∅⟩
    let members := List.finRange gate.length ++ List.finRange gate.length
    let once := (ofBlocks gate).link node members
    let twice := once.graph.link node members
    once.graph.out.toList = [[⟨.option, .block ⟨2, by decide⟩⟩],
        [⟨.fallthrough, .block ⟨3, by decide⟩⟩], [], []] ∧
      twice.graph.out = once.graph.out ∧ twice.graph.ancestors = once.graph.ancestors := by
  decide +kernel

end DialogueFlow.Graph
