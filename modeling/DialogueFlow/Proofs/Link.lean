import DialogueFlow.Flow
import DialogueFlow.Proofs.Exits
import DialogueFlow.Proofs.Graph
import DialogueFlow.Proofs.Outcome
import DialogueFlow.Proofs.Partition

namespace DialogueFlow

variable {n : Nat}

namespace Graph

theorem addEdges_eq_addAll {es : List (Edge n)} (h : ∀ e ∈ es, e.target ≠ .node "") (g : Graph n)
    (i : Fin n) : g.addEdges i es = (g.addAll i es, none) := by
  induction es generalizing g with
  | nil => rfl
  | cons e es ih =>
    obtain ⟨he, hes⟩ := List.forall_mem_cons.mp h
    rw [addEdges, addEdge, if_neg he]
    exact ih hes (g.add i e)

/-- The edges that are planned for a block are never refused. -/
theorem addEdges_ofBlock (g : Graph n) (ix : Index n) (b : Block) (i : Fin n) :
    g.addEdges i (Plan.ofBlock ix b).edges = (g.addAll i (Plan.ofBlock ix b).edges, none) :=
  addEdges_eq_addAll (Plan.named_ofInstructions _ _ _ _ _) g i

theorem addEdges_block (g : Graph n) (i j : Fin n) (condition : Condition) :
    g.addEdges i [⟨condition, .block j⟩] = (g.add i ⟨condition, .block j⟩, none) :=
  addEdges_eq_addAll (by simp) g i

/-- Linking a block only adds edges that leave it. -/
theorem exists_graph_linkBlock (g : Graph n) (ix : Index n) (i : Fin n) :
    ∃ es, (g.linkBlock ix i).graph = g.addAll i es := by
  simp only [linkBlock, addEdges_ofBlock, addEdges_block, Option.map_none, Option.none_or]
  split
  · exact ⟨_, rfl⟩
  · split
    · split
      · next j _ =>
        refine ⟨(Plan.ofBlock ix (g.block i)).edges ++ [⟨.fallthrough, .block j⟩], ?_⟩
        rw [addAll, addAll, List.foldl_append]
        rfl
      · exact ⟨_, rfl⟩
    · exact ⟨_, rfl⟩

theorem blocks_linkBlock (g : Graph n) (ix : Index n) (i : Fin n) :
    (g.linkBlock ix i).graph.blocks = g.blocks := by
  obtain ⟨es, he⟩ := g.exists_graph_linkBlock ix i
  rw [he, blocks_addAll]

theorem edges_linkBlock_of_ne (g : Graph n) (ix : Index n) {i k : Fin n} (h : k ≠ i) :
    (g.linkBlock ix i).graph.edges k = g.edges k := by
  obtain ⟨es, he⟩ := g.exists_graph_linkBlock ix i
  rw [he, edges_addAll_of_ne g es h]

theorem linkBlock_spec {g : Graph n} (hd : g.Distinct) (ix : Index n) {i : Fin n}
    (hi : g.edges i = []) (es : List (Edge n)) :
    ix.exits (g.block i) = .ok es ↔
      (g.linkBlock ix i).fault = none ∧ (g.linkBlock ix i).graph.edges i = es := by
  simp only [Index.exits, Plan.settle, linkBlock, addEdges_ofBlock, addEdges_block,
    Option.map_none, Option.none_or]
  generalize Plan.ofBlock ix (g.block i) = p
  have ha := edges_addAll_self hd hi p.edges
  have hb := block_eq (g.blocks_addAll i p.edges) i
  have hd' := hd.of_blocks (g.blocks_addAll i p.edges)
  have hempty : p.edges.eraseDups.isEmpty = p.edges.isEmpty := by
    cases p.edges <;> simp [List.eraseDups_cons]
  simp only [hb, ha, hempty]
  cases p.fault with
  | some f => simp
  | none =>
    by_cases h : (p.edges.isEmpty && (g.block i).runsOn) = true
    · have hnil : p.edges = [] := List.isEmpty_iff.mp (Bool.and_eq_true_iff.mp h).1
      simp only [h, if_true]
      cases ix.starting (g.block i).endIndex with
      | error cause => simp
      | ok j =>
        have he : ((g.addAll i p.edges).add i ⟨.fallthrough, .block j⟩).edges i =
            [⟨.fallthrough, .block j⟩] := by
          rw [edges_add_self hd', ha, hnil]
          simp
        simp [he]
    · simp [h, ha]

theorem blocks_linkBlocks (g : Graph n) (ix : Index n) (is : List (Fin n)) :
    (g.linkBlocks ix is).graph.blocks = g.blocks := by
  induction is generalizing g with
  | nil => rfl
  | cons i is ih =>
    rw [linkBlocks]
    split
    · exact g.blocks_linkBlock ix i
    · exact (ih _).trans (g.blocks_linkBlock ix i)

theorem edges_linkBlocks_of_notMem (g : Graph n) (ix : Index n) {is : List (Fin n)} {k : Fin n}
    (h : k ∉ is) : (g.linkBlocks ix is).graph.edges k = g.edges k := by
  induction is generalizing g with
  | nil => rfl
  | cons i is ih =>
    rw [List.mem_cons, not_or] at h
    rw [linkBlocks]
    split
    · exact g.edges_linkBlock_of_ne ix h.1
    · exact (ih _ h.2).trans (g.edges_linkBlock_of_ne ix h.1)

/-- Linking blocks that have no edges yet succeeds if it does for each of them alone. -/
theorem linkBlocks_spec {g : Graph n} (hd : g.Distinct) (ix : Index n) {is : List (Fin n)}
    (hn : is.Nodup) (he : ∀ i ∈ is, g.edges i = []) :
    ((∀ i ∈ is, ∃ es, ix.exits (g.block i) = .ok es) → (g.linkBlocks ix is).fault = none) ∧
      ((g.linkBlocks ix is).fault = none →
        ∀ i ∈ is, ix.exits (g.block i) = .ok ((g.linkBlocks ix is).graph.edges i)) := by
  induction is generalizing g with
  | nil => simp [linkBlocks]
  | cons i is ih =>
    rw [List.nodup_cons] at hn
    have hspec := linkBlock_spec hd ix (he i (by simp))
    have hb := g.blocks_linkBlock ix i
    -- The blocks that are left still have no edges: linking `i` only adds edges that leave `i`.
    have he' : ∀ k ∈ is, (g.linkBlock ix i).graph.edges k = [] := by
      intro k hk
      have hne : k ≠ i := fun h => hn.1 (h ▸ hk)
      rw [edges_linkBlock_of_ne g ix hne, he k (by simp [hk])]
    obtain ⟨hok, hedges⟩ := ih (hd.of_blocks hb) hn.2 he'
    simp only [block_eq hb] at hok hedges
    rw [linkBlocks]
    cases hf : (g.linkBlock ix i).fault with
    | some f =>
      refine ⟨fun h => ?_, fun h => ?_⟩
      · obtain ⟨es, hes⟩ := h i (by simp)
        simp [hf] at hspec
        exact absurd hes (hspec es)
      · simp [hf] at h
    | none =>
      refine ⟨fun h => hok (fun k hk => h k (by simp [hk])), fun h k hk => ?_⟩
      obtain rfl | hk := List.mem_cons.mp hk
      · exact (hspec _).mpr ⟨hf, (edges_linkBlocks_of_notMem _ ix hn.1).symm⟩
      · exact hedges h k hk

theorem startsAt_congr {g g' : Graph n} (h : g'.blocks = g.blocks) : g'.StartsAt = g.StartsAt := by
  funext j k
  simp only [StartsAt, block_eq h]

theorem exits_congr {g g' : Graph n} (h : g'.blocks = g.blocks) : g'.Exits = g.Exits := by
  funext node b last edges
  simp only [Exits, Names, RunsInto, startsAt_congr h]

def Apart (g : Graph n) : Prop := ∀ i j, (g.block i).first = (g.block j).first → i = j

theorem Apart.distinct {g : Graph n} (h : g.Apart) : g.Distinct :=
  fun i j hk => h i j (congrArg Prod.snd hk)

theorem Apart.startsAt_iff {g : Graph n} (h : g.Apart) (j : Fin n) (k : Int) :
    g.StartsAt j k ↔ (g.block j).first = k :=
  ⟨fun hj => hj.1, fun hj => ⟨hj, fun j' hj' => h j' j (hj'.trans hj.symm)⟩⟩

theorem Apart.finds {g : Graph n} (h : g.Apart) (node : Node) :
    (⟨node, (List.finRange n).map (fun i => ((g.block i).first, i))⟩ : Index n).Finds g := by
  have hm : ∀ k j, (k, j) ∈ ((List.finRange n).map (fun i => ((g.block i).first, i))).reverse ↔
      (g.block j).first = k := by
    intro k j
    simp
  intro k j
  rw [h.startsAt_iff, Index.find?]
  apply Iff.intro
  · intro hl
    obtain ⟨l₁, l₂, hl, -⟩ := List.lookup_eq_some_iff.mp hl
    rw [← hm, hl]
    simp
  · intro hj
    cases hl : (((List.finRange n).map (fun i => ((g.block i).first, i))).reverse).lookup k with
    | none =>
      have := List.lookup_eq_none_iff.mp hl (k, j) ((hm k j).mpr hj)
      simp at this
    | some j' =>
      obtain ⟨l₁, l₂, hl, -⟩ := List.lookup_eq_some_iff.mp hl
      have hj' : (g.block j').first = k := by
        rw [← hm, hl]
        simp
      rw [h j' j (hj'.trans hj.symm)]

theorem block_ofBlocks (blocks : List Block) (i : Fin blocks.length) :
    (ofBlocks blocks).block i = blocks.get i := by
  simp [ofBlocks, block]

theorem edges_ofBlocks (blocks : List Block) (i : Fin blocks.length) :
    (ofBlocks blocks).edges i = [] := by
  simp [ofBlocks, edges]

theorem toList_ofBlocks (blocks : List Block) : (ofBlocks blocks).blocks.toList = blocks := by
  simp [ofBlocks]

end Graph

namespace Node

def unlinked (node : Node) : Graph node.cut.length := Graph.ofBlocks node.cut

theorem unlinked_apart (node : Node) : node.unlinked.Apart := by
  intro i j h
  rw [unlinked, Graph.block_ofBlocks, Graph.block_ofBlocks] at h
  have hn := node.nodup_first_cut
  rw [List.nodup_iff_injective_get] at hn
  have := @hn (i.cast (by simp)) (j.cast (by simp)) (by simpa using h)
  simpa [Fin.ext_iff] using this

def index (node : Node) : Index node.cut.length :=
  ⟨node, (List.finRange _).map (fun i => ((node.unlinked.block i).first, i))⟩

theorem index_finds (node : Node) : node.index.Finds node.unlinked := node.unlinked_apart.finds node

theorem link_cut (node : Node) :
    node.link node.cut = node.unlinked.linkBlocks node.index (List.finRange _) := rfl

theorem blocks_link (node : Node) : (node.link node.cut).graph.blocks = node.unlinked.blocks :=
  Graph.blocks_linkBlocks _ _ _

theorem block_unlinked_mem (node : Node) (i : Fin node.cut.length) :
    node.unlinked.block i ∈ node.cut := by
  rw [unlinked, Graph.block_ofBlocks]
  exact List.get_mem _ _

theorem exits_cut {node : Node} {b : Block} (hb : b ∈ node.cut)
    (es : List (Edge node.cut.length)) :
    node.index.exits b = .ok es ↔ (∀ i ∈ b.instructions, i.IsSupplied) ∧
      ∃ last, b.last? = some last ∧ node.unlinked.Exits node b last es := by
  obtain ⟨s, e, hs, rfl⟩ := exists_segment hb
  obtain ⟨last, hl⟩ := hs.exists_last
  have hlast : (node.slice s e).last? = some last := hs.last_slice.trans hl
  rw [node.index_finds.exits_eq_ok_iff (hs.instructions_slice hl) hs.body_goesOn]
  simp only [hlast, Option.some.injEq, exists_eq_left']
  rfl

theorem linkBlocks_unlinked (node : Node) :
    ((∀ i ∈ List.finRange _, ∃ es, node.index.exits (node.unlinked.block i) = .ok es) →
        (node.link node.cut).fault = none) ∧
      ((node.link node.cut).fault = none → ∀ i ∈ List.finRange _,
        node.index.exits (node.unlinked.block i) =
          .ok ((node.link node.cut).graph.edges i)) := by
  rw [link_cut]
  refine Graph.linkBlocks_spec node.unlinked_apart.distinct _ (List.nodup_finRange _) ?_
  exact fun i _ => Graph.edges_ofBlocks _ i

theorem link_fault_eq_none_iff (node : Node) :
    (node.link node.cut).fault = none ↔ ∀ b ∈ node.cut, (∀ i ∈ b.instructions, i.IsSupplied) ∧
      ∃ last es, b.last? = some last ∧ node.unlinked.Exits node b last es := by
  have hspec := node.linkBlocks_unlinked
  apply Iff.intro
  · intro h b hb
    obtain ⟨i, rfl⟩ := List.mem_iff_get.mp hb
    have hi := hspec.2 h i (List.mem_finRange i)
    rw [unlinked, Graph.block_ofBlocks] at hi
    obtain ⟨hs, last, hl, he⟩ := (exits_cut hb _).mp hi
    exact ⟨hs, last, _, hl, he⟩
  · intro h
    refine hspec.1 (fun i _ => ?_)
    obtain ⟨hs, last, es, hl, he⟩ := h _ (node.block_unlinked_mem i)
    exact ⟨es, (exits_cut (node.block_unlinked_mem i) es).mpr ⟨hs, last, hl, he⟩⟩

theorem flow_eq_ok_iff {node : Node} {f : Flow} :
    node.flow = .ok f ↔
      (node.instructions ≠ [] → ∀ e ∈ node.labels.entries, node.Holds e.2) ∧
        (node.link node.cut).fault = none ∧ f = ⟨_, (node.link node.cut).graph⟩ := by
  rw [flow]
  cases hp : node.partition node.leaders with
  | error cause =>
    refine iff_of_false (by simp) (fun h => ?_)
    have := partition_leaders_eq_ok_iff.mpr ⟨h.1, rfl⟩
    rw [hp] at this
    cases this
  | ok blocks =>
    obtain ⟨hl, rfl⟩ := partition_leaders_eq_ok_iff.mp hp
    cases hf : (node.link node.cut).fault with
    | some fault => simp [hf]
    | none =>
      simp only [hf, Except.ok.injEq, true_and]
      exact ⟨fun h => ⟨hl, h.symm⟩, fun h => h.2.symm⟩

structure Linked (node : Node) (f : Flow) : Prop where
  blocks : f.blocks = node.cut
  apart : f.graph.Apart
  exits : ∀ i, ∃ last, (f.graph.block i).last? = some last ∧
    f.graph.Exits node (f.graph.block i) last (f.graph.edges i)

theorem linked_of_flow {node : Node} {f : Flow} (h : node.flow = .ok f) : node.Linked f := by
  obtain ⟨-, hf, rfl⟩ := flow_eq_ok_iff.mp h
  have hb := node.blocks_link
  refine ⟨?_, ?_, ?_⟩
  · rw [Flow.blocks, hb]
    exact Graph.toList_ofBlocks _
  · intro i j hij
    rw [Graph.block_eq hb, Graph.block_eq hb] at hij
    exact node.unlinked_apart i j hij
  · intro i
    have hi := node.linkBlocks_unlinked.2 hf i (List.mem_finRange i)
    obtain ⟨-, last, hl, he⟩ := (exits_cut (node.block_unlinked_mem i) _).mp hi
    rw [Graph.block_eq hb, Graph.exits_congr hb]
    exact ⟨last, hl, he⟩

/-- The edges of every block are those that its last instruction asks for. -/
theorem edges_eq_exits {node : Node} {f : Flow} (h : node.flow = .ok f) (i : Fin f.size) :
    ∃ last, (f.graph.block i).last? = some last ∧
      f.graph.Exits node (f.graph.block i) last (f.graph.edges i) :=
  (linked_of_flow h).exits i

/-- Three options with two targets, a jump to a node and a branch. -/
def crossroads : Node where
  name := "Crossroads"
  instructions := [
    ⟨.addOption, [.string "line:a", .string "Inn"]⟩,
    ⟨.addOption, [.string "line:b", .string "Bridge"]⟩,
    ⟨.addOption, [.string "line:c", .string "Inn"]⟩,
    ⟨.jump, []⟩,
    ⟨.pushString, [.string "Tavern"]⟩,
    ⟨.runNode, []⟩,
    ⟨.jumpIfFalse, [.string "Inn"]⟩,
    ⟨.stop, []⟩]
  labels := .ofList [("Inn", 4), ("Bridge", 6)]
  headers := ∅

theorem exists_flow_of_size {node : Node} {n : Nat}
    (h : node.flow.toOption.map Flow.size = some n) : ∃ f, node.flow = .ok f ∧ f.size = n :=
  exists_ok_of_map h

theorem edges_eq_exits_crossroads :
    ∃ f, crossroads.flow = .ok f ∧ f.size = 4 ∧
      f.graph.out.toList.map (List.map (fun e => (e.condition, e.target.block?.map Fin.val))) = [
        [(.option, some 1), (.option, some 2)], [(.directJump, none)],
        [(.expressionIsFalse, some 1), (.expressionIsTrue, some 3)], []] ∧
      ∀ i, ∃ last, (f.graph.block i).last? = some last ∧
        f.graph.Exits crossroads (f.graph.block i) last (f.graph.edges i) := by
  have hparts : crossroads.flow.toOption.map (fun f => (f.size, f.graph.out.toList.map
      (List.map (fun e => (e.condition, e.target.block?.map Fin.val))))) = some (4, [
        [(.option, some 1), (.option, some 2)], [(.directJump, none)],
        [(.expressionIsFalse, some 1), (.expressionIsTrue, some 3)], []]) := by
    decide +kernel
  obtain ⟨f, hf, hparts⟩ := exists_ok_of_map hparts
  obtain ⟨hsize, hedges⟩ := Prod.mk.inj hparts
  exact ⟨f, hf, hsize, hedges, fun i => edges_eq_exits hf i⟩

end Node

end DialogueFlow
