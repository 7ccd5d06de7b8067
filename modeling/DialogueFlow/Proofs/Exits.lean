import DialogueFlow.Proofs.Plan
import Mathlib.Data.List.Forall2
import Mathlib.Data.List.Induction

namespace DialogueFlow

variable {n : Nat}

def Node.Targets (node : Node) (i : Instruction) (p : Nat) (k : Int) : Prop :=
  ∃ label, i.operands[p]? = some (.string label) ∧ node.labels.get? label = some k

namespace Graph

/-- The block at `j` is the one that starts at `k`. -/
def StartsAt (g : Graph n) (j : Fin n) (k : Int) : Prop :=
  (g.block j).first = k ∧ ∀ j', (g.block j').first = k → j' = j

/-- The operand of `i` at `p` is a label, and the block at `j` is the one that starts there. -/
def Names (g : Graph n) (node : Node) (i : Instruction) (p : Nat) (j : Fin n) : Prop :=
  ∃ k, node.Targets i p k ∧ g.StartsAt j k

def RunsInto (g : Graph n) (b : Block) (edges : List (Edge n)) : Prop :=
  ∃ j, g.StartsAt j b.endIndex ∧ edges = [⟨.fallthrough, .block j⟩]

/-- The edges that leave a block of a node whose last instruction is `last`. -/
def Exits (g : Graph n) (node : Node) (b : Block) (last : Instruction)
    (edges : List (Edge n)) : Prop :=
  match last.opcode with
  | .jumpTo => ∃ j, g.Names node last 0 j ∧ edges = [⟨.directJump, .block j⟩]
  | .jumpIfFalse => ∃ j k, g.Names node last 0 j ∧ g.StartsAt k b.endIndex ∧
      edges = [⟨.expressionIsFalse, .block j⟩, ⟨.expressionIsTrue, .block k⟩]
  | .jump =>
    if addedOptions b.instructions = [] then g.RunsInto b edges
    else ∃ js, List.Forall₂ (fun a j => g.Names node a 1 j) (addedOptions b.instructions) js ∧
      edges = js.eraseDups.map (fun j => ⟨.option, .block j⟩)
  | .runNode =>
    (∃ t s, lastPush? b.instructions = some t ∧ t.opcode = .pushString ∧
      t.operands[0]? = some (.string s) ∧ s ≠ "" ∧ edges = [⟨.directJump, .node s⟩]) ∨
    (∀ t, lastPush? b.instructions = some t → t.opcode ≠ .pushString) ∧ g.RunsInto b edges
  | .stop => edges = []
  | _ => g.RunsInto b edges

theorem exits_iff_runsInto {g : Graph n} {node : Node} {b : Block} {last : Instruction}
    {edges : List (Edge n)} (h : last.opcode.endsBlock = false) :
    g.Exits node b last edges ↔ g.RunsInto b edges := by
  rw [Exits]
  cases ho : last.opcode <;> simp_all [Opcode.endsBlock]

end Graph

theorem eraseDups_map {α β : Type} [DecidableEq α] [DecidableEq β] {f : α → β}
    (hf : Function.Injective f) (xs : List α) : (xs.map f).eraseDups = xs.eraseDups.map f := by
  induction xs using List.reverseRecOn with
  | nil => rfl
  | append_singleton xs x ih =>
    rw [List.map_append, List.eraseDups_append, List.eraseDups_append, List.map_append, ih]
    by_cases hx : x ∈ xs
    · simp [List.removeAll, hf.eq_iff, hx]
    · simp [List.removeAll, hf.eq_iff, hx, List.eraseDups_cons]

theorem addedOptions_concat (body : List Instruction) (i : Instruction) :
    addedOptions (body ++ [i]) =
      addedOptions body ++ if i.opcode = .addOption then [i] else [] := by
  by_cases h : i.opcode = .addOption <;> simp [addedOptions, h]

theorem lastPush?_concat (body : List Instruction) (i : Instruction) :
    lastPush? (body ++ [i]) = if i.opcode ∈ Opcode.pushes then some i else lastPush? body := by
  by_cases h : i.opcode ∈ Opcode.pushes <;> simp [lastPush?, List.filter_append, h]

namespace Plan

theorem forall₂_optionLabels {body : List Instruction} (hs : ∀ i ∈ body, i.IsSupplied) :
    List.Forall₂ (fun a label => a.operands[1]? = some (.string label)) (addedOptions body)
      (optionLabels body) := by
  induction body with
  | nil => exact .nil
  | cons i body ih =>
    have ht := ih (fun j hj => hs j (by simp [hj]))
    by_cases ho : i.opcode = .addOption
    · obtain ⟨s, h⟩ := (hs i (by simp)).1 ho
      have h1 : i.stringOperand 1 = .ok s := (i.stringOperand_eq_ok_iff 1 s).mpr h
      have ha : addedOptions (i :: body) = i :: addedOptions body := by simp [addedOptions, ho]
      have hl : optionLabels (i :: body) = s :: optionLabels body := by
        simp [optionLabels, ha, h1, Except.toOption]
      rw [ha, hl]
      exact .cons h ht
    · have ha : addedOptions (i :: body) = addedOptions body := by simp [addedOptions, ho]
      rwa [optionLabels, ha]

theorem foldl_topAfter_eq_some_iff {body : List Instruction} (s : String) :
    body.foldl topAfter none = some s ↔
      ∃ t, lastPush? body = some t ∧ t.opcode = .pushString ∧
        t.operands[0]? = some (.string s) := by
  -- What is on top is decided by the end of the body, so the induction takes instructions off
  -- there.
  induction body using List.reverseRecOn with
  | nil => simp [lastPush?]
  | append_singleton body i ih =>
    rw [List.foldl_append, List.foldl_cons, List.foldl_nil, lastPush?_concat, topAfter]
    cases ho : i.opcode with
    | pushString =>
      have h0 := i.stringOperand_eq_ok_iff 0 s
      cases hi : i.stringOperand 0 with
      | error f => simp_all [Opcode.pushes, Except.toOption]
      | ok t => simp_all [Opcode.pushes, Except.toOption]
    | pushBool | pushFloat | pushVariable => simp [Opcode.pushes, ho]
    | _ => simpa [Opcode.pushes] using ih

theorem foldl_topAfter_eq_none_iff {body : List Instruction} (hs : ∀ i ∈ body, i.IsSupplied) :
    body.foldl topAfter none = none ↔ ∀ t, lastPush? body = some t → t.opcode ≠ .pushString := by
  apply Iff.intro
  · intro h t ht ho
    obtain ⟨s, h0⟩ := (hs t (mem_of_lastPush? ht)).2 ho
    have := (foldl_topAfter_eq_some_iff s).mpr ⟨t, ht, ho, h0⟩
    simp [h] at this
  · intro h
    cases hf : body.foldl topAfter none with
    | none => rfl
    | some s =>
      obtain ⟨t, ht, ho, -⟩ := (foldl_topAfter_eq_some_iff s).mp hf
      exact absurd ho (h t ht)

/-- What becomes of a block with the plan `p`: its edges, each once, or falling through if there are
none. -/
def settle (p : Plan n) (ix : Index n) (b : Block) : Except Fault (List (Edge n)) :=
  match p.fault with
  | some f => .error f
  | none =>
    if p.edges.isEmpty && b.runsOn then
      match ix.starting b.endIndex with
      | .ok j => .ok [⟨.fallthrough, .block j⟩]
      | .error cause => .error (ix.node.fault cause)
    else .ok p.edges.eraseDups

end Plan

def Index.exits (ix : Index n) (b : Block) : Except Fault (List (Edge n)) :=
  (Plan.ofBlock ix b).settle ix b

def Index.Finds (ix : Index n) (g : Graph n) : Prop :=
  ∀ k j, ix.find? k = some j ↔ g.StartsAt j k

section Finds

variable {ix : Index n} {g : Graph n}

theorem Index.Finds.starting (hf : ix.Finds g) (k : Int) (j : Fin n) :
    ix.starting k = .ok j ↔ g.StartsAt j k := by
  rw [← hf, Index.starting]
  cases ix.find? k <;> simp

theorem Index.Finds.labelled (hf : ix.Finds g) (label : String) (j : Fin n) :
    ix.labelled label = .ok j ↔ ∃ k, ix.node.labels.get? label = some k ∧ g.StartsAt j k := by
  rw [Index.labelled]
  cases ix.node.labels.get? label with
  | none => simp
  | some k =>
    have h := hf k j
    cases hk : ix.find? k <;> simp_all

theorem Index.Finds.names (hf : ix.Finds g) (i : Instruction) (p : Nat) (j : Fin n) :
    g.Names ix.node i p j ↔ ∃ label, i.stringOperand p = .ok label ∧ ix.labelled label = .ok j := by
  apply Iff.intro
  · rintro ⟨k, ⟨label, ho, hl⟩, hj⟩
    exact ⟨label, (i.stringOperand_eq_ok_iff p label).mpr ho, (hf.labelled label j).mpr ⟨k, hl, hj⟩⟩
  · rintro ⟨label, ho, hj⟩
    obtain ⟨k, hl, hs⟩ := (hf.labelled label j).mp hj
    exact ⟨k, ⟨label, (i.stringOperand_eq_ok_iff p label).mp ho, hl⟩, hs⟩

namespace Plan

theorem settle_of_fault {p : Plan n} (h : p.fault ≠ none) (ix : Index n) (b : Block)
    (es : List (Edge n)) : p.settle ix b ≠ .ok es := by
  rw [settle]
  cases hp : p.fault with
  | none => exact absurd hp h
  | some f => simp

theorem settle_of_edges {p : Plan n} (h : p.fault = none) (he : p.edges ≠ []) (ix : Index n)
    (b : Block) : p.settle ix b = .ok p.edges.eraseDups := by
  have hi : p.edges.isEmpty = false := by simpa using he
  simp [settle, h, hi]

theorem settle_of_runsOn (hf : ix.Finds g) {p : Plan n} (h : p.fault = none) (he : p.edges = [])
    {b : Block} (hb : b.runsOn = true) (es : List (Edge n)) :
    p.settle ix b = .ok es ↔ g.RunsInto b es := by
  have hs := hf.starting b.endIndex
  simp only [settle, h, he, hb, Graph.RunsInto, ← hs]
  cases ix.starting b.endIndex <;> simp [eq_comm]

theorem options_of_forall₂ {labels : List String} {js : List (Fin n)}
    (h : List.Forall₂ (fun label j => ix.labelled label = .ok j) labels js) :
    options ix labels = ⟨js.map (fun j => ⟨.option, .block j⟩), [], none⟩ := by
  induction h with
  | nil => rfl
  | cons hl _ ih => simp [options, hl, ih, edgesThen]

theorem forall₂_of_options {labels : List String} (h : (options ix labels).fault = none) :
    ∃ js, List.Forall₂ (fun label j => ix.labelled label = .ok j) labels js := by
  induction labels with
  | nil => exact ⟨[], .nil⟩
  | cons label labels ih =>
    rw [options] at h
    cases hl : ix.labelled label with
    | error cause => simp [hl, fail] at h
    | ok j =>
      obtain ⟨js, hj⟩ := ih (by simpa [hl, edgesThen] using h)
      exact ⟨j :: js, .cons hl hj⟩

theorem settle_jumpTo (hf : ix.Finds g) (node : String) (index : Int) (labels : List String)
    (top : Option String) {last : Instruction} (ho : last.opcode = .jumpTo) (b : Block)
    (es : List (Edge n)) :
    (ofInstructions ix node index labels top [last]).settle ix b = .ok es ↔
      ∃ j, g.Names ix.node last 0 j ∧ es = [⟨.directJump, .block j⟩] := by
  simp only [hf.names]
  cases h0 : last.stringOperand 0 with
  | error f =>
    refine iff_of_false (settle_of_fault ?_ ix b es) (by simp)
    simp [ofInstructions, ho, h0, fail]
  | ok label =>
    cases hl : ix.labelled label with
    | error cause =>
      refine iff_of_false (settle_of_fault ?_ ix b es) (by simp [hl])
      simp [ofInstructions, ho, h0, hl, fail]
    | ok j =>
      have hp : ofInstructions ix node index labels top [last] =
          ⟨[⟨.directJump, .block j⟩], [], none⟩ := by
        simp [ofInstructions, ho, h0, hl, edgesThen, done]
      rw [hp, settle_of_edges rfl (by simp)]
      simp [hl, List.eraseDups_cons, eq_comm]

theorem settle_jumpIfFalse (hf : ix.Finds g) (node : String) {index : Int} (labels : List String)
    (top : Option String) {last : Instruction} (ho : last.opcode = .jumpIfFalse) {b : Block}
    (hi : index + 1 = b.endIndex) (es : List (Edge n)) :
    (ofInstructions ix node index labels top [last]).settle ix b = .ok es ↔
      ∃ j k, g.Names ix.node last 0 j ∧ g.StartsAt k b.endIndex ∧
        es = [⟨.expressionIsFalse, .block j⟩, ⟨.expressionIsTrue, .block k⟩] := by
  simp only [hf.names, ← hf.starting]
  cases h0 : last.stringOperand 0 with
  | error f =>
    refine iff_of_false (settle_of_fault ?_ ix b es) (by simp)
    simp [ofInstructions, ho, h0, fail]
  | ok label =>
    cases hl : ix.labelled label with
    | error cause =>
      refine iff_of_false (settle_of_fault ?_ ix b es) (by simp [hl])
      simp [ofInstructions, ho, h0, hl, fail]
    | ok j =>
      cases hk : ix.starting b.endIndex with
      | error cause =>
        refine iff_of_false (settle_of_fault ?_ ix b es) (by simp)
        simp [ofInstructions, ho, h0, hl, hi, hk, fail]
      | ok k =>
        have hp : ofInstructions ix node index labels top [last] =
            ⟨[⟨.expressionIsFalse, .block j⟩, ⟨.expressionIsTrue, .block k⟩], [], none⟩ := by
          simp [ofInstructions, ho, h0, hl, hi, hk, edgesThen, done]
        have hd : ([⟨.expressionIsFalse, .block j⟩, ⟨.expressionIsTrue, .block k⟩] :
            List (Edge n)).eraseDups =
            [⟨.expressionIsFalse, .block j⟩, ⟨.expressionIsTrue, .block k⟩] := by
          simp [List.eraseDups_cons]
        rw [hp, settle_of_edges rfl (by simp), hd, Except.ok.injEq]
        apply Iff.intro
        · rintro rfl
          exact ⟨j, k, ⟨label, rfl, hl⟩, rfl, rfl⟩
        · rintro ⟨j', k', ⟨label', h', hl'⟩, hk', rfl⟩
          cases h'
          cases hk'
          rw [hl] at hl'
          cases hl'
          rfl

theorem settle_jump (hf : ix.Finds g) (node : String) (index : Int) (labels : List String)
    (top : Option String) {last : Instruction} (ho : last.opcode = .jump) {b : Block}
    (hb : b.last? = some last) (es : List (Edge n)) :
    (ofInstructions ix node index labels top [last]).settle ix b = .ok es ↔
      if labels = [] then g.RunsInto b es
      else ∃ js, List.Forall₂ (fun label j => ix.labelled label = .ok j) labels js ∧
        es = js.eraseDups.map (fun j => ⟨.option, .block j⟩) := by
  have hr : b.runsOn = true := by simp [Block.runsOn, hb, ho]
  have hp : ofInstructions ix node index labels top [last] = append (options ix labels) done := by
    simp [ofInstructions, ho]
  rw [hp]
  split
  · next h =>
    subst h
    exact settle_of_runsOn hf rfl rfl hr es
  · next h =>
    cases hfault : (options ix labels).fault with
    | some f =>
      refine iff_of_false (settle_of_fault (by simp [append, hfault]) ix b es) ?_
      rintro ⟨js, hj, -⟩
      rw [options_of_forall₂ hj] at hfault
      cases hfault
    | none =>
      obtain ⟨js, hj⟩ := forall₂_of_options hfault
      have hne : js ≠ [] := by
        rintro rfl
        exact h (List.forall₂_nil_right_iff.mp hj)
      have he : append (options ix labels) done =
          ⟨js.map (fun j => ⟨.option, .block j⟩), [], none⟩ := by
        rw [options_of_forall₂ hj]
        simp [append, done]
      have hinj : Function.Injective (fun j : Fin n => (⟨.option, .block j⟩ : Edge n)) := by
        intro j k h
        cases h
        rfl
      rw [he, settle_of_edges rfl (by simpa using hne), Except.ok.injEq, eraseDups_map hinj]
      apply Iff.intro
      · rintro rfl
        exact ⟨js, hj, rfl⟩
      · rintro ⟨js', hj', rfl⟩
        have hu : Relator.RightUnique (fun label j => ix.labelled label = .ok j) := by
          intro label j k h h'
          exact Except.ok.inj (h.symm.trans h')
        rw [List.right_unique_forall₂' hu hj hj']

theorem settle_runNode (hf : ix.Finds g) (node : String) (index : Int) (labels : List String)
    (top : Option String) {last : Instruction} (ho : last.opcode = .runNode) {b : Block}
    (hb : b.last? = some last) (es : List (Edge n)) :
    (ofInstructions ix node index labels top [last]).settle ix b = .ok es ↔
      (∃ s, top = some s ∧ s ≠ "" ∧ es = [⟨.directJump, .node s⟩]) ∨
        top = none ∧ g.RunsInto b es := by
  have hr : b.runsOn = true := by simp [Block.runsOn, hb, ho]
  cases top with
  | none =>
    have hp : ofInstructions ix node index labels none [last] = ⟨[], [index], none⟩ := by
      simp [ofInstructions, ho, append, done]
    rw [hp, settle_of_runsOn hf rfl rfl hr]
    simp
  | some s =>
    by_cases hs : s = ""
    · refine iff_of_false (settle_of_fault ?_ ix b es) (by simp [hs])
      simp [ofInstructions, ho, hs, fail]
    · have hp : ofInstructions ix node index labels (some s) [last] =
          ⟨[⟨.directJump, .node s⟩], [], none⟩ := by
        simp [ofInstructions, ho, hs, edgesThen, done]
      rw [hp, settle_of_edges rfl (by simp)]
      simp [hs, List.eraseDups_cons, eq_comm]

theorem settle_stop (node : String) (index : Int) (labels : List String) (top : Option String)
    {last : Instruction} (ho : last.opcode = .stop) {b : Block} (hb : b.last? = some last)
    (es : List (Edge n)) :
    (ofInstructions ix node index labels top [last]).settle ix b = .ok es ↔ es = [] := by
  have hr : b.runsOn = false := by simp [Block.runsOn, hb, ho]
  have hp : ofInstructions ix node index labels top [last] = done := by
    simp [ofInstructions, ho]
  rw [hp]
  simp [settle, done, hr, eq_comm]

theorem ofBlock_concat (ix : Index n) {b : Block} {body : List Instruction} {last : Instruction}
    (hb : b.instructions = body ++ [last]) (hg : ∀ i ∈ body, i.opcode.endsBlock = false)
    (hs : ∀ i ∈ body, i.IsSupplied) :
    ofBlock ix b = ofInstructions ix b.node (b.first + body.length) (optionLabels body)
      (body.foldl topAfter none) [last] := by
  rw [ofBlock, hb, ofInstructions_append ix b.node b.first [] none [last] hg hs, List.nil_append]

end Plan

theorem isSupplied_of_endsBlock {i : Instruction} (h : i.opcode.endsBlock = true) :
    i.IsSupplied := by
  constructor <;> intro ho <;> simp [ho, Opcode.endsBlock] at h

theorem forall₂_names (hf : ix.Finds g) {as : List Instruction} {labels : List String}
    (h : List.Forall₂ (fun a label => a.operands[1]? = some (.string label)) as labels)
    (js : List (Fin n)) :
    List.Forall₂ (fun label j => ix.labelled label = .ok j) labels js ↔
      List.Forall₂ (fun a j => g.Names ix.node a 1 j) as js := by
  induction h generalizing js with
  | nil => simp
  | @cons a label as labels ha _ ih =>
    have hn : ∀ j, ix.labelled label = .ok j ↔ g.Names ix.node a 1 j := by
      intro j
      have h1 : a.stringOperand 1 = .ok label := (a.stringOperand_eq_ok_iff 1 label).mpr ha
      rw [hf.names]
      simp [h1]
    cases js with
    | nil => simp
    | cons j js => rw [List.forall₂_cons, List.forall₂_cons, hn, ih]

namespace Index.Finds

theorem exits_of_goesOn (hf : ix.Finds g) {b : Block} {last : Instruction}
    (hl : b.last? = some last) (hg : ∀ i ∈ b.instructions, i.opcode.endsBlock = false)
    (es : List (Edge n)) :
    ix.exits b = .ok es ↔ (∀ i ∈ b.instructions, i.IsSupplied) ∧ g.RunsInto b es := by
  by_cases hs : ∀ i ∈ b.instructions, i.IsSupplied
  · have hm : last ∈ b.instructions := List.mem_of_getLast? hl
    have hr : b.runsOn = true := by
      have := hg last hm
      cases ho : last.opcode <;> simp_all [Block.runsOn, Opcode.endsBlock]
    have hp : Plan.ofBlock ix b = Plan.done := by
      have := Plan.ofInstructions_append ix b.node b.first [] none [] hg hs
      rwa [List.append_nil] at this
    rw [exits, hp, Plan.settle_of_runsOn hf rfl rfl hr]
    exact ⟨fun h => ⟨hs, h⟩, fun h => h.2⟩
  · refine iff_of_false (Plan.settle_of_fault ?_ ix b es) (fun h => hs h.1)
    have := Plan.fault_ofInstructions_append ix b.node b.first [] none [] hg hs
    rwa [List.append_nil] at this

theorem exits_of_endsBlock (hf : ix.Finds g) {b : Block} {body : List Instruction}
    {last : Instruction} (hb : b.instructions = body ++ [last])
    (hg : ∀ i ∈ body, i.opcode.endsBlock = false) (he : last.opcode.endsBlock = true)
    (hs : ∀ i ∈ body, i.IsSupplied) (es : List (Edge n)) :
    ix.exits b = .ok es ↔ g.Exits ix.node b last es := by
  have hl : b.last? = some last := by rw [Block.last?, hb, List.getLast?_concat]
  have hp := Plan.ofBlock_concat ix hb hg hs
  have hi : b.first + body.length + 1 = b.endIndex := by
    rw [Block.endIndex, hb, List.length_append]
    simp [Int.add_assoc]
  rw [exits, hp, Graph.Exits]
  cases ho : last.opcode with
  | jumpTo => exact Plan.settle_jumpTo hf _ _ _ _ ho b es
  | jumpIfFalse => exact Plan.settle_jumpIfFalse hf _ _ _ ho hi es
  | jump =>
    have ha : addedOptions b.instructions = addedOptions body := by
      rw [hb, addedOptions_concat, if_neg (by simp [ho]), List.append_nil]
    have h₂ := Plan.forall₂_optionLabels hs
    have hn : Plan.optionLabels body = [] ↔ addedOptions body = [] := by
      rw [← List.length_eq_zero_iff, ← List.length_eq_zero_iff, h₂.length_eq]
    rw [Plan.settle_jump hf _ _ _ _ ho hl]
    simp only [ha, hn, forall₂_names hf h₂]
  | runNode =>
    have ht : lastPush? b.instructions = lastPush? body := by
      rw [hb, lastPush?_concat, if_neg (by simp [ho, Opcode.pushes])]
    rw [Plan.settle_runNode hf _ _ _ _ ho hl, Plan.foldl_topAfter_eq_none_iff hs]
    simp only [ht, Plan.foldl_topAfter_eq_some_iff]
    refine or_congr_left ?_
    apply Iff.intro
    · rintro ⟨s, ⟨t, hlast, hpush, h0⟩, hne, rfl⟩
      exact ⟨t, s, hlast, hpush, h0, hne, rfl⟩
    · rintro ⟨t, s, hlast, hpush, h0, hne, rfl⟩
      exact ⟨s, ⟨t, hlast, hpush, h0⟩, hne, rfl⟩
  | stop => exact Plan.settle_stop _ _ _ _ ho hl es
  | _ => simp [ho, Opcode.endsBlock] at he

/-- A block can be linked if its instructions have the operands that they need and the last one
leads somewhere, and then it gets the edges that the last one asks for. -/
theorem exits_eq_ok_iff (hf : ix.Finds g) {b : Block} {body : List Instruction}
    {last : Instruction} (hb : b.instructions = body ++ [last])
    (hg : ∀ i ∈ body, i.opcode.endsBlock = false) (es : List (Edge n)) :
    ix.exits b = .ok es ↔
      (∀ i ∈ b.instructions, i.IsSupplied) ∧ g.Exits ix.node b last es := by
  cases he : last.opcode.endsBlock with
  | false =>
    have hl : b.last? = some last := by rw [Block.last?, hb, List.getLast?_concat]
    have hall : ∀ i ∈ b.instructions, i.opcode.endsBlock = false := by
      intro i hi
      rw [hb, List.mem_append, List.mem_singleton] at hi
      obtain hi | rfl := hi
      · exact hg i hi
      · exact he
    rw [hf.exits_of_goesOn hl hall, Graph.exits_iff_runsInto he]
  | true =>
    have hall : (∀ i ∈ b.instructions, i.IsSupplied) ↔ ∀ i ∈ body, i.IsSupplied := by
      rw [hb]
      simp [or_imp, forall_and, isSupplied_of_endsBlock he]
    rw [hall]
    by_cases hs : ∀ i ∈ body, i.IsSupplied
    · rw [hf.exits_of_endsBlock hb hg he hs]
      exact ⟨fun h => ⟨hs, h⟩, fun h => h.2⟩
    · refine iff_of_false (Plan.settle_of_fault ?_ ix b es) (fun h => hs h.1)
      rw [Plan.ofBlock, hb]
      exact Plan.fault_ofInstructions_append ix b.node b.first [] none [last] hg hs

end Index.Finds

end Finds

end DialogueFlow
