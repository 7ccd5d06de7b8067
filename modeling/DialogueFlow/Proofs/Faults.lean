import DialogueFlow.Proofs.Acceptance
import DialogueFlow.Proofs.Cutting

namespace DialogueFlow

variable {n : Nat}

def Instruction.Mentions (i : Instruction) (label : String) : Prop :=
  (i.opcode = .jumpTo ∨ i.opcode = .jumpIfFalse) ∧ i.operands[0]? = some (.string label) ∨
    i.opcode = .addOption ∧ i.operands[1]? = some (.string label)

def Fault.isOperand : Fault → Bool
  | .malformed _ | .operandKind _ _ => true
  | .broken _ | .write _ => false

theorem Instruction.isOperand_of_stringOperand {i : Instruction} {p : Int} {f : Fault}
    (h : i.stringOperand p = .error f) : f.isOperand = true := by
  rw [stringOperand, operand] at h
  cases ho : i.operand? p with
  | none =>
    rw [ho] at h
    cases h
    rfl
  | some op =>
    rw [ho] at h
    cases op with
    | string s => cases h
    | _ =>
      cases h
      rfl

namespace Plan

/-- What instructions from `index` on have to do with a fault that keeps them from being planned. -/
inductive Blames (ix : Index n) (node : String) (index : Int) (labels : List String)
    (top : Option String) (instructions : List Instruction) (f : Fault) : Prop
  | label {label : String} {cause : Broken} :
      label ∈ labels ∨ (∃ i ∈ instructions, i.Mentions label) → ix.labelled label = .error cause →
      f = ix.node.fault cause → Blames ix node index labels top instructions f
  | branch {k : Nat} {i : Instruction} {cause : Broken} : instructions[k]? = some i →
      i.opcode = .jumpIfFalse → ix.starting (index + k + 1) = .error cause →
      f = ix.node.fault cause → Blames ix node index labels top instructions f
  | target {k : Nat} {i : Instruction} : instructions[k]? = some i → i.opcode = .runNode →
      (instructions.take k).foldl topAfter top = some "" →
      f = .broken (.emptyJump node (index + k)) → Blames ix node index labels top instructions f

variable {ix : Index n} {node : String} {index : Int} {labels : List String}
  {top : Option String} {f : Fault}

theorem Blames.cons {i : Instruction} {rest : List Instruction} {labels' : List String}
    (h : Blames ix node (index + 1) labels' (topAfter top i) rest f)
    (hl : ∀ label ∈ labels', label ∈ labels ∨ i.Mentions label) :
    Blames ix node index labels top (i :: rest) f := by
  cases h with
  | @label label _ hm he hf =>
    refine .label ?_ he hf
    obtain hm | ⟨j, hj, hm⟩ := hm
    · exact (hl label hm).imp_right (fun hi => ⟨i, by simp, hi⟩)
    · exact .inr ⟨j, by simp [hj], hm⟩
  | @branch k j _ hj ho he hf =>
    refine .branch (k := k + 1) hj ho ?_ hf
    rw [← he]
    congr 1
    omega
  | @target k j hj ho ht he =>
    refine .target (k := k + 1) hj ho ht ?_
    rw [he]
    congr 2
    omega

theorem exists_label_of_options (h : (options ix labels).fault = some f) :
    ∃ label ∈ labels, ∃ cause, ix.labelled label = .error cause ∧ f = ix.node.fault cause := by
  induction labels with
  | nil => cases h
  | cons label labels ih =>
    rw [options] at h
    cases hl : ix.labelled label with
    | error cause =>
      simp only [hl, fail, Option.some.injEq] at h
      exact ⟨label, by simp, cause, hl, h.symm⟩
    | ok j =>
      simp only [hl, edgesThen] at h
      obtain ⟨other, ho, he⟩ := ih h
      exact ⟨other, by simp [ho], he⟩

theorem fault_append {p q : Plan n} {f : Fault} (h : (append p q).fault = some f) :
    p.fault = some f ∨ q.fault = some f := by
  rw [append] at h
  cases hp : p.fault with
  | some f' => exact .inl (by simpa [hp] using h)
  | none => exact .inr (by simpa [hp] using h)

theorem topAfter_of_endsBlock (top : Option String) {i : Instruction}
    (h : i.opcode.endsBlock = true) : topAfter top i = top := by
  rw [topAfter]
  cases ho : i.opcode <;> simp_all [Opcode.endsBlock]

theorem mentions_of_mem_optionLabels {i : Instruction} {label : String}
    (h : label ∈ optionLabels [i]) : i.Mentions label := by
  obtain ⟨j, hj, hl⟩ := List.mem_filterMap.mp h
  obtain ⟨hj, ho⟩ := List.mem_filter.mp hj
  obtain rfl := List.mem_singleton.mp hj
  refine .inr ⟨by simpa using ho, (j.stringOperand_eq_ok_iff 1 label).mp ?_⟩
  cases h1 : j.stringOperand 1 with
  | error f => simp [h1, Except.toOption] at hl
  | ok s => simpa [h1, Except.toOption] using hl

theorem isOperand_of_not_isSupplied {i : Instruction} (hs : ¬ i.IsSupplied)
    {rest : List Instruction}
    (h : (ofInstructions ix node index labels top (i :: rest)).fault = some f) :
    f.isOperand = true := by
  rw [ofInstructions.eq_def] at h
  cases ho : i.opcode with
  | addOption =>
    cases h1 : i.stringOperand 1 with
    | error f' =>
      simp only [ho, h1, fail, Option.some.injEq] at h
      exact h ▸ Instruction.isOperand_of_stringOperand h1
    | ok s =>
      have h1 := (i.stringOperand_eq_ok_iff 1 s).mp h1
      exact absurd ⟨fun _ => ⟨s, h1⟩, fun h' => by simp [ho] at h'⟩ hs
  | pushString =>
    cases h0 : i.stringOperand 0 with
    | error f' =>
      simp only [ho, h0, fail, Option.some.injEq] at h
      exact h ▸ Instruction.isOperand_of_stringOperand h0
    | ok s =>
      have h0 := (i.stringOperand_eq_ok_iff 0 s).mp h0
      exact absurd ⟨fun h' => by simp [ho] at h', fun _ => ⟨s, h0⟩⟩ hs
  | _ => exact absurd ⟨fun h => by simp [ho] at h, fun h => by simp [ho] at h⟩ hs

theorem blames_of_endsBlock {i : Instruction} {rest : List Instruction}
    (hb : i.opcode.endsBlock = true) (hf : f.isOperand = false)
    (later : (ofInstructions ix node (index + 1) labels top rest).fault = some f →
      Blames ix node index labels top (i :: rest) f)
    (h : (ofInstructions ix node index labels top (i :: rest)).fault = some f) :
    Blames ix node index labels top (i :: rest) f := by
  have hnot : i.stringOperand 0 ≠ .error f := fun h0 => by
    simp [Instruction.isOperand_of_stringOperand h0] at hf
  rw [ofInstructions.eq_def] at h
  cases ho : i.opcode with
  | jump =>
    simp only [ho] at h
    obtain h | h := fault_append h
    · obtain ⟨label, hl, cause, he, hc⟩ := exists_label_of_options h
      exact .label (.inl hl) he hc
    · exact later h
  | jumpTo =>
    cases h0 : i.stringOperand 0 with
    | error f' =>
      simp only [ho, h0, fail, Option.some.injEq] at h
      exact absurd (h ▸ h0) hnot
    | ok label =>
      have hm : i.Mentions label := .inl ⟨.inl ho, (i.stringOperand_eq_ok_iff 0 label).mp h0⟩
      cases hl : ix.labelled label with
      | error cause =>
        simp only [ho, h0, hl, fail, Option.some.injEq] at h
        exact .label (.inr ⟨i, by simp, hm⟩) hl h.symm
      | ok j =>
        simp only [ho, h0, hl, edgesThen] at h
        exact later h
  | jumpIfFalse =>
    cases h0 : i.stringOperand 0 with
    | error f' =>
      simp only [ho, h0, fail, Option.some.injEq] at h
      exact absurd (h ▸ h0) hnot
    | ok label =>
      have hm : i.Mentions label := .inl ⟨.inr ho, (i.stringOperand_eq_ok_iff 0 label).mp h0⟩
      cases hl : ix.labelled label with
      | error cause =>
        simp only [ho, h0, hl, fail, Option.some.injEq] at h
        exact .label (.inr ⟨i, by simp, hm⟩) hl h.symm
      | ok j =>
        cases hk : ix.starting (index + 1) with
        | error cause =>
          simp only [ho, h0, hl, hk, fail, Option.some.injEq] at h
          exact .branch (k := 0) rfl ho (by simpa using hk) h.symm
        | ok k =>
          simp only [ho, h0, hl, hk, edgesThen] at h
          exact later h
  | runNode =>
    cases top with
    | none =>
      simp only [ho] at h
      obtain h | h := fault_append h
      · cases h
      · exact later h
    | some name =>
      by_cases hn : name = ""
      · subst hn
        have h : Fault.broken (.emptyJump node index) = f := by simpa [ho, fail] using h
        exact .target (k := 0) rfl ho rfl (by simp [← h])
      · exact later (by simpa [ho, hn, edgesThen] using h)
  | stop => exact later (by simpa [ho] using h)
  | _ => simp [ho, Opcode.endsBlock] at hb

/-- What a plan reports, other than an operand, is to be blamed on its instructions. -/
theorem blames_of_fault {instructions : List Instruction} (hf : f.isOperand = false)
    (h : (ofInstructions ix node index labels top instructions).fault = some f) :
    Blames ix node index labels top instructions f := by
  -- The induction follows the plan, with the labels and the top that it has collected so far.
  induction instructions generalizing index labels top with
  | nil => cases h
  | cons i rest ih =>
    cases hb : i.opcode.endsBlock with
    | false =>
      by_cases hs : i.IsSupplied
      · rw [ofInstructions_cons ix node index labels top rest hb hs] at h
        refine (ih h).cons (fun label hl => ?_)
        exact (List.mem_append.mp hl).imp_right mentions_of_mem_optionLabels
      · simp [isOperand_of_not_isSupplied hs h] at hf
    | true =>
      refine blames_of_endsBlock hb hf (fun later => ?_) h
      have later := ih later
      rw [← topAfter_of_endsBlock top hb] at later
      exact later.cons (fun _ hl => .inl hl)

end Plan

namespace Graph

theorem fault_linkBlock {g : Graph n} {ix : Index n} {i : Fin n} {f : Fault}
    (h : (g.linkBlock ix i).fault = some f) :
    (Plan.ofBlock ix (g.block i)).fault = some f ∨ (g.block i).runsOn = true ∧
      ∃ cause, ix.starting (g.block i).endIndex = .error cause ∧ f = ix.node.fault cause := by
  have hb := block_eq (g.blocks_addAll i (Plan.ofBlock ix (g.block i)).edges) i
  simp only [linkBlock, addEdges_ofBlock, addEdges_block, Option.map_none, Option.none_or] at h
  cases hf : (Plan.ofBlock ix (g.block i)).fault with
  | some f' => exact .inl (by simpa [hf] using h)
  | none =>
    simp only [hf, hb] at h
    split at h
    · next hr =>
      refine .inr ⟨(Bool.and_eq_true_iff.mp hr).2, ?_⟩
      cases hj : ix.starting (g.block i).endIndex with
      | ok j => simp [hj] at h
      | error cause => exact ⟨cause, rfl, by simpa [hj, eq_comm] using h⟩
    · cases h

theorem fault_linkBlocks {g : Graph n} {ix : Index n} {is : List (Fin n)} {f : Fault}
    (h : (g.linkBlocks ix is).fault = some f) :
    ∃ i, (Plan.ofBlock ix (g.block i)).fault = some f ∨ (g.block i).runsOn = true ∧
      ∃ cause, ix.starting (g.block i).endIndex = .error cause ∧ f = ix.node.fault cause := by
  induction is generalizing g with
  | nil => cases h
  | cons i is ih =>
    rw [linkBlocks] at h
    cases hf : (g.linkBlock ix i).fault with
    | some f' => exact ⟨i, fault_linkBlock (by simpa [hf] using h)⟩
    | none =>
      obtain ⟨k, hk⟩ := ih (by simpa [hf] using h)
      rw [block_eq (g.blocks_linkBlock ix i)] at hk
      exact ⟨k, hk⟩

end Graph

namespace Node

variable {node : Node} {cause : Broken} {f : Fault} {s e : Nat}

/-- What can be wrong with a node so that its blocks are not linked. -/
inductive Dangling (node : Node) : Broken → Prop
  | label {i : Instruction} {label : String} : i ∈ node.instructions → i.Mentions label →
      label ∉ node.labels.keys → Dangling node (.noLabel node.name label)
  | past {last : Instruction} : node.instructions.getLast? = some last → last.opcode ≠ .stop →
      Dangling node (.noBlock node.name node.instructions.length)
  | unnamed {p : Nat} {i t : Instruction} : node.instructions[p]? = some i → i.opcode = .runNode →
      lastPush? (node.since p) = some t → t.opcode = .pushString →
      t.operands[0]? = some (.string "") → Dangling node (.emptyJump node.name p)

@[simp] theorem node_index (node : Node) : node.index.node = node := rfl

theorem labelled_eq_error (hs : ∀ e ∈ node.labels.entries, node.Holds e.2) {label : String}
    (h : node.index.labelled label = .error cause) :
    label ∉ node.labels.keys ∧ cause = .noLabel node.name label := by
  rw [Index.labelled, node_index] at h
  cases hl : node.labels.get? label with
  | none =>
    simp only [hl, Except.error.injEq] at h
    refine ⟨fun hm => ?_, h.symm⟩
    obtain ⟨k, hk⟩ := Table.mem_keys_iff.mp hm
    simp [hl] at hk
  | some k =>
    -- Labels are in range, so a block starts where they lead.
    have he := Table.mem_entries_of_get? hl
    obtain ⟨j, hj⟩ := (exists_startsAt_iff k).mpr (exists_leads_of_label he (hs _ he))
    simp [hl, (node.index_finds k j).mpr hj] at h

theorem starting_eq_error {q : Nat} (hle : q ≤ node.instructions.length)
    (hlead : q < node.instructions.length → node.Leads q)
    (h : node.index.starting q = .error cause) :
    q = node.instructions.length ∧ cause = .noBlock node.name q := by
  rw [Index.starting] at h
  cases hf : node.index.find? q with
  | some j => simp [hf] at h
  | none =>
    refine ⟨?_, by simpa [hf, eq_comm] using h⟩
    by_contra hne
    have hlt : q < node.instructions.length := by omega
    obtain ⟨j, hj⟩ := (exists_startsAt_iff (q : Int)).mpr ⟨q, rfl, hlt, hlead hlt⟩
    simp [(node.index_finds q j).mpr hj] at hf

theorem of_getElem?_slice {k : Nat} {i : Instruction}
    (h : (node.slice s e).instructions[k]? = some i) :
    s + k < e ∧ node.instructions[s + k]? = some i := by
  rw [slice, List.getElem?_take] at h
  split at h
  · next hk =>
    rw [List.getElem?_drop] at h
    exact ⟨by omega, h⟩
  · cases h

theorem Segment.take_slice (hseg : node.Segment s e) {k : Nat} (hk : s + k < e) :
    (node.slice s e).instructions.take k = node.since (s + k) := by
  rw [hseg.since_eq (by omega) hk, slice, List.take_take, List.drop_take]
  congr 1
  omega

theorem fault_noBlock_length (node : Node) :
    node.fault (.noBlock node.name node.instructions.length) =
      .broken (.noBlock node.name node.instructions.length) := by
  simp [fault, writes]

theorem Segment.dangling_of_blames (hseg : node.Segment s e)
    (hl : ∀ e ∈ node.labels.entries, node.Holds e.2)
    (h : Plan.Blames node.index node.name s [] none (node.slice s e).instructions f) :
    ∃ cause, f = .broken cause ∧ node.Dangling cause := by
  cases h with
  | label hm he hf =>
    obtain hm | ⟨i, hi, hm⟩ := hm
    · cases hm
    · obtain ⟨hlabel, rfl⟩ := labelled_eq_error hl he
      exact ⟨_, hf, .label (List.mem_of_mem_drop (List.mem_of_mem_take hi)) hm hlabel⟩
  | @branch k i _ hi ho he hf =>
    obtain ⟨hk, hi⟩ := of_getElem?_slice hi
    have hle := hseg.le
    have hb : i.opcode.endsBlock = true := by rw [ho]; rfl
    obtain ⟨hq, rfl⟩ := starting_eq_error (q := s + k + 1) (by omega) (fun _ => leads_succ hi hb) he
    obtain ⟨-, hlast⟩ := getLast?_of_last hi (by omega)
    rw [hq, node_index, fault_noBlock_length] at hf
    exact ⟨_, hf, .past hlast (by simp [ho])⟩
  | @target k i hi ho ht hf =>
    obtain ⟨hk, hi⟩ := of_getElem?_slice hi
    rw [hseg.take_slice hk, Plan.foldl_topAfter_eq_some_iff] at ht
    obtain ⟨t, hlast, hpush, h0⟩ := ht
    exact ⟨_, hf, .unnamed hi ho hlast hpush h0⟩

theorem Segment.dangling_of_runsOn (hseg : node.Segment s e)
    (hr : (node.slice s e).runsOn = true)
    (h : node.index.starting (node.slice s e).endIndex = .error cause) :
    cause = .noBlock node.name node.instructions.length ∧ node.Dangling cause := by
  have hlt := hseg.lt
  obtain ⟨last, hlast⟩ := hseg.exists_last
  rw [hseg.endIndex_slice] at h
  obtain ⟨he, rfl⟩ := starting_eq_error hseg.le hseg.stops h
  obtain ⟨-, hend⟩ := getLast?_of_last hlast (by omega)
  rw [Block.runsOn, hseg.last_slice, hlast] at hr
  rw [he]
  exact ⟨rfl, .past hend (by simpa using hr)⟩

theorem dangling_of_flow (hl : ∀ e ∈ node.labels.entries, node.Holds e.2)
    (hf : f.isOperand = false) (h : node.flow = .error f) :
    ∃ cause, f = .broken cause ∧ node.Dangling cause := by
  have hp := partition_leaders_eq_ok_iff.mpr ⟨fun _ => hl, Eq.refl node.cut⟩
  have hfault : (node.link node.cut).fault = some f := by
    rw [flow, hp] at h
    cases hlink : (node.link node.cut).fault with
    | some f' => simpa [hlink] using h
    | none => simp [hlink] at h
  rw [link_cut] at hfault
  obtain ⟨i, hi⟩ := Graph.fault_linkBlocks hfault
  obtain ⟨s, e, hseg, hb⟩ := exists_segment (node.block_unlinked_mem i)
  rw [hb] at hi
  obtain hi | ⟨hr, cause, hc, hi⟩ := hi
  · exact hseg.dangling_of_blames hl (Plan.blames_of_fault hf hi)
  · obtain ⟨rfl, hd⟩ := hseg.dangling_of_runsOn hr hc
    exact ⟨_, hi.trans node.fault_noBlock_length, hd⟩

def stray? (node : Node) : Option (String × Int) :=
  node.labels.entries.find? (fun e => !decide (node.Holds e.2))

theorem stray?_eq_none_iff :
    node.stray? = none ↔ ∀ e ∈ node.labels.entries, node.Holds e.2 := by
  simp [stray?]

theorem uncut?_leaders (node : Node) : node.uncut? node.leaders = node.stray? := by
  rw [uncut?, stray?, ← List.head?_filter, ← List.head?_filter]
  refine congrArg List.head? (List.filter_congr (fun e he => ?_))
  simp [mem_starts_of_label he]

theorem flow_of_stray (hne : node.instructions ≠ []) {label : String} {k : Int}
    (h : node.stray? = some (label, k)) :
    node.flow = .error (node.fault (.labelInside node.name label k)) := by
  obtain ⟨rest, hs⟩ := exists_starts hne
  rw [flow, partition_of_uncut hs (node.uncut?_leaders.trans h)]

/-- The first label that targets no instruction targets a place that cannot be written. -/
def Unwritten (node : Node) : Prop := ∃ e ∈ node.stray?, node.writes e.2 = false

theorem exists_flow_of_isEmpty (h : node.instructions = []) : ∃ f, node.flow = .ok f := by
  have hcut : node.cut = [] := by
    rw [cut, starts_of_isEmpty h]
    rfl
  simp only [flow_eq_ok_iff, link_fault_eq_none_iff]
  exact ⟨_, fun hne => absurd h hne, by simp [hcut], rfl⟩

theorem flow_eq_write_iff :
    node.flow = .error (.write .longInteger) ↔ node.instructions ≠ [] ∧ node.Unwritten := by
  apply Iff.intro
  · intro h
    have hne : node.instructions ≠ [] := by
      intro hnil
      obtain ⟨f, hf⟩ := exists_flow_of_isEmpty hnil
      simp [hf] at h
    refine ⟨hne, ?_⟩
    cases hs : node.stray? with
    | none =>
      obtain ⟨cause, hf, -⟩ := dangling_of_flow (stray?_eq_none_iff.mp hs) rfl h
      cases hf
    | some e =>
      refine ⟨e, hs, ?_⟩
      rw [flow_of_stray hne hs] at h
      by_contra hw
      rw [fault, if_pos (by simpa using hw)] at h
      cases h
  · rintro ⟨hne, e, hs, hw⟩
    rw [flow_of_stray hne hs, fault_labelInside hw]

/-- A node has a flow just if it is accepted. Otherwise a fault is reported, unless the first label
that targets no instruction targets a place that cannot be written. -/
theorem flow_outcome (h : node.instructions ≠ []) :
    ((∃ f, node.flow = .ok f) ↔ node.Accepted) ∧
      (¬ node.Accepted → ¬ node.Unwritten →
        ∃ fault d, node.flow = .error fault ∧ fault.report = .ok d) ∧
      (node.Unwritten → node.flow = .error (.write .longInteger)) := by
  refine ⟨exists_flow_iff h, fun hn hw => ?_, fun hw => flow_eq_write_iff.mpr ⟨h, hw⟩⟩
  rw [← exists_flow_iff h] at hn
  cases hf : node.flow with
  | ok f => exact absurd ⟨f, hf⟩ hn
  | error fault =>
    cases fault with
    | write w =>
      cases w
      exact absurd (flow_eq_write_iff.mp hf).2 hw
    | _ => exact ⟨_, _, rfl, rfl⟩

def mast : Node := ⟨"Mast", [⟨.runLine, [.string "line:ahoy"]⟩], ∅, ∅⟩

theorem flow_outcome_crossroads :
    (crossroads.instructions ≠ [] ∧ (∃ f, crossroads.flow = .ok f) ∧ crossroads.Accepted) ∧
      (mast.instructions ≠ [] ∧ ¬ mast.Accepted ∧
        ∃ fault d, mast.flow = .error fault ∧ fault.report = .ok d) := by
  have hsize : crossroads.flow.toOption.map Flow.size = some 4 := by decide +kernel
  obtain ⟨f, hf, -⟩ := exists_flow_of_size hsize
  have hmast : mast.instructions ≠ [] := by simp [mast]
  have hnone : mast.flow.toOption.isNone = true := by decide +kernel
  have hacc : ¬ mast.Accepted := by
    rw [← (flow_outcome hmast).1]
    rintro ⟨f, hf⟩
    simp [hf, Except.toOption] at hnone
  have hne : crossroads.instructions ≠ [] := List.cons_ne_nil _ _
  refine ⟨⟨hne, ⟨f, hf⟩, (flow_outcome hne).1.mp ⟨f, hf⟩⟩, hmast, hacc, ?_⟩
  refine (flow_outcome hmast).2.1 hacc ?_
  rintro ⟨e, he, -⟩
  cases he

theorem stray?_offing {k : Int} (hk : 1 < k) : (offing k).stray? = some ("Buoy", k) := by
  have hout : ¬ (offing k).Holds k := fun h => Int.lt_asymm hk h.2
  exact List.find?_cons_of_pos (by simp [hout])

theorem flow_offing {k : Int} (hk : 1 < k) (hw : isWritable k = false) :
    (offing k).flow = .error (.write .longInteger) := by
  have hwrites : (offing k).writes k = false := writes_eq_false hk hw
  exact flow_eq_write_iff.mpr ⟨List.cons_ne_nil _ _, _, stray?_offing hk, hwrites⟩

theorem offing_unaccepted_unreported :
    (offing writeBound).instructions ≠ [] ∧
      ¬ (offing writeBound).Accepted ∧
      ∃ fault, (offing writeBound).flow = .error fault ∧
        ∀ d, fault.report ≠ .ok d := by
  have hk := one_lt_writeBound
  refine ⟨List.cons_ne_nil _ _, fun h => ?_, _, flow_offing hk isWritable_writeBound,
    by simp [Fault.report]⟩
  exact Int.lt_asymm hk (h.labels _ (List.mem_singleton_self _)).2

end Node

theorem writeSummary_eq_ok {vertices : List Vertex}
    (h : ∀ v ∈ vertices, isWritable (v.block.endIndex - 1) = true) :
    writeSummary vertices = .ok (summary vertices) := by
  have hall : vertices.mapM Vertex.writeSummary = .ok (vertices.map Vertex.summary) := by
    rw [mapM_eq_ok_iff, List.forall₂_map_right_iff, List.forall₂_same]
    intro v hv
    rw [Vertex.writeSummary, if_pos (h v hv)]
  rw [writeSummary, hall]
  rfl

/-- All places in the summary of a flow can be written if the last of its node can. -/
theorem Node.writeSummary_flow {node : Node} {f : Flow} (h : node.flow = .ok f)
    (hlength : isWritable node.instructions.length = true) :
    writeSummary f.vertices = .ok (summary f.vertices) := by
  apply writeSummary_eq_ok
  intro v hv
  obtain ⟨i, -, rfl⟩ := List.mem_map.mp hv
  have hblock : f.graph.block i ∈ node.cut := by
    rw [← (linked_of_flow h).blocks, Flow.blocks, Graph.block]
    simp
  obtain ⟨s, e, hseg, hb⟩ := exists_segment hblock
  have hend : (f.graph.vertex i).block.endIndex = e := by
    rw [Graph.vertex, hb, hseg.endIndex_slice]
  have hlt := hseg.lt
  have hle := hseg.le
  rw [isWritable, decide_eq_true_iff] at hlength ⊢
  omega

end DialogueFlow
