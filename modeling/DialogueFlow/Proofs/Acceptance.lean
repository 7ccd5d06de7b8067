import DialogueFlow.Proofs.Link
import DialogueFlow.Proofs.Table

namespace DialogueFlow

namespace Node

def Knows (node : Node) (i : Instruction) (p : Nat) : Prop :=
  ∃ s, i.operands[p]? = some (.string s) ∧ s ∈ node.labels.keys

/-- What a node needs for its blocks to be linked. -/
structure Accepted (node : Node) : Prop where
  labels : ∀ e ∈ node.labels.entries, node.Holds e.2
  options : ∀ i ∈ node.instructions, i.opcode = .addOption →
    ∃ s, i.operands[1]? = some (.string s)
  texts : ∀ i ∈ node.instructions, i.opcode = .pushString →
    ∃ s, i.operands[0]? = some (.string s)
  jumps : ∀ i ∈ node.instructions, i.opcode = .jumpTo ∨ i.opcode = .jumpIfFalse → node.Knows i 0
  branches : ∀ i, node.instructions.getLast? = some i → i.opcode ≠ .jumpIfFalse
  choices : ∀ p i, node.instructions[p]? = some i → i.opcode = .jump →
    ∀ a ∈ node.around p, a.opcode = .addOption → node.Knows a 1
  targets : ∀ p i, node.instructions[p]? = some i → i.opcode = .runNode →
    ∀ t, lastPush? (node.around p) = some t → t.opcode = .pushString →
      t.operands[0]? ≠ some (.string "")
  ending : ∃ i, node.instructions.getLast? = some i ∧
    (i.opcode = .stop ∨ i.opcode = .jumpTo ∨
      (i.opcode = .jump ∧
        ∃ a ∈ node.around (node.instructions.length - 1), a.opcode = .addOption) ∨
      (i.opcode = .runNode ∧ ∃ t,
        lastPush? (node.around (node.instructions.length - 1)) = some t ∧ t.opcode = .pushString))

variable {node : Node}

theorem exists_startsAt_iff (k : Int) :
    (∃ j, node.unlinked.StartsAt j k) ↔
      ∃ p : Nat, k = p ∧ p < node.instructions.length ∧ node.Leads p := by
  simp only [node.unlinked_apart.startsAt_iff]
  rw [← mem_map_first_cut, List.mem_map]
  apply Iff.intro
  · rintro ⟨j, rfl⟩
    exact ⟨_, node.block_unlinked_mem j, rfl⟩
  · rintro ⟨b, hb, rfl⟩
    obtain ⟨j, rfl⟩ := List.mem_iff_get.mp hb
    exact ⟨j, by rw [unlinked, Graph.block_ofBlocks]⟩

theorem exists_names_iff (hl : ∀ e ∈ node.labels.entries, node.Holds e.2) (i : Instruction)
    (p : Nat) : (∃ j, node.unlinked.Names node i p j) ↔ node.Knows i p := by
  apply Iff.intro
  · rintro ⟨j, k, ⟨s, ho, hk⟩, -⟩
    exact ⟨s, ho, Table.mem_keys_iff.mpr ⟨k, hk⟩⟩
  · rintro ⟨s, ho, hs⟩
    obtain ⟨k, hk⟩ := Table.mem_keys_iff.mp hs
    have he := Table.mem_entries_of_get? hk
    obtain ⟨j, hj⟩ := (exists_startsAt_iff k).mpr (exists_leads_of_label he (hl _ he))
    exact ⟨j, k, ⟨s, ho, hk⟩, hj⟩

theorem Segment.exists_startsAt_iff {s e : Nat} (hseg : node.Segment s e) :
    (∃ j, node.unlinked.StartsAt j (node.slice s e).endIndex) ↔ e < node.instructions.length := by
  rw [Node.exists_startsAt_iff, hseg.endIndex_slice]
  apply Iff.intro
  · rintro ⟨p, hp, hlt, -⟩
    omega
  · exact fun h => ⟨e, rfl, h, hseg.stops h⟩

theorem Segment.exists_runsInto_iff {s e : Nat} (hseg : node.Segment s e) :
    (∃ es, node.unlinked.RunsInto (node.slice s e) es) ↔ e < node.instructions.length := by
  rw [← hseg.exists_startsAt_iff]
  apply Iff.intro
  · rintro ⟨_, j, hj, -⟩
    exact ⟨j, hj⟩
  · rintro ⟨j, hj⟩
    exact ⟨_, j, hj, rfl⟩

/-- Control finds its way after the instruction `i` at `p`. -/
def Continues (node : Node) (p : Nat) (i : Instruction) : Prop :=
  match i.opcode with
  | .jumpTo => node.Knows i 0
  | .jumpIfFalse => node.Knows i 0 ∧ p + 1 < node.instructions.length
  | .jump =>
    if addedOptions (node.around p) = [] then p + 1 < node.instructions.length
    else ∀ a ∈ addedOptions (node.around p), node.Knows a 1
  | .runNode =>
    (∃ t s, lastPush? (node.around p) = some t ∧ t.opcode = .pushString ∧
      t.operands[0]? = some (.string s) ∧ s ≠ "") ∨
    (∀ t, lastPush? (node.around p) = some t → t.opcode ≠ .pushString) ∧
      p + 1 < node.instructions.length
  | .stop => True
  | _ => p + 1 < node.instructions.length

theorem continues_of_goesOn {i : Instruction} (h : i.opcode.endsBlock = false) {p : Nat}
    (hp : p + 1 < node.instructions.length) : node.Continues p i := by
  rw [Continues]
  cases ho : i.opcode <;> simp_all [Opcode.endsBlock]

theorem Segment.exists_exits_iff (hl : ∀ e ∈ node.labels.entries, node.Holds e.2) {s e : Nat}
    (hseg : node.Segment s e) (last : Instruction) :
    (∃ es, node.unlinked.Exits node (node.slice s e) last es) ↔ node.Continues (e - 1) last := by
  have hlt := hseg.lt
  have hr := hseg.exists_runsInto_iff
  have hs := hseg.exists_startsAt_iff
  have hn := exists_names_iff hl
  have ha : node.around (e - 1) = (node.slice s e).instructions :=
    hseg.around_eq (by omega) (by omega)
  have he : e - 1 + 1 = e := by omega
  simp only [Graph.Exits, Continues, ha, he]
  cases ho : last.opcode with
  | jumpTo =>
    rw [← hn]
    simp
  | jumpIfFalse =>
    rw [← hn, ← hs]
    simp
  | jump =>
    by_cases hnil : addedOptions (node.slice s e).instructions = []
    · simp only [hnil, if_true]
      exact hr
    · simp only [hnil, if_false, ← hn, ← exists_forall₂_iff]
      exact ⟨fun ⟨_, js, hj, _⟩ => ⟨js, hj⟩, fun ⟨js, hj⟩ => ⟨_, js, hj, rfl⟩⟩
  | runNode =>
    simp only [← hr]
    apply Iff.intro
    · rintro ⟨es, ⟨t, name, hlast, hpush, h0, hname, -⟩ | ⟨hnone, hes⟩⟩
      · exact .inl ⟨t, name, hlast, hpush, h0, hname⟩
      · exact .inr ⟨hnone, es, hes⟩
    · rintro (⟨t, name, hlast, hpush, h0, hname⟩ | ⟨hnone, es, hes⟩)
      · exact ⟨_, .inl ⟨t, name, hlast, hpush, h0, hname, rfl⟩⟩
      · exact ⟨es, .inr ⟨hnone, hes⟩⟩
  | stop => simp
  | _ => exact hr

theorem link_fault_iff_continues (hl : ∀ e ∈ node.labels.entries, node.Holds e.2) :
    (node.link node.cut).fault = none ↔ (∀ i ∈ node.instructions, i.IsSupplied) ∧
      ∀ p i, node.instructions[p]? = some i → node.Continues p i := by
  rw [link_fault_eq_none_iff]
  apply Iff.intro
  · intro h
    have hseg : ∀ p i, node.instructions[p]? = some i → i.IsSupplied ∧ node.Continues p i := by
      intro p i hi
      obtain ⟨hp, -⟩ := List.getElem?_eq_some_iff.mp hi
      obtain ⟨s, e, hseg, hs, he⟩ := exists_segment_at hp
      have hle := hseg.le
      obtain ⟨hsup, last, es, hlast, hx⟩ := h _ (slice_mem_cut hseg)
      refine ⟨hsup i (mem_slice hs he hi), ?_⟩
      -- Inside a block nothing is asked of an instruction; the last one needs a way out.
      by_cases hin : p + 1 < e
      · exact continues_of_goesOn (hseg.goesOn hs hin hi) (by omega)
      · obtain rfl : p = e - 1 := by omega
        rw [hseg.last_slice, hi] at hlast
        cases hlast
        exact (hseg.exists_exits_iff hl i).mp ⟨es, hx⟩
    refine ⟨fun i hi => ?_, fun p i hi => (hseg p i hi).2⟩
    obtain ⟨p, hp⟩ := List.mem_iff_getElem?.mp hi
    exact (hseg p i hp).1
  · rintro ⟨hsup, hc⟩ b hb
    obtain ⟨s, e, hseg, rfl⟩ := exists_segment hb
    obtain ⟨last, hlast⟩ := hseg.exists_last
    obtain ⟨es, hx⟩ := (hseg.exists_exits_iff hl last).mpr (hc _ _ hlast)
    refine ⟨fun i hi => hsup i ?_, last, es, hseg.last_slice.trans hlast, hx⟩
    exact List.mem_of_mem_drop (List.mem_of_mem_take hi)

theorem getLast?_of_last {p : Nat} {i : Instruction} (hi : node.instructions[p]? = some i)
    (hp : ¬ p + 1 < node.instructions.length) :
    p = node.instructions.length - 1 ∧ node.instructions.getLast? = some i := by
  obtain ⟨hlt, -⟩ := List.getElem?_eq_some_iff.mp hi
  obtain rfl : p = node.instructions.length - 1 := by omega
  exact ⟨rfl, List.getLast?_eq_getElem?.trans hi⟩

theorem Accepted.of_continues (hne : node.instructions ≠ [])
    (hl : ∀ e ∈ node.labels.entries, node.Holds e.2)
    (hs : ∀ i ∈ node.instructions, i.IsSupplied)
    (hc : ∀ p i, node.instructions[p]? = some i → node.Continues p i) : node.Accepted where
  labels := hl
  options i hi := (hs i hi).1
  texts i hi := (hs i hi).2
  jumps := by
    intro i hi ho
    obtain ⟨p, hp⟩ := List.mem_iff_getElem?.mp hi
    have h := hc p i hp
    obtain ho | ho := ho
    · simp only [Continues, ho] at h
      exact h
    · simp only [Continues, ho] at h
      exact h.1
  branches := by
    intro i hi ho
    rw [List.getLast?_eq_getElem?] at hi
    have h := hc _ i hi
    simp only [Continues, ho] at h
    omega
  choices := by
    intro p i hi ho a ha hadd
    have h := hc p i hi
    have hm : a ∈ addedOptions (node.around p) := by simp [addedOptions, ha, hadd]
    simp only [Continues, ho, if_neg (List.ne_nil_of_mem hm)] at h
    exact h a hm
  targets := by
    intro p i hi ho t ht hpush h0
    have h := hc p i hi
    simp only [Continues, ho] at h
    obtain ⟨t', s, ht', -, h0', hs⟩ | ⟨hnone, -⟩ := h
    · obtain rfl : t = t' := Option.some.inj (ht.symm.trans ht')
      rw [h0] at h0'
      cases h0'
      exact hs rfl
    · exact hnone t ht hpush
  ending := by
    obtain ⟨i, hi⟩ : ∃ i, node.instructions.getLast? = some i :=
      ⟨_, List.getLast?_eq_some_getLast hne⟩
    refine ⟨i, hi, ?_⟩
    rw [List.getLast?_eq_getElem?] at hi
    have hn : ¬ node.instructions.length - 1 + 1 < node.instructions.length := by omega
    have h := hc _ i hi
    cases ho : i.opcode with
    | stop | jumpTo => simp
    | jump =>
      simp only [Continues, ho, hn] at h
      split at h
      · exact h.elim
      · next hnil =>
        obtain ⟨a, ha⟩ := List.exists_mem_of_ne_nil _ hnil
        have hm := List.mem_filter.mp ha
        exact .inr (.inr (.inl ⟨rfl, a, hm.1, by simpa using hm.2⟩))
    | runNode =>
      simp only [Continues, ho, hn] at h
      obtain ⟨t, s, ht, hpush, -⟩ | ⟨-, hf⟩ := h
      · exact .inr (.inr (.inr ⟨rfl, t, ht, hpush⟩))
      · exact hf.elim
    | _ => simp only [Continues, ho, hn, and_false] at h

theorem Accepted.continues (h : node.Accepted) {p : Nat} {i : Instruction}
    (hi : node.instructions[p]? = some i) : node.Continues p i := by
  have hm : i ∈ node.instructions := List.mem_of_getElem? hi
  -- Only an instruction that leads on by itself may stand at the end.
  have hend : ¬ p + 1 < node.instructions.length → i.opcode ≠ .jumpIfFalse ∧
      (i.opcode = .stop ∨ i.opcode = .jumpTo ∨
        (i.opcode = .jump ∧ ∃ a ∈ node.around p, a.opcode = .addOption) ∨
        (i.opcode = .runNode ∧ ∃ t, lastPush? (node.around p) = some t ∧
          t.opcode = .pushString)) := by
    intro hp
    obtain ⟨rfl, hlast⟩ := getLast?_of_last hi hp
    obtain ⟨i', hlast', hi'⟩ := h.ending
    obtain rfl : i = i' := Option.some.inj (hlast.symm.trans hlast')
    exact ⟨h.branches i hlast, hi'⟩
  rw [Continues]
  cases ho : i.opcode with
  | jumpTo => exact h.jumps i hm (.inl ho)
  | jumpIfFalse =>
    refine ⟨h.jumps i hm (.inr ho), ?_⟩
    by_contra hp
    exact (hend hp).1 ho
  | jump =>
    simp only
    split
    · next hnil =>
      by_contra hp
      have he := (hend hp).2
      simp only [ho, reduceCtorEq, false_and, false_or, or_false, true_and] at he
      obtain ⟨a, ha, hadd⟩ := he
      have : a ∈ addedOptions (node.around p) := by simp [addedOptions, ha, hadd]
      simp [hnil] at this
    · intro a ha
      obtain ⟨ha, hadd⟩ := List.mem_filter.mp ha
      exact h.choices p i hi ho a ha (by simpa using hadd)
  | runNode =>
    by_cases hpush : ∃ t, lastPush? (node.around p) = some t ∧ t.opcode = .pushString
    · obtain ⟨t, ht, hpush⟩ := hpush
      obtain ⟨s, h0⟩ := h.texts t (mem_of_mem_around (mem_of_lastPush? ht)) hpush
      have hs : s ≠ "" := fun hs => h.targets p i hi ho t ht hpush (hs ▸ h0)
      exact .inl ⟨t, s, ht, hpush, h0, hs⟩
    · refine .inr ⟨fun t ht hp => hpush ⟨t, ht, hp⟩, ?_⟩
      by_contra hp
      have he := (hend hp).2
      simp only [ho, reduceCtorEq, false_and, false_or, true_and] at he
      exact hpush he
  | stop => trivial
  | _ =>
    by_contra hp
    have he := (hend hp).2
    simp [ho] at he

theorem exists_flow_iff (h : node.instructions ≠ []) :
    (∃ f, node.flow = .ok f) ↔ node.Accepted := by
  simp only [flow_eq_ok_iff]
  apply Iff.intro
  · rintro ⟨f, hl, hf, -⟩
    obtain ⟨hs, hc⟩ := (link_fault_iff_continues (hl h)).mp hf
    exact .of_continues h (hl h) hs hc
  · intro ha
    refine ⟨_, fun _ => ha.labels, (link_fault_iff_continues ha.labels).mpr ⟨?_, ?_⟩, rfl⟩
    · exact fun i hi => ⟨ha.options i hi, ha.texts i hi⟩
    · exact fun p i hi => ha.continues hi

end Node

end DialogueFlow
