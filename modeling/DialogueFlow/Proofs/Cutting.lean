import DialogueFlow.Proofs.Partition
import Mathlib.Data.Set.Basic

namespace DialogueFlow

/-- A fault is reported for the node called `node`, at a place and a label if there are any. -/
def Fault.Reports (f : Fault) (node : String) (index : Option Int) (label : Option String) : Prop :=
  ∃ d, f.report = .ok d ∧ d.kind = .graph index label ∧ d.node = some node

namespace Node

variable {node : Node} {leaders : List Int}

def cuts (node : Node) (leaders : List Int) : Set Int := {k | k ∈ leaders ∧ node.Holds k}

theorem mem_cuts_iff (k : Int) :
    k ∈ node.cuts leaders ↔ k ∈ (node.starts leaders).map Int.ofNat := by
  rw [List.mem_map]
  apply Iff.intro
  · rintro ⟨hk, h0, hn⟩
    have hcast : Int.ofNat k.toNat = k := Int.toNat_of_nonneg h0
    refine ⟨k.toNat, (mem_starts leaders _).mpr ⟨by omega, ?_⟩, hcast⟩
    exact hcast.symm ▸ hk
  · rintro ⟨p, hp, rfl⟩
    obtain ⟨hn, hk⟩ := (mem_starts leaders p).mp hp
    exact ⟨hk, Int.natCast_nonneg p, Int.ofNat_lt.mpr hn⟩

theorem zero_mem_cuts_iff : 0 ∈ node.cuts leaders ↔ 0 ∈ node.starts leaders := by
  rw [mem_cuts_iff, List.mem_map]
  exact ⟨fun ⟨p, hp, h0⟩ => Int.ofNat.inj h0 ▸ hp, fun h => ⟨0, h, rfl⟩⟩

theorem starts_eq_nil_iff : node.starts leaders = [] ↔ node.cuts leaders = ∅ := by
  rw [Set.eq_empty_iff_forall_notMem, List.eq_nil_iff_forall_not_mem]
  simp only [mem_cuts_iff, List.mem_map, not_exists, not_and]
  exact ⟨fun h k p hp _ => h p hp, fun h p hp => h p p hp rfl⟩

theorem starts_congr {others : List Int} (h : node.cuts others = node.cuts leaders) :
    node.starts others = node.starts leaders := by
  apply starts_eq_of_mem_iff
  intro k hk
  have hcuts : ∀ l : List Int, k ∈ node.cuts l ↔ k ∈ l := fun l => and_iff_left hk
  rw [← hcuts, ← hcuts, h]

/-- One after the other the blocks hold the instructions of the node. They start at the cuts, in
increasing order, each where the one before it ends. -/
structure Pieces (node : Node) (cuts : Set Int) (blocks : List Block) : Prop where
  starts : ∀ k, k ∈ blocks.map Block.first ↔ k ∈ cuts
  increasing : blocks.Pairwise (fun a b => a.first < b.first)
  next : blocks.IsChain (fun a b => b.first = a.endIndex)
  joined : blocks.flatMap Block.instructions = node.instructions

theorem flatMap_instructions_slices {s : Nat} {rest : List Nat}
    (hl : (s :: rest).Pairwise (· < ·)) :
    (node.slices (s :: rest)).flatMap Block.instructions = node.instructions.drop s := by
  induction rest generalizing s with
  | nil =>
    rw [slices, List.flatMap_singleton, slice, List.take_of_length_le]
    simp
  | cons e rest ih =>
    obtain ⟨hs, ht⟩ := List.pairwise_cons.mp hl
    have hse : s + (e - s) = e := Nat.add_sub_cancel' (Nat.le_of_lt (hs e List.mem_cons_self))
    have hdrop : node.instructions.drop e = (node.instructions.drop s).drop (e - s) := by
      rw [List.drop_drop, hse]
    rw [slices, List.flatMap_cons, ih ht, hdrop]
    exact List.take_append_drop (e - s) _

theorem pieces_slices {rest : List Nat} (h : node.starts leaders = 0 :: rest) :
    node.Pieces (node.cuts leaders) (node.slices (0 :: rest)) := by
  have hl := node.starts_pairwise leaders
  have hn : ∀ p ∈ node.starts leaders, p < node.instructions.length :=
    fun p hp => ((mem_starts leaders p).mp hp).1
  rw [h] at hl hn
  constructor
  case starts =>
    intro k
    rw [map_first_slices, mem_cuts_iff, h]
  case increasing =>
    have hp : ((0 :: rest).map Int.ofNat).Pairwise (· < ·) :=
      List.pairwise_map.mpr (hl.imp Int.ofNat_lt.mpr)
    rw [← map_first_slices node] at hp
    exact List.pairwise_map.mp hp
  case next => exact chain_slices hl hn
  case joined => exact flatMap_instructions_slices hl

theorem partition_of_nil (h : node.starts leaders = []) : node.partition leaders = .ok [] := by
  simp only [partition, h]

theorem partition_of_zero_notMem (h : node.starts leaders ≠ []) (h0 : 0 ∉ node.starts leaders) :
    node.partition leaders = .error (.broken (.noLeader node.name)) := by
  obtain ⟨s, rest, hs⟩ := List.exists_cons_of_ne_nil h
  have hne : s ≠ 0 := fun hz => h0 (by simp [hs, hz])
  simp only [partition, hs, ne_eq, hne, not_false_eq_true, if_true, fault]

/-- The first label, in the order of the table, whose target is no cut. -/
def uncut? (node : Node) (leaders : List Int) : Option (String × Int) :=
  node.labels.entries.find? (fun e => !((node.starts leaders).map Int.ofNat).contains e.2)

theorem uncut?_eq_none_iff :
    node.uncut? leaders = none ↔ ∀ e ∈ node.labels.entries, e.2 ∈ node.cuts leaders := by
  simp only [uncut?, List.find?_eq_none, mem_cuts_iff, Bool.not_eq_true', List.contains_eq_mem,
    decide_eq_false_iff_not, not_not]

theorem uncut?_eq_some_iff (label : String) (k : Int) :
    node.uncut? leaders = some (label, k) ↔ ∃ earlier later,
      node.labels.entries = earlier ++ (label, k) :: later ∧
        (∀ e ∈ earlier, e.2 ∈ node.cuts leaders) ∧ k ∉ node.cuts leaders := by
  simp only [uncut?, List.find?_eq_some_iff_append, mem_cuts_iff, Bool.not_eq_true',
    List.contains_eq_mem, decide_eq_false_iff_not, Bool.not_not, decide_eq_true_eq]
  apply Iff.intro
  · rintro ⟨hk, earlier, later, he, hin⟩
    exact ⟨earlier, later, he, hin, hk⟩
  · rintro ⟨earlier, later, he, hin, hk⟩
    exact ⟨hk, earlier, later, he, hin⟩

theorem partition_of_uncut {rest : List Nat} {label : String} {k : Int}
    (h : node.starts leaders = 0 :: rest) (hk : node.uncut? leaders = some (label, k)) :
    node.partition leaders = .error (node.fault (.labelInside node.name label k)) := by
  rw [uncut?, h] at hk
  simp only [partition, h, ne_eq, not_true_eq_false, if_false, hk]

theorem partition_of_cut {rest : List Nat} (h : node.starts leaders = 0 :: rest)
    (hk : node.uncut? leaders = none) :
    node.partition leaders = .ok (node.slices (0 :: rest)) := by
  rw [uncut?, h] at hk
  simp only [partition, h, ne_eq, not_true_eq_false, if_false, hk]

theorem reports_labelInside {label : String} {k : Int} (h : node.writes k = true) :
    (node.fault (.labelInside node.name label k)).Reports node.name (some k) (some label) := by
  rw [fault, if_pos h]
  exact ⟨_, rfl, rfl, rfl⟩

theorem fault_labelInside {label : String} {k : Int} (h : node.writes k = false) :
    node.fault (.labelInside node.name label k) = .write .longInteger := by
  rw [fault, if_neg (by simp [h])]

/-- Without a cut there are no blocks. Otherwise the first place has to be a cut and then, in the
order of the table, every label target; if they are, the pieces between the cuts come out. The first
label that is not cut is reported if its target can be written. Leaders that give the same cuts lead
to the same end. -/
theorem partition_outcome (node : Node) (leaders : List Int) :
    (node.cuts leaders = ∅ → node.partition leaders = .ok []) ∧
    (node.cuts leaders ≠ ∅ → 0 ∉ node.cuts leaders →
      ∃ fault, node.partition leaders = .error fault ∧ fault.Reports node.name (some 0) none) ∧
    (0 ∈ node.cuts leaders → (∃ e ∈ node.labels.entries, e.2 ∉ node.cuts leaders) →
      ∃ earlier label k later fault, node.labels.entries = earlier ++ (label, k) :: later ∧
        (∀ e ∈ earlier, e.2 ∈ node.cuts leaders) ∧ k ∉ node.cuts leaders ∧
        node.partition leaders = .error fault ∧
        (node.writes k = true → fault.Reports node.name (some k) (some label)) ∧
        (node.writes k = false → fault = .write .longInteger)) ∧
    (0 ∈ node.cuts leaders → (∀ e ∈ node.labels.entries, e.2 ∈ node.cuts leaders) →
      ∃ blocks, node.partition leaders = .ok blocks ∧
        node.Pieces (node.cuts leaders) blocks) ∧
    ∀ others, node.cuts others = node.cuts leaders →
      node.partition others = node.partition leaders := by
  refine ⟨fun h => ?_, fun h h0 => ?_, fun h0 hlabel => ?_, fun h0 hlabels => ?_,
    fun others h => ?_⟩
  · exact partition_of_nil (starts_eq_nil_iff.mpr h)
  · refine ⟨_, partition_of_zero_notMem (mt starts_eq_nil_iff.mp h) ?_, _, rfl, rfl, rfl⟩
    exact mt zero_mem_cuts_iff.mpr h0
  · obtain ⟨rest, hs⟩ := exists_cons_of_zero_mem (zero_mem_cuts_iff.mp h0)
    obtain ⟨e, he, hout⟩ := hlabel
    cases hu : node.uncut? leaders with
    | none => exact absurd (uncut?_eq_none_iff.mp hu e he) hout
    | some first =>
      obtain ⟨label, k⟩ := first
      obtain ⟨earlier, later, hentries, hin, hk⟩ := (uncut?_eq_some_iff label k).mp hu
      exact ⟨earlier, label, k, later, _, hentries, hin, hk, partition_of_uncut hs hu,
        reports_labelInside, fault_labelInside⟩
  · obtain ⟨rest, hs⟩ := exists_cons_of_zero_mem (zero_mem_cuts_iff.mp h0)
    exact ⟨_, partition_of_cut hs (uncut?_eq_none_iff.mpr hlabels), pieces_slices hs⟩
  · simp only [partition, starts_congr h]

def pier : Node where
  name := "Pier"
  instructions := [
    ⟨.runLine, [.string "line:ahoy"]⟩,
    ⟨.stop, []⟩,
    ⟨.runLine, [.string "line:aboard"]⟩,
    ⟨.stop, []⟩]
  labels := .ofList [("Dock", 0), ("Gangway", 2)]
  headers := ∅

theorem partition_outcome_pier :
    (0 ∈ pier.cuts [2, 9, 0, 3, 2, -1] ∧
      (∀ e ∈ pier.labels.entries, e.2 ∈ pier.cuts [2, 9, 0, 3, 2, -1]) ∧
      ∃ blocks, pier.partition [2, 9, 0, 3, 2, -1] = .ok blocks ∧
        pier.Pieces (pier.cuts [2, 9, 0, 3, 2, -1]) blocks) ∧
    (0 ∉ pier.cuts [3, 9, 3] ∧ pier.cuts [3, 9, 3] ≠ ∅ ∧
      ∃ fault, pier.partition [3, 9, 3] = .error fault ∧ fault.Reports "Pier" (some 0) none) := by
  have h0 : 0 ∈ pier.cuts [2, 9, 0, 3, 2, -1] := ⟨by decide, by decide⟩
  have hlabels : ∀ e ∈ pier.labels.entries, e.2 ∈ pier.cuts [2, 9, 0, 3, 2, -1] := by
    simp only [mem_cuts_iff]
    decide
  have hnot : 0 ∉ pier.cuts [3, 9, 3] := by
    rw [mem_cuts_iff]
    decide
  have hne : pier.cuts [3, 9, 3] ≠ ∅ := Set.Nonempty.ne_empty ⟨3, by decide, by decide⟩
  have hpieces := (partition_outcome pier [2, 9, 0, 3, 2, -1]).2.2.2.1
  have hfirst := (partition_outcome pier [3, 9, 3]).2.1
  exact ⟨⟨h0, hlabels, hpieces h0 hlabels⟩, hnot, hne, hfirst hne hnot⟩

theorem writes_eq_false {k : Int} (hlen : node.instructions.length < k)
    (hk : isWritable k = false) : node.writes k = false := by
  simp only [writes, hk, Bool.or_false, decide_eq_false_iff_not]
  omega

def offing (k : Int) : Node := ⟨"Offing", [⟨.stop, []⟩], .ofList [("Buoy", k)], ∅⟩

theorem one_lt_writeBound : (1 : Int) < writeBound := by
  have h (k : Nat) (hk : 0 < k) : (1 : Int) < Nat.pow 10 k :=
    Int.ofNat_lt.mpr (Nat.one_lt_pow (Nat.ne_of_gt hk) (by decide))
  unfold writeBound
  exact h Json.maxDigits (by decide)

theorem zero_mem_cuts_offing (k : Int) : 0 ∈ (offing k).cuts [0] :=
  ⟨by simp, Int.le_refl 0, Int.zero_lt_one⟩

theorem notMem_cuts_offing {k : Int} (hk : 1 < k) : k ∉ (offing k).cuts [0] :=
  fun h => Int.lt_asymm hk h.2.2

theorem partition_offing {k : Int} (hk : 1 < k) (hw : isWritable k = false) :
    (offing k).partition [0] = .error (.write .longInteger) := by
  have hu : (offing k).uncut? [0] = some ("Buoy", k) :=
    (uncut?_eq_some_iff "Buoy" k).mpr ⟨[], [], rfl, by simp, notMem_cuts_offing hk⟩
  obtain ⟨rest, hs⟩ := exists_cons_of_zero_mem (zero_mem_cuts_iff.mp (zero_mem_cuts_offing k))
  rw [partition_of_uncut hs hu, fault_labelInside (writes_eq_false hk hw)]

theorem label_of_offing_unreported :
    0 ∈ (offing writeBound).cuts [0] ∧
      (∃ e ∈ (offing writeBound).labels.entries,
        e.2 ∉ (offing writeBound).cuts [0]) ∧
      (offing writeBound).partition [0] = .error (.write .longInteger) ∧
      ∀ index label, ¬ (Fault.write .longInteger).Reports "Offing" index label := by
  have hk := one_lt_writeBound
  refine ⟨zero_mem_cuts_offing _, ⟨("Buoy", _), List.mem_singleton_self _, ?_⟩, ?_, ?_⟩
  · exact notMem_cuts_offing hk
  · exact partition_offing hk isWritable_writeBound
  · rintro index label ⟨d, hd, -⟩
    cases hd

end Node

end DialogueFlow
