import DialogueFlow.Proofs.Segment
import Mathlib.Data.List.Chain
import Mathlib.Data.List.Nodup

namespace DialogueFlow

section Sorted

variable {α : Type}

theorem mem_insertSorted (le : α → α → Bool) (x y : α) (xs : List α) :
    y ∈ insertSorted le x xs ↔ y = x ∨ y ∈ xs := by
  induction xs with
  | nil => simp [insertSorted]
  | cons z rest ih =>
    rw [insertSorted]
    split
    · rw [List.mem_cons]
    · rw [List.mem_cons, ih, List.mem_cons]
      exact or_left_comm

theorem mem_sorted (le : α → α → Bool) (y : α) (xs : List α) : y ∈ sorted le xs ↔ y ∈ xs := by
  induction xs with
  | nil => simp [sorted]
  | cons x rest ih =>
    rw [sorted, List.foldr_cons, mem_insertSorted, ← sorted, ih, List.mem_cons]

theorem mem_sortedSet (y : Int) (xs : List Int) : y ∈ sortedSet xs ↔ y ∈ xs := by
  rw [sortedSet, mem_sorted, List.mem_eraseDups]

theorem pairwise_insertSorted {x : Int} {xs : List Int} (hx : x ∉ xs)
    (h : xs.Pairwise (· < ·)) :
    (insertSorted (fun a b => decide (a ≤ b)) x xs).Pairwise (· < ·) := by
  induction xs with
  | nil => exact List.pairwise_singleton _ x
  | cons y rest ih =>
    obtain ⟨hy, hrest⟩ := List.pairwise_cons.mp h
    obtain ⟨hne, hx⟩ : x ≠ y ∧ x ∉ rest := by simpa using hx
    rw [insertSorted]
    split
    · next hle =>
      have hlt : x < y := by
        have hle := of_decide_eq_true hle
        omega
      refine List.pairwise_cons.mpr ⟨fun z hz => ?_, h⟩
      obtain rfl | hz := List.mem_cons.mp hz
      · exact hlt
      · exact Int.lt_trans hlt (hy z hz)
    · next hle =>
      refine List.pairwise_cons.mpr ⟨fun z hz => ?_, ih hx hrest⟩
      obtain rfl | hz := (mem_insertSorted _ x z rest).mp hz
      · have hle := of_decide_eq_false (Bool.eq_false_iff.mpr hle)
        omega
      · exact hy z hz

theorem nodup_eraseDups [BEq α] [LawfulBEq α] (l : List α) : l.eraseDups.Nodup := by
  induction l using List.reverseRecOn with
  | nil => exact List.nodup_nil
  | append_singleton l a ih =>
    rw [List.eraseDups_append]
    by_cases ha : a ∈ l
    · simpa [List.removeAll, ha] using ih
    · have hone : ([a].removeAll l).eraseDups = [a] := by
        simp [List.removeAll, ha, List.eraseDups_cons]
      rw [hone, ← List.concat_eq_append]
      exact ih.concat (fun hm => ha (List.mem_eraseDups.mp hm))

theorem pairwise_sortedSet (xs : List Int) : (sortedSet xs).Pairwise (· < ·) := by
  have hn := nodup_eraseDups xs
  rw [sortedSet]
  generalize xs.eraseDups = set at hn
  induction set with
  | nil => exact .nil
  | cons x rest ih =>
    obtain ⟨hx, hrest⟩ := List.nodup_cons.mp hn
    exact pairwise_insertSorted (fun hm => hx ((mem_sorted _ x rest).mp hm)) (ih hrest)

end Sorted

namespace Node

theorem mem_placesAfterEnds (index p : Nat) (instructions : List Instruction) :
    p ∈ placesAfterEnds index instructions ↔
      ∃ q i, instructions[q]? = some i ∧ i.opcode.endsBlock = true ∧
        q + 1 < instructions.length ∧ p = index + q + 1 := by
  induction instructions generalizing index with
  | nil => simp [placesAfterEnds]
  | cons i rest ih =>
    cases rest with
    | nil => simp [placesAfterEnds]
    | cons j rest =>
      have hm : p ∈ placesAfterEnds index (i :: j :: rest) ↔
          (i.opcode.endsBlock = true ∧ p = index + 1) ∨
            p ∈ placesAfterEnds (index + 1) (j :: rest) := by
        rw [placesAfterEnds]
        split <;> simp_all
      rw [hm, ih]
      apply Iff.intro
      · rintro (⟨hi, rfl⟩ | ⟨q, k, hk, he, hl, rfl⟩)
        · exact ⟨0, i, rfl, hi, by simp, rfl⟩
        · exact ⟨q + 1, k, hk, he, Nat.succ_lt_succ hl, by omega⟩
      · rintro ⟨q, k, hk, he, hl, rfl⟩
        cases q with
        | zero =>
          obtain rfl : i = k := by simpa using hk
          exact .inl ⟨he, rfl⟩
        | succ q => exact .inr ⟨q, k, hk, he, Nat.lt_of_succ_lt_succ hl, by omega⟩

variable {node : Node}

theorem mem_leaders (h : node.instructions ≠ []) (k : Int) :
    k ∈ node.leaders ↔ k = 0 ∨ k ∈ node.labels.values ∨
      ∃ q i, node.instructions[q]? = some i ∧ i.opcode.endsBlock = true ∧
        q + 1 < node.instructions.length ∧ k = q + 1 := by
  have he : ¬ node.instructions.isEmpty = true := by simpa using h
  rw [leaders, if_neg he, mem_sortedSet, List.mem_cons, List.mem_append, List.mem_map]
  refine or_congr_right (or_congr_right ?_)
  apply Iff.intro
  · rintro ⟨p, hp, rfl⟩
    obtain ⟨q, i, hi, hb, hl, rfl⟩ := (mem_placesAfterEnds 0 p _).mp hp
    exact ⟨q, i, hi, hb, hl, by simp⟩
  · rintro ⟨q, i, hi, hb, hl, rfl⟩
    exact ⟨q + 1, (mem_placesAfterEnds 0 _ _).mpr ⟨q, i, hi, hb, hl, by simp⟩, by simp⟩

theorem mem_starts (leaders : List Int) (p : Nat) :
    p ∈ node.starts leaders ↔ p < node.instructions.length ∧ (p : Int) ∈ leaders := by
  simp only [starts, List.mem_map, mem_sortedSet, List.mem_filter, decide_eq_true_eq]
  apply Iff.intro
  · rintro ⟨k, ⟨hk, h0, hn⟩, rfl⟩
    rw [Int.toNat_of_nonneg h0]
    exact ⟨by omega, hk⟩
  · rintro ⟨hn, hk⟩
    exact ⟨p, ⟨hk, by omega, by omega⟩, Int.toNat_natCast p⟩

theorem starts_pairwise (node : Node) (leaders : List Int) :
    (node.starts leaders).Pairwise (· < ·) := by
  rw [starts, List.pairwise_map]
  refine List.Pairwise.imp_of_mem ?_ (pairwise_sortedSet _)
  intro a b ha _ hab
  rw [mem_sortedSet, List.mem_filter, decide_eq_true_eq] at ha
  have h0 := ha.2.1
  omega

theorem starts_of_isEmpty (h : node.instructions = []) (leaders : List Int) :
    node.starts leaders = [] := by
  rw [List.eq_nil_iff_forall_not_mem]
  intro p hp
  have hlt := ((mem_starts leaders p).mp hp).1
  simp [h] at hlt

theorem starts_eq_of_mem_iff {leaders others : List Int}
    (h : ∀ k, node.Holds k → (k ∈ others ↔ k ∈ leaders)) :
    node.starts others = node.starts leaders := by
  refine List.Perm.eq_of_pairwise (fun _ _ _ _ hab hba => absurd hab (Nat.lt_asymm hba))
    (node.starts_pairwise _) (node.starts_pairwise _) ?_
  have hn (l : List Int) : (node.starts l).Nodup := (node.starts_pairwise l).imp Nat.ne_of_lt
  refine (List.perm_ext_iff_of_nodup (hn _) (hn _)).mpr (fun p => ?_)
  rw [mem_starts, mem_starts]
  exact and_congr_right (fun hp => h p ⟨by omega, by omega⟩)

/-- Blocks start where they have to, and nowhere else. -/
theorem mem_starts_leaders (p : Nat) :
    p ∈ node.starts node.leaders ↔ p < node.instructions.length ∧ node.Leads p := by
  rw [mem_starts]
  refine and_congr_right (fun hp => ?_)
  rw [mem_leaders (List.ne_nil_of_length_pos (by omega)), Leads]
  cases p with
  | zero => simp
  | succ p =>
    refine or_congr (by omega) (or_congr_right ?_)
    apply Iff.intro
    · rintro ⟨q, i, hi, hb, -, hq⟩
      obtain rfl : p = q := by omega
      exact ⟨i, hi, (Opcode.endsBlock_iff _).mp hb⟩
    · rintro ⟨i, hi, hb⟩
      exact ⟨p, i, hi, (Opcode.endsBlock_iff _).mpr hb, hp, by simp⟩

theorem map_first_slices (node : Node) (l : List Nat) :
    (node.slices l).map Block.first = l.map Int.ofNat := by
  induction l with
  | nil => rfl
  | cons s rest ih =>
    cases rest with
    | nil => rfl
    | cons e rest => rw [slices, List.map_cons, ih]; rfl

theorem head_slices (node : Node) (s : Nat) (rest : List Nat) :
    ∃ e tail, node.slices (s :: rest) = node.slice s e :: tail := by
  cases rest with
  | nil => exact ⟨_, _, rfl⟩
  | cons e rest => exact ⟨_, _, rfl⟩

/-- Each block goes from its start up to the next start or to the end of the node. -/
theorem exists_slice {l : List Nat} (hl : l.Pairwise (· < ·))
    (hn : ∀ p ∈ l, p < node.instructions.length) {b : Block} (hb : b ∈ node.slices l) :
    ∃ s e, b = node.slice s e ∧ s ∈ l ∧ s < e ∧ e ≤ node.instructions.length ∧
      (e < node.instructions.length → e ∈ l) ∧ ∀ q ∈ l, s < q → e ≤ q := by
  induction l with
  | nil => simp [slices] at hb
  | cons s rest ih =>
    rw [List.pairwise_cons] at hl
    cases rest with
    | nil =>
      obtain rfl : b = _ := by simpa [slices] using hb
      exact ⟨s, _, rfl, by simp, hn s (by simp), Nat.le_refl _, by simp, by simp⟩
    | cons e rest =>
      rw [slices, List.mem_cons] at hb
      obtain rfl | hb := hb
      · refine ⟨s, e, rfl, by simp, hl.1 e (by simp), Nat.le_of_lt (hn e (by simp)), by simp, ?_⟩
        intro q hq hs
        obtain rfl | hq := List.mem_cons.mp hq
        · omega
        · obtain rfl | hq := List.mem_cons.mp hq
          · exact Nat.le_refl q
          · exact Nat.le_of_lt ((List.pairwise_cons.mp hl.2).1 q hq)
      · obtain ⟨s', e', hb', hs', hlt, hle, he', hq'⟩ :=
          ih hl.2 (fun p hp => hn p (by simp [hp])) hb
        refine ⟨s', e', hb', by simp [hs'], hlt, hle, fun h => by simp [he' h], ?_⟩
        intro q hq hs
        obtain rfl | hq := List.mem_cons.mp hq
        · have := hl.1 s' hs'
          omega
        · exact hq' q hq hs

theorem chain_slices {l : List Nat} (hl : l.Pairwise (· < ·))
    (hn : ∀ p ∈ l, p < node.instructions.length) :
    (node.slices l).IsChain (fun a b => b.first = a.endIndex) := by
  induction l with
  | nil => exact .nil
  | cons s rest ih =>
    rw [List.pairwise_cons] at hl
    cases rest with
    | nil => exact .singleton _
    | cons e rest =>
      have ht := ih hl.2 (fun p hp => hn p (by simp [hp]))
      have he := node.endIndex_slice (Nat.le_of_lt (hl.1 e (by simp)))
        (Nat.le_of_lt (hn e (by simp)))
      obtain ⟨e', tail, hs⟩ := node.head_slices e rest
      rw [slices]
      rw [hs] at ht ⊢
      exact .cons_cons he.symm ht

theorem last_slices {l : List Nat} (hl : l ≠ []) (hn : ∀ p ∈ l, p < node.instructions.length) :
    (node.slices l).getLast?.map Block.endIndex = some (node.instructions.length : Int) := by
  induction l with
  | nil => exact absurd rfl hl
  | cons s rest ih =>
    cases rest with
    | nil =>
      have he := node.endIndex_slice (Nat.le_of_lt (hn s (by simp))) (Nat.le_refl _)
      rw [slices, List.getLast?_singleton, Option.map_some, he]
    | cons e rest =>
      have ht := ih (by simp) (fun p hp => hn p (by simp [hp]))
      obtain ⟨e', tail, hs⟩ := node.head_slices e rest
      rw [slices]
      rw [hs] at ht ⊢
      rwa [List.getLast?_cons_cons]

def cut (node : Node) : List Block := node.slices (node.starts node.leaders)

theorem starts_lt : ∀ p ∈ node.starts node.leaders, p < node.instructions.length :=
  fun p hp => (mem_starts_leaders p |>.mp hp).1

theorem exists_segment {b : Block} (hb : b ∈ node.cut) :
    ∃ s e, node.Segment s e ∧ b = node.slice s e := by
  obtain ⟨s, e, rfl, hs, hlt, hle, he, hq⟩ := exists_slice (node.starts_pairwise _) starts_lt hb
  refine ⟨s, e, ⟨hlt, hle, ((mem_starts_leaders s).mp hs).2, ?_, ?_⟩, rfl⟩
  · exact fun h => ((mem_starts_leaders e).mp (he h)).2
  · intro q hsq hqe hl
    have := hq q ((mem_starts_leaders q).mpr ⟨by omega, hl⟩) hsq
    omega

theorem mem_map_first_cut (k : Int) :
    k ∈ node.cut.map Block.first ↔
      ∃ p : Nat, k = p ∧ p < node.instructions.length ∧ node.Leads p := by
  rw [cut, map_first_slices, List.mem_map]
  apply Iff.intro
  · rintro ⟨p, hp, rfl⟩
    exact ⟨p, rfl, (mem_starts_leaders p).mp hp⟩
  · rintro ⟨p, rfl, hp⟩
    exact ⟨p, (mem_starts_leaders p).mpr hp, rfl⟩

theorem nodup_first_cut (node : Node) : (node.cut.map Block.first).Nodup := by
  rw [cut, map_first_slices]
  exact List.Nodup.map (fun _ _ => Int.ofNat.inj) ((node.starts_pairwise _).imp Nat.ne_of_lt)

theorem slice_mem_cut {s e : Nat} (h : node.Segment s e) : node.slice s e ∈ node.cut := by
  have hlt := h.lt
  have hle := h.le
  have hs : (s : Int) ∈ node.cut.map Block.first :=
    (mem_map_first_cut s).mpr ⟨s, rfl, by omega, h.leads⟩
  obtain ⟨b, hb, hf⟩ := List.mem_map.mp hs
  obtain ⟨s', e', h', rfl⟩ := exists_segment hb
  obtain rfl : s' = s := Int.ofNat.inj hf
  obtain ⟨-, rfl⟩ := h.eq_of_mem h' (Nat.le_refl _) hlt (Nat.le_refl _) h'.lt
  exact hb

theorem exists_segment_at {p : Nat} (hp : p < node.instructions.length) :
    ∃ s e, node.Segment s e ∧ s ≤ p ∧ p < e := by
  have hle : node.start p ≤ p := Nat.findGreatest_le p
  have hl : node.Leads (node.start p) := Nat.findGreatest_spec (Nat.zero_le p) (.inl rfl)
  have hs : (node.start p : Int) ∈ node.cut.map Block.first :=
    (mem_map_first_cut _).mpr ⟨_, rfl, by omega, hl⟩
  obtain ⟨b, hb, hf⟩ := List.mem_map.mp hs
  obtain ⟨s, e, hseg, rfl⟩ := exists_segment hb
  obtain rfl : s = node.start p := Int.ofNat.inj hf
  refine ⟨_, e, hseg, hle, ?_⟩
  by_contra hge
  have hlt := hseg.lt
  have := Nat.le_findGreatest (Nat.le_of_not_lt hge) (hseg.stops (by omega))
  rw [← start] at this
  omega

theorem zero_mem_starts (h : node.instructions ≠ []) : 0 ∈ node.starts node.leaders :=
  (mem_starts_leaders 0).mpr ⟨List.length_pos_iff.mpr h, .inl rfl⟩

theorem exists_cons_of_zero_mem {leaders : List Int} (h : 0 ∈ node.starts leaders) :
    ∃ rest, node.starts leaders = 0 :: rest := by
  have hp := node.starts_pairwise leaders
  cases hs : node.starts leaders with
  | nil => simp [hs] at h
  | cons s rest =>
    rw [hs] at h hp
    obtain rfl | h := List.mem_cons.mp h
    · exact ⟨rest, rfl⟩
    · exact absurd ((List.pairwise_cons.mp hp).1 0 h) (by omega)

theorem exists_starts (h : node.instructions ≠ []) :
    ∃ rest, node.starts node.leaders = 0 :: rest :=
  exists_cons_of_zero_mem (zero_mem_starts h)

/-- Unless a node is empty, it is cut at increasing places that begin with the first. -/
theorem cut_cases (node : Node) :
    (node.instructions = [] ∧ node.cut = []) ∨
      ∃ rest, node.cut = node.slices (0 :: rest) ∧ (0 :: rest).Pairwise (· < ·) ∧
        ∀ p ∈ 0 :: rest, p < node.instructions.length := by
  by_cases h : node.instructions = []
  · have hs := starts_of_isEmpty h node.leaders
    exact .inl ⟨h, by rw [cut, hs, slices]⟩
  · obtain ⟨rest, hs⟩ := exists_starts h
    refine .inr ⟨rest, by rw [cut, hs], ?_, ?_⟩
    · exact hs ▸ node.starts_pairwise node.leaders
    · exact hs ▸ starts_lt

theorem mem_starts_of_label {e : String × Int} (he : e ∈ node.labels.entries) :
    e.2 ∈ (node.starts node.leaders).map Int.ofNat ↔ node.Holds e.2 := by
  rw [List.mem_map, Holds]
  apply Iff.intro
  · rintro ⟨p, hp, hk⟩
    have hlt := starts_lt p hp
    rw [← hk]
    exact ⟨Int.natCast_nonneg p, Int.ofNat_lt.mpr hlt⟩
  · intro h
    obtain ⟨p, hk, hp⟩ := exists_leads_of_label he h
    exact ⟨p, (mem_starts_leaders p).mpr hp, hk.symm⟩

/-- Only a label that targets no instruction keeps a node from being cut. -/
theorem partition_leaders_eq_ok_iff {blocks : List Block} :
    node.partition node.leaders = .ok blocks ↔
      (node.instructions ≠ [] → ∀ e ∈ node.labels.entries, node.Holds e.2) ∧
        blocks = node.cut := by
  by_cases h : node.instructions = []
  · have hs := starts_of_isEmpty h node.leaders
    simp [partition, cut, hs, slices, h, eq_comm]
  · obtain ⟨rest, hs⟩ := exists_starts h
    have hf : node.labels.entries.find?
        (fun e => !((node.starts node.leaders).map Int.ofNat).contains e.2) = none ↔
        ∀ e ∈ node.labels.entries, node.Holds e.2 := by
      rw [List.find?_eq_none]
      refine forall₂_congr (fun e he => ?_)
      rw [← mem_starts_of_label he]
      simp
    rw [partition, cut]
    simp only [hs, ne_eq, not_true_eq_false, if_false] at hf ⊢
    split
    · next hfind =>
      rw [hfind] at hf
      simp_all
    · next hfind =>
      have hh := hf.mp hfind
      rw [Except.ok.injEq]
      exact ⟨fun hb => ⟨fun _ => hh, hb.symm⟩, fun hb => hb.2.symm⟩

end Node

end DialogueFlow
