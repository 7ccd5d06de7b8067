import DialogueFlow.Flow.Partition
import Mathlib.Data.Nat.Find

namespace DialogueFlow

namespace Opcode

def terminators : List Opcode := [.jumpTo, .jump, .jumpIfFalse, .stop, .runNode]

theorem endsBlock_iff (op : Opcode) : op.endsBlock = true ↔ op ∈ terminators := by
  cases op <;> decide

end Opcode

namespace Node

/-- A block has to start at the first place, at every label target and after every instruction that
ends a block. -/
def Leads (node : Node) (p : Nat) : Prop :=
  p = 0 ∨ (p : Int) ∈ node.labels.values ∨
    ∃ i ∈ node.instructions[p - 1]?, i.opcode ∈ Opcode.terminators

instance (node : Node) : DecidablePred node.Leads :=
  fun _ => inferInstanceAs (Decidable (_ ∨ _ ∨ _))

def start (node : Node) (p : Nat) : Nat := Nat.findGreatest node.Leads p

/-- The instructions of the block of `p` that come before it. -/
def since (node : Node) (p : Nat) : List Instruction :=
  (node.instructions.take p).drop (node.start p)

/-- All the instructions of the block of `p`. -/
def around (node : Node) (p : Nat) : List Instruction :=
  (node.instructions.zipIdx.filter (fun e => node.start e.2 = node.start p)).map Prod.fst

theorem mem_of_mem_around {node : Node} {p : Nat} {i : Instruction} (h : i ∈ node.around p) :
    i ∈ node.instructions := by
  obtain ⟨⟨i, q⟩, hq, rfl⟩ := List.mem_map.mp h
  exact List.fst_mem_of_mem_zipIdx (List.mem_filter.mp hq).1

/-- The places from `s` up to `e` are those of one block. -/
structure Segment (node : Node) (s e : Nat) : Prop where
  lt : s < e
  le : e ≤ node.instructions.length
  leads : node.Leads s
  stops : e < node.instructions.length → node.Leads e
  inside : ∀ q, s < q → q < e → ¬ node.Leads q

theorem leads_succ {node : Node} {p : Nat} {i : Instruction}
    (hi : node.instructions[p]? = some i) (h : i.opcode.endsBlock = true) :
    node.Leads (p + 1) :=
  .inr (.inr ⟨i, by simpa using hi, (Opcode.endsBlock_iff _).mp h⟩)

theorem exists_leads_of_label {node : Node} {label : String} {k : Int}
    (he : (label, k) ∈ node.labels.entries) (h : node.Holds k) :
    ∃ p : Nat, k = p ∧ p < node.instructions.length ∧ node.Leads p := by
  obtain ⟨h0, hn⟩ := h
  have hk : ((k.toNat : Nat) : Int) = k := Int.toNat_of_nonneg h0
  refine ⟨k.toNat, hk.symm, by omega, .inr (.inl ?_)⟩
  rw [hk]
  exact List.mem_map_of_mem he

theorem endIndex_slice (node : Node) {s e : Nat} (hs : s ≤ e) (he : e ≤ node.instructions.length) :
    (node.slice s e).endIndex = e := by
  have hl : ((node.instructions.drop s).take (e - s)).length = e - s := by
    simp only [List.length_take, List.length_drop]
    omega
  simp only [Block.endIndex, slice, hl]
  omega

theorem mem_slice {node : Node} {s e q : Nat} (hs : s ≤ q) (he : q < e) {i : Instruction}
    (hi : node.instructions[q]? = some i) : i ∈ (node.slice s e).instructions := by
  refine List.mem_iff_getElem?.mpr ⟨q - s, ?_⟩
  rw [slice, List.getElem?_take, if_pos (by omega), List.getElem?_drop, ← hi]
  congr 1
  omega

namespace Segment

variable {node : Node} {s e : Nat}

theorem goesOn (h : node.Segment s e) {q : Nat} (hs : s ≤ q) (he : q + 1 < e) {i : Instruction}
    (hi : node.instructions[q]? = some i) : i.opcode.endsBlock = false := by
  cases hb : i.opcode.endsBlock with
  | false => rfl
  | true => exact absurd (leads_succ hi hb) (h.inside (q + 1) (by omega) he)

theorem start_eq (h : node.Segment s e) {q : Nat} (hs : s ≤ q) (he : q < e) :
    node.start q = s := by
  rw [start, Nat.findGreatest_eq_iff]
  exact ⟨hs, fun _ => h.leads, fun k hk hq => h.inside k hk (by omega)⟩

theorem eq_of_mem {s' e' : Nat} (h : node.Segment s e) (h' : node.Segment s' e') {q : Nat}
    (hs : s ≤ q) (he : q < e) (hs' : s' ≤ q) (he' : q < e') : s = s' ∧ e = e' := by
  have hst : s = s' := (h.start_eq hs he).symm.trans (h'.start_eq hs' he')
  subst hst
  refine ⟨rfl, ?_⟩
  have hle := h.le
  have hle' := h'.le
  obtain hlt | heq | hgt := Nat.lt_trichotomy e e'
  · exact absurd (h.stops (by omega)) (h'.inside e (by omega) hlt)
  · exact heq
  · exact absurd (h'.stops (by omega)) (h.inside e' (by omega) hgt)

theorem start_eq_iff (h : node.Segment s e) {q : Nat} (hq : q < node.instructions.length) :
    node.start q = s ↔ s ≤ q ∧ q < e := by
  refine ⟨fun hs => ?_, fun hs => h.start_eq hs.1 hs.2⟩
  have hle : node.start q ≤ q := Nat.findGreatest_le q
  refine ⟨by omega, ?_⟩
  by_contra hge
  have he : node.Leads e := h.stops (by omega)
  have := Nat.le_findGreatest (P := node.Leads) (by omega : e ≤ q) he
  have hlt := h.lt
  rw [start] at hs
  omega

theorem endIndex_slice (h : node.Segment s e) : (node.slice s e).endIndex = e :=
  node.endIndex_slice (Nat.le_of_lt h.lt) h.le

theorem instructions_slice (h : node.Segment s e) {i : Instruction}
    (hi : node.instructions[e - 1]? = some i) :
    (node.slice s e).instructions = (node.instructions.take (e - 1)).drop s ++ [i] := by
  have hlt := h.lt
  have he : node.instructions.take e = node.instructions.take (e - 1) ++ [i] := by
    have := List.take_add_one (l := node.instructions) (i := e - 1)
    rwa [hi, Nat.sub_add_cancel (by omega)] at this
  have hle := h.le
  rw [slice, ← List.drop_take, he, List.drop_append_of_le_length]
  simp only [List.length_take]
  omega

theorem exists_last (h : node.Segment s e) : ∃ i, node.instructions[e - 1]? = some i := by
  have hlt := h.lt
  have hle := h.le
  exact ⟨_, List.getElem?_eq_getElem (by omega)⟩

theorem last_slice (h : node.Segment s e) : (node.slice s e).last? = node.instructions[e - 1]? := by
  obtain ⟨i, hi⟩ := h.exists_last
  rw [Block.last?, h.instructions_slice hi, hi, List.getLast?_concat]

theorem body_goesOn (h : node.Segment s e) :
    ∀ i ∈ (node.instructions.take (e - 1)).drop s, i.opcode.endsBlock = false := by
  intro i hi
  obtain ⟨q, hq⟩ := List.mem_iff_getElem?.mp hi
  rw [List.getElem?_drop, List.getElem?_take] at hq
  split at hq
  · exact h.goesOn (by omega) (by omega) hq
  · cases hq

theorem since_eq (h : node.Segment s e) {q : Nat} (hs : s ≤ q) (he : q < e) :
    node.since q = (node.instructions.take q).drop s := by
  rw [since, h.start_eq hs he]

end Segment

end Node

theorem map_fst_filter_zipIdx {α : Type} (l : List α) (s e k : Nat) :
    ((l.zipIdx k).filter (fun x => decide (s ≤ x.2 ∧ x.2 < e))).map Prod.fst =
      (l.take (e - k)).drop (s - k) := by
  induction l generalizing k with
  | nil => simp
  | cons a l ih =>
    rw [List.zipIdx_cons, List.filter_cons]
    by_cases he : k < e
    · obtain ⟨d, hd⟩ : ∃ d, e - k = d + 1 := ⟨e - k - 1, by omega⟩
      have hd' : e - (k + 1) = d := by omega
      by_cases hs : s ≤ k
      · have hz : s - k = 0 := by omega
        have hz' : s - (k + 1) = 0 := by omega
        rw [if_pos (by simp [hs, he]), List.map_cons, ih, hd, hd', hz, hz']
        rfl
      · obtain ⟨c, hc⟩ : ∃ c, s - k = c + 1 := ⟨s - k - 1, by omega⟩
        have hc' : s - (k + 1) = c := by omega
        rw [if_neg (by simp [hs]), ih, hd, hd', hc, hc']
        rfl
    · have hz : e - k = 0 := by omega
      have hz' : e - (k + 1) = 0 := by omega
      rw [if_neg (by simp [he]), ih, hz, hz']
      simp

namespace Node.Segment

theorem around_eq {node : Node} {s e : Nat} (h : node.Segment s e) {q : Nat} (hs : s ≤ q)
    (he : q < e) : node.around q = (node.slice s e).instructions := by
  have hf : ∀ x ∈ node.instructions.zipIdx,
      decide (node.start x.2 = node.start q) = decide (s ≤ x.2 ∧ x.2 < e) := by
    intro x hx
    have hx' : x.2 < node.instructions.length := by
      obtain ⟨_, hl, _⟩ := List.mem_zipIdx hx
      omega
    rw [h.start_eq hs he, decide_eq_decide]
    exact h.start_eq_iff hx'
  rw [around, List.filter_congr hf, map_fst_filter_zipIdx, slice, ← List.drop_take]
  rfl

end Node.Segment

end DialogueFlow
