import DialogueFlow.Proofs.Analysis

namespace DialogueFlow

/-- Where the first part of one text goes on after that of the other, it goes on with nothing or
with a dot. -/
theorem append_dot_cases_of_longer {a b s t : String} {more : List Char}
    (hb : b.toList = a.toList ++ more) (hs : '.' :: s.toList = more ++ '.' :: t.toList) :
    (a = b ∧ s = t) ∨ ∃ rest, b = a ++ "." ++ rest ∧ s = rest ++ "." ++ t := by
  cases more with
  | nil =>
    refine .inl ⟨String.toList_injective ?_, String.toList_injective ?_⟩
    · rw [hb, List.append_nil]
    · exact (List.cons.inj hs).2
  | cons c rest =>
    obtain ⟨rfl, hs⟩ := List.cons.inj hs
    refine .inr ⟨String.ofList rest, String.toList_injective ?_, String.toList_injective ?_⟩
    · simp [hb]
    · simpa using hs

theorem append_dot_cases {a b s t : String} (h : a ++ "." ++ s = b ++ "." ++ t) :
    (a = b ∧ s = t) ∨ (∃ rest, b = a ++ "." ++ rest ∧ s = rest ++ "." ++ t) ∨
      ∃ rest, a = b ++ "." ++ rest ∧ t = rest ++ "." ++ s := by
  have h := congrArg String.toList h
  simp only [String.toList_append, List.append_assoc] at h
  obtain ⟨more, hb, hs⟩ | ⟨more, ha, ht⟩ := List.append_eq_append_iff.mp h
  · obtain h | h := append_dot_cases_of_longer hb hs
    · exact .inl h
    · exact .inr (.inl h)
  · obtain ⟨hab, hst⟩ | h := append_dot_cases_of_longer ha ht
    · exact .inl ⟨hab.symm, hst.symm⟩
    · exact .inr (.inr h)

theorem toString_natCast_inj {m n : Nat} (h : toString (m : Int) = toString (n : Int)) : m = n := by
  have hd : Nat.toDigits 10 m = Nat.toDigits 10 n := by
    rw [← Nat.toList_repr, ← Nat.toList_repr]
    exact congrArg String.toList h
  rw [← Nat.ofDigitChars_ten_toDigits (n := m), hd, Nat.ofDigitChars_ten_toDigits]

theorem dot_notMem_toString (k : Int) : '.' ∉ (toString k).toList := by
  have digits : ∀ n : Nat, '.' ∉ n.repr.toList := by
    intro n hn
    rw [Nat.toList_repr] at hn
    exact absurd (Nat.isDigit_of_mem_toDigits (by decide) (by decide) hn) (by decide)
  cases k with
  | ofNat n => exact digits n
  | negSucc n =>
    have h : toString (Int.negSucc n) = "-" ++ (n + 1).repr := rfl
    rw [h, String.toList_append, List.mem_append]
    exact not_or.mpr ⟨by decide, digits _⟩

namespace Block

variable {b c : Block}

def suffix (b : Block) : String := b.label.getD (toString b.first)

theorem name_eq (b : Block) : b.name = b.node ++ "." ++ b.suffix := by
  rw [name, suffix]
  cases b.label <;> rfl

/-- The label of `b` reads like the place of `c`, or like the end of the name of `c` from within
the name of its node. -/
inductive Mimics (b c : Block) : Prop
  | place : b.node = c.node → c.label = none → b.label = some (toString c.first) → Mimics b c
  | path (rest : String) : c.node = b.node ++ "." ++ rest →
      b.label = some (rest ++ "." ++ c.suffix) → Mimics b c

theorem Mimics.name_eq (h : b.Mimics c) : b.name = c.name := by
  rw [b.name_eq, c.name_eq]
  cases h with
  | place hn hc hb => simp [suffix, hn, hc, hb]
  | path rest hn hb =>
    have hs : b.suffix = rest ++ "." ++ c.suffix := by simp [suffix, hb]
    rw [hs, hn]
    simp only [String.append_assoc]

theorem Mimics.ne (h : b.Mimics c) : b ≠ c := by
  rintro rfl
  cases h with
  | place hn hc hb => simp [hc] at hb
  | path rest hn hb =>
    have hl := congrArg (fun s => s.toList.length) hn
    simp at hl

theorem label_of_dot {rest : String} (h : b.suffix = rest ++ "." ++ c.suffix) :
    b.label = some (rest ++ "." ++ c.suffix) := by
  cases hb : b.label with
  | some label => simpa [suffix, hb] using h
  | none =>
    have hd := dot_notMem_toString b.first
    rw [suffix, hb, Option.getD_none] at h
    simp [h] at hd

end Block

namespace Program

variable {p : Program} {b c : Block}

theorem Keyed.eq_or_mimics_of_suffix (h : p.Keyed) (hb : b ∈ p.analyse.blocks)
    (hc : c ∈ p.analyse.blocks) (hnode : b.node = c.node) (hs : b.suffix = c.suffix) :
    b = c ∨ b.Mimics c ∨ c.Mimics b := by
  cases hlb : b.label with
  | some label =>
    cases hlc : c.label with
    | some other =>
      have hl : label = other := by simpa [Block.suffix, hlb, hlc] using hs
      exact .inl (h.eq_of_label hb hc hnode hlb (hl ▸ hlc))
    | none =>
      have hl : label = toString c.first := by simpa [Block.suffix, hlb, hlc] using hs
      exact .inr (.inl (.place hnode hlc (hl ▸ hlb)))
  | none =>
    cases hlc : c.label with
    | some other =>
      have hl : toString b.first = other := by simpa [Block.suffix, hlb, hlc] using hs
      exact .inr (.inr (.place hnode.symm hlb (hl ▸ hlc)))
    | none =>
      have hl : toString b.first = toString c.first := by
        simpa [Block.suffix, hlb, hlc] using hs
      obtain ⟨m, hm⟩ := h.exists_first hb
      obtain ⟨n, hn⟩ := h.exists_first hc
      rw [hm, hn] at hl
      apply Or.inl
      apply h.eq_of_first hb hc hnode
      rw [hm, hn, toString_natCast_inj hl]

theorem Keyed.name_eq_iff (h : p.Keyed) (hb : b ∈ p.analyse.blocks) (hc : c ∈ p.analyse.blocks) :
    b.name = c.name ↔ b = c ∨ b.Mimics c ∨ c.Mimics b := by
  apply Iff.intro
  · intro hn
    rw [b.name_eq, c.name_eq] at hn
    obtain ⟨hnode, hs⟩ | ⟨rest, hnode, hs⟩ | ⟨rest, hnode, hs⟩ := append_dot_cases hn
    · exact h.eq_or_mimics_of_suffix hb hc hnode hs
    · exact .inr (.inl (.path rest hnode (Block.label_of_dot hs)))
    · exact .inr (.inr (.path rest hnode (Block.label_of_dot hs)))
  · rintro (rfl | hm | hm)
    · rfl
    · exact hm.name_eq
    · exact hm.name_eq.symm

/-- No label makes a block look like another one. -/
def Unambiguous (p : Program) : Prop :=
  ∀ b ∈ p.analyse.blocks, ∀ c ∈ p.analyse.blocks, ¬ b.Mimics c

theorem Keyed.unambiguous_iff (h : p.Keyed) :
    p.Unambiguous ↔ ∀ b ∈ p.analyse.blocks, ∀ c ∈ p.analyse.blocks, b.name = c.name → b = c := by
  apply Iff.intro
  · intro hu b hb c hc hn
    obtain he | hm | hm := (h.name_eq_iff hb hc).mp hn
    · exact he
    · exact absurd hm (hu b hb c hc)
    · exact absurd hm (hu c hc b hb)
  · exact fun hi b hb c hc hm => hm.ne (hi b hb c hc hm.name_eq)

end Program

theorem Analysis.blockNamed?_iff (a : Analysis) :
    (∀ b ∈ a.blocks, a.blockNamed? b.name = some b) ↔
      ∀ b ∈ a.blocks, ∀ c ∈ a.blocks, b.name = c.name → b = c := by
  apply Iff.intro
  · intro h b hb c hc hn
    have hs := h b hb
    rw [hn, h c hc] at hs
    exact (Option.some.inj hs).symm
  · intro h b hb
    have hfind : ((a.blockNamed? b.name).isSome) = true := by
      rw [blockNamed?, List.find?_isSome]
      exact ⟨b, hb, beq_self_eq_true _⟩
    obtain ⟨c, hc⟩ := Option.isSome_iff_exists.mp hfind
    have hn : c.name = b.name := by simpa using List.find?_some hc
    rw [hc, h c (List.mem_of_find?_eq_some hc) b hb hn]

namespace Program

/-- Names tell the blocks of a program apart, and each of them is found by its name, exactly if no
label makes a block look like another one. -/
theorem names_identify_iff {data : Json} {p : Program} (h : ofJson data = .ok p) :
    ((p.analyse.blocks.map Block.name).Nodup ↔ p.Unambiguous) ∧
      ((∀ b ∈ p.analyse.blocks, p.analyse.blockNamed? b.name = some b) ↔ p.Unambiguous) := by
  have hk := keyed_ofJson h
  rw [hk.unambiguous_iff]
  exact ⟨List.nodup_map_iff_inj_on hk.nodup_blocks, p.analyse.blockNamed?_iff⟩

def pause : Json := .object [("opcode", .string "Stop")]

def street : Json := .object [("nodes", .object [
  ("Inn", .object [
    ("instructions", .array [pause, pause, pause]),
    ("labels", .object [("2", .int 2), ("2.Bar", .int 1)])]),
  ("Inn.2", .object [
    ("instructions", .array [pause, pause]),
    ("labels", .object [("Door", .int 1)])])])]

def streetBlocks : List Block := [
  ⟨"Inn", 0, none, [⟨.stop, []⟩]⟩,
  ⟨"Inn", 1, some "2.Bar", [⟨.stop, []⟩]⟩,
  ⟨"Inn", 2, some "2", [⟨.stop, []⟩]⟩,
  ⟨"Inn.2", 0, none, [⟨.stop, []⟩]⟩,
  ⟨"Inn.2", 1, some "Door", [⟨.stop, []⟩]⟩]

theorem names_identify_iff_street :
    ∃ p, ofJson street = .ok p ∧ p.analyse.blocks = streetBlocks ∧
      (p.analyse.blocks.map Block.name).Nodup ∧ p.Unambiguous ∧
      ∀ b ∈ p.analyse.blocks, p.analyse.blockNamed? b.name = some b := by
  have hread : (ofJson street).toOption.map (fun p => p.analyse.blocks) = some streetBlocks := by
    decide +kernel
  obtain ⟨p, hp, hb⟩ := exists_ok_of_map hread
  obtain ⟨hnodup, hfound⟩ := names_identify_iff hp
  have hnames : (p.analyse.blocks.map Block.name).Nodup := by
    rw [hb]
    decide +kernel
  have hu := hnodup.mp hnames
  exact ⟨p, hp, hb, hnames, hu, hfound.mpr hu⟩

def inn : Json := .object [("nodes", .object [
  ("Inn", .object [
    ("instructions", .array [
      .object [("opcode", .string "RunLine"), ("operands", .array [.string "line:door"])],
      pause,
      .object [("opcode", .string "RunLine"), ("operands", .array [.string "line:bar"])],
      pause]),
    ("labels", .object [("2", .int 0)])])])]

def innBlocks : List Block := [
  ⟨"Inn", 0, some "2", [⟨.runLine, [.string "line:door"]⟩, ⟨.stop, []⟩]⟩,
  ⟨"Inn", 2, none, [⟨.runLine, [.string "line:bar"]⟩, ⟨.stop, []⟩]⟩]

theorem name_shared_in_inn :
    ∃ p, ofJson inn = .ok p ∧ ∃ b ∈ p.analyse.blocks, ∃ c ∈ p.analyse.blocks,
      b ≠ c ∧ b.name = c.name ∧ p.analyse.blockNamed? c.name = some b := by
  have hread : (ofJson inn).toOption.map (fun p => p.analyse.blocks) = some innBlocks := by
    decide +kernel
  obtain ⟨p, hp, hb⟩ := exists_ok_of_map hread
  have hfind : ∀ name, p.analyse.blockNamed? name = innBlocks.find? (fun b => b.name == name) := by
    intro name
    rw [← hb]
    rfl
  refine ⟨p, hp, ?_⟩
  simp only [hb, hfind]
  decide +kernel

end Program

end DialogueFlow
