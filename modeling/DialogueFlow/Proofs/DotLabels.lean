import DialogueFlow.Proofs.DotReading

namespace DialogueFlow.Export.Dot

def readLabel (line : List Char) : Option (String × List Char) := do
  let (_, line) ← readQuoted "  " line
  readQuoted " [label=" line

def IsVerbatim (s : List Char) : Prop := '"' ∉ s ∧ '\\' ∉ s

instance (s : List Char) : Decidable (IsVerbatim s) := inferInstanceAs (Decidable (_ ∧ _))

theorem isVerbatim_cons {c : Char} {s : List Char} :
    IsVerbatim (c :: s) ↔ (c ≠ '"' ∧ c ≠ '\\') ∧ IsVerbatim s := by
  simp only [IsVerbatim, List.mem_cons, not_or, ne_eq, eq_comm]
  tauto

theorem unquote_cons {c : Char} (hquote : c ≠ '"') (hslash : c ≠ '\\') (line : List Char) :
    unquote (c :: line) = (unquote line).map (fun r => (c :: r.1, r.2)) := by
  cases h : unquote line <;> simp [unquote, hslash, h]

theorem unquote_verbatim {s : List Char} (h : IsVerbatim s) (line : List Char) :
    unquote (s ++ '"' :: line) = some (s, line) := by
  induction s with
  | nil => rfl
  | cons c s ih =>
    obtain ⟨⟨hquote, hslash⟩, hs⟩ := isVerbatim_cons.mp h
    rw [List.cons_append, unquote_cons hquote hslash, ih hs]
    rfl

/-- What is read is shorter than what it is read from, unless nothing is escaped. -/
theorem length_unquote {line text rest : List Char} (h : unquote line = some (text, rest)) :
    text.length + 1 + rest.length < line.length ∨
      text.length + 1 + rest.length = line.length ∧ IsVerbatim text := by
  fun_induction unquote line generalizing text with
  | case1 => cases h
  | case2 rest' =>
    cases h
    exact .inr ⟨by simp [Nat.add_comm], by simp [IsVerbatim]⟩
  | case3 c line ih =>
    -- Two characters were read for one, so that equality is out of the question.
    obtain ⟨⟨text', rest'⟩, hread, h⟩ := Option.bind_eq_some_iff.mp h
    cases h
    have hle := ih hread
    simp only [List.length_cons]
    omega
  | case4 c line hquote hslash ih =>
    obtain ⟨⟨text', rest'⟩, hread, h⟩ := Option.bind_eq_some_iff.mp h
    cases h
    simp only [List.length_cons]
    obtain hlt | ⟨heq, hverbatim⟩ := ih hread
    · exact .inl (by omega)
    · have hc : c ≠ '\\' := by
        rintro rfl
        cases line with
        | nil => cases hread
        | cons d line => exact hslash d line rfl rfl
      exact .inr ⟨by omega, isVerbatim_cons.mpr ⟨⟨hquote, hc⟩, hverbatim⟩⟩

theorem unquote_eq_self_iff (s line : List Char) :
    unquote (s ++ '"' :: line) = some (s, line) ↔ IsVerbatim s := by
  apply Iff.intro
  · intro h
    obtain hlt | ⟨-, hverbatim⟩ := length_unquote h
    · simp only [List.length_append, List.length_cons] at hlt
      omega
    · exact hverbatim
  · exact fun h => unquote_verbatim h line

theorem readLabel_vertexLine (options : Options) (b : Block) :
    readLabel (vertexLine options b).toList =
      (unquote ((label options b).toList ++ '"' :: "];".toList)).map
        (fun r => (String.ofList r.1, r.2)) := by
  have hline : (vertexLine options b).toList = "  ".toList ++ ((quoted b.name).toList ++
      ((" [label=" ++ "\"").toList ++ ((label options b).toList ++ '"' :: "];".toList))) := by
    simp [vertexLine]
  rw [hline, readLabel, readQuoted_quoted]
  exact readQuoted_append " [label=" _

theorem vertexLine_mem_blockLines (options : Options) {vertices : List Vertex} {v : Vertex}
    (hv : v ∈ vertices) : vertexLine options v.block ∈ blockLines options vertices := by
  have hmap := List.mem_map_of_mem (f := fun v : Vertex => vertexLine options v.block) hv
  simp only [blockLines, List.mem_append]
  tauto

/-- In a drawing without instructions, the label of a block ends at the quote before the closing
bracket and reads as the name of the block if and only if there is neither a quote nor a backslash
in the name. -/
theorem label_reads_iff {options : Options} (hs : options.showInstructions = false)
    {vertices : List Vertex} {v : Vertex} (hv : v ∈ vertices) :
    vertexLine options v.block ∈ blockLines options vertices ∧
      (readLabel (vertexLine options v.block).toList = some (v.block.name, "];".toList) ↔
        IsVerbatim v.block.name.toList) := by
  refine ⟨vertexLine_mem_blockLines options hv, ?_⟩
  have hlabel : label options v.block = v.block.name := by simp [label, hs]
  rw [readLabel_vertexLine, hlabel, ← unquote_eq_self_iff _ "];".toList]
  apply Iff.intro
  · intro h
    obtain ⟨⟨text, rest⟩, hread, hr⟩ := Option.map_eq_some_iff.mp h
    obtain ⟨hname, rfl⟩ := Prod.mk.inj hr
    have htext : text = v.block.name.toList := by
      rw [← hname, String.toList_ofList]
    rw [hread, htext]
  · intro h
    rw [h, Option.map_some, String.ofList_toList]

def bay : Vertex := ⟨⟨"Bay];\n  Cape [", 0, some "Pier=;", [⟨.stop, []⟩]⟩, [], []⟩

theorem label_reads_iff_bay :
    Options.default.showInstructions = false ∧ bay ∈ [bay] ∧
      readLabel (vertexLine .default bay.block).toList =
        some ("Bay];\n  Cape [.Pier=;", "];".toList) := by
  have hmem : bay ∈ [bay] := List.mem_singleton.mpr rfl
  have hverbatim : IsVerbatim bay.block.name.toList := by decide
  exact ⟨rfl, hmem, (label_reads_iff rfl hmem).2.mpr hverbatim⟩

def crown : Vertex := ⟨⟨"The \"Crown\"", 0, none, [⟨.stop, []⟩]⟩, [], []⟩

theorem label_cut_short_in_crown :
    crown.block.name = "The \"Crown\".0" ∧
      vertexLine .default crown.block ∈ blockLines .default [crown] ∧
      readLabel (vertexLine .default crown.block).toList =
        some ("The ", "Crown\".0\"];".toList) ∧
      readLabel (vertexLine .default crown.block).toList ≠
        some (crown.block.name, "];".toList) := by
  decide

end DialogueFlow.Export.Dot
