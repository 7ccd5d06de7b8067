import DialogueFlow.Proofs.Exits
import DialogueFlow.Proofs.Outcome
import DialogueFlow.Proofs.Tour
import Mathlib.Data.List.DropRight

namespace DialogueFlow

def Opcode.textOperands : Opcode → List Nat
  | .runLine | .runCommand => [0]
  | .addOption => [0, 1]
  | _ => []

def Opcode.showing : List Opcode := [.runLine, .runCommand, .showOptions]

namespace Instruction

variable {i : Instruction} {p : Nat}

def HasText (i : Instruction) (p : Nat) : Prop := ∃ s, i.operands[p]? = some (.string s)

def IsLegible (i : Instruction) : Prop := ∀ p ∈ i.opcode.textOperands, i.HasText p

def Lacks (i : Instruction) (p : Nat) (fault : Fault) : Prop :=
  (i.operands[p]? = none ∧
      fault = .malformed (.missingOperand i.opcode p i.operands.length)) ∨
    ∃ op, i.operands[p]? = some op ∧ op.kind ≠ .string ∧ fault = .operandKind .string op

/-- `fault` is about the first operand that ought to be a text and is none. -/
def Breaks (i : Instruction) (fault : Fault) : Prop :=
  ∃ p ∈ i.opcode.textOperands, i.Lacks p fault ∧ ∀ q ∈ i.opcode.textOperands, q < p → i.HasText q

def Offers (i : Instruction) (item : OptionItem) : Prop :=
  i.opcode = .addOption ∧ i.operands[0]? = some (.string item.line) ∧
    i.operands[1]? = some (.string item.destination)

theorem hasText_iff : i.HasText p ↔ ∃ s, i.stringOperand p = .ok s := by
  simp only [HasText, stringOperand_eq_ok_iff]

instance (i : Instruction) (p : Nat) : Decidable (i.HasText p) :=
  decidable_of_iff ((i.stringOperand p).toOption.isSome = true) (by
    rw [hasText_iff]
    cases i.stringOperand p <;> simp [Except.toOption])

instance (i : Instruction) : Decidable i.IsLegible :=
  inferInstanceAs (Decidable (∀ p ∈ i.opcode.textOperands, i.HasText p))

theorem lacks_of_error {fault : Fault} (h : i.stringOperand p = .error fault) :
    i.Lacks p fault := by
  rw [stringOperand, operand, operand?_natCast] at h
  cases ho : i.operands[p]? with
  | none =>
    simp only [ho, bind, Except.bind, Except.error.injEq] at h
    exact .inl ⟨ho, h.symm⟩
  | some op =>
    refine .inr ⟨op, ho, ?_⟩
    cases op <;> simp_all [bind, Except.bind, Operand.asString, Operand.kind]

end Instruction

/-- Each instruction with those that come before it, of which the first are `past`. -/
def withPast (past : List Instruction) : List Instruction → List (List Instruction × Instruction)
  | [] => []
  | i :: rest => (past, i) :: withPast (past ++ [i]) rest

def showings (instructions : List Instruction) : List (List Instruction × Instruction) :=
  (withPast [] instructions).filter (fun e => e.2.opcode ∈ Opcode.showing)

def openOptions (instructions : List Instruction) : List Instruction :=
  addedOptions (instructions.rtakeWhile (fun i => i.opcode ≠ .showOptions))

/-- The element that `i` shows after the instructions `before`. -/
def Instruction.Shows (before : List Instruction) (i : Instruction) : Element → Prop
  | .line id => i.opcode = .runLine ∧ i.operands[0]? = some (.string id)
  | .command text => i.opcode = .runCommand ∧ i.operands[0]? = some (.string text)
  | .options items => i.opcode = .showOptions ∧ List.Forall₂ Offers (openOptions before) items

/-- There is one element for each instruction that shows something, in order. The options that are
shown and those that are left make up all that were added. -/
structure Presents (instructions : List Instruction) (elements : List Element)
    (unshown : List OptionItem) : Prop where
  each : List.Forall₂ (fun e x => e.2.Shows e.1 x) (showings instructions) elements
  left : List.Forall₂ Instruction.Offers (openOptions instructions) unshown
  all : List.Forall₂ Instruction.Offers (addedOptions instructions)
    (elements.flatMap Element.items ++ unshown)

theorem withPast_append (past xs ys : List Instruction) :
    withPast past (xs ++ ys) = withPast past xs ++ withPast (past ++ xs) ys := by
  induction xs generalizing past with
  | nil => simp [withPast]
  | cons x xs ih => simp [withPast, ih]

theorem showings_concat (seen : List Instruction) (i : Instruction) :
    showings (seen ++ [i]) =
      showings seen ++ if i.opcode ∈ Opcode.showing then [(seen, i)] else [] := by
  by_cases h : i.opcode ∈ Opcode.showing <;> simp [showings, withPast_append, withPast, h]

theorem openOptions_concat (seen : List Instruction) (i : Instruction) :
    openOptions (seen ++ [i]) = if i.opcode = .showOptions then []
      else openOptions seen ++ if i.opcode = .addOption then [i] else [] := by
  by_cases h : i.opcode = .showOptions
  · simp [openOptions, addedOptions, h]
  · rw [openOptions, List.rtakeWhile_concat_pos _ _ _ (by simpa using h), addedOptions_concat,
      if_neg h]
    rfl

namespace Presents

variable {seen : List Instruction} {elements : List Element} {pending : List OptionItem}
  {i : Instruction}

theorem nil : Presents [] [] [] := ⟨.nil, .nil, .nil⟩

theorem said (h : Presents seen elements pending) {e : Element} (he : i.Shows seen e)
    (hi : i.opcode = .runLine ∨ i.opcode = .runCommand) :
    Presents (seen ++ [i]) (elements ++ [e]) pending := by
  have hshowing : i.opcode ∈ Opcode.showing := by
    obtain hi | hi := hi <;> simp [hi, Opcode.showing]
  have hkeeps : i.opcode ≠ .showOptions ∧ i.opcode ≠ .addOption := by
    obtain hi | hi := hi <;> simp [hi]
  have hitems : e.items = [] := by
    cases e with
    | options items => exact absurd he.1 hkeeps.1
    | _ => rfl
  constructor
  case each =>
    rw [showings_concat, if_pos hshowing]
    exact List.rel_append h.each (.cons he .nil)
  case left => simpa [openOptions_concat, hkeeps] using h.left
  case all => simpa [addedOptions_concat, hkeeps, hitems] using h.all

theorem passed (h : Presents seen elements pending) (hi : i.opcode ∉ Opcode.showing)
    (ha : i.opcode ≠ .addOption) : Presents (seen ++ [i]) elements pending := by
  have hkeeps : i.opcode ≠ .showOptions := by
    intro ho
    simp [ho, Opcode.showing] at hi
  constructor
  case each => simpa [showings_concat, hi] using h.each
  case left => simpa [openOptions_concat, hkeeps, ha] using h.left
  case all => simpa [addedOptions_concat, ha] using h.all

theorem offered (h : Presents seen elements pending) {item : OptionItem} (hi : i.Offers item) :
    Presents (seen ++ [i]) elements (pending ++ [item]) := by
  constructor
  case each => simpa [showings_concat, hi.1, Opcode.showing] using h.each
  case left =>
    rw [openOptions_concat, if_neg (by simp [hi.1]), if_pos hi.1]
    exact List.rel_append h.left (.cons hi .nil)
  case all =>
    rw [addedOptions_concat, if_pos hi.1, ← List.append_assoc]
    exact List.rel_append h.all (.cons hi .nil)

theorem shown (h : Presents seen elements pending) (hi : i.opcode = .showOptions) :
    Presents (seen ++ [i]) (elements ++ [.options pending]) [] := by
  constructor
  case each =>
    rw [showings_concat, if_pos (by simp [hi, Opcode.showing])]
    exact List.rel_append h.each (.cons ⟨hi, h.left⟩ .nil)
  case left => simp [openOptions_concat, hi]
  case all => simpa [addedOptions_concat, hi, Element.items] using h.all

end Presents

namespace Content

def prepend (elements : List Element) (c : Content) : Content :=
  { c with elements := elements ++ c.elements }

variable {seen : List Instruction} {elements : List Element} {pending : List OptionItem}
  {i : Instruction}

theorem ofInstructions_cons (hi : i.IsLegible) (h : Presents seen elements pending) :
    ∃ more pending', Presents (seen ++ [i]) (elements ++ more) pending' ∧ ∀ rest,
      ofInstructions pending (i :: rest) = (ofInstructions pending' rest).prepend more := by
  simp only [ofInstructions.eq_2]
  cases ho : i.opcode with
  | runLine =>
    obtain ⟨id, hid⟩ := hi 0 (by simp [ho, Opcode.textOperands])
    have h0 : i.stringOperand 0 = .ok id := (i.stringOperand_eq_ok_iff 0 id).mpr hid
    refine ⟨[.line id], pending, h.said ⟨ho, hid⟩ (.inl ho), fun rest => ?_⟩
    simp [h0, cons, prepend]
  | runCommand =>
    obtain ⟨text, htext⟩ := hi 0 (by simp [ho, Opcode.textOperands])
    have h0 : i.stringOperand 0 = .ok text := (i.stringOperand_eq_ok_iff 0 text).mpr htext
    refine ⟨[.command text], pending, h.said ⟨ho, htext⟩ (.inr ho), fun rest => ?_⟩
    simp [h0, cons, prepend]
  | addOption =>
    obtain ⟨line, hline⟩ := hi 0 (by simp [ho, Opcode.textOperands])
    obtain ⟨label, hlabel⟩ := hi 1 (by simp [ho, Opcode.textOperands])
    have h0 : i.stringOperand 0 = .ok line := (i.stringOperand_eq_ok_iff 0 line).mpr hline
    have h1 : i.stringOperand 1 = .ok label := (i.stringOperand_eq_ok_iff 1 label).mpr hlabel
    refine ⟨[], pending ++ [⟨line, label⟩], ?_, fun rest => ?_⟩
    · rw [List.append_nil]
      exact h.offered ⟨ho, hline, hlabel⟩
    · simp [h0, h1, prepend]
  | showOptions =>
    exact ⟨[.options pending], [], h.shown ho, fun rest => by simp [cons, prepend]⟩
  | _ =>
    refine ⟨[], pending, ?_, fun rest => by simp [prepend]⟩
    rw [List.append_nil]
    exact h.passed (by simp [ho, Opcode.showing]) (by simp [ho])

/-- Instructions that can be read are gone through, whatever comes after them. -/
theorem ofInstructions_append {told : List Instruction} (ht : ∀ i ∈ told, i.IsLegible)
    (h : Presents seen elements pending) :
    ∃ more pending', Presents (seen ++ told) (elements ++ more) pending' ∧ ∀ rest,
      ofInstructions pending (told ++ rest) = (ofInstructions pending' rest).prepend more := by
  induction told generalizing seen elements pending with
  | nil => exact ⟨[], pending, by simpa using h, fun rest => by simp [prepend]⟩
  | cons i told ih =>
    obtain ⟨first, pending₁, hfirst, heq⟩ := ofInstructions_cons (ht i (by simp)) h
    obtain ⟨more, pending₂, hmore, heq'⟩ := ih (fun j hj => ht j (by simp [hj])) hfirst
    refine ⟨first ++ more, pending₂, by simpa using hmore, fun rest => ?_⟩
    rw [List.cons_append, heq, heq']
    simp [prepend]

theorem ofInstructions_of_not_isLegible (hi : ¬ i.IsLegible) (pending : List OptionItem)
    (rest : List Instruction) :
    ∃ fault, i.Breaks fault ∧ ofInstructions pending (i :: rest) = stop fault := by
  simp only [ofInstructions.eq_2]
  have h0 := fun text => i.stringOperand_eq_ok_iff 0 text
  have h1 := fun text => i.stringOperand_eq_ok_iff 1 text
  cases ho : i.opcode with
  | runLine | runCommand =>
    cases hs : i.stringOperand 0 with
    | ok text =>
      refine absurd ?_ hi
      simp [Instruction.IsLegible, Instruction.HasText, ho, Opcode.textOperands, (h0 text).mp hs]
    | error fault =>
      refine ⟨fault, ⟨0, ?_, Instruction.lacks_of_error hs, by simp⟩, by simp⟩
      simp [ho, Opcode.textOperands]
  | addOption =>
    cases hs : i.stringOperand 0 with
    | error fault =>
      refine ⟨fault, ⟨0, ?_, Instruction.lacks_of_error hs, by simp⟩, by simp⟩
      simp [ho, Opcode.textOperands]
    | ok line =>
      have hline : i.HasText 0 := ⟨line, (h0 line).mp hs⟩
      cases hd : i.stringOperand 1 with
      | ok label =>
        refine absurd ?_ hi
        have hlabel : i.HasText 1 := ⟨label, (h1 label).mp hd⟩
        simp [Instruction.IsLegible, ho, Opcode.textOperands, hline, hlabel]
      | error fault =>
        refine ⟨fault, ⟨1, ?_, Instruction.lacks_of_error hd, ?_⟩, by simp⟩
        · simp [ho, Opcode.textOperands]
        · simp [ho, Opcode.textOperands, hline]
  | _ => exact absurd (by simp [Instruction.IsLegible, ho, Opcode.textOperands]) hi

end Content

namespace Block

open Content

variable {b : Block}

theorem content_of_isLegible (h : ∀ i ∈ b.instructions, i.IsLegible) :
    ∃ unshown, b.content.ending = .ok unshown ∧
      Presents b.instructions b.content.elements unshown := by
  obtain ⟨elements, unshown, hpresents, heq⟩ := ofInstructions_append h .nil
  have hcontent : b.content = ⟨elements, .ok unshown⟩ := by
    simpa [ofInstructions, prepend, content] using heq []
  rw [hcontent]
  exact ⟨unshown, rfl, hpresents⟩

theorem content_of_not_isLegible {before after : List Instruction} {i : Instruction}
    (hb : b.instructions = before ++ i :: after) (h : ∀ j ∈ before, j.IsLegible)
    (hi : ¬ i.IsLegible) :
    ∃ fault unshown, i.Breaks fault ∧ b.content.ending = .error fault ∧
      Presents before b.content.elements unshown ∧
      b.content.elements = ({ b with instructions := before } : Block).content.elements := by
  obtain ⟨elements, unshown, hpresents, heq⟩ := ofInstructions_append h .nil
  obtain ⟨fault, hbreaks, hstop⟩ := ofInstructions_of_not_isLegible hi unshown after
  have hcontent : b.content = ⟨elements, .error fault⟩ := by
    rw [content, hb, heq, hstop]
    simp [prepend, stop]
  have hprefix : (ofInstructions [] before).elements = elements := by
    simpa [ofInstructions, prepend] using congrArg Content.elements (heq [])
  rw [hcontent]
  exact ⟨fault, unshown, hbreaks, rfl, hpresents, hprefix.symm⟩

theorem exists_presents (b : Block) :
    ∃ told unshown, told <+: b.instructions ∧ Presents told b.content.elements unshown := by
  cases hfind : b.instructions.find? (fun i => ¬ i.IsLegible) with
  | none =>
    have hall : ∀ i ∈ b.instructions, i.IsLegible := by
      simpa using List.find?_eq_none.mp hfind
    obtain ⟨unshown, -, hpresents⟩ := content_of_isLegible hall
    exact ⟨b.instructions, unshown, List.prefix_rfl, hpresents⟩
  | some i =>
    obtain ⟨hi, before, after, hb, hbefore⟩ := List.find?_eq_some_iff_append.mp hfind
    obtain ⟨-, unshown, -, -, hpresents, -⟩ :=
      content_of_not_isLegible hb (by simpa using hbefore) (by simpa using hi)
    exact ⟨before, unshown, hb ▸ List.prefix_append _ _, hpresents⟩

theorem exists_offers {item : OptionItem} (h : item ∈ b.shown) :
    ∃ i ∈ b.instructions, i.Offers item := by
  obtain ⟨told, unshown, hprefix, hpresents⟩ := b.exists_presents
  obtain ⟨i, hi, hoffers⟩ :=
    exists_mem_of_forall₂ hpresents.all.flip (List.mem_append_left unshown h)
  exact ⟨i, hprefix.subset (List.mem_filter.mp hi).1, hoffers⟩

end Block

end DialogueFlow
