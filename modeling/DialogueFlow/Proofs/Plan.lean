import DialogueFlow.Flow.Link

namespace DialogueFlow

def Opcode.pushes : List Opcode := [.pushString, .pushBool, .pushFloat, .pushVariable]

def addedOptions (instructions : List Instruction) : List Instruction :=
  instructions.filter (fun i => i.opcode = .addOption)

def lastPush? (instructions : List Instruction) : Option Instruction :=
  (instructions.filter (fun i => i.opcode ∈ Opcode.pushes)).getLast?

theorem mem_of_lastPush? {instructions : List Instruction} {t : Instruction}
    (h : lastPush? instructions = some t) : t ∈ instructions :=
  (List.mem_filter.mp (List.mem_of_getLast? h)).1

namespace Instruction

theorem operand?_natCast (i : Instruction) (p : Nat) : i.operand? p = i.operands[p]? := by
  have hp : ¬ (p : Int) < 0 := by omega
  simp [operand?, hp]

theorem stringOperand_eq_ok_iff (i : Instruction) (p : Nat) (s : String) :
    i.stringOperand p = .ok s ↔ i.operands[p]? = some (.string s) := by
  rw [stringOperand, operand, operand?_natCast]
  cases i.operands[p]? with
  | none => simp [bind, Except.bind]
  | some op => cases op <;> simp [bind, Except.bind, Operand.asString]

def IsSupplied (i : Instruction) : Prop :=
  (i.opcode = .addOption → ∃ s, i.operands[1]? = some (.string s)) ∧
    (i.opcode = .pushString → ∃ s, i.operands[0]? = some (.string s))

end Instruction

namespace Plan

variable {n : Nat}

def optionLabels (instructions : List Instruction) : List String :=
  (addedOptions instructions).filterMap (fun i => (i.stringOperand 1).toOption)

/-- The text that is on top after an instruction. -/
def topAfter (top : Option String) (i : Instruction) : Option String :=
  match i.opcode with
  | .pushString => (i.stringOperand 0).toOption
  | .pushBool | .pushFloat | .pushVariable => none
  | _ => top

theorem optionLabels_append (xs ys : List Instruction) :
    optionLabels (xs ++ ys) = optionLabels xs ++ optionLabels ys := by
  simp [optionLabels, addedOptions]

theorem ofInstructions_cons (ix : Index n) (node : String) (index : Int) (labels : List String)
    (top : Option String) {i : Instruction} (rest : List Instruction)
    (hb : i.opcode.endsBlock = false) (hs : i.IsSupplied) :
    ofInstructions ix node index labels top (i :: rest) =
      ofInstructions ix node (index + 1) (labels ++ optionLabels [i]) (topAfter top i) rest := by
  rw [ofInstructions.eq_def]
  cases ho : i.opcode with
  | addOption =>
    obtain ⟨s, h⟩ := hs.1 ho
    have h1 : i.stringOperand 1 = .ok s := (i.stringOperand_eq_ok_iff 1 s).mpr h
    simp [optionLabels, addedOptions, topAfter, ho, h1, Except.toOption]
  | pushString =>
    obtain ⟨s, h⟩ := hs.2 ho
    have h0 : i.stringOperand 0 = .ok s := (i.stringOperand_eq_ok_iff 0 s).mpr h
    simp [optionLabels, addedOptions, topAfter, ho, h0, Except.toOption]
  | jumpTo | jump | jumpIfFalse | stop | runNode => simp [ho, Opcode.endsBlock] at hb
  | _ => simp [optionLabels, addedOptions, topAfter, ho]

theorem fault_ofInstructions_cons (ix : Index n) (node : String) (index : Int)
    (labels : List String) (top : Option String) {i : Instruction} (rest : List Instruction)
    (hs : ¬ i.IsSupplied) :
    (ofInstructions ix node index labels top (i :: rest)).fault ≠ none := by
  rw [ofInstructions.eq_def]
  cases ho : i.opcode with
  | addOption =>
    cases h : i.stringOperand 1 with
    | error f => simp [fail, ho, h]
    | ok s =>
      refine absurd ⟨fun _ => ⟨s, ?_⟩, fun h' => ?_⟩ hs
      · exact (i.stringOperand_eq_ok_iff 1 s).mp h
      · simp [ho] at h'
  | pushString =>
    cases h : i.stringOperand 0 with
    | error f => simp [fail, ho, h]
    | ok s =>
      refine absurd ⟨fun h' => ?_, fun _ => ⟨s, ?_⟩⟩ hs
      · simp [ho] at h'
      · exact (i.stringOperand_eq_ok_iff 0 s).mp h
  | _ => exact absurd ⟨fun h => by simp [ho] at h, fun h => by simp [ho] at h⟩ hs

/-- A body that ends no block is run through, with what it collects. -/
theorem ofInstructions_append (ix : Index n) (node : String) (index : Int) (labels : List String)
    (top : Option String) {body : List Instruction} (rest : List Instruction)
    (hb : ∀ i ∈ body, i.opcode.endsBlock = false) (hs : ∀ i ∈ body, i.IsSupplied) :
    ofInstructions ix node index labels top (body ++ rest) =
      ofInstructions ix node (index + body.length) (labels ++ optionLabels body)
        (body.foldl topAfter top) rest := by
  induction body generalizing index labels top with
  | nil => simp [optionLabels, addedOptions]
  | cons i body ih =>
    have hl := optionLabels_append [i] body
    rw [List.singleton_append] at hl
    rw [List.cons_append, ofInstructions_cons ix node index labels top _ (hb i (by simp))
      (hs i (by simp)), ih _ _ _ (fun j hj => hb j (by simp [hj]))
      (fun j hj => hs j (by simp [hj])), hl, List.append_assoc, List.foldl_cons, List.length_cons]
    congr 1
    omega

theorem fault_ofInstructions_append (ix : Index n) (node : String) (index : Int)
    (labels : List String) (top : Option String) {body : List Instruction}
    (rest : List Instruction) (hb : ∀ i ∈ body, i.opcode.endsBlock = false)
    (hs : ¬ ∀ i ∈ body, i.IsSupplied) :
    (ofInstructions ix node index labels top (body ++ rest)).fault ≠ none := by
  induction body generalizing index labels top with
  | nil => simp at hs
  | cons i body ih =>
    rw [List.cons_append]
    by_cases hi : i.IsSupplied
    · rw [ofInstructions_cons ix node index labels top _ (hb i (by simp)) hi]
      refine ih _ _ _ (fun j hj => hb j (by simp [hj])) (fun h => hs ?_)
      intro j hj
      obtain rfl | hj := List.mem_cons.mp hj
      · exact hi
      · exact h j hj
    · exact fault_ofInstructions_cons ix node index labels top _ hi

variable {ix : Index n}

/-- No edge leads to a node without a name. -/
def Named (p : Plan n) : Prop := ∀ e ∈ p.edges, e.target ≠ .node ""

theorem Named.edgesThen {p : Plan n} (h : p.Named) {edges : List (Edge n)}
    (he : ∀ e ∈ edges, e.target ≠ .node "") : (edgesThen edges p).Named := by
  intro e hm
  obtain hm | hm := List.mem_append.mp hm
  · exact he e hm
  · exact h e hm

theorem Named.append {p q : Plan n} (hp : p.Named) (hq : q.Named) : (append p q).Named := by
  rw [Plan.append]
  split
  · exact hp
  · exact hq.edgesThen hp

theorem named_fail (f : Fault) : (fail f : Plan n).Named := by
  simp [Named, fail]

theorem named_options (labels : List String) : (options ix labels).Named := by
  induction labels with
  | nil => simp [Named, options, done]
  | cons label labels ih =>
    rw [options]
    split
    · exact ih.edgesThen (by simp)
    · exact named_fail _

theorem named_ofInstructions (node : String) (index : Int) (labels : List String)
    (top : Option String) (instructions : List Instruction) :
    (ofInstructions ix node index labels top instructions).Named := by
  induction instructions generalizing index labels top with
  | nil => simp [Named, ofInstructions, done]
  | cons i rest ih =>
    rw [ofInstructions.eq_def]
    cases ho : i.opcode with
    | addOption | pushString =>
      simp only [ho]
      split
      · exact ih _ _ _
      · exact named_fail _
    | jump =>
      simp only [ho]
      exact (named_options labels).append (ih _ _ _)
    | jumpTo =>
      simp only [ho]
      split
      · exact named_fail _
      · split
        · exact named_fail _
        · exact (ih _ _ _).edgesThen (by simp)
    | jumpIfFalse =>
      simp only [ho]
      split
      · exact named_fail _
      · split
        · exact named_fail _
        · exact named_fail _
        · exact (ih _ _ _).edgesThen (by simp)
    | runNode =>
      simp only [ho]
      split
      · exact Named.append (by simp [Named]) (ih _ _ _)
      · next name =>
        by_cases hn : name = ""
        · rw [if_pos (by simp [hn])]
          exact named_fail _
        · rw [if_neg (by simp [hn])]
          exact (ih _ _ _).edgesThen (by simp [hn])
    | _ =>
      simp only [ho]
      exact ih _ _ _

end Plan

end DialogueFlow
