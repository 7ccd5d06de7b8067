import DialogueFlow.Proofs.Overflow
import DialogueFlow.Proofs.ReaderBounds

namespace DialogueFlow

namespace Json

theorem hasInt_of_lookup {n : Int} {fields : List (String × Json)} {key : String} {value : Json}
    (h : fields.lookup key = some value) (hn : value.HasInt n) : HasInt n (.object fields) := by
  obtain ⟨before, after, rfl, -⟩ := List.lookup_eq_some_iff.mp h
  exact .field (e := (key, value)) (by simp) hn

mutual

theorem isText_of_forall_hasInt : (value : Json) → (∀ n, value.HasInt n → isWritable n = true) →
    value.allWritable = true
  | .int n, h => by
    rw [allWritable]
    exact h n .int
  | .array items, h => by
    rw [allWritable]
    exact itemsWritable_of_forall_hasInt items (fun v hv n hn => h n (.item hv hn))
  | .object fields, h => by
    rw [allWritable]
    exact fieldsWritable_of_forall_hasInt fields (fun e he n hn => h n (.field he hn))
  | .null, _ | .bool _, _ | .float _, _ | .string _, _ => by rw [allWritable]

theorem itemsWritable_of_forall_hasInt : (items : List Json) →
    (∀ v ∈ items, ∀ n, v.HasInt n → isWritable n = true) → itemsWritable items = true
  | [], _ => by rw [itemsWritable]
  | item :: rest, h => by
    obtain ⟨hitem, hrest⟩ := List.forall_mem_cons.mp h
    rw [itemsWritable, isText_of_forall_hasInt item hitem,
      itemsWritable_of_forall_hasInt rest hrest, Bool.and_true]

theorem fieldsWritable_of_forall_hasInt : (fields : List (String × Json)) →
    (∀ e ∈ fields, ∀ n, e.2.HasInt n → isWritable n = true) → fieldsWritable fields = true
  | [], _ => by rw [fieldsWritable]
  | (key, value) :: rest, h => by
    obtain ⟨hvalue, hrest⟩ := List.forall_mem_cons.mp h
    rw [fieldsWritable, isText_of_forall_hasInt value hvalue,
      fieldsWritable_of_forall_hasInt rest hrest, Bool.and_true]

end

theorem isText_of_read {d : Dialect} {text : List Char} {data : Json}
    (h : read d text = .ok data) : data.IsText := by
  refine isText_of_forall_hasInt data (fun n hn => ?_)
  have hbelow := (read_bounds d (runsWithin_length text)).1 data h n hn
  rw [isWritable, decide_eq_true_iff]
  unfold writeBound
  exact Nat.lt_of_lt_of_le hbelow (intBound_le _)

theorem IsHuge.exists_int {value : Json} (h : value.IsHuge) :
    ∃ n, value.HasInt n ∧ Double.limit ≤ n.natAbs := by
  cases value with
  | int n => exact ⟨n, .int, h⟩
  | _ => exact h.elim

theorem InstructionOverflows.exists_int {data : Json} (h : data.InstructionOverflows) :
    ∃ n, data.HasInt n ∧ Double.limit ≤ n.natAbs := by
  cases data with
  | object fields =>
    obtain ⟨-, operands, hlookup, hbreaks⟩ := h
    obtain ⟨value, hv, hhuge⟩ := hbreaks.exists_mem
    obtain ⟨n, hn, hlimit⟩ := hhuge.exists_int
    exact ⟨n, hasInt_of_lookup hlookup (.item hv hn), hlimit⟩
  | _ => exact h.elim

theorem NodeOverflows.exists_int {data : Json} (h : data.NodeOverflows) :
    ∃ n, data.HasInt n ∧ Double.limit ≤ n.natAbs := by
  cases data with
  | object fields =>
    obtain ⟨-, -, items, hlookup, hbreaks⟩ := h
    obtain ⟨value, hv, hoverflows⟩ := hbreaks.exists_mem
    obtain ⟨n, hn, hlimit⟩ := hoverflows.exists_int
    exact ⟨n, hasInt_of_lookup hlookup (.item hv hn), hlimit⟩
  | _ => exact h.elim

theorem hasInt_of_nodeEntries {n : Int} {value : Json} {entries : List (Option String × Json)}
    (h : value.nodeEntries? = some entries) {e : Option String × Json} (he : e ∈ entries)
    (hn : e.2.HasInt n) : value.HasInt n := by
  cases value with
  | object nodes =>
    cases h
    obtain ⟨d, hd, rfl⟩ := List.mem_map.mp he
    exact .field hd hn
  | array nodes =>
    cases h
    obtain ⟨data, hd, rfl⟩ := List.mem_map.mp he
    exact .item hd hn
  | _ => cases h

theorem Overflows.exists_int {data : Json} (h : data.Overflows) :
    ∃ n, data.HasInt n ∧ Double.limit ≤ n.natAbs := by
  cases data with
  | object fields =>
    obtain ⟨-, ⟨entries, hentries, hbreaks⟩ | ⟨-, values, hlookup, hbreaks⟩⟩ := h
    · obtain ⟨e, he, -, hoverflows⟩ := hbreaks.exists_mem
      obtain ⟨n, hn, hlimit⟩ := hoverflows.exists_int
      have hnodes := hasInt_of_nodeEntries hentries he hn
      rw [field] at hnodes
      cases hlookup : fields.lookup "nodes" with
      | none =>
        rw [hlookup] at hnodes
        cases hnodes with
        | field hd _ => cases hd
      | some value =>
        rw [hlookup] at hnodes
        exact ⟨n, hasInt_of_lookup hlookup hnodes, hlimit⟩
    · obtain ⟨e, he, hhuge⟩ := hbreaks.exists_mem
      obtain ⟨n, hn, hlimit⟩ := hhuge.exists_int
      exact ⟨n, hasInt_of_lookup hlookup (.field he hn), hlimit⟩
  | _ => exact h.elim

theorem intBound_le_limit {k : Nat} (hk : k = 308) : intBound k ≤ Double.limit := by
  subst hk
  decide +kernel

theorem exists_run_of_overflows {d : Dialect} {text : List Char} {data : Json}
    (h : read d text = .ok data) (hoverflows : data.Overflows) :
    ∃ rest, rest <:+ text ∧ 308 < leadingDigits rest := by
  obtain ⟨k, hk⟩ : ∃ k, k = 308 := ⟨_, rfl⟩
  rw [← hk]
  apply exists_of_not_runsWithin
  intro hruns
  obtain ⟨n, hn, hlimit⟩ := hoverflows.exists_int
  have hbelow := (read_bounds d hruns).1 data h n hn
  exact Nat.not_lt.mpr ((intBound_le_limit hk).trans hlimit) hbelow

end Json

namespace Program

/-- A text gives a program, or what is malformed in it is reported. -/
def Settles (d : Json.Dialect) (text : List Char) : Prop :=
  (∃ p, ofText d text = .ok p) ∨ ∃ cause, ofText d text = .error (.malformed cause)

variable {d : Json.Dialect} {text : List Char}

theorem ofText_of_read {data : Json} (h : Json.read d text = .ok data) :
    ofText d text = ofJson data := by
  rw [ofText, h]

theorem settles_iff_of_read {data : Json} (h : Json.read d text = .ok data) :
    Settles d text ↔ ¬ data.Overflows := by
  rw [Settles, ofText_of_read h, ← ofJson_overflow_iff_overflows]
  cases hdata : ofJson data with
  | ok p => simp
  | error fault =>
    obtain ⟨cause, rfl⟩ | rfl := ofDocument_ofJson (Json.isText_of_read h) fault hdata
    · simp
    · simp

theorem settles_iff (d : Json.Dialect) (text : List Char) :
    Settles d text ↔ (∀ digits, Json.read d text ≠ .error (.longInteger digits)) ∧
      (∀ container, Json.read d text ≠ .error (.tooDeep container)) ∧
      ∀ data, Json.read d text = .ok data → ¬ data.Overflows := by
  cases h : Json.read d text with
  | ok data => simp [settles_iff_of_read h]
  | error failure => cases failure <;> simp [Settles, ofText, h, malformed]

theorem depth_lt_openings {container : Json.Container}
    (h : Json.read d text = .error (.tooDeep container)) : d.depth < Json.openings text :=
  (Json.read_bounds d (Json.runsWithin_length text)).2.2 container h

/-- None of the three things is in the way of a text with short numbers and few containers. -/
theorem settles_of_runsWithin (hruns : Json.RunsWithin 308 text)
    (hopenings : Json.openings text ≤ d.depth) : Settles d text := by
  refine (settles_iff d text).mpr ⟨fun digits h => ?_, fun container h => ?_,
    fun data h hoverflows => ?_⟩
  · obtain ⟨hlong, rest, hrest, hdigits⟩ := Json.exists_run_of_longInteger h
    have hrun := hruns rest hrest
    rw [Json.maxDigits] at hlong
    omega
  · exact Nat.not_lt.mpr hopenings (depth_lt_openings h)
  · obtain ⟨rest, hrest, hlong⟩ := Json.exists_run_of_overflows h hoverflows
    exact Nat.not_lt.mpr (hruns rest hrest) hlong

/-- A text settles unless one of three things is in its way: an integer literal with more digits
than are read, containers deeper inside each other than are read, or an integer that is too big for
a double and is met before anything else that is wrong. They then end loading themselves, so that a
text settles if it has at most 308 digits in a row and at most as many containers as are read inside
each other. -/
theorem ofText_settles_iff (d : Json.Dialect) (text : List Char) :
    (Settles d text ↔ (∀ digits, Json.read d text ≠ .error (.longInteger digits)) ∧
      (∀ container, Json.read d text ≠ .error (.tooDeep container)) ∧
      ∀ data, Json.read d text = .ok data → ¬ data.Overflows) ∧
    (∀ digits, Json.read d text = .error (.longInteger digits) →
      ofText d text = .error (.longInteger digits) ∧ Json.maxDigits < digits ∧
        ∃ rest, rest <:+ text ∧ digits ≤ Json.leadingDigits rest) ∧
    (∀ container, Json.read d text = .error (.tooDeep container) →
      ofText d text = .error (.tooDeep container) ∧ d.depth < Json.openings text) ∧
    (∀ data, Json.read d text = .ok data → data.Overflows →
      ofText d text = .error .overflow ∧ ∃ rest, rest <:+ text ∧ 308 < Json.leadingDigits rest) ∧
    (Json.RunsWithin 308 text → Json.openings text ≤ d.depth → Settles d text) := by
  refine ⟨settles_iff d text, fun digits h => ⟨?_, Json.exists_run_of_longInteger h⟩,
    fun container h => ⟨?_, depth_lt_openings h⟩,
    fun data h hoverflows => ⟨?_, Json.exists_run_of_overflows h hoverflows⟩,
    settles_of_runsWithin⟩
  · rw [ofText, h]
  · rw [ofText, h]
  · exact (ofText_of_read h).trans ((ofJson_overflow_iff_overflows data).mpr hoverflows)

def shop (gold : List Char) : List Char :=
  "\x7b\"nodes\": \x7b\"Shop\": ".toList ++
    "\x7b\"instructions\": [\x7b\"opcode\": \"Stop\"\x7d]\x7d\x7d, ".toList ++
    "\"initial_values\": \x7b\"$gold\": ".toList ++ gold ++ "\x7d\x7d".toList

theorem ofText_settles_iff_shop :
    Settles .standard (shop "100".toList) ∧ (ofText .standard (shop "100".toList)).isOk = true :=
  ⟨(ofText_settles_iff .standard (shop "100".toList)).2.2.2.2
    ((Json.runsWithin_length _).mono (by decide)) (by decide), by decide +kernel⟩

def riches : List Char := '1' :: List.replicate 309 '0'

def isOverflow : ReadFault → Bool
  | .overflow => true
  | _ => false

theorem overflow_in_shop :
    ofText .standard (shop riches) = .error .overflow ∧ ¬ Settles .standard (shop riches) := by
  have h : ofText .standard (shop riches) = .error .overflow := by
    have hmap : (fault? (ofText .standard (shop riches))).map isOverflow = some true := by
      decide +kernel
    obtain ⟨fault, hfault, hoverflow⟩ := exists_error_of_map hmap
    cases fault with
    | overflow => exact hfault
    | _ => cases hoverflow
  refine ⟨h, ?_⟩
  rw [Settles, h]
  simp

end Program

end DialogueFlow
