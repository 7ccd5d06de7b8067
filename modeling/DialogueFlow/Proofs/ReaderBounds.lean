import DialogueFlow.Json.Reader
import DialogueFlow.Proofs.Table

namespace DialogueFlow.Json

def leadingDigits (text : List Char) : Nat := (text.takeWhile Char.isDigit).length

/-- Nowhere in a text are there more than `m` digits in a row. -/
def RunsWithin (m : Nat) (text : List Char) : Prop := ∀ rest, rest <:+ text → leadingDigits rest ≤ m

/-- How many lists and objects start in a text, those in strings counted as well. -/
def openings (text : List Char) : Nat := text.countP (fun c => c == '[' || c == '\x7b')

theorem RunsWithin.of_suffix {m : Nat} {text rest : List Char} (h : RunsWithin m text)
    (hrest : rest <:+ text) : RunsWithin m rest :=
  fun tail htail => h tail (htail.trans hrest)

theorem RunsWithin.mono {m m' : Nat} {text : List Char} (h : RunsWithin m text) (hm : m ≤ m') :
    RunsWithin m' text :=
  fun rest hrest => Nat.le_trans (h rest hrest) hm

theorem runsWithin_length (text : List Char) : RunsWithin text.length text := by
  intro rest hrest
  exact Nat.le_trans (List.takeWhile_prefix _).length_le hrest.length_le

theorem exists_of_not_runsWithin {m : Nat} {text : List Char} (h : ¬ RunsWithin m text) :
    ∃ rest, rest <:+ text ∧ m < leadingDigits rest := by
  simp only [RunsWithin, Classical.not_forall, Nat.not_le, exists_prop] at h
  exact h

theorem openings_le {text rest : List Char} (h : rest <:+ text) : openings rest ≤ openings text :=
  h.sublist.countP_le

theorem openings_cons {c : Char} {text : List Char} (hc : c = '[' ∨ c = '\x7b') :
    openings (c :: text) = openings text + 1 := by
  obtain rfl | rfl := hc <;> simp [openings]

inductive HasInt (n : Int) : Json → Prop
  | int : HasInt n (.int n)
  | item {items : List Json} {value : Json} (hv : value ∈ items) (h : HasInt n value) :
    HasInt n (.array items)
  | field {fields : List (String × Json)} {e : String × Json} (he : e ∈ fields)
    (h : HasInt n e.2) : HasInt n (.object fields)

def IntsBelow (bound : Nat) (value : Json) : Prop := ∀ n, value.HasInt n → n.natAbs < bound

variable {bound : Nat}

theorem intsBelow_int {n : Int} (h : n.natAbs < bound) : IntsBelow bound (.int n) := by
  rintro k ⟨⟩
  exact h

theorem intsBelow_array {items : List Json} (h : ∀ value ∈ items, value.IntsBelow bound) :
    IntsBelow bound (.array items) := by
  intro n hn
  cases hn with
  | item hv hn => exact h _ hv n hn

theorem intsBelow_object {fields : List (String × Json)}
    (h : ∀ e ∈ fields, e.2.IntsBelow bound) : IntsBelow bound (.object fields) := by
  intro n hn
  cases hn with
  | field he hn => exact h _ he n hn

theorem skipSpaceFrom_suffix (offset : Nat) (text : List Char) :
    (skipSpaceFrom offset text).rest <:+ text := by
  induction text generalizing offset with
  | nil => exact List.suffix_refl _
  | cons c rest ih =>
    rw [skipSpaceFrom]
    split
    · exact (ih _).trans (List.suffix_cons c rest)
    · exact List.suffix_refl _

theorem RunsWithin.skip {m offset : Nat} {text rest : List Char} (h : RunsWithin m text)
    (hrest : rest <:+ text) : RunsWithin m (skipSpaceFrom offset rest).rest :=
  h.of_suffix ((skipSpaceFrom_suffix offset rest).trans hrest)

theorem suffix_of_skipSpaceFrom {offset : Nat} {text rest : List Char} {c : Char}
    (h : (skipSpaceFrom offset text).rest = c :: rest) : rest <:+ text := by
  have hskip := skipSpaceFrom_suffix offset text
  rw [h] at hskip
  exact (List.suffix_cons c rest).trans hskip

theorem after?_suffix {word text rest : List Char} (h : after? word text = some rest) :
    rest <:+ text := by
  induction word generalizing text with
  | nil =>
    cases h
    exact List.suffix_refl _
  | cons c word ih =>
    cases text with
    | nil => cases h
    | cons d text =>
      rw [after?] at h
      split at h
      · exact (ih h).trans (List.suffix_cons d text)
      · cases h

/-- How reading may end at a text with at most `m` digits in a row, if `depth` more containers may
start: the value is `good` and a rest of the text is left, or the failure has its reason there. -/
def Bounded {α : Type} (m depth : Nat) (good : α → Prop) (text : List Char) :
    Except Failure (α × Cursor) → Prop
  | .ok (value, next) => next.rest <:+ text ∧ good value
  | .error (.problem _ _) => True
  | .error (.longInteger digits) => maxDigits < digits ∧ digits ≤ m
  | .error (.tooDeep _) => depth < openings text

variable {m depth : Nat}

theorem Bounded.of_suffix {α : Type} {good : α → Prop} {text rest : List Char}
    {r : Except Failure (α × Cursor)} (hrest : rest <:+ text) (h : Bounded m depth good rest r) :
    Bounded m depth good text r := by
  cases r with
  | ok result => exact ⟨h.1.trans hrest, h.2⟩
  | error failure =>
    cases failure with
    | problem what offset => exact trivial
    | longInteger digits => exact h
    | tooDeep container => exact Nat.lt_of_lt_of_le h (openings_le hrest)

theorem Bounded.map {α β : Type} {good : α → Prop} {good' : β → Prop} {f : α → β}
    {text : List Char} {r : Except Failure (α × Cursor)} (h : Bounded m depth good text r)
    (hf : ∀ a, good a → good' (f a)) :
    Bounded m depth good' text (r.map (fun (a, next) => (f a, next))) := by
  cases r with
  | ok result => exact ⟨h.1, hf _ h.2⟩
  | error failure => cases failure <;> exact h

theorem Bounded.error {α β : Type} {good : α → Prop} {good' : β → Prop} {text : List Char}
    {e : Failure} (h : Bounded m depth good text (.error e)) :
    Bounded m depth good' text (.error e) := by
  cases e <;> exact h

theorem Bounded.skip {α : Type} {good : α → Prop} {text rest : List Char} {offset : Nat}
    {r : Except Failure (α × Cursor)} (hrest : rest <:+ text)
    (h : Bounded m depth good (skipSpaceFrom offset rest).rest r) : Bounded m depth good text r :=
  h.of_suffix ((skipSpaceFrom_suffix offset rest).trans hrest)

theorem Bounded.inside {α : Type} {good : α → Prop} {c : Char} {text : List Char}
    {r : Except Failure (α × Cursor)} (hc : c = '[' ∨ c = '\x7b')
    (h : Bounded m depth good text r) : Bounded m (depth + 1) good (c :: text) r := by
  cases r with
  | ok result => exact ⟨h.1.trans (List.suffix_cons c text), h.2⟩
  | error failure =>
    cases failure with
    | problem what offset => exact trivial
    | longInteger digits => exact h
    | tooDeep container =>
      rw [Bounded, openings_cons hc]
      exact Nat.succ_lt_succ h

theorem bounded_readUnits (start : Nat) (done : List Nat) (offset : Nat) (state : StringState)
    (text : List Char) :
    Bounded m depth (fun _ => True) text (readUnits start done offset state text) := by
  fun_induction readUnits start done offset state text with
  | case5 => exact ⟨List.suffix_cons _ _, trivial⟩
  | case6 | case8 | case9 | case10 | case13 | case14 =>
    exact Bounded.of_suffix (List.suffix_cons _ _) ‹_›
  | _ => exact trivial

theorem bounded_readString (lone : Nat → Char) (start : Nat) (text : List Char) :
    Bounded m depth (fun _ => True) text (readString lone start text) :=
  (bounded_readUnits start [] (start + 1) (.between none) text).map
    (f := fun units => String.ofList (joinSurrogates lone units)) (fun _ _ => trivial)

def intBound (m : Nat) : Nat := Nat.pow 10 (min m maxDigits)

theorem intBound_le (m : Nat) : intBound m ≤ Nat.pow 10 maxDigits := by
  have h (k : Nat) : Nat.pow 10 (min m k) ≤ Nat.pow 10 k :=
    Nat.pow_le_pow_right (by decide) (Nat.min_le_right m k)
  exact h maxDigits

theorem isDigit_of_mem_wholeDigits {text : List Char} {c : Char} (h : c ∈ wholeDigits text) :
    c.isDigit = true := by
  cases text with
  | nil => cases h
  | cons d rest =>
    rw [wholeDigits] at h
    split at h
    · next hd =>
      rw [List.mem_singleton.mp h, hd]
      rfl
    · split at h
      · next hd =>
        obtain rfl | h := List.mem_cons.mp h
        · exact hd
        · exact List.all_eq_true.mp List.all_takeWhile c h
      · cases h

theorem length_wholeDigits_le (text : List Char) :
    (wholeDigits text).length ≤ leadingDigits text := by
  cases text with
  | nil => exact Nat.le_refl _
  | cons d rest =>
    rw [wholeDigits, leadingDigits, List.takeWhile_cons]
    split
    · next hd =>
      subst hd
      simp
    · split <;> simp

theorem naturalOf_lt {digits : List Char} (h : ∀ c ∈ digits, c.isDigit = true) :
    naturalOf digits < Nat.pow 10 digits.length := by
  induction digits using List.reverseRecOn with
  | nil => decide
  | append_singleton digits c ih =>
    have hc : c.toNat - '0'.toNat < 10 := by
      have hdigit := h c (by simp)
      simp only [Char.isDigit, Bool.and_eq_true, decide_eq_true_eq] at hdigit
      exact Nat.lt_succ_of_le (Nat.sub_le_sub_right (UInt32.le_iff_toNat_le.mp hdigit.2) _)
    have hdigits := ih (fun d hd => h d (by simp [hd]))
    rw [naturalOf, List.foldl_append, ← naturalOf, List.length_append]
    calc 10 * naturalOf digits + (c.toNat - '0'.toNat)
      _ < 10 * (naturalOf digits + 1) := by omega
      _ ≤ 10 * Nat.pow 10 digits.length := Nat.mul_le_mul_left 10 hdigits
      _ = Nat.pow 10 (digits.length + 1) := Nat.mul_comm _ _

theorem intsBelow_naturalOf {digits : List Char} (h : ∀ c ∈ digits, c.isDigit = true)
    (hm : digits.length ≤ m) (hdigits : digits.length ≤ maxDigits) (negative : Bool) :
    IntsBelow (intBound m)
      (.int (if negative = true then -(naturalOf digits : Int) else naturalOf digits)) := by
  apply intsBelow_int
  have habs : (if negative = true then -(naturalOf digits : Int) else naturalOf digits).natAbs =
      naturalOf digits := by
    cases negative <;> simp
  rw [habs]
  exact Nat.lt_of_lt_of_le (naturalOf_lt h)
    (Nat.pow_le_pow_right (by decide) (Nat.le_min_of_le_of_le hm hdigits))

theorem bounded_readNumber {cur : Cursor} (hruns : RunsWithin m cur.rest) :
    Bounded m depth (IntsBelow (intBound m)) cur.rest (readNumber cur) := by
  unfold readNumber
  split
  next signs negative _ =>
    have hwhole : (wholeDigits (cur.rest.drop signs)).length ≤ m :=
      Nat.le_trans (length_wholeDigits_le _) (hruns _ (List.drop_suffix signs cur.rest))
    dsimp only
    -- Only how much is dropped depends on the fraction and the exponent.
    generalize fractionDigits _ = fraction
    generalize (if fraction.isEmpty = true then 0 else 1) = point
    generalize exponentPart _ = exponent
    simp only [List.drop_drop]
    split
    · exact trivial
    · split
      · split
        · next hlong => exact ⟨hlong, hwhole⟩
        · next hshort =>
          exact ⟨List.drop_suffix _ _, intsBelow_naturalOf (fun c => isDigit_of_mem_wholeDigits)
            hwhole (Nat.le_of_not_lt hshort) negative⟩
      · exact ⟨List.drop_suffix _ _, fun n hn => by cases hn⟩

theorem bounded_readScalar {cur : Cursor} (hruns : RunsWithin m cur.rest) :
    Bounded m depth (IntsBelow (intBound m)) cur.rest (readScalar cur) := by
  rw [readScalar]
  split
  · next word value rest hfound =>
    obtain ⟨w, hw, h⟩ := List.exists_of_findSome?_eq_some hfound
    obtain ⟨left, hleft, he⟩ := Option.map_eq_some_iff.mp h
    cases he
    refine ⟨after?_suffix hleft, fun n hn => ?_⟩
    have hplain : ∀ w ∈ words, ¬ w.2.HasInt n := by
      rintro _ hw hn
      simp only [words, List.mem_cons, List.not_mem_nil, or_false] at hw
      obtain rfl | rfl | rfl | rfl | rfl | rfl := hw <;> cases hn
    exact (hplain _ hw hn).elim
  · exact bounded_readNumber hruns

/-- Reading values is bounded if `fuel` turns are left. -/
def ValueBounded (lone : Nat → Char) (m fuel : Nat) : Prop :=
  ∀ depth cur, RunsWithin m cur.rest →
    Bounded m depth (IntsBelow (intBound m)) cur.rest (readValue lone fuel depth cur)

def ItemsBounded (lone : Nat → Char) (m fuel : Nat) : Prop :=
  ∀ depth done cur, RunsWithin m cur.rest → (∀ value ∈ done, value.IntsBelow (intBound m)) →
    Bounded m depth (IntsBelow (intBound m)) cur.rest (readItems lone fuel depth done cur)

def FieldsBounded (lone : Nat → Char) (m fuel : Nat) : Prop :=
  ∀ depth done cur, RunsWithin m cur.rest → (∀ e ∈ done, e.2.IntsBelow (intBound m)) →
    Bounded m depth (IntsBelow (intBound m)) cur.rest (readFields lone fuel depth done cur)

variable {lone : Nat → Char} {fuel : Nat}

theorem valueBounded_succ (hitems : ItemsBounded lone m fuel)
    (hfields : FieldsBounded lone m fuel) : ValueBounded lone m (fuel + 1) := by
  intro depth cur hruns
  rw [readValue.eq_def]
  obtain ⟨offset, text⟩ := cur
  cases text with
  | nil => exact trivial
  | cons c text =>
    have hinside : RunsWithin m (skipSpaceFrom (offset + 1) text).rest :=
      hruns.of_suffix ((skipSpaceFrom_suffix _ text).trans (List.suffix_cons c text))
    dsimp only
    split
    · exact ((bounded_readString lone offset text).map
        (fun s _ n hn => by cases hn)).of_suffix (List.suffix_cons c text)
    · split
      · next hc =>
        split
        · exact Nat.lt_of_lt_of_eq (Nat.succ_pos _) (openings_cons (.inl hc)).symm
        · next rest _ hrest =>
          exact ⟨(suffix_of_skipSpaceFrom hrest).trans (List.suffix_cons c text),
            intsBelow_array (by simp)⟩
        · exact ((hitems _ [] _ hinside (by simp)).skip (List.suffix_refl text)).inside (.inl hc)
      · split
        · next hc =>
          split
          · exact Nat.lt_of_lt_of_eq (Nat.succ_pos _) (openings_cons (.inr hc)).symm
          · next rest _ hrest =>
            exact ⟨(suffix_of_skipSpaceFrom hrest).trans (List.suffix_cons c text),
              intsBelow_object (by simp)⟩
          · exact ((hfields _ [] _ hinside (by simp)).skip (List.suffix_refl text)).inside (.inr hc)
        · exact bounded_readScalar hruns

theorem itemsBounded_succ (hvalue : ValueBounded lone m fuel) (hitems : ItemsBounded lone m fuel) :
    ItemsBounded lone m (fuel + 1) := by
  intro depth done cur hruns hdone
  have hread := hvalue depth cur hruns
  rw [readItems]
  split
  · next e he =>
    rw [he] at hread
    exact hread.error
  · next value next he =>
    rw [he] at hread
    obtain ⟨hnext, hv⟩ := hread
    have hall : ∀ v ∈ value :: done, v.IntsBelow (intBound m) :=
      List.forall_mem_cons.mpr ⟨hv, hdone⟩
    dsimp only
    split
    · next rest hrest =>
      exact ⟨(suffix_of_skipSpaceFrom hrest).trans hnext,
        intsBelow_array (fun v hv => hall v (List.mem_reverse.mp hv))⟩
    · next rest hrest =>
      have hleft := (suffix_of_skipSpaceFrom hrest).trans hnext
      exact (hitems depth _ _ (hruns.skip hleft) hall).skip hleft
    · exact trivial

theorem fieldsBounded_succ (hvalue : ValueBounded lone m fuel)
    (hfields : FieldsBounded lone m fuel) : FieldsBounded lone m (fuel + 1) := by
  intro depth done cur hruns hdone
  rw [readFields.eq_def]
  split
  · next fuel' text hfuel htext =>
    obtain rfl := Nat.succ.inj hfuel
    rw [htext] at hruns ⊢
    have hstring : Bounded m depth (fun _ => True) text
        (readString lone cur.offset text) := bounded_readString lone _ _
    refine Bounded.of_suffix (List.suffix_cons _ text) ?_
    split
    · next e he =>
      rw [he] at hstring
      exact hstring.error
    · next key next he =>
      rw [he] at hstring
      dsimp only
      split
      · next rest hrest =>
        have hcolon := (suffix_of_skipSpaceFrom hrest).trans hstring.1
        have hinside := hruns.of_suffix (List.suffix_cons _ text)
        have hread := (hvalue depth (skipSpaceFrom (next.skipSpace.offset + 1) rest)
          (hinside.skip hcolon)).skip hcolon
        split
        · next e he =>
          rw [he] at hread
          exact hread.error
        · next value next he =>
          rw [he] at hread
          obtain ⟨hnext, hv⟩ := hread
          have hall : ∀ e ∈ setEntry key value done, e.2.IntsBelow (intBound m) := by
            intro e he
            obtain rfl | he := Table.mem_setEntry he
            · exact hv
            · exact hdone e he
          split
          · next rest hrest =>
            exact ⟨(suffix_of_skipSpaceFrom hrest).trans hnext, intsBelow_object hall⟩
          · next rest hrest =>
            have hleft := (suffix_of_skipSpaceFrom hrest).trans hnext
            exact (hfields depth _ _ (hinside.skip hleft) hall).skip hleft
          · exact trivial
      · exact trivial
  · exact trivial

/-- One induction carries all three, since they call each other with less fuel. -/
theorem bounded_of_fuel (lone : Nat → Char) (m fuel : Nat) :
    ValueBounded lone m fuel ∧ ItemsBounded lone m fuel ∧ FieldsBounded lone m fuel := by
  induction fuel with
  | zero =>
    refine ⟨fun depth cur _ => ?_, fun depth done cur _ _ => ?_, fun depth done cur _ _ => ?_⟩
    · rw [readValue.eq_def]
      exact trivial
    · rw [readItems]
      exact trivial
    · rw [readFields.eq_def]
      exact trivial
  | succ fuel ih =>
    obtain ⟨hvalue, hitems, hfields⟩ := ih
    exact ⟨valueBounded_succ hitems hfields, itemsBounded_succ hvalue hitems,
      fieldsBounded_succ hvalue hfields⟩

/-- How reading a whole text may end, if it has at most `m` digits in a row. -/
theorem read_bounds (d : Dialect) {text : List Char} (hruns : RunsWithin m text) :
    (∀ data, read d text = .ok data → data.IntsBelow (intBound m)) ∧
    (∀ digits, read d text = .error (.longInteger digits) → maxDigits < digits ∧ digits ≤ m) ∧
    (∀ container, read d text = .error (.tooDeep container) → d.depth < openings text) := by
  have hread := ((bounded_of_fuel d.lone m (2 * text.length + 2)).1 d.depth (skipSpaceFrom 0 text)
    (hruns.skip (List.suffix_refl text))).skip (List.suffix_refl text)
  rw [read.eq_def]
  split
  · simp [fail]
  · split
    · next e he =>
      rw [he] at hread
      refine ⟨by simp, ?_, ?_⟩
      · rintro digits ⟨⟩
        exact hread
      · rintro container ⟨⟩
        exact hread
    · next value next he =>
      rw [he] at hread
      dsimp only
      split
      · refine ⟨?_, by simp, by simp⟩
        rintro data ⟨⟩
        exact hread.2
      · simp [fail]

theorem exists_run_of_longInteger {d : Dialect} {text : List Char} {digits : Nat}
    (h : read d text = .error (.longInteger digits)) :
    maxDigits < digits ∧ ∃ rest, rest <:+ text ∧ digits ≤ leadingDigits rest := by
  have hlong := ((read_bounds d (runsWithin_length text)).2.1 digits h).1
  refine ⟨hlong, ?_⟩
  by_cases hruns : RunsWithin (digits - 1) text
  · have hdigits := ((read_bounds d hruns).2.1 digits h).2
    omega
  · obtain ⟨rest, hrest, hm⟩ := exists_of_not_runsWithin hruns
    exact ⟨rest, hrest, by omega⟩

end DialogueFlow.Json
