import DialogueFlow.Double.Shortest
import DialogueFlow.Json.Reader
import DialogueFlow.Proofs.Rounding
import Mathlib.Data.List.Basic
import Mathlib.Data.List.TakeWhile

namespace DialogueFlow

namespace Decimal

theorem denominator_pos (d : Decimal) : 0 < d.denominator := Nat.pow_pos (by decide)

/-- Zeros at the end of the digits may as well be counted by the exponent. -/
theorem nearestRank_mul_pow (n k : Nat) (e : Int) :
    nearestRank ⟨n * Nat.pow 10 k, e⟩ = nearestRank ⟨n, e + k⟩ := by
  have hexponents : k + e.toNat + (-(e + k)).toNat = (e + k).toNat + (-e).toNat := by omega
  have hpow : ∀ a b, Nat.pow 10 a * Nat.pow 10 b = Nat.pow 10 (a + b) := fun a b =>
    (Nat.pow_add 10 a b).symm
  have hratio : numerator ⟨n * Nat.pow 10 k, e⟩ * denominator ⟨n, e + k⟩ =
      numerator ⟨n, e + k⟩ * denominator ⟨n * Nat.pow 10 k, e⟩ := by
    simp only [numerator, denominator, Nat.mul_assoc, hpow]
    rw [← hexponents, Nat.add_assoc]
  apply Double.nearestUnits_congr (denominator_pos _) (denominator_pos _)
  rw [Nat.mul_right_comm, hratio, Nat.mul_right_comm]

theorem digits_lt (d : Decimal) : d.digits < Nat.pow 10 (Nat.toDigits 10 d.digits).length :=
  (Nat.length_toDigits_le_iff (by decide) Nat.length_toDigits_pos).mp (Nat.le_refl _)

theorem le_digits {d : Decimal} (h : d.digits ≠ 0) :
    Nat.pow 10 ((Nat.toDigits 10 d.digits).length - 1) ≤ d.digits := by
  by_cases hlen : 0 < (Nat.toDigits 10 d.digits).length - 1
  · apply Nat.not_lt.mp
    intro hlt
    have hle := (Nat.length_toDigits_le_iff (by decide) hlen).mpr hlt
    omega
  · rw [Nat.eq_zero_of_not_pos hlen]
    exact Nat.one_le_iff_ne_zero.mpr h

theorem nearestRank_of_order_lt {d : Decimal} (h : d.order < -330) : d.nearestRank = 0 := by
  -- The exponents are variables so that their powers are compared once and never evaluated again.
  obtain ⟨e, he⟩ : ∃ e, e = 1074 := ⟨1074, rfl⟩
  obtain ⟨k, hk⟩ : ∃ k, k = 330 := ⟨330, rfl⟩
  have hpow : 2 * Nat.pow 2 e ≤ Nat.pow 10 k := by
    rw [he, hk]
    decide +kernel
  have hwhole : d.exponent.toNat = 0 := by
    rw [order] at h
    omega
  have hplaces : (Nat.toDigits 10 d.digits).length + k ≤ (-d.exponent).toNat := by
    rw [order] at h
    omega
  rw [nearestRank, Double.nearest, ← he]
  apply Double.nearestUnits_of_two_mul_lt
  calc 2 * (d.numerator * Nat.pow 2 e)
    _ = d.digits * (2 * Nat.pow 2 e) := by
      rw [numerator, hwhole, Nat.mul_left_comm]
      exact congrArg (· * _) (Nat.mul_one d.digits)
    _ < Nat.pow 10 (Nat.toDigits 10 d.digits).length * (2 * Nat.pow 2 e) :=
      Nat.mul_lt_mul_of_pos_right (digits_lt d) (Nat.mul_pos Nat.two_pos (Nat.two_pow_pos e))
    _ ≤ Nat.pow 10 (Nat.toDigits 10 d.digits).length * Nat.pow 10 k := Nat.mul_le_mul_left _ hpow
    _ = Nat.pow 10 ((Nat.toDigits 10 d.digits).length + k) := (Nat.pow_add 10 _ k).symm
    _ ≤ d.denominator := Nat.pow_le_pow_right (by decide) hplaces

theorem ranks_le_nearestRank {d : Decimal} (hd : d.digits ≠ 0) (h : 310 < d.order) :
    Double.ranks ≤ d.nearestRank := by
  obtain ⟨c, hc⟩ : ∃ c, c = 970 := ⟨970, rfl⟩
  obtain ⟨e, he⟩ : ∃ e, e = 1074 := ⟨1074, rfl⟩
  obtain ⟨k, hk⟩ : ∃ k, k = 310 := ⟨310, rfl⟩
  have hpow : Nat.pow 2 52 * Nat.pow 2 (c + 2) ≤ Nat.pow 10 k := by
    rw [hc, hk]
    decide +kernel
  have hplaces : k + (-d.exponent).toNat ≤
      (Nat.toDigits 10 d.digits).length - 1 + d.exponent.toNat := by
    rw [order] at h
    omega
  have hvalue : Nat.pow 10 k * d.denominator ≤ d.numerator :=
    calc Nat.pow 10 k * d.denominator
      _ = Nat.pow 10 (k + (-d.exponent).toNat) := (Nat.pow_add 10 _ _).symm
      _ ≤ Nat.pow 10 ((Nat.toDigits 10 d.digits).length - 1 + d.exponent.toNat) :=
        Nat.pow_le_pow_right (by decide) hplaces
      _ = Nat.pow 10 ((Nat.toDigits 10 d.digits).length - 1) * Nat.pow 10 d.exponent.toNat :=
        Nat.pow_add 10 _ _
      _ ≤ d.numerator := Nat.mul_le_mul_right _ (le_digits hd)
  have hunits : Double.units Double.ranks = Nat.pow 2 52 * Nat.pow 2 (c + 2) * Nat.pow 2 e := by
    rw [Double.units_ranks hc he, Nat.mul_assoc]
    exact congrArg (Nat.pow 2 52 * ·) (Nat.pow_add 2 (c + 2) e)
  rw [nearestRank, Double.nearest, ← he]
  apply Double.le_nearestUnits (denominator_pos d)
  calc Double.units Double.ranks * d.denominator
    _ = Nat.pow 2 52 * Nat.pow 2 (c + 2) * d.denominator * Nat.pow 2 e := by
      rw [hunits, Nat.mul_right_comm]
    _ ≤ Nat.pow 10 k * d.denominator * Nat.pow 2 e :=
      Nat.mul_le_mul_right _ (Nat.mul_le_mul_right _ hpow)
    _ ≤ d.numerator * Nat.pow 2 e := Nat.mul_le_mul_right _ hvalue

theorem nearestRank_of_digits_eq_zero {d : Decimal} (h : d.digits = 0) : d.nearestRank = 0 := by
  obtain ⟨e, he⟩ : ∃ e, e = 1074 := ⟨1074, rfl⟩
  rw [nearestRank, Double.nearest, ← he, numerator, h, Nat.zero_mul, Nat.zero_mul]
  exact Double.nearestUnits_of_two_mul_lt (denominator_pos d)

/-- The shortcuts for numbers out of range change nothing. -/
theorem toDouble_eq (negative : Bool) (d : Decimal) :
    d.toDouble negative = Double.ofRank negative d.nearestRank := by
  rw [toDouble]
  split
  · next h =>
    obtain hzero | hsmall := h
    · rw [nearestRank_of_digits_eq_zero hzero]
    · rw [nearestRank_of_order_lt hsmall]
  · next h =>
    split
    · next hlarge =>
      have hle := ranks_le_nearestRank (not_or.mp h).1 hlarge
      rw [Double.ofRank, dif_neg (Nat.not_lt.mpr hle)]
    · rfl

end Decimal

namespace Double

theorem nearestRank_of_choose {rank : Nat} {side : Ordering} {low high d : Decimal}
    (h : choose (decide (low.nearestRank = rank)) (decide (high.nearestRank = rank)) side low high =
      some d) : d.nearestRank = rank := by
  by_cases hlow : low.nearestRank = rank
  · by_cases hhigh : high.nearestRank = rank
    · rw [decide_eq_true hlow, decide_eq_true hhigh] at h
      cases side with
      | lt =>
        cases h
        exact hlow
      | gt =>
        cases h
        exact hhigh
      | eq =>
        cases h
        split
        · exact hlow
        · exact hhigh
    · rw [decide_eq_true hlow, decide_eq_false hhigh] at h
      cases h
      exact hlow
  · by_cases hhigh : high.nearestRank = rank
    · rw [decide_eq_false hlow, decide_eq_true hhigh] at h
      cases h
      exact hhigh
    · rw [decide_eq_false hlow, decide_eq_false hhigh] at h
      cases h

theorem nearestRank_of_candidate {rank : Nat} {exponent : Int} {d : Decimal}
    (h : candidate rank exponent = some d) : d.nearestRank = rank := by
  rw [candidate] at h
  exact nearestRank_of_choose h

theorem nearestRank_exact (rank : Nat) : (exact rank).nearestRank = rank := by
  obtain ⟨e, he⟩ : ∃ e : Nat, e = 1074 := ⟨1074, rfl⟩
  have hexact : exact rank = ⟨units rank * Nat.pow 5 e, -(e : Int)⟩ := by
    have hexponent : (-1074 : Int) = -(e : Int) := by omega
    rw [exact, ← he, hexponent]
  have hwhole : (-(e : Int)).toNat = 0 := by omega
  have hplaces : (- -(e : Int)).toNat = e := by omega
  have hpow : Nat.pow 5 e * Nat.pow 2 e = Nat.pow 10 e := (Nat.mul_pow 5 2 e).symm
  have hone : Nat.pow 10 0 = 1 := rfl
  rw [hexact, Decimal.nearestRank, nearest, ← he, Decimal.numerator, Decimal.denominator]
  simp only [hwhole, hplaces, hone, Nat.mul_one]
  rw [Nat.mul_assoc, hpow]
  exact nearestUnits_units (Nat.pow_pos (by decide)) rank

theorem nearestRank_shortest (rank : Nat) : (shortest rank).nearestRank = rank := by
  rw [shortest]
  cases h : (List.range 17).findSome? (fun (n : Nat) => candidate rank (order rank - (n + 1))) with
  | none => exact nearestRank_exact rank
  | some d =>
    obtain ⟨n, -, hn⟩ := List.exists_of_findSome?_eq_some h
    exact nearestRank_of_candidate hn

end Double

namespace Json

theorem naturalOf_append (a b : List Char) :
    naturalOf (a ++ b) = Nat.pow 10 b.length * naturalOf a + naturalOf b := by
  have happend : naturalOf (a ++ b) = Nat.ofDigitChars 10 b (naturalOf a) :=
    Nat.ofDigitChars_append 0
  exact happend.trans Nat.ofDigitChars_eq_ofDigitChars_zero

theorem naturalOf_zeros (k : Nat) : naturalOf (List.replicate k '0') = 0 :=
  Nat.ofDigitChars_replicate_zero.trans (Nat.mul_zero _)

theorem naturalOf_append_zeros (digits : List Char) (k : Nat) :
    naturalOf (digits ++ List.replicate k '0') = naturalOf digits * Nat.pow 10 k := by
  rw [naturalOf_append, naturalOf_zeros, Nat.add_zero, List.length_replicate, Nat.mul_comm]

theorem naturalOf_zeros_append (digits : List Char) (k : Nat) :
    naturalOf (List.replicate k '0' ++ digits) = naturalOf digits := by
  rw [naturalOf_append, naturalOf_zeros, Nat.mul_zero, Nat.zero_add]

theorem naturalOf_toDigits (n : Nat) : naturalOf (Nat.toDigits 10 n) = n :=
  Nat.ofDigitChars_ten_toDigits

/-- Digits that start with another one than zero. -/
structure Leading (digits : List Char) : Prop where
  ne_nil : digits ≠ []
  head_ne : digits.head? ≠ some '0'
  isDigit : ∀ c ∈ digits, c.isDigit = true

theorem isDigit_of_mem_zeros {k : Nat} {c : Char} (hc : c ∈ List.replicate k '0') :
    c.isDigit = true := by
  rw [List.eq_of_mem_replicate hc]
  rfl

theorem Leading.append_zeros {digits : List Char} (h : Leading digits) (k : Nat) :
    Leading (digits ++ List.replicate k '0') where
  ne_nil := List.append_ne_nil_of_left_ne_nil h.ne_nil _
  head_ne := by
    rw [List.head?_append_of_ne_nil _ h.ne_nil]
    exact h.head_ne
  isDigit c hc := (List.mem_append.mp hc).elim (h.isDigit c) isDigit_of_mem_zeros

theorem Leading.of_append {digits more : List Char} (h : Leading (digits ++ more))
    (hne : digits ≠ []) : Leading digits where
  ne_nil := hne
  head_ne := by
    rw [← List.head?_append_of_ne_nil _ hne]
    exact h.head_ne
  isDigit c hc := h.isDigit c (List.mem_append_left _ hc)

theorem leading_toDigits {n : Nat} (h : n ≠ 0) : Leading (Nat.toDigits 10 n) := by
  refine ⟨Nat.toDigits_ne_nil, ?_, fun c => Nat.isDigit_of_mem_toDigits (by decide) (by decide)⟩
  induction n using Nat.strongRecOn with
  | ind n ih =>
    by_cases hn : n < 10
    · have hdigit : ∀ d < 10, d ≠ 0 → some (Nat.digitChar d) ≠ some '0' := by decide
      rw [Nat.toDigits_of_lt_base hn]
      exact hdigit n hn h
    · rw [Nat.toDigits_of_base_le (by decide) (by omega),
        List.head?_append_of_ne_nil _ Nat.toDigits_ne_nil]
      exact ih (n / 10) (by omega) (by omega)

end Json

namespace Decimal

open Json

theorem exists_zeros (d : Decimal) :
    ∃ k, Nat.toDigits 10 d.digits = d.significant ++ List.replicate k '0' := by
  have hzeros : (Nat.toDigits 10 d.digits).reverse.takeWhile (· == '0') =
      List.replicate ((Nat.toDigits 10 d.digits).reverse.takeWhile (· == '0')).length '0' :=
    List.eq_replicate_of_mem (fun c hc => by simpa using List.mem_takeWhile_imp hc)
  refine ⟨((Nat.toDigits 10 d.digits).reverse.takeWhile (· == '0')).length, ?_⟩
  rw [significant, ← List.reverse_replicate, ← hzeros, ← List.reverse_append,
    List.takeWhile_append_dropWhile, List.reverse_reverse]

theorem leading_significant {d : Decimal} (h : d.digits ≠ 0) : Leading d.significant := by
  obtain ⟨k, hk⟩ := d.exists_zeros
  apply Leading.of_append (hk ▸ leading_toDigits h)
  intro hnil
  rw [hnil, List.nil_append] at hk
  apply h
  rw [← naturalOf_toDigits d.digits, hk, naturalOf_zeros]

/-- A number is given by its significant digits and its order. -/
theorem nearestRank_significant (d : Decimal) :
    nearestRank ⟨naturalOf d.significant, d.order - d.significant.length⟩ = d.nearestRank := by
  obtain ⟨k, hk⟩ := d.exists_zeros
  have hdigits : d.digits = naturalOf d.significant * Nat.pow 10 k := by
    rw [← naturalOf_toDigits d.digits, hk, naturalOf_append_zeros]
  have hexponent : d.order - d.significant.length = d.exponent + k := by
    rw [order, hk, List.length_append, List.length_replicate]
    omega
  rw [hexponent, ← nearestRank_mul_pow, ← hdigits]

end Decimal

namespace Json

/-- The parts of a number with a point or an exponent: its digits before and after the point, and
the exponent. -/
structure Numeral where
  whole : List Char
  fraction : List Char
  exponent : Option Int
  whole_leads : whole = ['0'] ∨ Leading whole
  isDigit_fraction : ∀ c ∈ fraction, c.isDigit = true
  inexact : fraction ≠ [] ∨ exponent ≠ none

def exponentDigits (n : Nat) : List Char :=
  List.replicate (2 - (Nat.toDigits 10 n).length) '0' ++ Nat.toDigits 10 n

def exponentChars (e : Int) : List Char :=
  'e' :: (if e < 0 then '-' else '+') :: exponentDigits e.natAbs

def fractionChars (fraction : List Char) : List Char :=
  if fraction = [] then [] else '.' :: fraction

def Numeral.chars (n : Numeral) : List Char :=
  n.whole ++ fractionChars n.fraction ++ n.exponent.elim [] exponentChars

def Numeral.decimal (n : Numeral) : Decimal :=
  ⟨naturalOf (n.whole ++ n.fraction), n.exponent.getD 0 - n.fraction.length⟩

/-- No number goes on with `rest`. -/
def Ends (rest : List Char) : Prop :=
  ∀ c ∈ rest.head?, (c.isDigit = false ∧ c ≠ '.') ∧ c ≠ 'e' ∧ c ≠ 'E'

theorem takeWhile_isDigit_append {digits rest : List Char}
    (hdigits : ∀ c ∈ digits, c.isDigit = true) (hrest : ∀ c ∈ rest.head?, c.isDigit = false) :
    (digits ++ rest).takeWhile Char.isDigit = digits := by
  rw [List.takeWhile_append_of_pos hdigits]
  cases rest with
  | nil => exact List.append_nil digits
  | cons c rest => rw [List.takeWhile_cons_of_neg (by simp [hrest c rfl]), List.append_nil]

theorem wholeDigits_append {whole rest : List Char} (hwhole : whole = ['0'] ∨ Leading whole)
    (hrest : ∀ c ∈ rest.head?, c.isDigit = false) : wholeDigits (whole ++ rest) = whole := by
  obtain rfl | hleading := hwhole
  · rfl
  · cases whole with
    | nil => exact absurd rfl hleading.ne_nil
    | cons c whole =>
      have hc : c ≠ '0' := fun h => hleading.head_ne (congrArg some h)
      have htake := takeWhile_isDigit_append
        (fun d hd => hleading.isDigit d (List.mem_cons_of_mem c hd)) hrest
      rw [List.cons_append, wholeDigits, if_neg hc, if_pos (hleading.isDigit c List.mem_cons_self),
        htake]

theorem fractionDigits_append {fraction rest : List Char}
    (hfraction : ∀ c ∈ fraction, c.isDigit = true)
    (hrest : ∀ c ∈ rest.head?, c.isDigit = false ∧ c ≠ '.') :
    fractionDigits (fractionChars fraction ++ rest) = fraction := by
  rw [fractionChars]
  split
  · next hnil =>
    rw [List.nil_append, fractionDigits, hnil]
    rintro tail rfl
    exact (hrest '.' rfl).2 rfl
  · exact takeWhile_isDigit_append hfraction (fun c hc => (hrest c hc).1)

theorem exponentPart_of_ends {rest : List Char} (h : Ends rest) : exponentPart rest = none := by
  cases rest with
  | nil => rfl
  | cons c rest =>
    obtain ⟨-, he, hE⟩ := h c rfl
    exact if_neg (not_or.mpr ⟨he, hE⟩)

theorem naturalOf_exponentDigits (n : Nat) : naturalOf (exponentDigits n) = n := by
  rw [exponentDigits, naturalOf_zeros_append, naturalOf_toDigits]

theorem exponentPart_exponentChars (e : Int) {rest : List Char}
    (hrest : ∀ c ∈ rest.head?, c.isDigit = false) :
    exponentPart (exponentChars e ++ rest) = some ((exponentChars e).length, e) := by
  have hdigits : ∀ c ∈ exponentDigits e.natAbs, c.isDigit = true := by
    intro c hc
    obtain hzero | hsize := List.mem_append.mp hc
    · exact isDigit_of_mem_zeros hzero
    · exact Nat.isDigit_of_mem_toDigits (by decide) (by decide) hsize
  have htake := takeWhile_isDigit_append hdigits hrest
  have hne : (exponentDigits e.natAbs).isEmpty = false := by
    simp [exponentDigits, Nat.toDigits_ne_nil]
  have hvalue := naturalOf_exponentDigits e.natAbs
  have hlen : ∀ sign : Char, 1 + 1 + (exponentDigits e.natAbs).length =
      ('e' :: sign :: exponentDigits e.natAbs).length := by
    intro sign
    rw [List.length_cons, List.length_cons]
    omega
  rw [exponentChars]
  by_cases he : e < 0
  · have hsign : -(e.natAbs : Int) = e := by omega
    rw [if_pos he, List.cons_append, List.cons_append, exponentPart, if_pos (Or.inl rfl)]
    simp only [List.drop_one, List.tail_cons, htake, hne, hvalue, hsign, if_true,
      Bool.false_eq_true, if_false]
    rw [hlen]
  · have hsign : (e.natAbs : Int) = e := by omega
    rw [if_neg he, List.cons_append, List.cons_append, exponentPart, if_pos (Or.inl rfl)]
    simp only [List.drop_one, List.tail_cons, htake, hne, hvalue, hsign, Bool.false_eq_true,
      if_false]
    rw [hlen]

theorem length_fractionChars (fraction : List Char) :
    (fractionChars fraction).length =
      (if fraction.isEmpty = true then 0 else 1) + fraction.length := by
  cases fraction with
  | nil => rfl
  | cons c fraction => exact Nat.add_comm _ 1

namespace Numeral

variable (n : Numeral) {rest : List Char}

def tail (rest : List Char) : List Char := n.exponent.elim [] exponentChars ++ rest

theorem head_tail (hrest : Ends rest) :
    ∀ c ∈ (n.tail rest).head?, c.isDigit = false ∧ c ≠ '.' := by
  intro c hc
  rw [tail] at hc
  cases he : n.exponent with
  | none =>
    rw [he] at hc
    exact (hrest c hc).1
  | some e =>
    rw [he] at hc
    cases hc
    decide

theorem exponentPart_tail (hrest : Ends rest) :
    exponentPart (n.tail rest) = n.exponent.map (fun e => ((exponentChars e).length, e)) := by
  rw [tail]
  cases n.exponent with
  | none => exact exponentPart_of_ends hrest
  | some e => exact exponentPart_exponentChars e (fun c hc => (hrest c hc).1.1)

theorem wholeDigits_chars (hrest : Ends rest) : wholeDigits (n.chars ++ rest) = n.whole := by
  rw [chars, List.append_assoc, List.append_assoc]
  apply wholeDigits_append n.whole_leads
  intro c hc
  rw [fractionChars] at hc
  split at hc
  · exact (n.head_tail hrest c hc).1
  · cases hc
    rfl

theorem drop_chars (rest : List Char) : (n.chars ++ rest).drop n.whole.length =
    fractionChars n.fraction ++ n.tail rest := by
  rw [chars, List.append_assoc, List.append_assoc, List.drop_left, tail]

theorem length_chars : n.chars.length = n.whole.length +
    (if n.fraction.isEmpty = true then 0 else 1) + n.fraction.length +
      (n.exponent.elim [] exponentChars).length := by
  rw [chars, List.length_append, List.length_append, length_fractionChars, ← Nat.add_assoc]

theorem not_integer : ¬ (n.fraction.isEmpty = true ∧ n.exponent.isNone = true) := by
  rw [List.isEmpty_iff, Option.isNone_iff_eq_none]
  exact fun h => n.inexact.elim (fun hf => hf h.1) (fun he => he h.2)

theorem exists_whole : ∃ c more, c.isDigit = true ∧ n.whole = c :: more := by
  obtain hzero | hleading := n.whole_leads
  · exact ⟨'0', [], rfl, hzero⟩
  · obtain ⟨c, more, h⟩ := List.exists_cons_of_ne_nil hleading.ne_nil
    exact ⟨c, more, hleading.isDigit c (h ▸ List.mem_cons_self), h⟩

end Numeral

theorem readNumber_numeral (n : Numeral) (negative : Bool) (offset : Nat) {rest : List Char}
    (hrest : Ends rest) :
    readNumber ⟨offset, Double.signChars negative ++ (n.chars ++ rest)⟩ =
      .ok (.float (n.decimal.toDouble negative),
        ⟨offset + (Double.signChars negative ++ n.chars).length, rest⟩) := by
  unfold readNumber
  split
  next signs negative' hsigns =>
    obtain ⟨c, more, hc, hwhole⟩ := n.exists_whole
    -- Without a sign the text starts with a digit, so no sign is read.
    have hs : signs = (Double.signChars negative).length ∧ negative' = negative := by
      cases negative with
      | true =>
        cases hsigns
        exact ⟨rfl, rfl⟩
      | false =>
        split at hsigns
        · next htext =>
          rw [Numeral.chars, hwhole] at htext
          cases htext
          cases hc
        · cases hsigns
          exact ⟨rfl, rfl⟩
    obtain ⟨rfl, rfl⟩ := hs
    have hfraction := fractionDigits_append n.isDigit_fraction (n.head_tail hrest)
    have hne : n.whole.isEmpty = false := by rw [hwhole, List.isEmpty_cons]
    have hsize : (n.exponent.map (fun e => ((exponentChars e).length, e))).getD (0, 0) =
        ((n.exponent.elim [] exponentChars).length, n.exponent.getD 0) := by
      cases n.exponent <;> rfl
    dsimp only
    rw [List.drop_left, n.wholeDigits_chars hrest, n.drop_chars, hfraction, hne,
      ← length_fractionChars, List.drop_left, n.exponentPart_tail hrest, hsize]
    dsimp only
    rw [Option.isNone_map, if_neg Bool.false_ne_true, if_neg n.not_integer, Numeral.tail,
      List.drop_left, Numeral.decimal, List.length_append, n.length_chars]
    simp only [Nat.add_assoc]

end Json

namespace Decimal

open Json

variable {digits : List Char}

theorem exists_numeral_pointed {whole fraction : List Char}
    (hwhole : whole = ['0'] ∨ Leading whole) (hfraction : ∀ c ∈ fraction, c.isDigit = true)
    (hne : fraction ≠ []) :
    ∃ n : Numeral, n.chars = whole ++ '.' :: fraction ∧
      n.decimal = ⟨naturalOf (whole ++ fraction), -fraction.length⟩ := by
  refine ⟨⟨whole, fraction, none, hwhole, hfraction, Or.inl hne⟩, ?_, ?_⟩
  · rw [Numeral.chars, fractionChars, if_neg hne]
    exact List.append_nil _
  · rw [Numeral.decimal, Option.getD_none, Int.zero_sub]

theorem exists_numeral_positional (h : Leading digits) (point : Int) :
    ∃ n : Numeral, n.chars = positional digits point ∧
      n.decimal.nearestRank = nearestRank ⟨naturalOf digits, point - digits.length⟩ := by
  rw [positional]
  split
  · next hpoint =>
    obtain ⟨n, hchars, hdecimal⟩ := exists_numeral_pointed (Or.inl rfl)
      (fun c hc => (List.mem_append.mp hc).elim isDigit_of_mem_zeros (h.isDigit c))
      (List.append_ne_nil_of_right_ne_nil (List.replicate (-point).toNat '0') h.ne_nil)
    refine ⟨n, hchars, ?_⟩
    have hdigits : naturalOf (['0'] ++ (List.replicate (-point).toNat '0' ++ digits)) =
        naturalOf digits := naturalOf_zeros_append digits ((-point).toNat + 1)
    have hplaces : -((List.replicate (-point).toNat '0' ++ digits).length : Int) =
        point - digits.length := by
      rw [List.length_append, List.length_replicate]
      omega
    rw [hdecimal, hdigits, hplaces]
  · split
    · next hpoint hlen =>
      obtain ⟨k, hk⟩ : ∃ k, k = point.toNat - digits.length := ⟨_, rfl⟩
      rw [← hk]
      obtain ⟨n, hchars, hdecimal⟩ := exists_numeral_pointed (Or.inr (h.append_zeros k))
        (show ∀ c ∈ ['0'], c.isDigit = true from List.forall_mem_singleton.mpr rfl)
        (List.cons_ne_nil '0' [])
      refine ⟨n, hchars, ?_⟩
      have hdigits : naturalOf (digits ++ List.replicate k '0' ++ ['0']) =
          naturalOf digits * Nat.pow 10 (k + 1) := by
        rw [List.append_assoc, ← List.replicate_succ', naturalOf_append_zeros]
      have hplaces : -((['0'].length : Nat) : Int) + (k + 1 : Nat) = point - digits.length := by
        rw [List.length_singleton]
        omega
      rw [hdecimal, hdigits, nearestRank_mul_pow, hplaces]
    · next hpoint hlen =>
      have hsplit := List.take_append_drop point.toNat digits
      have hne : digits.take point.toNat ≠ [] := by
        rw [Ne, List.take_eq_nil_iff]
        exact fun hnil => hnil.elim (by omega) h.ne_nil
      obtain ⟨n, hchars, hdecimal⟩ := exists_numeral_pointed
        (Or.inr (Leading.of_append (hsplit ▸ h) hne))
        (fun c hc => h.isDigit c (List.mem_of_mem_drop hc))
        (fun hnil => hlen (List.drop_eq_nil_iff.mp hnil))
      refine ⟨n, hchars, ?_⟩
      have hplaces : -((digits.drop point.toNat).length : Int) = point - digits.length := by
        rw [List.length_drop]
        omega
      rw [hdecimal, hsplit, hplaces]

theorem exists_numeral_scientific (h : Leading digits) (point : Int) :
    ∃ n : Numeral, n.chars = scientific digits (point - 1) ∧
      n.decimal = ⟨naturalOf digits, point - digits.length⟩ := by
  cases digits with
  | nil => exact absurd rfl h.ne_nil
  | cons c rest =>
    refine ⟨⟨[c], rest, some (point - 1), Or.inr (Leading.of_append h (List.cons_ne_nil c [])),
      fun d hd => h.isDigit d (List.mem_cons_of_mem c hd), Or.inr (Option.some_ne_none _)⟩, ?_, ?_⟩
    · cases rest <;> rfl
    · have hplaces : point - 1 - (rest.length : Int) = point - (c :: rest).length := by
        rw [List.length_cons]
        omega
      exact congrArg (Decimal.mk (naturalOf (c :: rest))) hplaces

theorem exists_numeral {d : Decimal} (h : d.digits ≠ 0) :
    ∃ n : Numeral, n.chars = d.chars ∧ n.decimal.nearestRank = d.nearestRank := by
  have hleading := leading_significant h
  rw [← nearestRank_significant, chars]
  split
  · exact exists_numeral_positional hleading d.order
  · obtain ⟨n, hchars, hdecimal⟩ := exists_numeral_scientific hleading d.order
    exact ⟨n, hchars, congrArg nearestRank hdecimal⟩

end Decimal

namespace Double

open Json

theorem exists_numeral (rank : Nat) :
    ∃ n : Numeral, n.chars = magnitudeChars rank ∧ n.decimal.nearestRank = rank := by
  rw [magnitudeChars]
  split
  · next hzero =>
    refine ⟨⟨['0'], ['0'], none, Or.inl rfl, List.forall_mem_singleton.mpr rfl,
      Or.inl (List.cons_ne_nil '0' [])⟩, rfl, ?_⟩
    rw [hzero]
    exact Decimal.nearestRank_of_digits_eq_zero rfl
  · next hrank =>
    have hdigits : (shortest rank).digits ≠ 0 := by
      intro h
      apply hrank
      rw [← nearestRank_shortest rank, Decimal.nearestRank_of_digits_eq_zero h]
    obtain ⟨n, hchars, hnearest⟩ := Decimal.exists_numeral hdigits
    exact ⟨n, hchars, hnearest.trans (nearestRank_shortest rank)⟩

theorem exists_magnitudeChars (rank : Nat) :
    ∃ c more, c.isDigit = true ∧ magnitudeChars rank = c :: more := by
  obtain ⟨n, hchars, -⟩ := exists_numeral rank
  obtain ⟨c, more, hc, hwhole⟩ := n.exists_whole
  rw [← hchars, Numeral.chars, hwhole]
  exact ⟨c, _, hc, rfl⟩

/-- The text of a finite number reads back as that number. -/
theorem readNumber_chars (negative : Bool) (rank : Fin ranks) (offset : Nat) {rest : List Char}
    (hrest : Ends rest) :
    readNumber ⟨offset, (finite negative rank).chars ++ rest⟩ =
      .ok (.float (.finite negative rank),
        ⟨offset + (finite negative rank).chars.length, rest⟩) := by
  obtain ⟨n, hchars, hnearest⟩ := exists_numeral rank
  rw [chars, ← hchars, List.append_assoc, readNumber_numeral n negative offset hrest,
    Decimal.toDouble_eq, hnearest, ofRank, dif_pos rank.isLt]

end Double

end DialogueFlow
