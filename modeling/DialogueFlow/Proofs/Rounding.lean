import DialogueFlow.Double
import Mathlib.Data.Nat.Basic
import Mathlib.Tactic.Ring

namespace DialogueFlow.Double

theorem pow_add_fiftyTwo (e : Nat) : Nat.pow 2 (e + 52) = Nat.pow 2 52 * Nat.pow 2 e := by
  rw [Nat.mul_comm]
  exact Nat.pow_add 2 e 52

theorem significand_bounds (u : Nat) :
    u / Nat.pow 2 (u.log2 - 52) < 2 * Nat.pow 2 52 ∧
      (u.log2 - 52 ≠ 0 → Nat.pow 2 52 ≤ u / Nat.pow 2 (u.log2 - 52)) := by
  have hpos : 0 < Nat.pow 2 (u.log2 - 52) := Nat.two_pow_pos _
  apply And.intro
  · rw [Nat.div_lt_iff_lt_mul hpos, Nat.mul_assoc, ← pow_add_fiftyTwo, Nat.mul_comm]
    calc u
      _ < Nat.pow 2 (u.log2 + 1) := Nat.lt_log2_self
      _ ≤ Nat.pow 2 (u.log2 - 52 + 52 + 1) := Nat.pow_le_pow_right (by decide) (by omega)
  · intro he
    have hu : u ≠ 0 := by
      rintro rfl
      exact he rfl
    rw [Nat.le_div_iff_mul_le hpos, ← pow_add_fiftyTwo, Nat.sub_add_cancel (by omega)]
    exact Nat.log2_self_le hu

/-- Scaled significands compare first by their scale and then by their digits. -/
theorem scaled_le_iff {d m c u e : Nat} (hd : d ≤ m) (hm : m < 2 * d)
    (hs : u / Nat.pow 2 e < 2 * d) (he : e ≠ 0 → d ≤ u / Nat.pow 2 e) :
    m * Nat.pow 2 c ≤ u ↔ c * d + m ≤ e * d + u / Nat.pow 2 e := by
  have hpos : 0 < Nat.pow 2 e := Nat.two_pow_pos _
  have htwo : ∀ k, 2 * d * Nat.pow 2 k = d * Nat.pow 2 (k + 1) := by
    intro k
    rw [Nat.mul_comm 2 d, Nat.mul_assoc, Nat.mul_comm 2]
    rfl
  obtain hce | rfl | hec := Nat.lt_trichotomy c e
  · have hde := he (by omega)
    have hcd : (c + 1) * d ≤ e * d := Nat.mul_le_mul_right d hce
    rw [Nat.succ_mul] at hcd
    refine iff_of_true ?_ (by omega)
    calc m * Nat.pow 2 c
      _ ≤ 2 * d * Nat.pow 2 c := Nat.mul_le_mul_right _ (by omega)
      _ = d * Nat.pow 2 (c + 1) := htwo c
      _ ≤ d * Nat.pow 2 e := Nat.mul_le_mul_left d (Nat.pow_le_pow_right (by decide) hce)
      _ ≤ u := (Nat.le_div_iff_mul_le hpos).mp hde
  · rw [← Nat.le_div_iff_mul_le hpos]
    omega
  · have hed : (e + 1) * d ≤ c * d := Nat.mul_le_mul_right d hec
    rw [Nat.succ_mul] at hed
    refine iff_of_false (Nat.not_le.mpr ?_) (by omega)
    calc u
      _ < 2 * d * Nat.pow 2 e := (Nat.div_lt_iff_lt_mul hpos).mp hs
      _ = d * Nat.pow 2 (e + 1) := htwo e
      _ ≤ d * Nat.pow 2 c := Nat.mul_le_mul_left d (Nat.pow_le_pow_right (by decide) hec)
      _ ≤ m * Nat.pow 2 c := Nat.mul_le_mul_right _ hd

theorem units_of_le {rank : Nat} (h : Nat.pow 2 52 ≤ rank) :
    units rank = (Nat.pow 2 52 + rank % Nat.pow 2 52) * Nat.pow 2 (rank / Nat.pow 2 52 - 1) := by
  have hp : Nat.pow 2 53 = 2 * Nat.pow 2 52 := by decide
  rw [units]
  split
  · next hlt =>
    rw [hp] at hlt
    have hq : rank / Nat.pow 2 52 = 1 := Nat.div_eq_of_lt_le (by omega) (by omega)
    have hr := Nat.div_add_mod rank (Nat.pow 2 52)
    rw [hq, Nat.mul_one] at hr
    rw [hq, hr]
    exact (Nat.mul_one rank).symm
  · rfl

theorem rank_of_le {rank : Nat} (h : Nat.pow 2 52 ≤ rank) :
    (rank / Nat.pow 2 52 - 1) * Nat.pow 2 52 + (Nat.pow 2 52 + rank % Nat.pow 2 52) = rank := by
  have hq : 1 ≤ rank / Nat.pow 2 52 := (Nat.one_le_div_iff (by decide)).mpr h
  rw [← Nat.add_assoc, ← Nat.succ_mul, Nat.succ_eq_add_one, Nat.sub_add_cancel hq,
    Nat.div_add_mod']

/-- The rank below `u` units is the greatest one whose magnitude is at most `u` units. -/
theorem units_le_iff (rank u : Nat) : units rank ≤ u ↔ rank ≤ rankBelow u := by
  obtain ⟨hs, he⟩ := significand_bounds u
  rw [rankBelow]
  by_cases h : Nat.pow 2 52 ≤ rank
  · have hmod := Nat.mod_lt rank (show 0 < Nat.pow 2 52 by decide)
    rw [units_of_le h, scaled_le_iff (Nat.le_add_right _ _) (by omega) hs he, rank_of_le h]
  · have hunits : units rank = rank := if_pos (Nat.lt_of_lt_of_le (Nat.not_le.mp h) (by decide))
    rw [hunits]
    by_cases hz : u.log2 - 52 = 0
    · rw [hz, Nat.zero_mul, Nat.zero_add]
      exact (congrArg (rank ≤ ·) (Nat.div_one u).symm).to_iff
    · have hle := he hz
      have hdu : u / Nat.pow 2 (u.log2 - 52) ≤ u := Nat.div_le_self _ _
      exact iff_of_true (by omega) (by omega)

theorem units_mono {r s : Nat} (h : r ≤ s) : units r ≤ units s :=
  (units_le_iff r _).mpr (Nat.le_trans h ((units_le_iff s _).mp (Nat.le_refl _)))

theorem units_lt_succ (rank : Nat) : units rank < units (rank + 1) := by
  have hpos : 0 < Nat.pow 2 52 := by decide
  by_cases h : Nat.pow 2 52 ≤ rank
  · have hsucc : Nat.pow 2 52 ≤ rank + 1 := Nat.le_succ_of_le h
    have hmod := Nat.mod_lt rank hpos
    have hmod' := Nat.mod_lt (rank + 1) hpos
    have hdiv : units rank / Nat.pow 2 (rank / Nat.pow 2 52 - 1) =
        Nat.pow 2 52 + rank % Nat.pow 2 52 := by
      rw [units_of_le h]
      exact Nat.mul_div_cancel _ (Nat.two_pow_pos _)
    rw [units_of_le hsucc, ← Nat.not_le,
      scaled_le_iff (e := rank / Nat.pow 2 52 - 1) (Nat.le_add_right _ _) (by omega) (by omega)
        (fun _ => by omega),
      hdiv, rank_of_le h, rank_of_le hsucc]
    exact Nat.not_succ_le_self rank
  · have hrank : units rank = rank := if_pos (Nat.lt_of_lt_of_le (Nat.not_le.mp h) (by decide))
    have hsucc : units (rank + 1) = rank + 1 :=
      if_pos (Nat.lt_of_le_of_lt (Nat.succ_le_of_lt (Nat.not_le.mp h)) (by decide))
    rw [hrank, hsucc]
    exact Nat.lt_succ_self rank

theorem rankBelow_units (rank : Nat) : rankBelow (units rank) = rank := by
  apply Nat.le_antisymm
  · apply Nat.le_of_lt_succ
    apply Nat.not_le.mp
    intro h
    exact Nat.not_le.mpr (units_lt_succ rank) ((units_le_iff (rank + 1) (units rank)).mpr h)
  · exact (units_le_iff rank (units rank)).mp (Nat.le_refl _)

theorem roundFrom_bounds (below : Nat) (o : Ordering) :
    below ≤ roundFrom below o ∧ roundFrom below o ≤ below + 1 := by
  cases o with
  | lt => exact ⟨Nat.le_refl _, Nat.le_succ _⟩
  | gt => exact ⟨Nat.le_succ _, Nat.le_refl _⟩
  | eq =>
    rw [roundFrom]
    split
    · exact ⟨Nat.le_refl _, Nat.le_succ _⟩
    · exact ⟨Nat.le_succ _, Nat.le_refl _⟩

theorem nearestUnits_congr {num den num' den' : Nat} (hden : 0 < den) (hden' : 0 < den')
    (h : num * den' = num' * den) : nearestUnits num den = nearestUnits num' den' := by
  have hmul : ∀ {n d k : Nat}, 0 < k → nearestUnits (n * k) (d * k) = nearestUnits n d := by
    intro n d k hk
    have hcompare : ∀ m, compare (2 * (n * k)) (d * k * m) = compare (2 * n) (d * m) := by
      intro m
      rw [← Nat.mul_assoc, Nat.mul_right_comm d]
      simp only [Nat.compare_eq_ite_lt, Nat.mul_lt_mul_right hk]
    rw [nearestUnits, Nat.mul_div_mul_right _ _ hk, hcompare, nearestUnits]
  rw [← hmul hden', h, Nat.mul_comm den, hmul hden]

theorem nearestUnits_units {den : Nat} (hden : 0 < den) (rank : Nat) :
    nearestUnits (units rank * den) den = rank := by
  have hlt := units_lt_succ rank
  have hcompare :
      compare (2 * (units rank * den)) (den * (units rank + units (rank + 1))) = .lt := by
    rw [Nat.compare_eq_lt, Nat.mul_comm den, ← Nat.mul_assoc]
    exact Nat.mul_lt_mul_of_pos_right (by omega) hden
  rw [nearestUnits, Nat.mul_div_cancel _ hden, rankBelow_units, hcompare, roundFrom]

theorem nearestUnits_of_two_mul_lt {num den : Nat} (h : 2 * num < den) :
    nearestUnits num den = 0 := by
  have hbelow : rankBelow 0 = 0 := by decide
  have hunits : units 0 + units (0 + 1) = 1 := by decide
  rw [nearestUnits, Nat.div_eq_of_lt (by omega), hbelow, hunits, Nat.mul_one,
    Nat.compare_eq_lt.mpr h, roundFrom]

theorem le_nearestUnits {num den rank : Nat} (hden : 0 < den) (h : units rank * den ≤ num) :
    rank ≤ nearestUnits num den := by
  have hbelow := (units_le_iff rank (num / den)).mp ((Nat.le_div_iff_mul_le hden).mpr h)
  exact Nat.le_trans hbelow (roundFrom_bounds _ _).1

theorem roundFrom_le_iff_of_odd {below : Nat} (h : below % 2 = 1) (o : Ordering) :
    roundFrom below o ≤ below ↔ o = .lt := by
  cases o <;> simp [roundFrom, h]

/-- Rounding goes beyond an odd rank from the middle between it and the next one on. -/
theorem nearestUnits_le_iff_of_odd {num den rank : Nat} (hden : 0 < den) (hodd : rank % 2 = 1) :
    nearestUnits num den ≤ rank ↔ 2 * num < den * (units rank + units (rank + 1)) := by
  have hbelow : ∀ r, r ≤ rankBelow (num / den) ↔ den * units r ≤ num := by
    intro r
    rw [← units_le_iff, Nat.le_div_iff_mul_le hden, Nat.mul_comm]
  have hmono : den * units rank ≤ den * units (rank + 1) :=
    Nat.mul_le_mul_left den (units_mono (Nat.le_succ rank))
  rw [nearestUnits]
  obtain hlt | heq | hgt := Nat.lt_trichotomy (rankBelow (num / den)) rank
  · have hs : num < den * units rank :=
      Nat.not_le.mp (fun hle => Nat.not_le.mpr hlt ((hbelow rank).mpr hle))
    refine iff_of_true (Nat.le_trans (roundFrom_bounds _ _).2 hlt) ?_
    rw [Nat.mul_add]
    omega
  · rw [heq, roundFrom_le_iff_of_odd hodd, Nat.compare_eq_lt]
  · have hs : den * units (rank + 1) ≤ num := (hbelow (rank + 1)).mp hgt
    refine iff_of_false (fun hle => ?_) ?_
    · exact Nat.not_le.mpr hgt (Nat.le_trans (roundFrom_bounds _ _).1 hle)
    · rw [Nat.mul_add]
      omega

/-- The least natural that is out of range, in the middle between the greatest finite magnitude and
`2 ^ 1024`. -/
def limit : Nat := Nat.pow 2 (54 + 970) - Nat.pow 2 970

section Limit

-- The two exponents stay variables so that their powers are never evaluated.
variable {c e : Nat}

theorem units_last (hc : c = 970) (he : e = 1074) :
    units (ranks - 1) = (2 * Nat.pow 2 52 - 1) * Nat.pow 2 (c + 1 + e) := by
  have hm : Nat.pow 2 52 + (ranks - 1) % Nat.pow 2 52 = 2 * Nat.pow 2 52 - 1 := by decide
  have hq : (ranks - 1) / Nat.pow 2 52 - 1 = c + 1 + e := by
    subst hc he
    decide
  rw [units_of_le (by decide), hm, hq]

theorem units_ranks (hc : c = 970) (he : e = 1074) :
    units ranks = Nat.pow 2 52 * Nat.pow 2 (c + 2 + e) := by
  have hm : Nat.pow 2 52 + ranks % Nat.pow 2 52 = Nat.pow 2 52 := by decide
  have hq : ranks / Nat.pow 2 52 - 1 = c + 2 + e := by
    subst hc he
    decide
  rw [units_of_le (by decide), hm, hq]

theorem limit_eq (hc : c = 970) : limit = (4 * Nat.pow 2 52 - 1) * Nat.pow 2 c := by
  have hpow : Nat.pow 2 (54 + c) = 4 * Nat.pow 2 52 * Nat.pow 2 c := Nat.pow_add 2 54 c
  rw [limit, ← hc, hpow, Nat.sub_mul, Nat.one_mul]

theorem sum_scaled {d : Nat} (hd : 0 < d) (c e : Nat) :
    (2 * d - 1) * Nat.pow 2 (c + 1 + e) + d * Nat.pow 2 (c + 2 + e) =
      2 * ((4 * d - 1) * Nat.pow 2 c * Nat.pow 2 e) := by
  obtain ⟨d, rfl⟩ : ∃ d', d = d' + 1 := ⟨d - 1, by omega⟩
  have hlow : Nat.pow 2 (c + 1 + e) = 2 * Nat.pow 2 c * Nat.pow 2 e := by
    rw [Nat.mul_comm 2]
    exact Nat.pow_add 2 (c + 1) e
  have hhigh : Nat.pow 2 (c + 2 + e) = 4 * Nat.pow 2 c * Nat.pow 2 e := by
    rw [Nat.mul_comm 4]
    exact (Nat.pow_add 2 (c + 2) e).trans (congrArg (· * Nat.pow 2 e) (Nat.pow_add 2 c 2))
  have hthree : 2 * (d + 1) - 1 = 2 * d + 1 := by omega
  have hseven : 4 * (d + 1) - 1 = 4 * d + 3 := by omega
  rw [hlow, hhigh, hthree, hseven]
  ring

theorem nearest_lt_ranks_iff (n : Nat) : nearest n 1 < ranks ↔ n < limit := by
  obtain ⟨c, hc⟩ : ∃ c, c = 970 := ⟨970, rfl⟩
  obtain ⟨e, he⟩ : ∃ e, e = 1074 := ⟨1074, rfl⟩
  have hodd : (ranks - 1) % 2 = 1 := by decide
  have hsucc : ranks - 1 + 1 = ranks := by decide
  have hmiddle : units (ranks - 1) + units (ranks - 1 + 1) = 2 * (limit * Nat.pow 2 e) := by
    rw [hsucc, units_last hc he, units_ranks hc he, limit_eq hc, sum_scaled (Nat.two_pow_pos 52)]
  have hpos : 0 < Nat.pow 2 e := Nat.two_pow_pos e
  calc nearest n 1 < ranks
    _ ↔ nearestUnits (n * Nat.pow 2 e) 1 ≤ ranks - 1 := by
      rw [nearest, ← he]
      omega
    _ ↔ 2 * (n * Nat.pow 2 e) < 2 * (limit * Nat.pow 2 e) := by
      rw [nearestUnits_le_iff_of_odd Nat.one_pos hodd, Nat.one_mul, hmiddle]
    _ ↔ n < limit := by
      rw [Nat.mul_lt_mul_left Nat.two_pos, Nat.mul_lt_mul_right hpos]

end Limit

theorem ofInt?_isSome_iff (n : Int) : (ofInt? n).isSome = true ↔ n.natAbs < limit := by
  rw [← nearest_lt_ranks_iff, ofInt?, ofRank]
  split
  · next h => simp [inRange?, h]
  · next h => simp [inRange?, h]

end DialogueFlow.Double
