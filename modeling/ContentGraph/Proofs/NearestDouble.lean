import ContentGraph.Double
import Mathlib.Algebra.Order.Field.Power
import Mathlib.Data.Nat.Log
import Mathlib.Data.Rat.Cast.Order
import Mathlib.Tactic.FieldSimp
import Mathlib.Tactic.Linarith
import Mathlib.Tactic.Positivity
import Mathlib.Tactic.Ring

/-! The floating-point number that a natural number is rounded to is the nearest one there is, and of
two that are equally near the one whose last bit is zero. -/

namespace ContentGraph

namespace Double

def value (bits : UInt64) : ℚ :=
  (if isNegative bits then -1 else 1) * (magnitude bits).mantissa * 2 ^ (magnitude bits).exponent

structure IsNearest (bits : UInt64) (x : ℚ) : Prop where
  finite : isFinite bits = true
  nearest : ∀ other, isFinite other = true → |x - value bits| ≤ |x - value other|
  even : ∀ other, isFinite other = true → |x - value bits| = |x - value other| →
    value other = value bits ∨ bits.toNat % 2 = 0

theorem roundHalfEven_cases (n d : Nat) :
    (roundHalfEven n d = n / d ∧ 2 * (n % d) ≤ d ∧ (2 * (n % d) = d → n / d % 2 = 0)) ∨
      (roundHalfEven n d = n / d + 1 ∧ d ≤ 2 * (n % d) ∧ (2 * (n % d) = d → n / d % 2 = 1)) := by
  simp only [roundHalfEven]
  split <;> omega

/-- How far a number lies from a multiple, by its quotient and its remainder. -/
theorem distance_cases (n : Nat) {d : Nat} (hd : 0 < d) (j : Int) :
    (j = (n / d : Nat) ∧ |(n : Int) - j * d| = (n % d : Nat)) ∨
      (j < (n / d : Nat) ∧ (n % d : Nat) < |(n : Int) - j * d|) ∨
      (j = (n / d : Nat) + 1 ∧ |(n : Int) - j * d| = d - (n % d : Nat)) ∨
      ((n / d : Nat) + 1 < j ∧ d - (n % d : Nat) < |(n : Int) - j * d|) := by
  have hn : (n : Int) = (n / d : Nat) * d + (n % d : Nat) := by
    have := Nat.div_add_mod' n d
    exact_mod_cast this.symm
  have hr : n % d < d := Nat.mod_lt n hd
  generalize n / d = q at *
  generalize n % d = r at *
  have hdistance : (n : Int) - j * d = (q - j) * d + r := by rw [hn]; ring
  rw [hdistance]
  rcases lt_trichotomy j q with hlt | heq | hgt
  · have hstep : (d : Int) ≤ (q - j) * d := by nlinarith
    exact .inr (.inl ⟨hlt, by rw [abs_of_nonneg] <;> omega⟩)
  · exact .inl ⟨heq, by simp [heq]⟩
  · rcases eq_or_lt_of_le (Int.add_one_le_of_lt hgt) with heq | hgt
    · have hstep : ((q : Int) - j) * d = -d := by rw [← heq]; ring
      exact .inr (.inr (.inl ⟨heq.symm, by rw [hstep, abs_of_nonpos] <;> omega⟩))
    · have hstep : ((q : Int) - j) * d ≤ -2 * d := by nlinarith
      exact .inr (.inr (.inr ⟨hgt, by rw [abs_of_nonpos] <;> omega⟩))

theorem roundHalfEven_nearest (n : Nat) {d : Nat} (hd : 0 < d) (j : Int) :
    |(n : Int) - roundHalfEven n d * d| ≤ |(n : Int) - j * d| ∧
      (|(n : Int) - roundHalfEven n d * d| = |(n : Int) - j * d| →
        j = roundHalfEven n d ∨ roundHalfEven n d % 2 = 0) := by
  have hown := distance_cases n hd (roundHalfEven n d)
  have hother := distance_cases n hd j
  have hr : n % d < d := Nat.mod_lt n hd
  rcases roundHalfEven_cases n d with ⟨hround, hclose, htie⟩ | ⟨hround, hclose, htie⟩
  · rw [hround] at hown ⊢
    omega
  · rw [hround] at hown ⊢
    push_cast at hown ⊢
    omega

theorem leadingOne_eq : leadingOne = 2 ^ 52 := rfl

/-- A mantissa and the exponent field below its own, put together by addition. -/
def packed (field mantissa : Nat) : UInt64 :=
  UInt64.ofNat (field * leadingOne + mantissa)

section

variable {field mantissa : Nat}

theorem toNat_packed (hfield : field ≤ 2044) (hhigh : mantissa ≤ 2 ^ 53) :
    (packed field mantissa).toNat = field * 2 ^ 52 + mantissa := by
  rw [packed, leadingOne_eq, UInt64.toNat_ofNat']
  omega

theorem isNegative_packed (hfield : field ≤ 2044) (hhigh : mantissa ≤ 2 ^ 53) :
    isNegative (packed field mantissa) = false := by
  rw [isNegative, toNat_packed hfield hhigh, Nat.shiftRight_eq_div_pow]
  apply decide_eq_false
  omega

theorem exponentField_packed (hfield : field ≤ 2044) (hlow : 2 ^ 52 ≤ mantissa)
    (hhigh : mantissa ≤ 2 ^ 53) :
    exponentField (packed field mantissa) = field + mantissa / 2 ^ 52 := by
  rw [exponentField, toNat_packed hfield hhigh, Nat.shiftRight_eq_div_pow]
  omega

theorem isFinite_packed (hfield : field ≤ 2044) (hlow : 2 ^ 52 ≤ mantissa)
    (hhigh : mantissa ≤ 2 ^ 53) : isFinite (packed field mantissa) = true := by
  rw [isFinite, exponentField_packed hfield hlow hhigh]
  apply decide_eq_true
  omega

/-- A mantissa that has grown by one place carries into the exponent. -/
theorem magnitude_packed (hfield : field ≤ 2044) (hlow : 2 ^ 52 ≤ mantissa)
    (hhigh : mantissa ≤ 2 ^ 53) :
    magnitude (packed field mantissa) = ⟨mantissa, field - 1074⟩ ∨
      mantissa = 2 ^ 53 ∧ magnitude (packed field mantissa) = ⟨2 ^ 52, field - 1073⟩ := by
  have hexponent := exponentField_packed hfield hlow hhigh
  have hfraction : fraction (packed field mantissa) = mantissa % 2 ^ 52 := by
    rw [fraction, toNat_packed hfield hhigh, leadingOne_eq]
    omega
  have hne : exponentField (packed field mantissa) ≠ 0 := by
    rw [hexponent]
    omega
  rw [magnitude, if_neg hne, hexponent, hfraction, leadingOne_eq]
  by_cases hcarry : mantissa < 2 ^ 53
  · left
    congr 1 <;> omega
  · right
    refine ⟨by omega, ?_⟩
    congr 1 <;> omega

theorem value_packed (hfield : field ≤ 2044) (hlow : 2 ^ 52 ≤ mantissa)
    (hhigh : mantissa ≤ 2 ^ 53) :
    value (packed field mantissa) = mantissa * 2 ^ ((field : Int) - 1074) := by
  have hsign := isNegative_packed hfield hhigh
  rcases magnitude_packed hfield hlow hhigh with hmagnitude | ⟨rfl, hmagnitude⟩
  · simp [value, hsign, hmagnitude]
  · have hplaces : (field : Int) - 1073 = (field - 1074) + 1 := by ring
    simp only [value, hsign, hmagnitude, hplaces, zpow_add_one₀ (two_ne_zero' ℚ)]
    push_cast
    ring

end

theorem mantissa_lt (bits : UInt64) : (magnitude bits).mantissa < 2 ^ 53 := by
  have hfraction : fraction bits < 2 ^ 52 := Nat.mod_lt _ (by decide)
  rw [magnitude, leadingOne_eq]
  split
  · exact Nat.lt_trans hfraction (by decide)
  · show 2 ^ 52 + fraction bits < 2 ^ 53
    omega

/-- From a power of two on, all numbers are multiples of what the last place of a mantissa counts
there. -/
theorem value_cases (bits : UInt64) (k : Nat) :
    value bits < 2 ^ k ∨ ∃ j : Int, value bits = j * 2 ^ ((k : Int) - 52) := by
  have hmantissa : ((magnitude bits).mantissa : ℚ) < 2 ^ 53 := by exact_mod_cast mantissa_lt bits
  generalize hm : (magnitude bits).mantissa = m at hmantissa
  generalize he : (magnitude bits).exponent = e
  by_cases hsign : isNegative bits = true
  · left
    have hnonneg : (0 : ℚ) ≤ m * 2 ^ e := by positivity
    have hvalue : value bits = -(m * 2 ^ e) := by simp [value, hsign, hm, he]
    calc value bits ≤ 0 := by linarith
      _ < 2 ^ k := by positivity
  · have hvalue : value bits = m * 2 ^ e := by simp [value, hsign, hm, he]
    by_cases hplaces : (k : Int) - 52 ≤ e
    · right
      obtain ⟨more, hmore⟩ := Int.eq_ofNat_of_zero_le (Int.sub_nonneg.mpr hplaces)
      obtain rfl : e = more + (k - 52) := by omega
      refine ⟨m * 2 ^ more, ?_⟩
      rw [hvalue, zpow_add₀ two_ne_zero, zpow_natCast]
      push_cast
      ring
    · left
      have hpower : (2 : ℚ) ^ e ≤ 2 ^ ((k : Int) - 53) :=
        zpow_le_zpow_right₀ one_le_two (by omega)
      calc value bits = m * 2 ^ e := hvalue
        _ ≤ m * 2 ^ ((k : Int) - 53) := by gcongr
        _ < 2 ^ 53 * 2 ^ ((k : Int) - 53) := by gcongr
        _ = 2 ^ k := by
          rw [← zpow_natCast, ← zpow_natCast, ← zpow_add₀ two_ne_zero]
          congr 1
          omega

theorem IsNearest.of_value_eq {bits : UInt64} {x : ℚ} (hfinite : isFinite bits = true)
    (h : value bits = x) : IsNearest bits x where
  finite := hfinite
  nearest other _ := by simp [h]
  even other _ hsame := by
    left
    rw [h, sub_self, abs_zero, eq_comm, abs_eq_zero, sub_eq_zero] at hsame
    rw [h, hsame]

section

variable {n : Nat}

theorem ofNat_of_log2_le (hn : n ≠ 0) (hlog : n.log2 ≤ 52) :
    ofNat n = packed (n.log2 + 1022) (n * 2 ^ (52 - n.log2)) := by
  simp only [ofNat, if_neg hn, if_pos hlog, Nat.shiftLeft_eq]
  rfl

theorem ofNat_of_lt_log2 (hlog : 52 < n.log2) :
    ofNat n = packed (n.log2 + 1022) (roundHalfEven n (2 ^ (n.log2 - 52))) := by
  have hn : n ≠ 0 := by
    rintro rfl
    simp at hlog
  simp only [ofNat, if_neg hn, if_neg (Nat.not_le.mpr hlog), Nat.shiftLeft_eq, Nat.one_mul]
  rfl

theorem isNearest_ofNat_of_log2_le (hn : n ≠ 0) (hlog : n.log2 ≤ 52) : IsNearest (ofNat n) n := by
  have hlow := Nat.log2_self_le hn
  have hhigh := Nat.lt_log2_self (n := n)
  have hsplit : 2 ^ 52 = 2 ^ n.log2 * 2 ^ (52 - n.log2) := by rw [← Nat.pow_add]; congr 1; omega
  have hpos : 0 < 2 ^ (52 - n.log2) := by positivity
  have hmantissa : 2 ^ 52 ≤ n * 2 ^ (52 - n.log2) := by rw [hsplit]; gcongr
  have hfull : n * 2 ^ (52 - n.log2) ≤ 2 ^ 53 := by
    rw [Nat.pow_succ] at hhigh
    nlinarith
  rw [ofNat_of_log2_le hn hlog]
  refine .of_value_eq (isFinite_packed (by omega) hmantissa hfull) ?_
  rw [value_packed (by omega) hmantissa hfull]
  push_cast
  rw [mul_assoc, ← zpow_natCast, ← zpow_add₀ two_ne_zero]
  have hzero : ((52 - n.log2 : Nat) : Int) + ((n.log2 : Int) + 1022 - 1074) = 0 := by omega
  rw [hzero, zpow_zero, mul_one]

/-- What lies below the power of two is further away than that power, and all other numbers are
multiples of the unit. -/
theorem isNearest_of_multiple {bits : UInt64} {k d : Nat} (hfinite : isFinite bits = true)
    (hvalue : value bits = roundHalfEven n d * d)
    (heven : bits.toNat % 2 = roundHalfEven n d % 2) (hd : 0 < d)
    (hunit : (2 : ℚ) ^ ((k : Int) - 52) = d) (hlow : 2 ^ k ≤ n) : IsNearest bits n := by
  have hmultiple (j : Int) : |(n : ℚ) - value bits| ≤ |(n : ℚ) - j * d| ∧
      (|(n : ℚ) - value bits| = |(n : ℚ) - j * d| →
        j = roundHalfEven n d ∨ roundHalfEven n d % 2 = 0) := by
    rw [hvalue]
    exact_mod_cast roundHalfEven_nearest n hd j
  have hbelow {x : ℚ} (hx : x < 2 ^ k) : |(n : ℚ) - value bits| < |(n : ℚ) - x| := by
    have hpower : (2 : ℚ) ^ k = (2 ^ 52 : Int) * d := by
      rw [← hunit, Int.cast_pow, ← zpow_natCast, ← zpow_natCast, Int.cast_ofNat,
        ← zpow_add₀ two_ne_zero]
      congr 1
      omega
    have hn : (2 : ℚ) ^ k ≤ n := by exact_mod_cast hlow
    have hnear := (hmultiple (2 ^ 52)).1
    rw [← hpower, abs_of_nonneg (sub_nonneg.mpr hn)] at hnear
    rw [abs_of_pos (a := (n : ℚ) - x) (by linarith)]
    linarith
  refine ⟨hfinite, fun other _ => ?_, fun other _ hsame => ?_⟩
  · rcases value_cases other k with hlt | ⟨j, hj⟩
    · exact (hbelow hlt).le
    · rw [hj, hunit]
      exact (hmultiple j).1
  · rcases value_cases other k with hlt | ⟨j, hj⟩
    · exact absurd hsame (hbelow hlt).ne
    · rw [hj, hunit] at hsame ⊢
      rw [heven, hvalue]
      refine ((hmultiple j).2 hsame).imp_left fun hrounds => ?_
      rw [hrounds]
      norm_cast

theorem isNearest_ofNat_of_lt_log2 (hlog : 52 < n.log2) (hbound : n.log2 < 1023) :
    IsNearest (ofNat n) n := by
  have hlow : 2 ^ n.log2 ≤ n := Nat.log2_self_le (by rintro rfl; simp at hlog)
  have hhigh := Nat.lt_log2_self (n := n)
  rw [ofNat_of_lt_log2 hlog]
  generalize n.log2 = k at *
  have hunit : (2 : ℚ) ^ ((k : Int) - 52) = (2 ^ (k - 52) : Nat) := by
    rw [Nat.cast_pow, ← zpow_natCast]
    congr 1
    omega
  have hpower : 2 ^ k = 2 ^ 52 * 2 ^ (k - 52) := by
    rw [← Nat.pow_add]
    congr 1
    omega
  have hd : 0 < 2 ^ (k - 52) := by positivity
  generalize 2 ^ (k - 52) = d at *
  have hquotient : 2 ^ 52 ≤ n / d ∧ n / d < 2 ^ 53 := by
    rw [Nat.le_div_iff_mul_le hd, Nat.div_lt_iff_lt_mul hd]
    rw [Nat.pow_succ] at hhigh
    omega
  have hrounded : 2 ^ 52 ≤ roundHalfEven n d ∧ roundHalfEven n d ≤ 2 ^ 53 := by
    rcases roundHalfEven_cases n d with ⟨heq, -⟩ | ⟨heq, -⟩ <;> omega
  have hfield : k + 1022 ≤ 2044 := by omega
  have hplaces : ((k + 1022 : Nat) : Int) - 1074 = k - 52 := by omega
  apply isNearest_of_multiple (isFinite_packed hfield hrounded.1 hrounded.2) _ _ hd hunit hlow
  · rw [value_packed hfield hrounded.1 hrounded.2, hplaces, hunit]
  · rw [toNat_packed hfield hrounded.2]
    omega

theorem isNearest_ofNat (h : n.log2 < 1023) : IsNearest (ofNat n) n := by
  by_cases hn : n = 0
  · subst hn
    exact .of_value_eq (by decide) (by simp [value, magnitude, ofNat, exponentField, fraction])
  · by_cases hlog : n.log2 ≤ 52
    · exact isNearest_ofNat_of_log2_le hn hlog
    · exact isNearest_ofNat_of_lt_log2 (Nat.not_le.mp hlog) h

end

end Double

end ContentGraph
