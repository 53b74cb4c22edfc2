import TurtleGraphics.Decimal.Shortest
import TurtleGraphics.Proofs.Decimal.Rounding

/-!
The shortest digits of a double lie near it. Seventeen digits are enough, because a unit of the last
of them is less than the interval of what is rounded to the double.
-/

namespace TurtleGraphics.Decimal

def Digits.value (x : Digits) : ℚ :=
  x.digits * 10 ^ x.exponent

namespace Interval

structure Spans (i : Interval) (low value high : ℚ) : Prop where
  unit : 0 < i.unit
  low : (i.low : ℚ) / i.unit = low
  value : (i.value : ℚ) / i.unit = value
  high : (i.high : ℚ) / i.unit = high

variable {i : Interval} {low value high : ℚ}

theorem Spans.inUnits (spans : i.Spans low value high) (k : ℤ) :
    (i.inUnits k).Spans (low / 10 ^ k) (value / 10 ^ k) (high / 10 ^ k) := by
  obtain ⟨unit, rfl, rfl, rfl⟩ := spans
  cases k with
  | ofNat s =>
    have scaled (n : ℕ) :
        (n : ℚ) / (i.unit * Nat.pow 10 s : ℕ) = n / i.unit / 10 ^ Int.ofNat s := by
      rw [Int.ofNat_eq_natCast, zpow_natCast, div_div]
      push_cast [Nat.pow_eq]
      rfl
    exact ⟨Nat.mul_pos unit (Nat.pow_pos (by decide)), scaled _, scaled _, scaled _⟩
  | negSucc s =>
    have scaled (n : ℕ) : ((n * Nat.pow 10 (s + 1) : ℕ) : ℚ) / i.unit =
        n / i.unit / 10 ^ Int.negSucc s := by
      rw [zpow_negSucc, div_inv_eq_mul, div_mul_eq_mul_div]
      push_cast [Nat.pow_eq]
      rfl
    exact ⟨unit, scaled _, scaled _, scaled _⟩

theorem spans_ofBinary {m : ℕ} (positive : 0 < m) (e : ℤ) : (ofBinary m e).Spans
    ((m - reachDown m e) * 2 ^ e) (m * 2 ^ e) ((m + 1 / 2) * 2 ^ e) := by
  have down : ((4 * m - (if m = Binary64.leading ∧ -1074 < e then 1 else 2) : ℕ) : ℚ) =
      4 * (m - reachDown m e) := by
    unfold reachDown
    split
    · push_cast [show 1 ≤ 4 * m by omega]
      ring
    · push_cast [show 2 ≤ 4 * m by omega]
      ring
  have place : (2 : ℚ) ^ e = 4 * 2 ^ (e - 2) := by
    rw [zpow_sub₀ two_ne_zero]
    norm_num
    ring
  unfold ofBinary
  rw [place]
  cases e - 2 with
  | ofNat s =>
    have scaled (n : ℕ) : ((n * 1 <<< s : ℕ) : ℚ) / (1 : ℕ) = n * 2 ^ Int.ofNat s := by
      simp [Nat.shiftLeft_eq]
    refine ⟨Nat.one_pos, ?_, ?_, ?_⟩
    · rw [scaled, down]
      ring
    · rw [scaled]
      push_cast
      ring
    · rw [scaled]
      push_cast
      ring
  | negSucc s =>
    have scaled (n : ℕ) : ((n * 1 : ℕ) : ℚ) / (1 <<< (s + 1) : ℕ) = n * 2 ^ Int.negSucc s := by
      simp [Nat.shiftLeft_eq, zpow_negSucc, div_eq_mul_inv]
    refine ⟨by simp [Nat.shiftLeft_eq], ?_, ?_, ?_⟩
    · rw [scaled, down]
      ring
    · rw [scaled]
      push_cast
      ring
    · rw [scaled]
      push_cast
      ring

theorem closed_inUnits (i : Interval) (k : ℤ) : (i.inUnits k).closed = i.closed := by
  cases k <;> rfl

theorem closed_ofBinary (m : ℕ) (e : ℤ) : (ofBinary m e).closed = (m % 2 == 0) := by
  unfold ofBinary
  cases e - 2 <;> rfl

/-- A whole number lies in the interval, up to the ends, which belong to it if it is closed. -/
theorem holds_iff (spans : i.Spans low value high) (d : ℕ) : i.holds d = true ↔
    (low < d ∨ i.closed = true ∧ low = d) ∧ ((d : ℚ) < high ∨ i.closed = true ∧ d = high) := by
  obtain ⟨unit, rfl, rfl, rfl⟩ := spans
  have some : (0 : ℚ) < i.unit := by exact_mod_cast unit
  have above : (i.low : ℚ) / i.unit < d ↔ i.low < d * i.unit := by
    rw [div_lt_iff₀ some]
    exact_mod_cast Iff.rfl
  have below : (d : ℚ) < i.high / i.unit ↔ d * i.unit < i.high := by
    rw [lt_div_iff₀ some]
    exact_mod_cast Iff.rfl
  have bottom : (i.low : ℚ) / i.unit = d ↔ i.low = d * i.unit := by
    rw [div_eq_iff some.ne']
    exact_mod_cast Iff.rfl
  have top : (d : ℚ) = i.high / i.unit ↔ d * i.unit = i.high := by
    rw [eq_div_iff some.ne']
    exact_mod_cast Iff.rfl
  rw [above, below, bottom, top, holds]
  cases i.closed
  · simp
  · simp only [if_true, Bool.and_eq_true, decide_eq_true_eq, true_and, Nat.le_iff_lt_or_eq]

/-- What lies in the interval of a double in units of some power of ten lies near the double. -/
theorem near_of_holds {m d : ℕ} {e k : ℤ} (positive : 0 < m)
    (held : ((ofBinary m e).inUnits k).holds d = true) : Near m e (d * 10 ^ k) := by
  rw [holds_iff ((spans_ofBinary positive e).inUnits k), closed_inUnits, closed_ofBinary] at held
  have binary : (0 : ℚ) < 2 ^ e := by positivity
  have decimal : (0 : ℚ) < 10 ^ k := by positivity
  rw [div_lt_iff₀ decimal, lt_div_iff₀ decimal, div_eq_iff decimal.ne', eq_div_iff decimal.ne',
    ← lt_div_iff₀ binary, ← div_lt_iff₀ binary, ← eq_div_iff binary.ne', ← div_eq_iff binary.ne',
    beq_iff_eq] at held
  obtain ⟨low, high⟩ := held
  refine ⟨?_, ?_, ?_⟩
  · rcases low with less | ⟨-, same⟩
    · exact less.le
    · exact same.le
  · rcases high with less | ⟨-, same⟩
    · exact less.le
    · exact same.le
  · rintro (same | same)
    · rcases low with less | ⟨even, -⟩
      · exact absurd same less.ne'
      · exact even
    · rcases high with less | ⟨even, -⟩
      · exact absurd same less.ne
      · exact even

theorem holds_of_pick {tie : Tie} {d : ℕ} (picked : i.pick tie = some d) : i.holds d = true := by
  unfold pick at picked
  dsimp only at picked
  split at picked
  · cases picked
  · rename_i first _
    cases picked
    exact first
  · rename_i second
    cases picked
    exact second
  · rename_i first second
    split at picked
    · cases picked
      exact first
    · split at picked
      · cases picked
        exact second
      · cases tie with
        | up =>
          cases picked
          exact second
        | even =>
          cases picked
          obtain even | odd := Nat.mod_two_eq_zero_or_one (i.value / i.unit)
          · rw [even]
            exact first
          · rw [odd]
            exact second

/-- If a unit is less than the interval, one of the whole numbers next to the value lies in it. -/
theorem exists_pick (tie : Tie) (spans : i.Spans low value high) (above : low < value)
    (below : value < high) (wide : low + 1 < high) : ∃ d, i.pick tie = some d := by
  have some : (0 : ℚ) < i.unit := by exact_mod_cast spans.unit
  have floor : ((i.value / i.unit : ℕ) : ℚ) ≤ value := by
    rw [← spans.value, le_div_iff₀ some]
    exact_mod_cast Nat.div_mul_le_self i.value i.unit
  have ceiling : value < ((i.value / i.unit : ℕ) : ℚ) + 1 := by
    rw [← spans.value, div_lt_iff₀ some, mul_comm]
    exact_mod_cast Nat.lt_mul_div_succ i.value spans.unit
  have found : i.holds (i.value / i.unit) = true ∨ i.holds (i.value / i.unit + 1) = true := by
    rw [holds_iff spans, holds_iff spans]
    push_cast
    rcases lt_or_ge low ((i.value / i.unit : ℕ) : ℚ) with inside | outside
    · exact .inl ⟨.inl inside, .inl (floor.trans_lt below)⟩
    · exact .inr ⟨.inl (above.trans ceiling), .inl (by linarith)⟩
  unfold pick
  dsimp only
  cases first : i.holds (i.value / i.unit) with
  | true =>
    cases second : i.holds (i.value / i.unit + 1) with
    | true =>
      dsimp only
      split
      · exact ⟨_, rfl⟩
      · split
        · exact ⟨_, rfl⟩
        · cases tie <;> exact ⟨_, rfl⟩
    | false => exact ⟨_, rfl⟩
  | false =>
    cases second : i.holds (i.value / i.unit + 1) with
    | true => exact ⟨_, rfl⟩
    | false => simp [first, second] at found

theorem reaches_iff (spans : i.Spans low value high) (k : ℤ) :
    i.reaches k = true ↔ (10 : ℚ) ^ k ≤ value := by
  have scaled := spans.inUnits k
  have some : (0 : ℚ) < (i.inUnits k).unit := by exact_mod_cast scaled.unit
  have decimal : (0 : ℚ) < 10 ^ k := by positivity
  rw [← one_le_div decimal, ← scaled.value, one_le_div some, reaches, decide_eq_true_iff]
  exact_mod_cast Iff.rfl

theorem ten_pow_le_two_pow :
    (∀ n < 1100, 10 ^ (n * 30103 / 100000) ≤ 2 ^ n * 10) ∧
      ∀ n < 1100, 2 ^ n ≤ 10 * 10 ^ ((n * 30103 + 99999) / 100000) := by
  decide +kernel

/-- The logarithm of 2 to the base 10 is close to 0.30103. -/
theorem ten_zpow_le_two_zpow {t : ℤ} (low : -1100 < t) (high : t < 1100) :
    (10 : ℚ) ^ (t * 30103 / 100000 - 1) ≤ 2 ^ t := by
  rw [zpow_sub_one₀ (by norm_num), ← div_eq_mul_inv, div_le_iff₀ (by norm_num)]
  obtain ⟨n, rfl | rfl⟩ := t.eq_nat_or_neg
  · have le := ten_pow_le_two_pow.1 n (by omega)
    have whole : (n : ℤ) * 30103 / 100000 = (n * 30103 / 100000 : ℕ) := by omega
    rw [whole, zpow_natCast, zpow_natCast]
    exact_mod_cast le
  · have le := ten_pow_le_two_pow.2 n (by omega)
    have whole : -(n : ℤ) * 30103 / 100000 = -((n * 30103 + 99999) / 100000 : ℕ) := by omega
    rw [whole, zpow_neg, zpow_neg, zpow_natCast, zpow_natCast, inv_mul_eq_div,
      inv_le_iff_one_le_mul₀ (by positivity), div_mul_eq_mul_div, one_le_div (by positivity)]
    exact_mod_cast le

/-- The decimal exponent is small enough. That it is the greatest one does not matter here. -/
theorem ten_zpow_decimalExponent_le (spans : i.Spans low value high)
    (least : (2 : ℚ) ^ (-1074 : ℤ) ≤ value) (most : value < 2 ^ (1024 : ℤ)) :
    (10 : ℚ) ^ i.decimalExponent ≤ value := by
  have positive : 0 < i.value := by
    have some : (0 : ℚ) < i.unit := by exact_mod_cast spans.unit
    have above : (0 : ℚ) < i.value / i.unit := by
      rw [spans.value]
      exact lt_of_lt_of_le (by positivity) least
    exact_mod_cast (div_pos_iff_of_pos_right some).mp above
  obtain ⟨below, above⟩ := log2_ratio_bounds positive spans.unit
  rw [spans.value] at below above
  have bottom := (zpow_lt_zpow_iff_right₀ one_lt_two).mp (least.trans_lt above)
  have top := (zpow_lt_zpow_iff_right₀ one_lt_two).mp (below.trans_lt most)
  have guess := ten_zpow_le_two_zpow (by omega) (by omega) |>.trans below
  unfold decimalExponent
  dsimp only
  cases found : List.find? i.reaches _ with
  | some k => exact (reaches_iff spans k).mp (List.find?_some found)
  | none => exact guess

end Interval

theorem dropZeros_value (n : ℕ) (x : Digits) : (dropZeros n x).value = x.value := by
  induction n generalizing x with
  | zero => rfl
  | succ n ih =>
    unfold dropZeros
    split
    · rename_i zero
      rw [ih, Digits.value, Digits.value, zpow_add_one₀ (by norm_num)]
      have whole : x.digits = 10 * (x.digits / 10) := by omega
      have whole : (x.digits : ℚ) = 10 * (x.digits / 10 : ℕ) := by exact_mod_cast whole
      rw [whole]
      ring
    · rfl

variable {m : ℕ} {e : ℤ}

theorem Binary64.Canonical.lt (canonical : Canonical m e) : (m : ℚ) < 2 ^ (53 : ℤ) := by
  linarith [canonical.succ_le]

theorem Binary64.Canonical.bounds (canonical : Canonical m e) (positive : 0 < m) :
    (2 : ℚ) ^ (-1074 : ℤ) ≤ m * 2 ^ e ∧ (m : ℚ) * 2 ^ e < 2 ^ (1024 : ℤ) := by
  have one : (1 : ℚ) ≤ m := by exact_mod_cast positive
  have power : (0 : ℚ) < 2 ^ e := by positivity
  have greatest := canonical.greatest
  constructor
  · calc (2 : ℚ) ^ (-1074 : ℤ) ≤ 2 ^ e := zpow_le_zpow_right₀ (by norm_num) canonical.least
      _ ≤ m * 2 ^ e := le_mul_of_one_le_left power.le one
  · calc (m : ℚ) * 2 ^ e < 2 ^ (53 : ℤ) * 2 ^ e := mul_lt_mul_of_pos_right canonical.lt power
      _ = 2 ^ (53 + e) := (zpow_add₀ two_ne_zero _ _).symm
      _ ≤ 2 ^ (1024 : ℤ) := zpow_le_zpow_right₀ (by norm_num) (by omega)

/-- Seventeen digits tell any mantissa from the next one. -/
theorem Binary64.Canonical.lt_ten_pow (canonical : Canonical m e) :
    (m : ℚ) < 10 ^ 16 * (1 / 2 + reachDown m e) := by
  have short := canonical.lt
  unfold reachDown
  split
  · rename_i power
    rw [power.1, leading_cast]
    norm_num
  · norm_num at short ⊢
    linarith

/-- With seventeen digits there is a decimal that is rounded to the double. -/
theorem exists_pick_seventeenth (canonical : Binary64.Canonical m e) (positive : 0 < m)
    (tie : Tie) : ∃ d, ((Interval.ofBinary m e).inUnits
      ((Interval.ofBinary m e).decimalExponent - (16 : ℕ))).pick tie = some d := by
  have spans := Interval.spans_ofBinary positive e
  obtain ⟨least, most⟩ := canonical.bounds positive
  have first := Interval.ten_zpow_decimalExponent_le spans least most
  have binary : (0 : ℚ) < 2 ^ e := by positivity
  have reach := (reachDown_le m e).1
  generalize (Interval.ofBinary m e).decimalExponent = exponent at first
  have decimal : (0 : ℚ) < 10 ^ (exponent - (16 : ℕ)) := by positivity
  have unit : (10 : ℚ) ^ (exponent - (16 : ℕ)) < (1 / 2 + reachDown m e) * 2 ^ e := by
    rw [zpow_sub₀ (by norm_num), zpow_natCast, div_lt_iff₀ (by norm_num)]
    calc (10 : ℚ) ^ exponent ≤ m * 2 ^ e := first
      _ < 10 ^ 16 * (1 / 2 + reachDown m e) * 2 ^ e :=
        mul_lt_mul_of_pos_right canonical.lt_ten_pow binary
      _ = (1 / 2 + reachDown m e) * 2 ^ e * 10 ^ 16 := by ring
  apply Interval.exists_pick tie (spans.inUnits _)
  · exact div_lt_div_of_pos_right (mul_lt_mul_of_pos_right (by linarith) binary) decimal
  · exact div_lt_div_of_pos_right (mul_lt_mul_of_pos_right (by linarith) binary) decimal
  · rw [div_add_one decimal.ne', div_lt_div_iff_of_pos_right decimal]
    linarith

theorem shortest_near (canonical : Binary64.Canonical m e) (positive : 0 < m) (tie : Tie) :
    Near m e (shortest tie m e).value := by
  obtain ⟨d, picked⟩ := exists_pick_seventeenth canonical positive tie
  unfold shortest
  dsimp only
  rw [dropZeros_value]
  cases found : List.findSome? _ (List.range 17) with
  | none =>
    have last := List.findSome?_eq_none_iff.mp found 16 (by decide)
    rw [picked] at last
    cases last
  | some x =>
    obtain ⟨n, -, same⟩ := List.exists_of_findSome?_eq_some found
    obtain ⟨d, picked, rfl⟩ := Option.map_eq_some_iff.mp same
    exact Interval.near_of_holds positive (Interval.holds_of_pick picked)

end TurtleGraphics.Decimal
