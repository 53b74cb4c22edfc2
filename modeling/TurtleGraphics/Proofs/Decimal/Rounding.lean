import Mathlib
import TurtleGraphics.Decimal.Binary64

/-!
The fractions that are rounded to a given double: those between the halfway points to its two
neighbours, and the halfway points too if its mantissa is even. Below a power of two the neighbour
is nearer.
-/

namespace TurtleGraphics.Decimal

structure Binary64.Canonical (m : ℕ) (e : ℤ) : Prop where
  short : m < 2 * leading
  least : -1074 ≤ e
  greatest : e ≤ 971
  normal : e = -1074 ∨ leading ≤ m

def Binary64.bitsOf (m : ℕ) (e : ℤ) : ℕ :=
  if m < leading then m else (e + 1074).toNat * leading + m

/-- How far the interval of a mantissa reaches down, in units of its last place. -/
def reachDown (m : ℕ) (e : ℤ) : ℚ :=
  if m = Binary64.leading ∧ -1074 < e then 1 / 4 else 1 / 2

structure Near (m : ℕ) (e : ℤ) (q : ℚ) : Prop where
  low : m - reachDown m e ≤ q / 2 ^ e
  high : q / 2 ^ e ≤ m + 1 / 2
  ends : q / 2 ^ e = m - reachDown m e ∨ q / 2 ^ e = m + 1 / 2 → m % 2 = 0

theorem leading_eq : Binary64.leading = 2 ^ 52 :=
  rfl

theorem leading_cast : ((Binary64.leading : ℕ) : ℚ) = 2 ^ (52 : ℤ) := by
  norm_num [leading_eq]

theorem reachDown_le (m : ℕ) (e : ℤ) : 1 / 4 ≤ reachDown m e ∧ reachDown m e ≤ 1 / 2 := by
  unfold reachDown
  split <;> norm_num

theorem scaled_den_pos {num den : ℕ} (positive : 0 < den) (shift : ℤ) :
    0 < (scaled num den shift).2 := by
  cases shift with
  | ofNat s => exact positive
  | negSucc s => exact Nat.pos_of_ne_zero (by simp [scaled, Nat.shiftLeft_eq, positive.ne'])

theorem scaled_eq (num den : ℕ) (shift : ℤ) :
    ((scaled num den shift).1 : ℚ) / (scaled num den shift).2 = num / den * 2 ^ shift := by
  cases shift with
  | ofNat s =>
    simp only [scaled, Nat.shiftLeft_eq, Int.ofNat_eq_natCast, zpow_natCast]
    push_cast
    ring
  | negSucc s =>
    simp only [scaled, Nat.shiftLeft_eq, zpow_negSucc]
    push_cast
    rw [div_mul_eq_div_div, div_eq_mul_inv (_ / _)]

/-- The whole number nearest to a fraction. -/
theorem roundEven_eq {num den m : ℕ} (positive : 0 < den) (low : 2 * m * den ≤ 2 * num + den)
    (high : 2 * num ≤ 2 * m * den + den)
    (ends : 2 * m * den = 2 * num + den ∨ 2 * num = 2 * m * den + den → m % 2 = 0) :
    roundEven num den = m := by
  have parts := Nat.div_add_mod num den
  have rest := Nat.mod_lt num positive
  unfold roundEven
  generalize num / den = q at parts
  generalize num % den = r at parts rest
  have above : m ≤ q + 1 := by
    by_contra far
    have : (q + 2) * den ≤ m * den := Nat.mul_le_mul_right den (by omega)
    nlinarith
  have below : q ≤ m := by
    by_contra far
    have : (m + 1) * den ≤ q * den := Nat.mul_le_mul_right den (by omega)
    nlinarith
  obtain rfl | rfl : q = m ∨ m = q + 1 := by omega
  · have scale : 2 * q * den = 2 * (den * q) := by ring
    dsimp only
    split
    · rfl
    · split
      · omega
      · have even := ends (.inr (by omega))
        omega
  · have scale : 2 * (q + 1) * den = 2 * (den * q) + 2 * den := by ring
    dsimp only
    split
    · omega
    · split
      · rfl
      · have even := ends (.inl (by omega))
        omega

/-- The same, about the value of the fraction. -/
theorem roundEven_of_near {num den m : ℕ} (positive : 0 < den) (low : (m : ℚ) - 1 / 2 ≤ num / den)
    (high : (num : ℚ) / den ≤ m + 1 / 2)
    (ends : (num : ℚ) / den = m - 1 / 2 ∨ (num : ℚ) / den = m + 1 / 2 → m % 2 = 0) :
    roundEven num den = m := by
  have unit : (0 : ℚ) < den := by exact_mod_cast positive
  rw [le_div_iff₀ unit] at low
  rw [div_le_iff₀ unit] at high
  rw [div_eq_iff unit.ne', div_eq_iff unit.ne'] at ends
  apply roundEven_eq positive
  · have : (2 * m * den : ℚ) ≤ 2 * num + den := by linarith
    exact_mod_cast this
  · have : (2 * num : ℚ) ≤ 2 * m * den + den := by linarith
    exact_mod_cast this
  · rintro (same | same)
    · have same : (2 * m * den : ℚ) = 2 * num + den := by exact_mod_cast same
      exact ends (.inl (by linarith))
    · have same : (2 * num : ℚ) = 2 * m * den + den := by exact_mod_cast same
      exact ends (.inr (by linarith))

theorem log2_bounds {n : ℕ} (positive : 0 < n) :
    (2 : ℚ) ^ (n.log2 : ℤ) ≤ n ∧ (n : ℚ) < 2 ^ (n.log2 + 1 : ℤ) := by
  have low := Nat.log2_self_le positive.ne'
  have high := Nat.lt_log2_self (n := n)
  constructor
  · exact_mod_cast low
  · exact_mod_cast high

/-- The logarithms of its parts tell a fraction up to a factor of four. -/
theorem log2_ratio_bounds {num den : ℕ} (positive : 0 < num) (unit : 0 < den) :
    (2 : ℚ) ^ ((num.log2 : ℤ) - den.log2 - 1) ≤ num / den ∧
      (num : ℚ) / den < 2 ^ ((num.log2 : ℤ) - den.log2 + 1) := by
  obtain ⟨numLow, numHigh⟩ := log2_bounds positive
  obtain ⟨denLow, denHigh⟩ := log2_bounds unit
  have some : (0 : ℚ) < den := by exact_mod_cast unit
  rw [le_div_iff₀ some, div_lt_iff₀ some]
  constructor
  · calc (2 : ℚ) ^ ((num.log2 : ℤ) - den.log2 - 1) * den
        ≤ 2 ^ ((num.log2 : ℤ) - den.log2 - 1) * 2 ^ (den.log2 + 1 : ℤ) :=
          mul_le_mul_of_nonneg_left denHigh.le (by positivity)
      _ = 2 ^ (num.log2 : ℤ) := by
        rw [← zpow_add₀ two_ne_zero]
        congr 1
        ring
      _ ≤ num := numLow
  · calc (num : ℚ) < 2 ^ (num.log2 + 1 : ℤ) := numHigh
      _ = 2 ^ ((num.log2 : ℤ) - den.log2 + 1) * 2 ^ (den.log2 : ℤ) := by
        rw [← zpow_add₀ two_ne_zero]
        congr 1
        ring
      _ ≤ _ := mul_le_mul_of_nonneg_left denLow (by positivity)

theorem binaryExponent_bounds {num den : ℕ} (positive : 0 < num) (unit : 0 < den) :
    (2 : ℚ) ^ binaryExponent num den ≤ num / den ∧
      (num : ℚ) / den < 2 ^ (binaryExponent num den + 1) := by
  obtain ⟨below, above⟩ := log2_ratio_bounds positive unit
  unfold binaryExponent
  dsimp only
  generalize (num.log2 : ℤ) - den.log2 = guess at above below
  have value := scaled_eq num den (-guess)
  have lower : (0 : ℚ) < (scaled num den (-guess)).2 := by
    exact_mod_cast scaled_den_pos unit (-guess)
  rw [zpow_neg, ← div_eq_mul_inv] at value
  have power : (0 : ℚ) < 2 ^ guess := by positivity
  split
  · rename_i less
    have less : ((scaled num den (-guess)).1 : ℚ) < (scaled num den (-guess)).2 := by
      exact_mod_cast less
    rw [← div_lt_one lower, value, div_lt_one power] at less
    exact ⟨below, by rwa [sub_add_cancel]⟩
  · rename_i most
    have most : ((scaled num den (-guess)).2 : ℚ) ≤ (scaled num den (-guess)).1 := by
      exact_mod_cast not_lt.mp most
    rw [← one_le_div lower, value, one_le_div power] at most
    exact ⟨most, above⟩

theorem binaryExponent_eq {num den : ℕ} {b : ℤ} (positive : 0 < num) (unit : 0 < den)
    (low : (2 : ℚ) ^ b ≤ num / den) (high : (num : ℚ) / den < 2 ^ (b + 1)) :
    binaryExponent num den = b := by
  obtain ⟨below, above⟩ := binaryExponent_bounds positive unit
  have least := (zpow_lt_zpow_iff_right₀ one_lt_two).mp (low.trans_lt above)
  have most := (zpow_lt_zpow_iff_right₀ one_lt_two).mp (below.trans_lt high)
  omega

theorem Binary64.Canonical.succ_le {m : ℕ} {e : ℤ} (canonical : Canonical m e) :
    (m : ℚ) + 1 ≤ 2 ^ (53 : ℤ) := by
  have short := canonical.short
  have short : (m : ℚ) + 1 ≤ 2 * leading := by exact_mod_cast short
  rw [leading_cast] at short
  norm_num at short ⊢
  linarith

theorem Near.lt {m : ℕ} {e : ℤ} {q : ℚ} (near : Near m e q)
    (canonical : Binary64.Canonical m e) : q < 2 ^ (e + 53) := by
  have power : (0 : ℚ) < 2 ^ e := by positivity
  have less : q / 2 ^ e < 2 ^ (53 : ℤ) := by linarith [near.high, canonical.succ_le]
  rwa [div_lt_iff₀ power, ← zpow_add₀ two_ne_zero, add_comm] at less

theorem Near.ge {m : ℕ} {e : ℤ} {q : ℚ} (near : Near m e q) (positive : 0 < m) :
    2 ^ (e - 1) ≤ q := by
  have power : (0 : ℚ) < 2 ^ e := by positivity
  have one : (1 : ℚ) ≤ m := by exact_mod_cast positive
  have half : 1 / 2 ≤ q / 2 ^ e := by linarith [near.low, (reachDown_le m e).2]
  rw [le_div_iff₀ power] at half
  rw [zpow_sub_one₀ two_ne_zero]
  linarith

theorem Near.pos {m : ℕ} {e : ℤ} {q : ℚ} (near : Near m e q) (positive : 0 < m) : 0 < q :=
  lt_of_lt_of_le (by positivity) (near.ge positive)

variable {m num den : ℕ} {e : ℤ}

/-- In units of the last place of the mantissa. -/
theorem nearestBits_of_binade (canonical : Binary64.Canonical m e) (some : 0 < num)
    (unit : 0 < den) (near : Near m e (num / den))
    (binade : e = -1074 ∨ (Binary64.leading : ℚ) ≤ num / den / 2 ^ e) :
    nearestBits num den = Binary64.bitsOf m e := by
  have power : (0 : ℚ) < 2 ^ e := by positivity
  have reach := (reachDown_le m e).2
  obtain ⟨below, above⟩ := binaryExponent_bounds some unit
  have most := near.lt canonical
  have top : binaryExponent num den < e + 53 :=
    (zpow_lt_zpow_iff_right₀ one_lt_two).mp (below.trans_lt most)
  have same : max (binaryExponent num den - 52) (-1074) = e := by
    rcases binade with rfl | normal
    · omega
    · rw [leading_cast, le_div_iff₀ power, ← zpow_add₀ two_ne_zero] at normal
      have bottom : 52 + e < binaryExponent num den + 1 :=
        (zpow_lt_zpow_iff_right₀ one_lt_two).mp (normal.trans_lt above)
      have least := canonical.least
      omega
  have value := scaled_eq num den (-e)
  rw [zpow_neg, ← div_eq_mul_inv] at value
  have rounded : roundEven (scaled num den (-e)).1 (scaled num den (-e)).2 = m := by
    apply roundEven_of_near (scaled_den_pos unit (-e))
    · rw [value]
      linarith [near.low]
    · rw [value]
      exact near.high
    · rw [value]
      rintro (low | high)
      · exact near.ends (.inl (le_antisymm (by linarith) near.low))
      · exact near.ends (.inr high)
  have bound : Binary64.bitsOf m e ≤ 2047 * Binary64.leading := by
    have short := canonical.short
    have greatest := canonical.greatest
    have field : (e + 1074).toNat ≤ 2045 := by omega
    have product := Nat.mul_le_mul_right Binary64.leading field
    unfold Binary64.bitsOf
    split <;> omega
  unfold nearestBits
  rw [if_neg some.ne', same]
  dsimp only
  rw [rounded]
  exact Nat.min_eq_left bound

/-- Below a power of two the last place counts half as much. -/
theorem nearestBits_below_binade (canonical : Binary64.Canonical m e) (some : 0 < num)
    (unit : 0 < den) (near : Near m e (num / den)) (least : -1074 < e)
    (below : (num : ℚ) / den / 2 ^ e < Binary64.leading) :
    nearestBits num den = Binary64.bitsOf m e := by
  have power : (0 : ℚ) < 2 ^ e := by positivity
  have normal : Binary64.leading ≤ m := canonical.normal.resolve_left (by omega)
  obtain rfl : m = Binary64.leading := by
    refine le_antisymm (not_lt.mp fun more => ?_) normal
    have more : (Binary64.leading : ℚ) + 1 ≤ m := by exact_mod_cast more
    linarith [near.low, (reachDown_le m e).2]
  have reach : reachDown Binary64.leading e = 1 / 4 := if_pos ⟨rfl, least⟩
  have low := near.low
  rw [reach] at low
  have place : (2 : ℚ) ^ (e - 1) = 2 ^ e / 2 := by
    rw [zpow_sub_one₀ two_ne_zero, div_eq_mul_inv]
  have exponent : binaryExponent num den = e + 51 := by
    apply binaryExponent_eq some unit
    · have : (2 : ℚ) ^ (51 : ℤ) ≤ num / den / 2 ^ e := by
        rw [leading_cast] at low
        norm_num at low ⊢
        linarith
      rwa [le_div_iff₀ power, ← zpow_add₀ two_ne_zero, add_comm] at this
    · rw [leading_cast, div_lt_iff₀ power, ← zpow_add₀ two_ne_zero] at below
      have whole : e + 51 + 1 = 52 + e := by ring
      rwa [whole]
  have same : max (binaryExponent num den - 52) (-1074) = e - 1 := by omega
  have value := scaled_eq num den (-(e - 1))
  rw [zpow_neg, ← div_eq_mul_inv, place, div_div_eq_mul_div, mul_div_right_comm] at value
  have rounded : roundEven (scaled num den (-(e - 1))).1 (scaled num den (-(e - 1))).2 =
      2 * Binary64.leading := by
    apply roundEven_of_near (scaled_den_pos unit _)
    · rw [value]
      push_cast
      linarith
    · rw [value]
      push_cast
      linarith
    · exact fun _ => Nat.mul_mod_right 2 _
  have greatest := canonical.greatest
  have bits : (e - 1 + 1074).toNat * Binary64.leading + 2 * Binary64.leading =
      Binary64.bitsOf Binary64.leading e := by
    have next : (e + 1074).toNat = (e - 1 + 1074).toNat + 1 := by omega
    rw [Binary64.bitsOf, if_neg (lt_irrefl _), next]
    ring
  have bound : Binary64.bitsOf Binary64.leading e ≤ 2047 * Binary64.leading := by
    have field : (e - 1 + 1074).toNat ≤ 2044 := by omega
    have product := Nat.mul_le_mul_right Binary64.leading field
    omega
  unfold nearestBits
  rw [if_neg some.ne', same]
  dsimp only
  rw [rounded, if_neg (by omega), bits]
  exact Nat.min_eq_left bound

/-- What lies near a double is rounded to it. -/
theorem nearestBits_of_near (canonical : Binary64.Canonical m e) (positive : 0 < m)
    (unit : 0 < den) (near : Near m e (num / den)) :
    nearestBits num den = Binary64.bitsOf m e := by
  have some : 0 < num := by
    have above := near.pos positive
    have den_pos : (0 : ℚ) < den := by exact_mod_cast unit
    exact_mod_cast (div_pos_iff_of_pos_right den_pos).mp above
  rcases canonical.least.eq_or_lt with rfl | least
  · exact nearestBits_of_binade canonical some unit near (.inl rfl)
  · rcases le_or_gt (Binary64.leading : ℚ) (num / den / 2 ^ e) with binade | below
    · exact nearestBits_of_binade canonical some unit near (.inr binade)
    · exact nearestBits_below_binade canonical some unit near least below

namespace Binary64

/-- The double with these fields of bits. -/
def ofFields (negative : Bool) (field fraction : ℕ) : Binary64 :=
  if field = 2047 then if fraction = 0 then infinite negative else nan
  else if field = 0 then finite negative fraction (-1074)
  else finite negative (leading + fraction) ((field : ℤ) - 1075)

theorem of_fields {sign negative : Bool} {field fraction m : ℕ} {e : ℤ}
    (short : fraction < leading) (narrow : field < 2048)
    (finite : ofFields sign field fraction = .finite negative m e) :
    sign = negative ∧ Canonical m e ∧ field * leading + fraction = bitsOf m e := by
  unfold ofFields at finite
  split at finite
  · split at finite <;> cases finite
  · split at finite
    · rename_i zero
      cases finite
      refine ⟨rfl, ⟨by omega, by omega, by omega, .inl rfl⟩, ?_⟩
      rw [bitsOf, if_pos short, zero, Nat.zero_mul, Nat.zero_add]
    · cases finite
      refine ⟨rfl, ⟨by omega, by omega, by omega, .inr (by omega)⟩, ?_⟩
      have row : ((field : ℤ) - 1075 + 1074).toNat + 1 = field := by omega
      rw [bitsOf, if_neg (by omega), ← Nat.add_assoc, ← Nat.succ_mul, Nat.succ_eq_add_one, row]

theorem bits_parts (bits : ℕ) : bits = (bits >>> 63) * (1 <<< 63) +
    ((bits >>> 52) % 2048 * leading + bits % leading) := by
  have low := Nat.div_add_mod bits leading
  have high := Nat.div_add_mod (bits / leading) 2048
  have top : bits >>> 63 = bits / leading / 2048 := by
    rw [Nat.div_div_eq_div_mul, Nat.shiftRight_eq_div_pow]
    rfl
  have row : bits >>> 52 = bits / leading := Nat.shiftRight_eq_div_pow bits 52
  have sign : 1 <<< 63 = 2048 * leading := rfl
  rw [top, row, sign]
  calc bits = leading * (bits / leading) + bits % leading := low.symm
    _ = leading * (2048 * (bits / leading / 2048) + bits / leading % 2048) + bits % leading := by
      rw [high]
    _ = _ := by ring

theorem exists_fields (x : Float) : ∃ sign field fraction, fraction < leading ∧ field < 2048 ∧
    ofFloat x = ofFields sign field fraction ∧ x = Float.ofBits (UInt64.ofNat
      ((if sign then 1 <<< 63 else 0) + (field * leading + fraction))) := by
  have whole : Float.ofBits (UInt64.ofNat x.toBits.toNat) = x := by
    rw [UInt64.ofNat_toNat, Float.ofBits_toBits]
  have sign : x.toBits.toNat >>> 63 < 2 := by
    have small := x.toBits.toNat_lt
    rw [Nat.shiftRight_eq_div_pow]
    omega
  refine ⟨x.toBits.toNat >>> 63 == 1, x.toBits.toNat >>> 52 % 2048, x.toBits.toNat % leading,
    Nat.mod_lt _ (by decide), Nat.mod_lt _ (by decide), rfl, ?_⟩
  have row : (if x.toBits.toNat >>> 63 == 1 then 1 <<< 63 else 0) =
      (x.toBits.toNat >>> 63) * (1 <<< 63) := by
    obtain zero | one : x.toBits.toNat >>> 63 = 0 ∨ x.toBits.toNat >>> 63 = 1 := by omega
    · simp [zero]
    · simp [one]
  rw [row, ← bits_parts, whole]

/-- A double that is finite has a mantissa of the right size, and these bits. -/
theorem of_finite {x : Float} {negative : Bool} {m : ℕ} {e : ℤ}
    (finite : ofFloat x = .finite negative m e) : Canonical m e ∧
      x = Float.ofBits (UInt64.ofNat ((if negative then 1 <<< 63 else 0) + bitsOf m e)) := by
  obtain ⟨sign, field, fraction, short, narrow, same, bits⟩ := exists_fields x
  rw [same] at finite
  obtain ⟨rfl, canonical, whole⟩ := of_fields short narrow finite
  rw [whole] at bits
  exact ⟨canonical, bits⟩

theorem of_infinite {x : Float} {negative : Bool} (infinite : ofFloat x = .infinite negative) :
    x = Float.ofBits (UInt64.ofNat ((if negative then 1 <<< 63 else 0) + 2047 * leading)) := by
  obtain ⟨sign, field, fraction, -, -, same, bits⟩ := exists_fields x
  rw [same] at infinite
  unfold ofFields at infinite
  split at infinite
  · rename_i last
    split at infinite
    · rename_i zero
      cases infinite
      rwa [last, zero, Nat.add_zero] at bits
    · cases infinite
  · split at infinite <;> cases infinite

end Binary64

/-- A fraction near a double, with its sign, is rounded to it. -/
theorem nearest_of_near {x : Float} {negative : Bool}
    (finite : Binary64.ofFloat x = .finite negative m e) (positive : 0 < m) (unit : 0 < den)
    (near : Near m e (num / den)) : nearest negative num den = x := by
  obtain ⟨canonical, bits⟩ := Binary64.of_finite finite
  rw [nearest, nearestBits_of_near canonical positive unit near, bits]

theorem nearest_zero {x : Float} {negative : Bool}
    (finite : Binary64.ofFloat x = .finite negative 0 e) : nearest negative 0 1 = x :=
  (Binary64.of_finite finite).2.symm

end TurtleGraphics.Decimal
