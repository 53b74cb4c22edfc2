import TurtleGraphics.Decimal.Layout
import TurtleGraphics.Proofs.Decimal.Reader
import TurtleGraphics.Proofs.Decimal.Shortest

/-!
A finite double is read back from its text in any layout. The text stands for the shortest digits,
and what stands for a decimal near the double is rounded to the double.
-/

namespace TurtleGraphics.Decimal

open Token (AllDigits)

theorem valueOf_eq (ds : List Char) : valueOf ds = Nat.ofDigitChars 10 ds 0 :=
  Nat.ofDigitChars_eq_foldl.symm

theorem valueOf_append (ds es : List Char) :
    valueOf (ds ++ es) = 10 ^ es.length * valueOf ds + valueOf es := by
  rw [valueOf_eq, valueOf_eq, valueOf_eq, Nat.ofDigitChars_append,
    Nat.ofDigitChars_eq_ofDigitChars_zero]

theorem valueOf_zeros (n : ℕ) : valueOf (zeros n) = 0 := by
  rw [valueOf_eq, zeros, Nat.ofDigitChars_replicate_zero, Nat.mul_zero]

theorem valueOf_digitsOf (n : ℕ) : valueOf (digitsOf n) = n := by
  rw [valueOf_eq, digitsOf, Nat.ofDigitChars_ten_toDigits]

theorem allDigits_digitsOf (n : ℕ) : AllDigits (digitsOf n) := fun _ =>
  Nat.isDigit_of_mem_toDigits (by decide) (by decide)

theorem allDigits_zeros (n : ℕ) : AllDigits (zeros n) := fun _ member => by
  rw [List.eq_of_mem_replicate member]
  rfl

theorem toList_toString (n : ℕ) : (toString n).toList = digitsOf n := by
  rw [Nat.toString_eq_ofList_toDigits, String.toList_ofList, digitsOf]

theorem digitsOf_ne_nil (n : ℕ) : digitsOf n ≠ [] :=
  Nat.toDigits_ne_nil

section Denotes

/-- The characters start with a digit, and are read as a whole number and a power of ten whose
product is the value. -/
def Denotes (cs : List Char) (q : ℚ) : Prop :=
  (∃ c ∈ cs.head?, c.isDigit = true) ∧ ∃ n e, scientific? cs = some (n, e) ∧ (n : ℚ) * 10 ^ e = q

variable {ds es x : List Char} {k : ℤ}

theorem head?_digits (some : ds ≠ []) (digits : AllDigits ds) (rest : List Char) :
    ∃ c ∈ (ds ++ rest).head?, c.isDigit = true := by
  obtain ⟨c, ds, rfl⟩ := List.exists_cons_of_ne_nil some
  exact ⟨c, rfl, digits c List.mem_cons_self⟩

theorem denotes_whole (some : ds ≠ []) (digits : AllDigits ds) (exponent : exponent? x = .some k) :
    Denotes (ds ++ x) (valueOf ds * 10 ^ k) := by
  have shape : Exponent x := exponent?_isSome_iff.mp (by rw [exponent]; rfl)
  obtain ⟨stops, pointless⟩ := shape.stops
  obtain ⟨whole, rest⟩ := Text.span_append digits stops
  refine ⟨head?_digits some digits x, valueOf ds, k, ?_, rfl⟩
  simp [scientific?, whole, rest, some, exponent]

theorem denotes_point (some : ds ≠ []) (digits : AllDigits ds) (places : AllDigits es)
    (exponent : exponent? x = .some k) :
    Denotes (ds ++ '.' :: (es ++ x)) (valueOf (ds ++ es) * 10 ^ (k - es.length)) := by
  have shape : Exponent x := exponent?_isSome_iff.mp (by rw [exponent]; rfl)
  have dot : ∀ c ∈ ('.' :: (es ++ x)).head?, c.isDigit = false := by simp
  obtain ⟨whole, rest⟩ := Text.span_append digits dot
  obtain ⟨after, others⟩ := Text.span_append places shape.stops.1
  refine ⟨head?_digits some digits _, valueOf (ds ++ es), k - es.length, ?_, rfl⟩
  simp [scientific?, whole, rest, after, others, some, exponent]

theorem exponent?_written (k : ℤ) :
    exponent? ('e' :: (if k < 0 then '-' else '+') :: digitsOf k.natAbs) = some k := by
  have digits :
      (decide (digitsOf k.natAbs ≠ []) && (digitsOf k.natAbs).all Char.isDigit) = true := by
    rw [Bool.and_eq_true, decide_eq_true_iff, List.all_eq_true]
    exact ⟨digitsOf_ne_nil _, allDigits_digitsOf _⟩
  by_cases negative : k < 0
  · have parts : signed ('-' :: digitsOf k.natAbs) = (true, digitsOf k.natAbs) := rfl
    simp only [exponent?, beq_self_eq_true, Bool.true_or, if_true, if_pos negative, parts, digits,
      valueOf_digitsOf]
    congr 1
    omega
  · have parts : signed ('+' :: digitsOf k.natAbs) = (false, digitsOf k.natAbs) := rfl
    simp only [exponent?, beq_self_eq_true, Bool.true_or, if_true, if_neg negative, parts, digits,
      valueOf_digitsOf, Bool.false_eq_true, if_false]
    congr 1
    omega

theorem denotes_placed (tenths : Bool) (x : Digits) : Denotes (placed tenths x) x.value := by
  obtain ⟨n, exponent⟩ := x
  have some := digitsOf_ne_nil n
  have digits := allDigits_digitsOf n
  cases exponent with
  | ofNat e =>
    have filled : digitsOf n ++ zeros e ≠ [] := by simp [some]
    have whole : AllDigits (digitsOf n ++ zeros e) := digits.append (allDigits_zeros e)
    have value : valueOf (digitsOf n ++ zeros e) = 10 ^ e * n := by
      rw [valueOf_append, valueOf_digitsOf, valueOf_zeros, zeros, List.length_replicate,
        Nat.add_zero]
    cases tenths with
    | false =>
      have reads := denotes_whole (x := []) filled whole rfl
      have same : Digits.value ⟨n, .ofNat e⟩ = (10 ^ e * n : ℕ) * 10 ^ (0 : ℤ) := by
        simp [Digits.value, mul_comm]
      rwa [value, ← same] at reads
    | true =>
      have reads := denotes_point (x := []) filled whole (allDigits_zeros 1) rfl
      have same : Digits.value ⟨n, .ofNat e⟩ =
          (10 ^ 1 * (10 ^ e * n) + 0 : ℕ) * 10 ^ (0 - 1 : ℤ) := by
        simp [Digits.value]
        ring
      rw [valueOf_append, value, valueOf_zeros] at reads
      exact same ▸ reads
  | negSucc e =>
    have whole := valueOf_digitsOf n
    unfold placed
    dsimp only
    generalize digitsOf n = ds at some digits whole
    split
    · rename_i short
      have parts := List.take_append_drop (ds.length - (e + 1)) ds
      have first : ds.take (ds.length - (e + 1)) ≠ [] := by
        rw [Ne, List.take_eq_nil_iff]
        simp only [some, or_false]
        omega
      have before : AllDigits (ds.take (ds.length - (e + 1))) := fun c member =>
        digits c (List.mem_of_mem_take member)
      have after : AllDigits (ds.drop (ds.length - (e + 1))) := fun c member =>
        digits c (List.mem_of_mem_drop member)
      have reads := denotes_point (x := []) first before after rfl
      have places : (0 : ℤ) - (ds.drop (ds.length - (e + 1))).length = Int.negSucc e := by
        rw [List.length_drop]
        omega
      rwa [List.append_nil, parts, whole, places] at reads
    · rename_i long
      have zero : AllDigits ['0'] := allDigits_zeros 1
      have after : AllDigits (zeros (e + 1 - ds.length) ++ ds) := (allDigits_zeros _).append digits
      have reads := denotes_point (x := []) (List.cons_ne_nil '0' []) zero after rfl
      have places : (0 : ℤ) - (zeros (e + 1 - ds.length) ++ ds).length = Int.negSucc e := by
        rw [List.length_append, zeros, List.length_replicate]
        omega
      have value : valueOf (['0'] ++ (zeros (e + 1 - ds.length) ++ ds)) = n := by
        have zero : valueOf ['0'] = 0 := rfl
        rw [valueOf_append, valueOf_append, valueOf_zeros, whole, zero]
        simp
      rwa [List.append_nil, value, places] at reads

theorem denotes_scientific (x : Digits) : Denotes (scientific x) x.value := by
  obtain ⟨n, exponent⟩ := x
  have some := digitsOf_ne_nil n
  have digits := allDigits_digitsOf n
  have value := valueOf_digitsOf n
  unfold scientific Digits.value
  dsimp only
  generalize digitsOf n = ds at some digits value
  have ends := exponent?_written (exponent + (ds.length - 1 : ℕ))
  rw [← value]
  match ds with
  | [] => exact absurd rfl some
  | [d] =>
    have reads := denotes_whole some digits ends
    have last : exponent + (([d].length - 1 : ℕ) : ℤ) = exponent := by simp
    rwa [last] at reads ⊢
  | d :: c :: ds =>
    obtain ⟨first, others⟩ := List.forall_mem_cons.mp digits
    have reads := denotes_point (List.cons_ne_nil d []) (by simpa [AllDigits] using first) others
      ends
    have last : exponent + (((d :: c :: ds).length - 1 : ℕ) : ℤ) - (c :: ds).length = exponent := by
      simp
    rwa [last] at reads

end Denotes

theorem ten_pow_length_digitsOf {n : ℕ} (positive : 0 < n) :
    10 ^ ((digitsOf n).length - 1) ≤ n ∧ n < 10 ^ (digitsOf n).length := by
  have some : 0 < (digitsOf n).length := List.length_pos_iff.mpr (digitsOf_ne_nil n)
  constructor
  · rcases Nat.eq_zero_or_pos ((digitsOf n).length - 1) with none | more
    · rw [none]
      exact positive
    · refine not_lt.mp fun less => ?_
      have short := (Nat.length_toDigits_le_iff (by decide) more).mpr less
      unfold digitsOf at some short
      omega
  · exact (Nat.length_toDigits_le_iff (by decide) some).mp (le_refl _)

variable {m n : ℕ} {e k : ℤ}

theorem two_pow_lt_ten_pow : 2 ^ 1075 < 10 ^ 330 ∧ 2 ^ 1024 < 10 ^ 309 := by
  decide +kernel

/-- What lies near a double is neither too small nor too great to be read. -/
theorem size_of_near (canonical : Binary64.Canonical m e) (positive : 0 < m)
    (near : Near m e (n * 10 ^ k)) :
    0 < n ∧ -330 < k + (digitsOf n).length ∧ k + (digitsOf n).length ≤ 320 := by
  have decimal : (0 : ℚ) < 10 ^ k := by positivity
  have some : 0 < n := by
    have above := (mul_pos_iff_of_pos_right decimal).mp (near.pos positive)
    exact_mod_cast above
  obtain ⟨low, high⟩ := ten_pow_length_digitsOf some
  have length : 0 < (digitsOf n).length := List.length_pos_iff.mpr (digitsOf_ne_nil n)
  obtain ⟨least, greatest⟩ := two_pow_lt_ten_pow
  refine ⟨some, ?_, ?_⟩
  · have least : (10 : ℚ) ^ (-330 : ℤ) < 2 ^ (-1075 : ℤ) := by
      rw [zpow_neg, zpow_neg, inv_lt_inv₀ (by positivity) (by positivity)]
      exact_mod_cast least
    have less : (10 : ℚ) ^ (-330 : ℤ) < 10 ^ (k + (digitsOf n).length) := by
      calc (10 : ℚ) ^ (-330 : ℤ) < 2 ^ (-1075 : ℤ) := least
        _ ≤ 2 ^ (e - 1) := zpow_le_zpow_right₀ (by norm_num) (by linarith [canonical.least])
        _ ≤ n * 10 ^ k := near.ge positive
        _ < 10 ^ ((digitsOf n).length : ℤ) * 10 ^ k :=
          mul_lt_mul_of_pos_right (by exact_mod_cast high) decimal
        _ = 10 ^ (k + (digitsOf n).length) := by rw [← zpow_add₀ (by norm_num), add_comm]
    exact (zpow_lt_zpow_iff_right₀ (by norm_num)).mp less
  · have less : (10 : ℚ) ^ (k + ((digitsOf n).length - 1 : ℕ)) < 10 ^ (309 : ℤ) := by
      calc (10 : ℚ) ^ (k + ((digitsOf n).length - 1 : ℕ))
          = 10 ^ (((digitsOf n).length - 1 : ℕ) : ℤ) * 10 ^ k := by
            rw [← zpow_add₀ (by norm_num), add_comm]
        _ ≤ n * 10 ^ k := mul_le_mul_of_nonneg_right (by exact_mod_cast low) decimal.le
        _ < 2 ^ (e + 53) := near.lt canonical
        _ ≤ 2 ^ (1024 : ℤ) := zpow_le_zpow_right₀ (by norm_num) (by linarith [canonical.greatest])
        _ < 10 ^ (309 : ℤ) := by exact_mod_cast greatest
    have bound := (zpow_lt_zpow_iff_right₀ (by norm_num)).mp less
    omega

theorem scale_of_near {x : Float} {negative : Bool}
    (finite : Binary64.ofFloat x = .finite negative m e) (positive : 0 < m)
    (near : Near m e (n * 10 ^ k)) : scale negative n k = x := by
  obtain ⟨some, small, large⟩ := size_of_near (Binary64.of_finite finite).1 positive near
  rw [digitsOf] at small large
  have least : (decide (n = 0) || decide (k + (Nat.toDigits 10 n).length < -330)) = false := by
    simp only [Bool.or_eq_false_iff, decide_eq_false_iff_not]
    omega
  unfold scale
  dsimp only
  rw [least, if_neg Bool.false_ne_true, if_neg (by omega)]
  cases k with
  | ofNat s =>
    apply nearest_of_near finite positive Nat.one_pos
    rw [Int.ofNat_eq_natCast, zpow_natCast] at near
    push_cast [Nat.pow_eq]
    rwa [div_one]
  | negSucc s =>
    apply nearest_of_near finite positive (Nat.pow_pos (by decide))
    rw [zpow_negSucc, ← div_eq_mul_inv] at near
    push_cast [Nat.pow_eq]
    exact near

theorem toLower_digit {c : Char} (digit : c.isDigit = true) : c.toLower = c := by
  grind [Char.toLower, Char.isDigit]

/-- Neither a sign nor a word begins with a digit. -/
theorem read?_of_denotes {cs : List Char} {q : ℚ} (negative : Bool) (denotes : Denotes cs q) :
    ∃ (n : ℕ) (k : ℤ), n * 10 ^ k = q ∧
      read? (String.ofList ((if negative then ['-'] else []) ++ cs)) =
        some (scale negative n k) := by
  obtain ⟨⟨c, first, digit⟩, n, k, parts, value⟩ := denotes
  refine ⟨n, k, value, ?_⟩
  have sign : signed ((if negative then ['-'] else []) ++ cs) = (negative, cs) := by
    cases negative with
    | true => rfl
    | false =>
      change signed cs = (false, cs)
      unfold signed
      split
      · obtain rfl : '-' = c := Option.some.inj first
        exact absurd digit (by decide)
      · obtain rfl : '+' = c := Option.some.inj first
        exact absurd digit (by decide)
      · rfl
  have wordless : words.lookup (String.ofList (cs.map Char.toLower)) = none := by
    rw [← Option.not_isSome_iff_eq_none, lookup_words_isSome]
    intro word
    have letters := List.mem_map_of_mem (f := String.toList) word
    have each : ∀ w ∈ ["inf", "infinity", "nan"].map String.toList,
        w.head?.any Char.isDigit = false := by
      decide
    have other := each _ letters
    rw [String.toList_ofList, List.head?_map, first] at other
    simp [toLower_digit digit, digit] at other
  simp only [read?, String.toList_ofList, sign, wordless, parts, Option.map_some]

theorem denotes_write (l : Layout) (negative : Bool) (y : Digits) : ∃ cs,
    l.write negative y = (if negative then ['-'] else []) ++ cs ∧ Denotes cs y.value := by
  refine ⟨_, rfl, ?_⟩
  split
  · exact denotes_placed l.tenths y
  · exact denotes_scientific y

/-- A finite double is read back from its text. -/
theorem read?_render (l : Layout) {x : Float} {negative : Bool}
    (finite : Binary64.ofFloat x = .finite negative m e) : read? (l.render x) = some x := by
  have canonical := (Binary64.of_finite finite).1
  unfold Layout.render
  rw [finite]
  dsimp only
  generalize digits : (if m = 0 then (⟨0, 0⟩ : Digits) else shortest l.tie m e) = y
  obtain ⟨cs, text, denotes⟩ := denotes_write l negative y
  obtain ⟨n, k, value, read⟩ := read?_of_denotes negative denotes
  rw [text, read]
  split at digits
  · rename_i zero
    subst zero digits
    have none : (n : ℚ) = 0 := by
      have decimal : (10 : ℚ) ^ k ≠ 0 := by positivity
      simpa [Digits.value, decimal] using value
    obtain rfl : n = 0 := by exact_mod_cast none
    unfold scale
    simp only [decide_true, Bool.true_or, if_true]
    exact congrArg some (nearest_zero finite)
  · rename_i other
    have positive : 0 < m := Nat.pos_of_ne_zero other
    have near := shortest_near canonical positive l.tie
    rw [digits, ← value] at near
    rw [scale_of_near finite positive near]

end TurtleGraphics.Decimal
