import RoomRelay.Json.Numeral
import RoomRelay.Proofs.Decimal.Digits
import RoomRelay.Proofs.Decimal.Rounding
import RoomRelay.Proofs.Decimal.Width

/-!
The shortest decimal of a double is never beyond the double range for the reader, who rounds twice:
the digits to a double, and this double times a power of ten. Only the digits of the largest double
are beyond it as an exact number, and what is gained there is lost in the first rounding.
-/

namespace RoomRelay.Decimal

open Json Float.Model.UnpackedFloat

/-! ### Powers of ten -/

/-- Halfway between the largest double and the one before it. -/
def lastMidpoint : Nat := (4 * (2 ^ 53 - 2) + 2) * 2 ^ 969

/-- The least double that is not below `10 ^ k`. -/
def powerCeiling (k : Nat) : Ceiling :=
  let places := (10 ^ k).log2 - 52
  ⟨(10 ^ k + 2 ^ places - 1) / 2 ^ places, places⟩

/-- No less than any number of seventeen digits whose product with `10 ^ k` is not beyond the last
midpoint. -/
def factorCeiling (k : Nat) : Ceiling :=
  if k ≤ 291 then ⟨5 ^ 17, 17⟩
  else if k = 292 then ⟨4494232837155789, 2⟩
  else ⟨lastMidpoint / 10 ^ k, 0⟩

/-- These bounds of `10 ^ k` and of its factors are doubles, and their product does not overflow. -/
def PowerFits (k : Nat) : Prop :=
  ((powerCeiling k).mantissa < 2 ^ 53 ∧ 10 ^ k ≤ (powerCeiling k).value ∧
    (powerCeiling k).value ≤ largest.value) ∧
  ((factorCeiling k).mantissa < 2 ^ 53 ∧
    min (10 ^ 17) (lastMidpoint / 10 ^ k) ≤ (factorCeiling k).value ∧
    (factorCeiling k).value ≤ largest.value) ∧
  (factorCeiling k).value * (powerCeiling k).value ≤ largest.value

instance (k : Nat) : Decidable (PowerFits k) :=
  inferInstanceAs (Decidable (_ ∧ _))

theorem powerFits : ∀ k < 309, PowerFits k := by decide +kernel

/-- Whether a float is no more than a bound, computed. -/
def checkAtMost (x : Float) (f : Ceiling) : Bool :=
  match x.toModel.unpack with
  | .finite _ a e _ =>
    2 ^ 52 ≤ a && a < 2 ^ 53 && -104 ≤ e && a * 2 ^ (e + 104).toNat ≤ f.value * 2 ^ 104
  | _ => false

theorem isAtMost_of_check {x : Float} {f : Ceiling} (h : checkAtMost x f = true) :
    IsAtMost x f := by
  unfold checkAtMost at h
  split at h
  · rename_i s a e hpos hunpack
    simp only [Bool.and_eq_true, decide_eq_true_eq] at h
    obtain ⟨⟨⟨hlow, hhigh⟩, hleast⟩, hle⟩ := h
    have hexponent : (((e + 104).toNat : Nat) : Int) - (104 : Nat) = e := by omega
    refine ⟨104, a, (e + 104).toNat, by decide, ⟨hlow, hhigh, s, hpos, ?_⟩, hle⟩
    rw [hexponent]
    exact hunpack
  · cases h

theorem checkAtMost_power :
    ∀ k < 23, checkAtMost (powerOfTen k) (powerCeiling k) = true := by decide +kernel

/-- The powers up to `10 ^ 22` are doubles and come from a table, the others are rounded. -/
theorem isAtMost_power {k : Nat} (h : k < 309) : IsAtMost (powerOfTen k) (powerCeiling k) := by
  rcases Nat.lt_or_ge k 23 with hsmall | hlarge
  · exact isAtMost_of_check (checkAtMost_power k hsmall)
  · obtain ⟨⟨hpower, habove, hmost⟩, -⟩ := powerFits k h
    have hfloat : powerOfTen k = ⟨Float.Model.pack
        (roundWithAccuracy .binary64 .positive (10 ^ k * 2 ^ 53) (-((53 : Nat) : Int))
          .exact)⟩ := by
      have hmodel := model_ofScientific (m := 1) (k := k) (by decide) (by omega)
      rw [Nat.one_mul] at hmodel
      rw [powerOfTen, Float.ofScientific, dif_neg (by omega), ← hmodel]
      rfl
    rw [hfloat]
    have hpos : 0 < 10 ^ k := by positivity
    exact isAtMost_round (by decide) (by omega) hmost hpower habove .positive

theorem exists_scaled_of_isInf {n k : Nat} (h : k < 309)
    (finite : (Float.ofNat n * powerOfTen k).isInf = false) : ∃ x, scaled? n k = some x := by
  refine ⟨Float.ofNat n * powerOfTen k, ?_⟩
  have hpower : (k : Int) ≤ largestPower := by
    simp only [largestPower]
    omega
  simp only [scaled?, if_neg (show ¬ (k : Int) < 0 by omega), if_pos hpower, Int.toNat_natCast,
    finite]
  rfl

/-- A number of seventeen digits in units of a power of ten can be read. -/
theorem exists_scaled {n k : Nat} (pos : 0 < n) (digits : n ≤ 10 ^ 17)
    (most : n * 10 ^ k ≤ lastMidpoint) : ∃ x, scaled? n k = some x := by
  have hk : k < 309 := by
    by_contra hlarge
    have hpow := Nat.pow_le_pow_right (n := 10) (by decide) (Nat.le_of_not_lt hlarge)
    exact absurd (hpow.trans ((Nat.le_mul_of_pos_left _ pos).trans most)) (by decide +kernel)
  obtain ⟨-, ⟨hfactor, hmin, hlargest⟩, hproduct⟩ := powerFits k hk
  have hbelow : n ≤ (factorCeiling k).value :=
    (le_min digits ((Nat.le_div_iff_mul_le (by positivity)).mpr most)).trans hmin
  have hword : n < 2 ^ 64 := Nat.lt_of_le_of_lt digits (by decide)
  exact exists_scaled_of_isInf hk
    ((isAtMost_ofNat pos hword hlargest hfactor hbelow).isInf_mul_eq_false (isAtMost_power hk)
      hproduct)

/-! ### The shortest decimal -/

section

variable {b : Binary}

theorem Binary.onGrid_of_search {lead place : Int} {count more n : Nat}
    (h : b.search lead count more = some (n, place)) : b.onGrid place = some n := by
  induction more generalizing count with
  | zero => cases h
  | succ more ih =>
      simp only [Binary.search] at h
      split at h
      · rename_i m hgrid
        cases h
        exact hgrid
      · exact ih h

theorem Interval.le_high {i : Interval} {num point : Nat} (h : i.holds num point = true) :
    point ≤ i.high * num := by
  unfold Interval.holds at h
  split at h
  · simp only [Bool.and_eq_true, decide_eq_true_eq] at h
    exact h.2
  · simp only [Bool.and_eq_true, decide_eq_true_eq] at h
    exact h.2.le

/-- A neighbour of the double is no more than the upper end of its interval. -/
theorem Binary.onGrid_high {place : Int} {n : Nat} (h : b.onGrid place = some n) :
    0 < n ∧ n * (2 ^ (-(b.exponent - 2)).toNat * 10 ^ place.toNat) ≤
      (4 * b.mantissa + 2) * (2 ^ (b.exponent - 2).toNat * 10 ^ (-place).toNat) := by
  have hnum : (Ratio.scaled 1 (b.exponent - 2) (-place)).num =
      2 ^ (b.exponent - 2).toNat * 10 ^ (-place).toNat := by
    rw [Ratio.num_scaled, Nat.one_mul]
  have hden : (Ratio.scaled 1 (b.exponent - 2) (-place)).den =
      2 ^ (-(b.exponent - 2)).toNat * 10 ^ place.toNat := by
    rw [Ratio.scaled, Int.neg_neg]
    rfl
  rw [← hnum, ← hden]
  unfold Binary.onGrid at h
  extract_lets i unit target below above hasBelow hasAbove gap at h
  have hbelow : hasBelow = true → 0 < below ∧ below * unit.den ≤ i.high * unit.num := by
    intro hhas
    simp only [hasBelow, Bool.and_eq_true, decide_eq_true_eq] at hhas
    exact ⟨hhas.1, Interval.le_high hhas.2⟩
  have habove : hasAbove = true → 0 < above ∧ above * unit.den ≤ i.high * unit.num :=
    fun hhas => ⟨Nat.succ_pos below, Interval.le_high hhas⟩
  split_ifs at h with hboth hgap hbelow' habove'
  · exact Option.some.inj h ▸ hbelow (Bool.and_eq_true_iff.mp hboth).1
  · exact Option.some.inj h ▸ habove (Bool.and_eq_true_iff.mp hboth).2
  · exact Option.some.inj h ▸ hbelow hbelow'
  · exact Option.some.inj h ▸ habove habove'

/-- The upper end of the interval of a double that is not the largest. -/
theorem Binary.high_le (mantissa : b.mantissa < 2 ^ 53) (exponent : b.exponent ≤ 971)
    (other : b ≠ ⟨2 ^ 53 - 1, 971⟩) :
    (4 * b.mantissa + 2) * 2 ^ (b.exponent - 2).toNat ≤ lastMidpoint := by
  rcases Int.lt_or_le b.exponent 971 with hsmall | hlarge
  · calc
      (4 * b.mantissa + 2) * 2 ^ (b.exponent - 2).toNat
        ≤ (4 * (2 ^ 53 - 1) + 2) * 2 ^ 968 :=
          Nat.mul_le_mul (by omega) (Nat.pow_le_pow_right (by decide) (by omega))
      _ ≤ lastMidpoint := by decide +kernel
  · have hexponent : b.exponent = 971 := Int.le_antisymm exponent hlarge
    have hne : b.mantissa ≠ 2 ^ 53 - 1 := by
      intro hmantissa
      exact other (by rw [← hexponent, ← hmantissa])
    have hplaces : (971 - 2 : Int).toNat = 969 := rfl
    rw [hexponent, hplaces, lastMidpoint]
    exact Nat.mul_le_mul_right _ (by omega)

/-- The digits of a decimal, and that they can be read in their place. -/
structure Scientific.IsReadable (s : Scientific) : Prop where
  digits : AreDigits s.digits
  nonempty : s.digits ≠ []
  leading : s.digits.head? ≠ some 0
  short : s.digits.length ≤ 18
  scaled : ∃ x, scaled? (ofDigits s.digits) s.lastPlace = some x

theorem exists_scaled_of_neg {n : Nat} {e : Int} (h : e < 0) : ∃ x, scaled? n e = some x :=
  ⟨_, if_pos h⟩

theorem Binary.isReadable_largest : (⟨2 ^ 53 - 1, 971⟩ : Binary).shortest.IsReadable := by
  have hshortest : (⟨2 ^ 53 - 1, 971⟩ : Binary).shortest =
      ⟨[1, 7, 9, 7, 6, 9, 3, 1, 3, 4, 8, 6, 2, 3, 1, 5, 7], 308⟩ := by decide +kernel
  rw [hshortest]
  refine ⟨by decide, by decide, by decide, by decide, ?_⟩
  exact exists_scaled_of_isInf (n := 17976931348623157) (k := 292) (by decide) (by decide +kernel)

/-- A double whose shortest decimal was found is read from it. -/
theorem Binary.isReadable_shortest (mantissa : b.mantissa < 2 ^ 53) (exponent : b.exponent ≤ 971) :
    b.shortest = ⟨[], 0⟩ ∨ b.shortest.IsReadable := by
  by_cases hlargest : b = ⟨2 ^ 53 - 1, 971⟩
  · rw [hlargest]
    exact .inr isReadable_largest
  have hshort := (isShort_shortest mantissa exponent).digits
  rw [Binary.shortest] at hshort ⊢
  rcases hsearch : b.search b.leadingPlace 1 17 with _ | ⟨n, place⟩
  · exact .inl rfl
  rw [hsearch] at hshort
  obtain ⟨used, -, hlast, hgrid, -⟩ := b.search_le rfl hsearch
  obtain ⟨hpos, hhigh⟩ := onGrid_high (onGrid_of_search hsearch)
  obtain ⟨zeros, hvalue, hdigits, hnonempty, hleading, hplace⟩ :=
    Scientific.isOf_ofGrid hpos place
  refine .inr ⟨hdigits, hnonempty, hleading, hshort, ?_⟩
  change ∃ x, scaled? (ofDigits (Scientific.ofGrid n place).digits)
    (Scientific.ofGrid n place).lastPlace = some x
  generalize ofDigits (Scientific.ofGrid n place).digits = d at hvalue
  rcases Int.lt_or_le (Scientific.ofGrid n place).lastPlace 0 with hneg | hnonneg
  · exact exists_scaled_of_neg hneg
  obtain ⟨k, hk⟩ := Int.eq_ofNat_of_zero_le hnonneg
  have hd : 0 < d := Nat.pos_of_mul_pos_right (hvalue ▸ hpos)
  have hfew : d ≤ 10 ^ 17 := by
    calc
      d ≤ d * 10 ^ zeros := Nat.le_mul_of_pos_right d (by positivity)
      _ = n := hvalue
      _ ≤ 10 ^ used := hgrid
      _ ≤ 10 ^ 17 := Nat.pow_le_pow_right (by decide) (by omega)
  have hsplit : 10 ^ k * 10 ^ (-place).toNat = 10 ^ zeros * 10 ^ place.toNat := by
    rw [← Nat.pow_add, ← Nat.pow_add]
    congr 1
    omega
  have hmost : d * 10 ^ k ≤ lastMidpoint := by
    apply Nat.le_of_mul_le_mul_right (c := 10 ^ (-place).toNat) _ (by positivity)
    calc
      d * 10 ^ k * 10 ^ (-place).toNat = n * 10 ^ place.toNat := by
        rw [Nat.mul_assoc, hsplit, ← hvalue, Nat.mul_assoc]
      _ ≤ n * (2 ^ (-(b.exponent - 2)).toNat * 10 ^ place.toNat) :=
        Nat.mul_le_mul_left n (Nat.le_mul_of_pos_left _ (by positivity))
      _ ≤ (4 * b.mantissa + 2) * (2 ^ (b.exponent - 2).toNat * 10 ^ (-place).toNat) := hhigh
      _ ≤ lastMidpoint * 10 ^ (-place).toNat := by
        rw [← Nat.mul_assoc]
        exact Nat.mul_le_mul_right _ (high_le mantissa exponent hlargest)
  rw [hk]
  exact exists_scaled hd hfew hmost

end

end RoomRelay.Decimal
