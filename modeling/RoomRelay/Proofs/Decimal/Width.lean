import Mathlib.Data.Nat.Digits.Defs
import Mathlib.Tactic.Positivity
import Mathlib.Tactic.Ring
import RoomRelay.Proofs.Decimal.Alphabet

/-!
How long the text of a double may be. The grids that are tried have up to seventeen digits, so a
double has no more than eighteen digits, and an exponent of no more than three.
-/

namespace RoomRelay.Decimal

theorem lt_pow_length_toDigits (n : Nat) : n < 10 ^ (Nat.toDigits 10 n).length := by
  induction n using Nat.strongRecOn with
  | ind n ih =>
      rcases Nat.lt_or_ge n 10 with hsmall | hlarge
      · rw [Nat.toDigits_of_lt_base hsmall]
        exact hsmall
      · have hrest := ih (n / 10) (by omega)
        rw [Nat.toDigits_of_base_le (by decide) hlarge, List.length_append, List.length_singleton,
          Nat.pow_succ]
        omega

/-- Four bits take less than two digits. -/
theorem two_pow_lt {m e j k s t : Nat} (mantissa : m < 2 ^ s) (exponent : e ≤ t)
    (bits : s + t = 4 * k) : m * 2 ^ e * 10 ^ j < 10 ^ (2 * k + j) := by
  have hbinary : m * 2 ^ e < 10 ^ (2 * k) := by
    calc
      m * 2 ^ e ≤ m * 2 ^ t := Nat.mul_le_mul_left m (Nat.pow_le_pow_right (by decide) exponent)
      _ < 2 ^ s * 2 ^ t := Nat.mul_lt_mul_of_pos_right mantissa (by positivity)
      _ = (2 ^ 4) ^ k := by rw [← Nat.pow_add, bits, Nat.pow_mul]
      _ ≤ (10 ^ 2) ^ k := Nat.pow_le_pow_left (by decide) k
      _ = 10 ^ (2 * k) := (Nat.pow_mul 10 2 k).symm
  rw [Nat.pow_add]
  exact Nat.mul_lt_mul_of_pos_right hbinary (by positivity)

theorem Ratio.num_scaled (factor : Nat) (two ten : Int) :
    (Ratio.scaled factor two ten).num = factor * 2 ^ two.toNat * 10 ^ ten.toNat := rfl

/-! ### The leading digit -/

section

variable (b : Binary)

/-- What the leading place is computed from: the double, made so large that it has digits. -/
def Binary.enlarged : Nat :=
  (Ratio.scaled b.mantissa b.exponent 400).num / (Ratio.scaled b.mantissa b.exponent 400).den

theorem Binary.leadingPlace_eq :
    b.leadingPlace = (Nat.toDigits 10 b.enlarged).length - 401 := rfl

/-- The double is less than the power of ten above its leading place, both sides made whole. -/
theorem Binary.lt_leadingPlace :
    b.mantissa * 2 ^ b.exponent.toNat * 10 ^ (400 : Int).toNat <
      10 ^ (b.leadingPlace + 401).toNat * 2 ^ (-b.exponent).toNat := by
  have hlength : (b.leadingPlace + 401).toNat = (Nat.toDigits 10 b.enlarged).length := by
    rw [b.leadingPlace_eq]
    omega
  have hden : (Ratio.scaled b.mantissa b.exponent 400).den = 2 ^ (-b.exponent).toNat :=
    Nat.mul_one _
  have hpos : 0 < (Ratio.scaled b.mantissa b.exponent 400).den := hden ▸ Nat.two_pow_pos _
  rw [hlength, ← Ratio.num_scaled, ← hden]
  exact (Nat.div_lt_iff_lt_mul hpos).mp (lt_pow_length_toDigits b.enlarged)

theorem Binary.leadingPlace_ge : -400 ≤ b.leadingPlace := by
  have hpos : 0 < (Nat.toDigits 10 b.enlarged).length :=
    List.length_pos_of_ne_nil Nat.toDigits_ne_nil
  rw [b.leadingPlace_eq]
  omega

/-- A finite double is less than `10 ^ 512`. -/
theorem Binary.leadingPlace_le (mantissa : b.mantissa < 2 ^ 53) (exponent : b.exponent ≤ 971) :
    b.leadingPlace < 512 := by
  have hnum := two_pow_lt (j := (400 : Int).toNat) (k := 256) mantissa
    (Int.toNat_le.mpr exponent) rfl
  rw [← Ratio.num_scaled] at hnum
  have hlength := Nat.toDigits_length 10 b.enlarged _ (by decide)
    (Nat.lt_of_le_of_lt (Nat.div_le_self _ _) hnum)
  rw [b.leadingPlace_eq]
  omega

/-- Less than `10 ^ l` is less than `10 ^ n` units, where `10 ^ n` units are `10 ^ l`. -/
theorem target_lt {m k d e f g p q l n : Nat} (binary : 2 + f + d = g + e)
    (decimal : p + l = q + n + k) (h : m * 2 ^ e * 10 ^ k < 10 ^ l * 2 ^ d) :
    4 * m * (2 ^ f * 10 ^ p) < 10 ^ n * (2 ^ g * 10 ^ q) := by
  have hbinary : 4 * 2 ^ f * 2 ^ d = 2 ^ g * 2 ^ e := by
    rw [← Nat.pow_add, ← binary, Nat.pow_add, Nat.pow_add]
  have hdecimal : 10 ^ p * 10 ^ l = 10 ^ q * 10 ^ n * 10 ^ k := by
    rw [← Nat.pow_add, decimal, Nat.pow_add, Nat.pow_add]
  apply Nat.lt_of_mul_lt_mul_right (a := 10 ^ k * 2 ^ d)
  calc
    4 * m * (2 ^ f * 10 ^ p) * (10 ^ k * 2 ^ d)
      = m * 10 ^ k * 10 ^ p * (4 * 2 ^ f * 2 ^ d) := by ring
    _ = m * 2 ^ e * 10 ^ k * (2 ^ g * 10 ^ p) := by
      rw [hbinary]
      ring
    _ < 10 ^ l * 2 ^ d * (2 ^ g * 10 ^ p) := Nat.mul_lt_mul_of_pos_right h (by positivity)
    _ = 2 ^ d * 2 ^ g * (10 ^ p * 10 ^ l) := by ring
    _ = 10 ^ n * (2 ^ g * 10 ^ q) * (10 ^ k * 2 ^ d) := by
      rw [hdecimal]
      ring

/-- On the grid of the first digits of a double, its neighbours have no more than those digits, but
for the power of ten that follows. -/
theorem Binary.onGrid_le {count n : Nat}
    (h : b.onGrid (b.leadingPlace - count + 1) = some n) : n ≤ 10 ^ count := by
  have hge := b.leadingPlace_ge
  let unit := Ratio.scaled 1 (b.exponent - 2) (-(b.leadingPlace - count + 1))
  have hden : 0 < unit.den := Nat.mul_pos (Nat.two_pow_pos _) (Nat.pow_pos (by decide))
  have htarget : 4 * b.mantissa * unit.num < 10 ^ count * unit.den := by
    have hlt := target_lt (f := (b.exponent - 2).toNat) (g := (-(b.exponent - 2)).toNat)
      (p := (-(b.leadingPlace - count + 1)).toNat) (q := (- -(b.leadingPlace - count + 1)).toNat)
      (n := count) (by omega) (by omega) b.lt_leadingPlace
    rw [Ratio.num_scaled, Nat.one_mul]
    exact hlt
  have hbelow : 4 * b.mantissa * unit.num / unit.den < 10 ^ count :=
    (Nat.div_lt_iff_lt_mul hden).mpr htarget
  have hcases : n = 4 * b.mantissa * unit.num / unit.den ∨
      n = 4 * b.mantissa * unit.num / unit.den + 1 := by
    unfold Binary.onGrid at h
    extract_lets at h
    split_ifs at h
    · exact Or.inl (Option.some.inj h).symm
    · exact Or.inr (Option.some.inj h).symm
    · exact Or.inl (Option.some.inj h).symm
    · exact Or.inr (Option.some.inj h).symm
  omega

/-- A hit of the search is on one of the grids that were tried. -/
theorem Binary.search_le {lead place : Int} {count more n : Nat}
    (lead_eq : lead = b.leadingPlace) (h : b.search lead count more = some (n, place)) :
    ∃ used, count ≤ used ∧ used < count + more ∧ n ≤ 10 ^ used ∧ place = lead - used + 1 := by
  induction more generalizing count with
  | zero => cases h
  | succ more ih =>
      simp only [Binary.search] at h
      split at h
      · rename_i m hgrid
        cases h
        subst lead_eq
        exact ⟨count, Nat.le_refl _, by omega, b.onGrid_le hgrid, rfl⟩
      · obtain ⟨used, hfirst, hlast, hused⟩ := ih h
        exact ⟨used, by omega, by omega, hused⟩

end

/-! ### Digits and exponents -/

/-- At most eighteen digits, and an exponent of at most three. -/
structure Scientific.IsShort (s : Scientific) : Prop where
  digits : s.digits.length ≤ 18
  exponent : s.exponent.natAbs < 1000

theorem Scientific.isShort_ofGrid {n : Nat} {place : Int} (digits : n < 10 ^ 18)
    (least : -500 ≤ place) (most : place < 512) : (Scientific.ofGrid n place).IsShort := by
  have hlength : (digitValues n).length ≤ 18 := by
    rw [digitValues, List.length_map]
    exact Nat.toDigits_length 10 n 18 (by decide) digits
  constructor
  · have hdrop := ((digitValues n).reverse.dropWhile_sublist (· == 0)).length_le
    simp only [Scientific.ofGrid, List.length_reverse] at hdrop ⊢
    omega
  · simp only [Scientific.ofGrid]
    omega

theorem Binary.isShort_shortest {b : Binary} (mantissa : b.mantissa < 2 ^ 53)
    (exponent : b.exponent ≤ 971) : b.shortest.IsShort := by
  have hleast := b.leadingPlace_ge
  have hmost := b.leadingPlace_le mantissa exponent
  rw [Binary.shortest]
  rcases hsearch : b.search b.leadingPlace 1 17 with _ | ⟨n, place⟩
  · exact ⟨by decide, by decide⟩
  · obtain ⟨used, hfirst, hlast, hgrid, hplace⟩ := b.search_le rfl hsearch
    apply Scientific.isShort_ofGrid
    · calc
        n ≤ 10 ^ used := hgrid
        _ ≤ 10 ^ 17 := Nat.pow_le_pow_right (by decide) (by omega)
        _ < 10 ^ 18 := by decide
    · omega
    · omega

theorem Binary.ofBits_bounds {bits : UInt64} {b : Binary} (h : Binary.ofBits bits = some b) :
    b.mantissa < 2 ^ 53 ∧ b.exponent ≤ 971 := by
  unfold Binary.ofBits at h
  extract_lets fraction biased at h
  have hfraction : fraction < 2 ^ 52 := Nat.mod_lt _ (by decide)
  have hbiased : biased < 2 ^ 11 := Nat.mod_lt _ (by decide)
  split at h
  · cases h
  · split at h
    · cases h
      exact ⟨Nat.lt_trans hfraction (by decide), Int.negSucc_le_zero 1073 |>.trans (by decide)⟩
    · cases h
      constructor
      · simp only [Nat.pow_eq]
        omega
      · simp only
        omega

/-! ### Text -/

/-- Every character takes one byte. -/
def IsAscii (cs : List Char) : Prop :=
  ∀ c ∈ cs, c.utf8Size = 1

@[simp]
theorem isAscii_nil : IsAscii [] := by simp [IsAscii]

@[simp]
theorem isAscii_cons {c : Char} {cs : List Char} :
    IsAscii (c :: cs) ↔ c.utf8Size = 1 ∧ IsAscii cs := by
  simp [IsAscii]

theorem utf8Size_of_mem_alphabet {c : Char} (h : c ∈ alphabet) : c.utf8Size = 1 := by
  have hall : alphabet.all (fun c => decide (c.utf8Size = 1)) = true := by decide
  exact of_decide_eq_true (List.all_eq_true.mp hall c h)

theorem isAscii_of_subset {cs : List Char} (h : cs ⊆ alphabet) : IsAscii cs :=
  fun _ hc => utf8Size_of_mem_alphabet (h hc)

/-- Text of at most so many characters, each of one byte. -/
structure Fits (n : Nat) (cs : List Char) : Prop where
  length : cs.length ≤ n
  ascii : IsAscii cs

theorem Scientific.length_plain {s : Scientific} (short : s.IsShort) (least : -5 ≤ s.exponent)
    (most : s.exponent ≤ 15) : s.plain.length ≤ 24 := by
  have hdigits := short.digits
  unfold Scientific.plain
  split
  · simp [digitChars]
    omega
  · extract_lets before whole fraction
    have hfraction : (if fraction.isEmpty then ['0'] else fraction).length ≤
        max 1 (s.digits.length - before) := by
      split <;> simp [fraction, digitChars]
    simp only [List.length_append, List.length_cons, List.length_replicate, whole, digitChars,
      List.length_map, List.length_take]
    omega

theorem Scientific.length_withExponent {s : Scientific} (short : s.IsShort) :
    s.withExponent.length ≤ 24 := by
  have hdigits := short.digits
  have hexponent := Nat.toDigits_length 10 s.exponent.natAbs 3 (by decide) short.exponent
  have hrepr : (toString s.exponent.natAbs).toList = Nat.toDigits 10 s.exponent.natAbs :=
    Nat.toList_repr
  unfold Scientific.withExponent
  rw [hrepr]
  extract_lets mantissa sign
  have hmantissa : mantissa.length ≤ 19 := by
    simp only [mantissa]
    split
    · decide
    · simp [digitChars]
    · rename_i d rest hne heq
      rw [heq, List.length_cons] at hdigits
      simp only [digitChars, List.length_append, List.length_cons, List.length_map,
        List.length_nil]
      omega
  simp only [List.length_append, List.length_cons]
  omega

/-- The text of a double. -/
theorem Layout.fits_writeDouble? {l : Layout} (lowest : -5 ≤ l.lowest) (highest : l.highest ≤ 15)
    {x : Float} {cs : List Char} (h : l.writeDouble? x = some cs) : Fits 25 cs := by
  obtain ⟨b, hbits, hcs⟩ := Option.bind_eq_some_iff.mp h
  obtain ⟨hmantissa, hexponent⟩ := Binary.ofBits_bounds hbits
  have hshort := Binary.isShort_shortest hmantissa hexponent
  have hbody : (if b.mantissa = 0 then ['0', '.', '0'] else l.write b.shortest).length ≤ 24 := by
    split
    · decide
    · unfold Layout.write
      split
      · rename_i hplain
        exact Scientific.length_plain hshort (by omega) (by omega)
      · exact Scientific.length_withExponent hshort
  have hsign : (if x.toBits.toNat / Nat.pow 2 63 = 1 then ['-'] else []).length ≤ 1 := by
    split <;> decide
  refine ⟨?_, isAscii_of_subset (writeDouble?_subset h)⟩
  cases hcs
  rw [List.length_append]
  omega

end RoomRelay.Decimal
