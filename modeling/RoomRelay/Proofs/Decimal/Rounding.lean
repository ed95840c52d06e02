import Mathlib.Data.Nat.Log
import Mathlib.Tactic.Positivity
import Mathlib.Tactic.Ring

/-!
How far the operations on doubles may go. A double is seen here as `mantissa * 2 ^ exponent`. The
nearest double never goes beyond a double that the exact number was not beyond, so that a product
does not overflow as long as the product of two bounds is no more than the largest double.
-/

namespace RoomRelay.Decimal

open Float.Model Float.Model.UnpackedFloat

/-! ### Rounding -/

/-- A mantissa after that many places are shifted out of it, together with what is known of them. -/
def shifted (m n : Nat) : ExtendedMantissa :=
  ExtendedMantissa.ofMantissaAndAccuracy m .exact >>> n

theorem shifted_succ (m n : Nat) : shifted m (n + 1) = (shifted m n).shiftRightOne := rfl

theorem mantissa_shifted (m n : Nat) : (shifted m n).mantissa = m / 2 ^ n := by
  induction n with
  | zero => exact (Nat.div_one m).symm
  | succ n ih =>
      rw [shifted_succ, ExtendedMantissa.shiftRightOne, ih, Nat.div_div_eq_div_mul, Nat.pow_succ]

theorem shifted_mul (q n : Nat) : shifted (q * 2 ^ n) n = ⟨q, false, false⟩ := by
  induction n generalizing q with
  | zero => rw [Nat.pow_zero, Nat.mul_one]; rfl
  | succ n ih =>
      have hq : q * 2 ^ (n + 1) = q * 2 * 2 ^ n := by ring
      rw [shifted_succ, hq, ih, ExtendedMantissa.shiftRightOne]
      simp

theorem roundedMantissa_le (em : ExtendedMantissa) : em.roundedMantissa ≤ em.mantissa + 1 := by
  obtain ⟨m, roundBit, stickyBit⟩ := em
  cases roundBit <;> cases stickyBit <;>
    simp only [ExtendedMantissa.roundedMantissa, ExtendedMantissa.accuracy,
      Accuracy.roundToNearestEven] <;> omega

theorem le_roundedMantissa (em : ExtendedMantissa) : em.mantissa ≤ em.roundedMantissa := by
  obtain ⟨m, roundBit, stickyBit⟩ := em
  cases roundBit <;> cases stickyBit <;>
    simp only [ExtendedMantissa.roundedMantissa, ExtendedMantissa.accuracy,
      Accuracy.roundToNearestEven] <;> omega

theorem roundedMantissa_shifted_le {m n c : Nat} (h : m ≤ c * 2 ^ n) :
    (shifted m n).roundedMantissa ≤ c := by
  rcases Nat.lt_or_ge m (c * 2 ^ n) with hlt | hge
  · have hquotient : m / 2 ^ n < c := (Nat.div_lt_iff_lt_mul (by positivity)).mpr hlt
    have hround := roundedMantissa_le (shifted m n)
    rw [mantissa_shifted] at hround
    omega
  · rw [Nat.le_antisymm h hge, shifted_mul]
    exact Nat.le_refl c

/-- A double keeps 53 places, unless it is too small for that. -/
theorem targetExponent_eq (m : Nat) (e : Int) :
    Format.binary64.targetExponent (totalExponent m e) = max (totalExponent m e - 53) (-1074) := rfl

theorem finite_congr {s : Sign} {m n : Nat} {e k : Int} {pos : 0 < m} {pos' : 0 < n}
    (mantissa : m = n) (exponent : e = k) :
    UnpackedFloat.finite s m e pos = .finite s n k pos' := by
  subst mantissa exponent
  rfl

theorem shiftToTargetExponent_eq {m : Nat} {e : Int} (large : 2 ^ 52 ≤ m) (least : -1074 ≤ e) :
    shiftToTargetExponent .binary64 m e .exact =
      (shifted m (m.log2 - 52), e + ((m.log2 - 52 : Nat) : Int)) := by
  have hlog : 52 ≤ m.log2 := (Nat.le_log2 (by omega)).mpr large
  have htarget : Format.binary64.targetExponent (totalExponent m e) =
      e + ((m.log2 - 52 : Nat) : Int) := by
    rw [targetExponent_eq, totalExponent]
    omega
  have hshift : (e + ((m.log2 - 52 : Nat) : Int) - e).toNat = m.log2 - 52 := by omega
  simp only [shiftToTargetExponent, htarget, shiftToExponent, hshift]
  rfl

/-- The mantissa is shifted again after it is rounded, for it may have one more place then. -/
theorem roundWithAccuracy_eq {m r n : Nat} {e k k' : Int} {em em' : ExtendedMantissa}
    (first : shiftToTargetExponent .binary64 m e .exact = (em, k))
    (rounded : em.roundedMantissa = r)
    (second : shiftToTargetExponent .binary64 r k .exact = (em', k'))
    (mantissa : em'.mantissa = n) (pos : 0 < n) (s : Sign) :
    roundWithAccuracy .binary64 s m e .exact = .finite s n k' pos := by
  subst rounded mantissa
  rw [roundWithAccuracy, first]
  dsimp only
  rw [second]
  exact dif_neg (Nat.ne_of_gt pos)

/-- Rounding gives a normal double, and it does not go beyond a double that was not below. -/
theorem exists_rounded {m : Nat} {e : Int} (large : 2 ^ 52 ≤ m) (least : -1074 ≤ e) (s : Sign) :
    ∃ (n k : Nat) (h : 0 < n),
      roundWithAccuracy .binary64 s m e .exact = .finite s n (e + k) h ∧
      2 ^ 52 ≤ n ∧ n < 2 ^ 53 ∧
      ∀ c t : Nat, c < 2 ^ 53 → m ≤ c * 2 ^ t → n * 2 ^ k ≤ c * 2 ^ t := by
  have hm : m ≠ 0 := by omega
  have hlog : 52 ≤ m.log2 := (Nat.le_log2 hm).mpr large
  obtain ⟨k, hk⟩ : ∃ k, m.log2 = 52 + k := ⟨m.log2 - 52, by omega⟩
  have hfirst := shiftToTargetExponent_eq large least
  rw [hk, Nat.add_sub_cancel_left] at hfirst
  have hlow : 2 ^ 52 * 2 ^ k ≤ m := by
    rw [← Nat.pow_add, ← hk]
    exact Nat.log2_self_le hm
  have hhigh : m ≤ 2 ^ 53 * 2 ^ k := by
    have hlt := Nat.lt_log2_self (n := m)
    rw [← Nat.pow_add]
    rw [hk] at hlt
    exact Nat.le_of_lt (by rwa [show 53 + k = 52 + k + 1 by omega])
  have hbelow : 2 ^ 52 ≤ (shifted m k).roundedMantissa := by
    refine Nat.le_trans ?_ (le_roundedMantissa _)
    rw [mantissa_shifted]
    exact (Nat.le_div_iff_mul_le (by positivity)).mpr hlow
  have habove : (shifted m k).roundedMantissa ≤ 2 ^ 53 := roundedMantissa_shifted_le hhigh
  -- A double between `m` and its rounding would have to be finer than all doubles of that size.
  have hbound (c t : Nat) (hc : c < 2 ^ 53) (hle : m ≤ c * 2 ^ t) :
      (shifted m k).roundedMantissa * 2 ^ k ≤ c * 2 ^ t := by
    have hkt : k ≤ t := by
      by_contra hlt
      have hpow : 2 ^ t * 2 ≤ 2 ^ k := by
        rw [← Nat.pow_succ]
        exact Nat.pow_le_pow_right (by decide) (by omega)
      have hcontra : c * 2 ^ t < 2 ^ 53 * 2 ^ t := Nat.mul_lt_mul_of_pos_right hc (by positivity)
      omega
    obtain ⟨d, rfl⟩ := Nat.exists_eq_add_of_le hkt
    have hsplit : c * 2 ^ (k + d) = c * 2 ^ d * 2 ^ k := by ring
    rw [hsplit] at hle ⊢
    exact Nat.mul_le_mul_right _ (roundedMantissa_shifted_le hle)
  have hleast : -1074 ≤ e + (k : Int) := by omega
  generalize hr : (shifted m k).roundedMantissa = r at *
  have hsecond := shiftToTargetExponent_eq hbelow hleast
  rcases Nat.lt_or_ge r (2 ^ 53) with hlt | hge
  · have hlogr : r.log2 = 52 := (Nat.log2_eq_iff (by omega)).mpr ⟨hbelow, hlt⟩
    rw [hlogr, Nat.sub_self, Int.natCast_zero, Int.add_zero] at hsecond
    have hmantissa : (shifted r 0).mantissa = r := rfl
    exact ⟨r, k, by omega, roundWithAccuracy_eq hfirst hr hsecond hmantissa _ s, hbelow,
      hlt, hbound⟩
  · obtain rfl : r = 2 ^ 53 := Nat.le_antisymm habove hge
    refine ⟨2 ^ 52, k + 1, by decide, ?_, by decide, by decide, ?_⟩
    · have hlogr : (2 ^ 53 : Nat).log2 = 53 := Nat.log2_two_pow
      have hmantissa : (shifted (2 ^ 53) (53 - 52)).mantissa = 2 ^ 52 := by
        rw [mantissa_shifted]
        decide
      rw [hlogr] at hsecond
      rw [roundWithAccuracy_eq hfirst hr hsecond hmantissa (by decide) s]
      exact finite_congr rfl (by omega)
    · intro c t hc hle
      have hsplit : 2 ^ 52 * 2 ^ (k + 1) = 2 ^ 53 * 2 ^ k := by ring
      rw [hsplit]
      exact hbound c t hc hle

/-! ### Doubles -/

theorem sign_packComponents (s : Sign) (exponent : BitVec 11) (mantissa : BitVec 52) :
    unpackSign (packComponents .binary64 s exponent mantissa) = s.toBitVec := by
  change (s.toBitVec ++ exponent ++ mantissa).extractLsb' 63 1 = s.toBitVec
  rw [BitVec.extractLsb'_append_eq_of_le (by decide),
    BitVec.extractLsb'_append_eq_of_le (by decide)]
  cases s <;> rfl

theorem pack_finite (s : Sign) {n : Nat} (e : Int) (pos : 0 < n) :
    UnpackedFloat.pack .binary64 (.finite s n e pos) =
      if 2048 ≤ (e + 1023 + 52).toNat + 1 then packedInfinity .binary64 s
      else if n.log2 + 1 = 53 then
        packComponents .binary64 s (.ofNat 11 (e + 1023 + 52).toNat) (.ofNat 52 n)
      else packComponents .binary64 s 0#11 (.ofNat 52 n) := rfl

theorem exists_unpack {b : BitVec 64} {s : BitVec 1} {x : BitVec 11} {m : BitVec 52}
    (sign : @unpackSign .binary64 b = s) (exponent : @unpackExponent .binary64 b = x)
    (mantissa : @unpackMantissa .binary64 b = m) (finite : x ≠ -1#11) (normal : x ≠ 0#11) :
    ∃ pos, UnpackedFloat.unpack .binary64 b =
      .finite (.ofBitVec s) (1#1 ++ m).toNat (x.toNat - ((1023 : Nat) + (52 : Nat) : Int)) pos := by
  subst sign exponent mantissa
  exact ⟨_, (if_neg finite).trans (if_neg normal)⟩

/-- A normal double is kept as it is. -/
theorem unpack_pack_normal {n : Nat} {e : Int} {s : Sign} (pos : 0 < n) (low : 2 ^ 52 ≤ n)
    (high : n < 2 ^ 53) (least : -1074 ≤ e) (most : e ≤ 971) :
    (Float.Model.pack (.finite s n e pos)).unpack = .finite s n e pos := by
  have hlog : n.log2 = 52 := (Nat.log2_eq_iff (by omega)).mpr ⟨low, high⟩
  obtain ⟨x, hx, hxpos, hxlt⟩ : ∃ x : Nat, (e + 1023 + 52).toNat = x ∧ 0 < x ∧ x < 2047 :=
    ⟨_, rfl, by omega, by omega⟩
  have hexponent : (BitVec.ofNat 11 x).toNat = x := by
    rw [BitVec.toNat_ofNat]
    omega
  have hpacked : UnpackedFloat.pack .binary64 (.finite s n e pos) =
      packComponents .binary64 s (.ofNat 11 x) (.ofNat 52 n) := by
    rw [pack_finite, hx, hlog, if_neg (by omega), if_pos rfl]
  have hall : BitVec.ofNat 11 x ≠ -1#11 := by
    intro h
    have hnat := congrArg BitVec.toNat h
    rw [hexponent] at hnat
    change x = 2047 at hnat
    omega
  have hnone : BitVec.ofNat 11 x ≠ 0#11 := by
    intro h
    have hnat := congrArg BitVec.toNat h
    rw [hexponent] at hnat
    change x = 0 at hnat
    omega
  have hmantissa : (1#1 ++ BitVec.ofNat 52 n).toNat = n := by
    rw [BitVec.toNat_append, BitVec.toNat_ofNat, Nat.shiftLeft_eq]
    change 2 ^ 52 ||| n % 2 ^ 52 = n
    rw [Nat.or_comm, Nat.or_two_pow_eq_add_of_lt (Nat.mod_lt n (by decide))]
    omega
  have hsign : Sign.ofBitVec s.toBitVec = s := by cases s <;> rfl
  obtain ⟨pos', hunpack⟩ := exists_unpack (sign_packComponents s (.ofNat 11 x) (.ofNat 52 n))
    unpackExponent_packComponents unpackMantissa_packComponents hall hnone
  change UnpackedFloat.unpack .binary64 (UnpackedFloat.pack .binary64 (.finite s n e pos)) = _
  rw [hpacked, hunpack, hsign]
  exact finite_congr hmantissa (by omega)

/-- The float is `mantissa * 2 ^ exponent` or its negative, and a normal double. -/
structure IsNormal (x : Float) (mantissa : Nat) (exponent : Int) : Prop where
  low : 2 ^ 52 ≤ mantissa
  high : mantissa < 2 ^ 53
  unpack : ∃ (s : Sign) (pos : 0 < mantissa), x.toModel.unpack = .finite s mantissa exponent pos

theorem IsNormal.isInf_eq_false {x : Float} {mantissa : Nat} {exponent : Int}
    (h : IsNormal x mantissa exponent) : x.isInf = false := by
  obtain ⟨s, pos, hunpack⟩ := h.unpack
  change x.toModel.unpack.isInf = false
  rw [hunpack]
  rfl

/-- What is not beyond the largest double is rounded to a double. -/
theorem isNormal_round {m t : Nat} {e : Int} (large : 2 ^ 52 ≤ m) (least : -1074 ≤ e)
    (top : e + t = 971) (small : m ≤ (2 ^ 53 - 1) * 2 ^ t) (s : Sign) :
    ∃ n k : Nat,
      IsNormal ⟨Float.Model.pack (roundWithAccuracy .binary64 s m e .exact)⟩ n (e + k) ∧
      ∀ c u : Nat, c < 2 ^ 53 → m ≤ c * 2 ^ u → n * 2 ^ k ≤ c * 2 ^ u := by
  obtain ⟨n, k, hpos, heq, hlow, hhigh, hbound⟩ := exists_rounded large least s
  have hle := hbound _ _ (by decide) small
  have hexponent : e + k ≤ 971 := by
    by_contra hlt
    have hpow : 2 ^ t * 2 ≤ 2 ^ k := by
      rw [← Nat.pow_succ]
      exact Nat.pow_le_pow_right (by decide) (by omega)
    have hbig : 2 ^ 52 * (2 ^ t * 2) ≤ n * 2 ^ k := Nat.mul_le_mul hlow hpow
    have hpos : 0 < 2 ^ t := by positivity
    omega
  refine ⟨n, k, ⟨hlow, hhigh, s, hpos, ?_⟩, hbound⟩
  rw [heq]
  exact unpack_pack_normal hpos hlow hhigh (by omega) hexponent

/-- Nothing is lost of a mantissa that needs no rounding. -/
theorem round_normal {m : Nat} {e : Int} (low : 2 ^ 52 ≤ m) (high : m < 2 ^ 53)
    (least : -1074 ≤ e) (s : Sign) :
    roundWithAccuracy .binary64 s m e .exact = .finite s m e (by omega) := by
  have hlog : m.log2 = 52 := (Nat.log2_eq_iff (by omega)).mpr ⟨low, high⟩
  have hshift := shiftToTargetExponent_eq low least
  rw [hlog, Nat.sub_self, Int.natCast_zero, Int.add_zero] at hshift
  have hrounded : (shifted m 0).roundedMantissa = m := rfl
  have hmantissa : (shifted m 0).mantissa = m := rfl
  exact roundWithAccuracy_eq hshift hrounded hshift hmantissa _ s

theorem mul_finite (s s' : Sign) {m n : Nat} (e k : Int) (pos : 0 < m) (pos' : 0 < n) :
    UnpackedFloat.mul .binary64 (.finite s m e pos) (.finite s' n k pos') =
      roundWithAccuracy .binary64 (s * s') (m * n) (e + k) .exact := rfl

/-! ### Upper bounds -/

/-- A bound `mantissa * 2 ^ places`, which is a double if the mantissa is that of one. -/
structure Ceiling where
  mantissa : Nat
  places : Nat

def Ceiling.value (f : Ceiling) : Nat :=
  f.mantissa * 2 ^ f.places

/-- The largest double, `2 ^ 1024` less the last of its 53 places. -/
def largest : Ceiling := ⟨2 ^ 53 - 1, 971⟩

theorem largest_value : largest.value = (2 ^ 53 - 1) * 2 ^ 971 := by rw [Ceiling.value, largest]

/-- The float is positive, and no more than what these say. -/
def IsAtMost (x : Float) (f : Ceiling) : Prop :=
  ∃ q a p : Nat, q ≤ 104 ∧ IsNormal x a ((p : Int) - q) ∧ a * 2 ^ p ≤ f.value * 2 ^ q

/-- A number that is rounded stays below every double that it was below. It may have been written
with more places than it has. -/
theorem isAtMost_round {n q : Nat} {f : Ceiling} (places : q ≤ 104) (large : 2 ^ 52 ≤ n * 2 ^ q)
    (most : f.value ≤ largest.value) (double : f.mantissa < 2 ^ 53) (below : n ≤ f.value)
    (s : Sign) :
    IsAtMost ⟨Float.Model.pack
      (roundWithAccuracy .binary64 s (n * 2 ^ q) (-(q : Int)) .exact)⟩ f := by
  have hsmall : n * 2 ^ q ≤ (2 ^ 53 - 1) * 2 ^ (971 + q) := by
    calc
      n * 2 ^ q ≤ largest.value * 2 ^ q := Nat.mul_le_mul_right (2 ^ q) (below.trans most)
      _ = (2 ^ 53 - 1) * 2 ^ (971 + q) := by rw [largest_value, Nat.mul_assoc, ← Nat.pow_add]
  obtain ⟨a, p, hnormal, hbound⟩ :=
    isNormal_round (e := -(q : Int)) (t := 971 + q) large (by omega) (by omega) hsmall s
  rw [Int.add_comm, ← Int.sub_eq_add_neg] at hnormal
  refine ⟨q, a, p, places, hnormal, ?_⟩
  have hle : n * 2 ^ q ≤ f.mantissa * 2 ^ (f.places + q) := by
    rw [Nat.pow_add, ← Nat.mul_assoc]
    exact Nat.mul_le_mul_right _ below
  rw [Ceiling.value, Nat.mul_assoc, ← Nat.pow_add]
  exact hbound _ _ double hle

/-- A product of floats is no more than the product of their bounds, and so a double if that is. -/
theorem IsAtMost.isInf_mul_eq_false {x y : Float} {f g : Ceiling} (hx : IsAtMost x f)
    (hy : IsAtMost y g) (most : f.value * g.value ≤ largest.value) : (x * y).isInf = false := by
  obtain ⟨q, a, p, hq, ⟨halow, -, s, hapos, haunpack⟩, ha⟩ := hx
  obtain ⟨r, b, j, hr, ⟨hblow, -, s', hbpos, hbunpack⟩, hb⟩ := hy
  have hmul : a * b * 2 ^ (p + j) ≤ (2 ^ 53 - 1) * 2 ^ (971 + (q + r)) := by
    calc
      a * b * 2 ^ (p + j) = a * 2 ^ p * (b * 2 ^ j) := by rw [Nat.pow_add]; ac_rfl
      _ ≤ f.value * 2 ^ q * (g.value * 2 ^ r) := Nat.mul_le_mul ha hb
      _ = f.value * g.value * 2 ^ (q + r) := by rw [Nat.pow_add]; ac_rfl
      _ ≤ largest.value * 2 ^ (q + r) := Nat.mul_le_mul_right _ most
      _ = (2 ^ 53 - 1) * 2 ^ (971 + (q + r)) := by
        rw [largest_value, Nat.mul_assoc, ← Nat.pow_add]
  have hlarge : 2 ^ 52 * 2 ^ 52 ≤ a * b := Nat.mul_le_mul halow hblow
  have hplaces : p + j ≤ 971 + (q + r) := by
    by_contra hlt
    have hpow : 2 ^ (971 + (q + r)) ≤ 2 ^ (p + j) := Nat.pow_le_pow_right (by decide) (by omega)
    have hcancel := Nat.le_of_mul_le_mul_right ((Nat.mul_le_mul hlarge hpow).trans hmul)
      (by positivity)
    exact absurd hcancel (by decide)
  obtain ⟨t, ht⟩ := Nat.exists_eq_add_of_le hplaces
  have hsmall : a * b ≤ (2 ^ 53 - 1) * 2 ^ t := by
    have hsplit : 2 ^ (971 + (q + r)) = 2 ^ t * 2 ^ (p + j) := by
      rw [ht, Nat.add_comm, Nat.pow_add 2 t]
    rw [hsplit, ← Nat.mul_assoc] at hmul
    exact Nat.le_of_mul_le_mul_right hmul (by positivity)
  obtain ⟨n, k, hnormal, -⟩ := isNormal_round (m := a * b) (t := t)
    (e := (p : Int) - q + ((j : Int) - r)) (by omega) (by omega) (by omega) hsmall (s * s')
  have hproduct : x * y = ⟨Float.Model.pack (roundWithAccuracy .binary64 (s * s') (a * b)
      ((p : Int) - q + ((j : Int) - r)) .exact)⟩ := by
    change Float.ofModel (Float.Model.pack (UnpackedFloat.mul .binary64
      x.toModel.unpack y.toModel.unpack)) = _
    rw [haunpack, hbunpack, mul_finite]
  rw [hproduct]
  exact hnormal.isInf_eq_false

/-! ### Whole numbers -/

theorem exists_places {n : Nat} (pos : 0 < n) (short : n < 2 ^ 53) :
    ∃ q ≤ 52, n.log2 + q = 52 ∧ 2 ^ 52 ≤ n * 2 ^ q ∧ n * 2 ^ q < 2 ^ 53 := by
  have hlog : n.log2 < 53 := (Nat.log2_lt (by omega)).mpr short
  obtain ⟨q, hq⟩ := Nat.exists_eq_add_of_le (Nat.le_of_lt_succ hlog)
  refine ⟨q, by omega, hq.symm, ?_, ?_⟩
  · calc
      2 ^ 52 = 2 ^ n.log2 * 2 ^ q := by rw [← Nat.pow_add, ← hq]
      _ ≤ n * 2 ^ q := Nat.mul_le_mul_right _ (Nat.log2_self_le (by omega))
  · calc
      n * 2 ^ q < 2 ^ (n.log2 + 1) * 2 ^ q :=
        Nat.mul_lt_mul_of_pos_right Nat.lt_log2_self (by positivity)
      _ = 2 ^ (52 + 1) := by rw [← Nat.pow_add, hq]; congr 1; omega

theorem unpack_ofUInt64 {n q : Nat} (small : n < 2 ^ 64) (places : n.log2 + q = 52)
    (low : 2 ^ 52 ≤ n * 2 ^ q) (high : n * 2 ^ q < 2 ^ 53) :
    n.toUInt64.toFloat.toModel.unpack = .finite .positive (n * 2 ^ q) (-(q : Int)) (by omega) := by
  have hword : n.toUInt64.toNat = n := by
    rw [Nat.toUInt64, UInt64.toNat_ofNat', Nat.mod_eq_of_lt small]
  have htarget : Format.binary64.targetExponent (totalExponent n 0) = -(q : Int) := by
    rw [targetExponent_eq, totalExponent]
    omega
  have hpos : 0 < n := Nat.pos_of_mul_pos_right (Nat.lt_of_lt_of_le (by decide) low)
  have hcompare : compare (n : Int) 0 = .gt := Int.compare_eq_gt.mpr (by omega)
  have hshift : (0 - -(q : Int)).toNat = q := by omega
  have hround : UnpackedFloat.ofNat .binary64 n =
      roundWithAccuracy .binary64 .positive (n * 2 ^ q) (-(q : Int)) .exact := by
    simp only [UnpackedFloat.ofNat, UnpackedFloat.ofInt, UnpackedFloat.normalize, hcompare,
      UnpackedFloat.round, Int.toNat_natCast, htarget, decreaseExponent, hshift]
    rw [Nat.shiftLeft_eq, Int.zero_sub]
  change (Float.Model.pack (UnpackedFloat.ofNat .binary64 n.toUInt64.toNat)).unpack = _
  rw [hword, hround, round_normal low high (by omega)]
  exact unpack_pack_normal _ low high (by omega) (by omega)

theorem model_ofScientific {m k : Nat} (pos : 0 < m) (few : k ≤ 2048) :
    Float.Model.ofScientific m k = Float.Model.pack (roundWithAccuracy .binary64 .positive
      (m * 10 ^ k * 2 ^ 53) (-((53 : Nat) : Int)) .exact) := by
  have hmost : ¬ ((k : Int) > 2 ^ Format.binary64.exponentBits) := by
    change ¬ ((k : Int) > 2048)
    omega
  have hleast : ¬ ((k : Int) < -(2 ^ Format.binary64.exponentBits + (m.log2 : Int))) := by
    change ¬ ((k : Int) < -(2048 + (m.log2 : Int)))
    omega
  have hmantissa : m <<< Format.binary64.mantissaBits * 10 ^ (k : Int).toNat =
      m * 10 ^ k * 2 ^ 53 := by
    rw [Nat.shiftLeft_eq, Int.toNat_natCast]
    exact Nat.mul_right_comm m _ _
  rw [Float.Model.ofScientific, UnpackedFloat.ofScientific, dif_neg (by omega), if_neg hmost,
    if_neg hleast, if_pos (by omega), mul_finite, hmantissa]
  rfl

theorem unpack_one : (Float.exactlyRepresentablePowersOfTen[0]).toModel.unpack =
    .finite .positive (2 ^ 52) (-52) (by decide) := by rfl

theorem isAtMost_ofNat {n : Nat} {f : Ceiling} (pos : 0 < n) (small : n < 2 ^ 64)
    (most : f.value ≤ largest.value) (double : f.mantissa < 2 ^ 53) (below : n ≤ f.value) :
    IsAtMost (Float.ofNat n) f := by
  change IsAtMost (Float.ofScientific n false 0) f
  rcases Nat.lt_or_ge n (2 ^ 53) with hshort | hlong
  · obtain ⟨q, hq, hplaces, hlow, hhigh⟩ := exists_places pos hshort
    have hfloat : Float.ofScientific n false 0 = ⟨Float.Model.pack
        (roundWithAccuracy .binary64 .positive (n * 2 ^ (q + 52)) (-((q + 52 : Nat) : Int))
          .exact)⟩ := by
      have hexponent : -(q : Int) + -52 = -((q + 52 : Nat) : Int) := by omega
      rw [Float.ofScientific, dif_pos ⟨hshort, by decide⟩]
      change Float.ofModel (Float.Model.pack (UnpackedFloat.mul .binary64
        (n.toUInt64.toFloat).toModel.unpack _)) = _
      rw [unpack_ofUInt64 small hplaces hlow hhigh, unpack_one, mul_finite, hexponent,
        Nat.pow_add, ← Nat.mul_assoc]
      rfl
    rw [hfloat]
    refine isAtMost_round (by omega) ?_ most double below .positive
    rw [Nat.pow_add, ← Nat.mul_assoc]
    omega
  · have hfloat : Float.ofScientific n false 0 = ⟨Float.Model.pack
        (roundWithAccuracy .binary64 .positive (n * 2 ^ 53) (-((53 : Nat) : Int)) .exact)⟩ := by
      have hmodel := model_ofScientific (k := 0) pos (by decide)
      rw [Nat.pow_zero, Nat.mul_one] at hmodel
      rw [Float.ofScientific, dif_neg (by omega), ← hmodel]
      rfl
    rw [hfloat]
    exact isAtMost_round (by decide) (by omega) most double below .positive

end RoomRelay.Decimal
