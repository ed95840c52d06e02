import Mathlib.Data.List.DropRight
import Mathlib.Tactic.Ring
import RoomRelay.Decimal.Layout
import RoomRelay.Proofs.Json.Reading

/-!
The digits of a decimal and the number they stand for. A decimal that was found on a grid keeps the
digits of that grid's number up to the zeros at their end, which its last place makes good.
-/

namespace RoomRelay.Decimal

open Json

/-- Every element is one digit. -/
def AreDigits (ds : List Nat) : Prop :=
  ∀ d ∈ ds, d < 10

instance (ds : List Nat) : Decidable (AreDigits ds) :=
  inferInstanceAs (Decidable (∀ d ∈ ds, d < 10))

theorem AreDigits.append {ds es : List Nat} (h : AreDigits ds) (h' : AreDigits es) :
    AreDigits (ds ++ es) :=
  fun d hd => (List.mem_append.mp hd).elim (h d) (h' d)

theorem AreDigits.of_append {ds es : List Nat} (h : AreDigits (ds ++ es)) :
    AreDigits ds ∧ AreDigits es :=
  ⟨fun d hd => h d (List.mem_append_left es hd), fun d hd => h d (List.mem_append_right ds hd)⟩

theorem areDigits_zeros (n : Nat) : AreDigits (List.replicate n 0) :=
  fun d hd => (List.eq_of_mem_replicate hd).symm ▸ by decide

theorem ofDigits_append (ds es : List Nat) :
    ofDigits (ds ++ es) = ofDigits ds * 10 ^ es.length + ofDigits es := by
  induction es using List.reverseRecOn with
  | nil => simp [ofDigits]
  | append_singleton es e ih =>
      rw [← List.append_assoc, ofDigits_append_singleton, ih, ofDigits_append_singleton,
        List.length_append, List.length_singleton, Nat.pow_succ]
      ring

theorem ofDigits_zeros (n : Nat) : ofDigits (List.replicate n 0) = 0 := by
  induction n with
  | zero => rfl
  | succ n ih => rw [List.replicate_succ', ofDigits_append_singleton, ih]

theorem ofDigits_lt {ds : List Nat} (h : AreDigits ds) : ofDigits ds < 10 ^ ds.length := by
  induction ds using List.reverseRecOn with
  | nil => decide
  | append_singleton ds d ih =>
      have hrest := ih h.of_append.1
      have hlast : d < 10 := h.of_append.2 d List.mem_cons_self
      rw [ofDigits_append_singleton, List.length_append, List.length_singleton, Nat.pow_succ]
      omega

/-! ### The digits of a number -/

theorem digitChar_toNat {d : Nat} (h : d < 10) : (Nat.digitChar d).toNat - '0'.toNat = d := by
  revert d
  decide

theorem digitValues_of_lt {n : Nat} (h : n < 10) : digitValues n = [n] := by
  rw [digitValues, Nat.toDigits_of_lt_base h, List.map_singleton, digitChar_toNat h]

theorem digitValues_of_le {n : Nat} (h : 10 ≤ n) :
    digitValues n = digitValues (n / 10) ++ [n % 10] := by
  rw [digitValues, Nat.toDigits_of_base_le (by decide) h, List.map_append, List.map_singleton,
    digitChar_toNat (Nat.mod_lt n (by decide))]
  rfl

/-- These are the digits of the number, the first of them not zero unless the number is. -/
structure IsNotation (ds : List Nat) (n : Nat) : Prop where
  value : ofDigits ds = n
  digits : AreDigits ds
  nonempty : ds ≠ []
  leading : 0 < n → ds.head? ≠ some 0

theorem isNotation_digitValues (n : Nat) : IsNotation (digitValues n) n := by
  induction n using Nat.strongRecOn with
  | ind n ih =>
      rcases Nat.lt_or_ge n 10 with hsmall | hlarge
      · rw [digitValues_of_lt hsmall]
        refine ⟨by simp [ofDigits], by simpa [AreDigits] using hsmall, by simp, fun hpos => ?_⟩
        rw [List.head?_cons, ne_eq, Option.some.injEq]
        omega
      · obtain ⟨hvalue, hdigits, hnonempty, hleading⟩ := ih (n / 10) (by omega)
        have hlast : AreDigits [n % 10] := by simp [AreDigits, Nat.mod_lt]
        rw [digitValues_of_le hlarge]
        refine ⟨?_, hdigits.append hlast, by simp, fun _ => ?_⟩
        · rw [ofDigits_append_singleton, hvalue]
          omega
        · rw [List.head?_append_of_ne_nil _ hnonempty]
          exact hleading (by omega)

/-! ### Decimals -/

/-- The place of the last digit. -/
def Scientific.lastPlace (s : Scientific) : Int :=
  s.exponent - s.digits.length + 1

/-- The decimal is `n` units of `10 ^ place`, with that many zeros less at its end. -/
structure Scientific.IsOf (s : Scientific) (n : Nat) (place : Int) (zeros : Nat) : Prop where
  value : ofDigits s.digits * 10 ^ zeros = n
  digits : AreDigits s.digits
  nonempty : s.digits ≠ []
  leading : s.digits.head? ≠ some 0
  lastPlace : s.lastPlace = place + zeros

theorem Scientific.isOf_ofGrid {n : Nat} (pos : 0 < n) (place : Int) :
    ∃ zeros, (Scientific.ofGrid n place).IsOf n place zeros := by
  obtain ⟨hvalue, hdigits, hnonempty, hleading⟩ := isNotation_digitValues n
  have hsplit := List.rdropWhile_append_rtakeWhile (p := (· == 0)) (l := digitValues n)
  have hzeros : (digitValues n).rtakeWhile (· == 0) =
      List.replicate ((digitValues n).rtakeWhile (· == 0)).length 0 := by
    refine List.eq_replicate_iff.mpr ⟨rfl, fun d hd => ?_⟩
    simpa using List.mem_rtakeWhile_imp hd
  generalize ((digitValues n).rtakeWhile (· == 0)).length = z at hzeros
  have hkept : (Scientific.ofGrid n place).digits = (digitValues n).rdropWhile (· == 0) := rfl
  rw [hzeros, ← hkept] at hsplit
  have hkeptvalue : ofDigits (Scientific.ofGrid n place).digits * 10 ^ z = n := by
    rw [← hsplit, ofDigits_append, ofDigits_zeros, List.length_replicate] at hvalue
    exact hvalue
  have hkeptne : (Scientific.ofGrid n place).digits ≠ [] := by
    intro hnil
    rw [hnil] at hkeptvalue
    have hzero : ofDigits [] * 10 ^ z = 0 := Nat.zero_mul _
    omega
  refine ⟨z, hkeptvalue, (hsplit ▸ hdigits).of_append.1, hkeptne, ?_, ?_⟩
  · rw [← List.head?_append_of_ne_nil _ hkeptne, hsplit]
    exact hleading pos
  · have hlength : (digitValues n).length = (Scientific.ofGrid n place).digits.length + z := by
      rw [← hsplit, List.length_append, List.length_replicate]
    have hexponent : (Scientific.ofGrid n place).exponent =
        place + (digitValues n).length - 1 := rfl
    rw [lastPlace, hexponent, hlength]
    omega

end RoomRelay.Decimal
