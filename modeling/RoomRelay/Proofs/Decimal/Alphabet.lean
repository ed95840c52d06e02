import RoomRelay.Decimal.Layout

/-!
The characters that numbers are written with. Only these are in the text of a double, wherever its
point stands and whether it has an exponent.
-/

namespace RoomRelay.Decimal

/-- The signs, the point, the mark of an exponent and all that `Nat.digitChar` makes of a digit:
beyond `9` these are letters, and a star beyond `f`. -/
def alphabet : List Char := "+-.*0123456789abcdef".toList

theorem digitChar_mem_alphabet (d : Nat) : Nat.digitChar d ∈ alphabet := by
  rcases Nat.lt_or_ge d 16 with hdigit | hother
  · revert d
    decide
  · have hstar : Nat.digitChar d = '*' := by
      simp (disch := omega) only [Nat.digitChar, if_neg]
    rw [hstar]
    decide

@[simp]
theorem digitChars_subset (ds : List Nat) : digitChars ds ⊆ alphabet := by
  intro c hc
  obtain ⟨d, -, rfl⟩ := List.mem_map.mp hc
  exact digitChar_mem_alphabet d

@[simp]
theorem zeros_subset (n : Nat) : List.replicate n '0' ⊆ alphabet := by
  intro c hc
  rw [(List.mem_replicate.mp hc).2]
  decide

@[simp]
theorem toDigits_subset (n : Nat) : Nat.toDigits 10 n ⊆ alphabet := by
  induction n using Nat.strongRecOn with
  | ind n ih =>
      rcases Nat.lt_or_ge n 10 with hsmall | hlarge
      · rw [Nat.toDigits_of_lt_base hsmall]
        exact List.cons_subset.mpr ⟨digitChar_mem_alphabet n, List.nil_subset _⟩
      · rw [Nat.toDigits_of_base_le (by decide) hlarge]
        refine List.append_subset.mpr ⟨ih (n / 10) (by omega), ?_⟩
        exact List.cons_subset.mpr ⟨digitChar_mem_alphabet _, List.nil_subset _⟩

theorem Scientific.plain_subset (s : Scientific) : s.plain ⊆ alphabet := by
  unfold Scientific.plain
  split
  · simp +decide
  · extract_lets before whole fraction
    have hfraction : (if fraction.isEmpty then ['0'] else fraction) ⊆ alphabet := by
      split
      · decide
      · exact digitChars_subset _
    simp +decide only [List.append_subset, List.cons_subset, hfraction, whole, zeros_subset,
      digitChars_subset, and_self]

theorem Scientific.withExponent_subset (s : Scientific) : s.withExponent ⊆ alphabet := by
  have hrepr : (toString s.exponent.natAbs).toList = Nat.toDigits 10 s.exponent.natAbs :=
    Nat.toList_repr
  unfold Scientific.withExponent
  rw [hrepr]
  extract_lets mantissa sign
  have hmantissa : mantissa ⊆ alphabet := by
    simp only [mantissa]
    split
    · decide
    · exact digitChars_subset _
    · simp +decide
  have hsign : sign ∈ alphabet := by
    simp only [sign]
    split <;> decide
  simp +decide [hmantissa, hsign]

theorem Layout.write_subset (l : Layout) (s : Scientific) : l.write s ⊆ alphabet := by
  unfold Layout.write
  split
  · exact s.plain_subset
  · exact s.withExponent_subset

theorem Layout.writeDouble?_subset {l : Layout} {x : Float} {cs : List Char}
    (h : l.writeDouble? x = some cs) : cs ⊆ alphabet := by
  obtain ⟨b, -, hcs⟩ := Option.bind_eq_some_iff.mp h
  cases hcs
  refine List.append_subset.mpr ⟨?_, ?_⟩
  · split <;> decide
  · split
    · decide
    · exact l.write_subset _

end RoomRelay.Decimal
