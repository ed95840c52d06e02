import RoomRelay.Proofs.Decimal.Range
import RoomRelay.Proofs.Json.Reading

/-!
The text of a double can be read. The reader takes a numeral apart as it is written, sign, digits,
fraction and exponent, and then it is the size of the digits in their place that counts. What it
reads may be another double than the one that was written: it is rounded twice.
-/

namespace RoomRelay.Json

open Decimal

/-! ### Numerals -/

def fractionChars : List Nat → List Char
  | [] => []
  | ds => '.' :: digitChars ds

def exponentChars : Option Int → List Char
  | none => []
  | some e => 'e' :: (if e < 0 then '-' else '+') :: Nat.toDigits 10 e.natAbs

def signChars (negative : Bool) : List Char :=
  if negative then ['-'] else []

/-- The text of a numeral after its sign. -/
def Numeral.chars (n : Numeral) : List Char :=
  digitChars n.whole ++ (fractionChars n.fraction ++ exponentChars n.exponent)

/-- What a numeral consists of is digits, with no zero before others. -/
structure Numeral.IsWellFormed (n : Numeral) : Prop where
  whole : AreDigits n.whole
  nonempty : n.whole ≠ []
  leading : n.whole = [0] ∨ n.whole.head? ≠ some 0
  fraction : AreDigits n.fraction

/-- Digits are read one after the other where each leads from one such state to the next. -/
theorem reads_moreDigits {state : List Nat → State}
    (step : ∀ d < 10, ∀ held, (state held).step (digitByte d) = .ok (state (d :: held)))
    {ds : List Nat} (digits : AreDigits ds) (held : List Nat) :
    (state held).Reads (digitChars ds) (state (ds.reverse ++ held)) := by
  induction ds generalizing held with
  | nil => exact .refl _
  | cons d rest ih =>
      have hd : d < 10 := digits d List.mem_cons_self
      have hrest := ih (fun e he => digits e (List.mem_cons_of_mem d he)) (d :: held)
      rw [List.reverse_cons, List.append_assoc]
      exact .cons (digitByte_digit hd).1 (step d hd held) hrest

theorem reads_digits (state : List Nat → State) {s : State} {d : Nat} {rest : List Nat}
    (digits : AreDigits (d :: rest)) (first : s.step (digitByte d) = .ok (state [d]))
    (step : ∀ e < 10, ∀ held, (state held).step (digitByte e) = .ok (state (e :: held))) :
    s.Reads (digitChars (d :: rest)) (state (d :: rest).reverse) := by
  have hrest := reads_moreDigits step (fun e he => digits e (List.mem_cons_of_mem d he)) [d]
  rw [← List.reverse_cons] at hrest
  exact .cons (digitByte_digit (digits d List.mem_cons_self)).1 first hrest

/-- The states in which a number may end, or go on with its exponent. -/
def NumberState.IsUnmarked : NumberState → Prop
  | .zero | .whole | .fraction => True
  | _ => False

theorem reads_whole {s : State} {context : Context} {negative : Bool}
    (takes : s.TakesDigits negative context) {ds : List Nat} (digits : AreDigits ds)
    (nonempty : ds ≠ []) (leading : ds = [0] ∨ ds.head? ≠ some 0) :
    ∃ state, (state = .zero ∨ state = .whole) ∧
      s.Reads (digitChars ds) (.number state ⟨negative, ds.reverse, [], none⟩ context) := by
  obtain ⟨d, rest, rfl⟩ := List.exists_cons_of_ne_nil nonempty
  have hd : d < 10 := digits d List.mem_cons_self
  have hfirst := takes d hd
  rcases Nat.eq_zero_or_pos d with rfl | hpos
  · obtain rfl : rest = [] := by simpa using leading
    exact ⟨.zero, .inl rfl, .singleton (digitByte_digit hd).1 hfirst⟩
  · rw [wholeState, if_neg (by omega)] at hfirst
    refine ⟨.whole, .inr rfl, reads_digits
      (fun held => .number .whole ⟨negative, held, [], none⟩ context) digits hfirst ?_⟩
    intro e he held
    simp only [State.step, NumberState.step, (digitByte_digit he).2]
    rfl

theorem reads_fraction (context : Context) (negative : Bool) (whole : List Nat)
    {state : NumberState} (after : state = .zero ∨ state = .whole) {ds : List Nat}
    (digits : AreDigits ds) :
    ∃ state', state'.IsUnmarked ∧
      (State.number state ⟨negative, whole, [], none⟩ context).Reads (fractionChars ds)
        (.number state' ⟨negative, whole, ds.reverse, none⟩ context) := by
  cases ds with
  | nil => exact ⟨state, by rcases after with rfl | rfl <;> trivial, .refl _⟩
  | cons d rest =>
      have hd : d < 10 := digits d List.mem_cons_self
      have hpoint : (State.number state ⟨negative, whole, [], none⟩ context).step 0x2E =
          .ok (.number .point ⟨negative, whole, [], none⟩ context) := by
        rcases after with rfl | rfl <;> rfl
      have hfirst : (State.number .point ⟨negative, whole, [], none⟩ context).step (digitByte d) =
          .ok (.number .fraction ⟨negative, whole, [d], none⟩ context) := by
        simp only [State.step, NumberState.step, (digitByte_digit hd).2]
        rfl
      refine ⟨.fraction, trivial, .cons rfl hpoint (reads_digits
        (fun held => .number .fraction ⟨negative, whole, held, none⟩ context) digits hfirst ?_)⟩
      intro e he held
      simp only [State.step, NumberState.step, (digitByte_digit he).2]
      rfl

theorem digitChars_digitValues (n : Nat) : digitChars (digitValues n) = Nat.toDigits 10 n := by
  induction n using Nat.strongRecOn with
  | ind n ih =>
      rcases Nat.lt_or_ge n 10 with hsmall | hlarge
      · rw [digitValues_of_lt hsmall, Nat.toDigits_of_lt_base hsmall]
        rfl
      · have hrest := ih (n / 10) (by omega)
        rw [digitValues_of_le hlarge, Nat.toDigits_of_base_le (by decide) hlarge, ← hrest]
        exact List.map_append

/-- A mark, a sign and some digits. -/
theorem reads_exponent (context : Context) {state : NumberState} (unmarked : state.IsUnmarked)
    (n : Numeral) (e : Int) :
    ∃ ds : List Nat, signed (decide (e < 0)) ds.reverse = e ∧
      (State.number state n context).Reads (exponentChars (some e))
        (.number (.power (decide (e < 0)) ds) n context) := by
  obtain ⟨hvalue, hdigits, hnonempty, -⟩ := isNotation_digitValues e.natAbs
  have hmark : (State.number state n context).step 0x65 = .ok (.number .mark n context) := by
    cases state <;> first | rfl | exact unmarked.elim
  have hsign : (State.number .mark n context).Reads [if e < 0 then '-' else '+']
      (.number (.sign (decide (e < 0))) n context) := by
    by_cases hneg : e < 0
    · simp only [hneg, if_true, decide_true]
      exact .singleton (b := 0x2D) rfl rfl
    · simp only [hneg, if_false, decide_false]
      exact .singleton (b := 0x2B) rfl rfl
  refine ⟨(digitValues e.natAbs).reverse, ?_, ?_⟩
  · rw [List.reverse_reverse, signed, hvalue]
    simp only [decide_eq_true_eq]
    split <;> omega
  · rw [exponentChars, ← digitChars_digitValues]
    obtain ⟨d, rest, hds⟩ := List.exists_cons_of_ne_nil hnonempty
    rw [hds] at hdigits ⊢
    have hd : d < 10 := hdigits d List.mem_cons_self
    have hfirst : (State.number (.sign (decide (e < 0))) n context).step (digitByte d) =
        .ok (.number (.power (decide (e < 0)) [d]) n context) := by
      simp only [State.step, NumberState.step, (digitByte_digit hd).2]
      rfl
    refine .cons rfl hmark (hsign.trans (reads_digits
      (fun held => .number (.power (decide (e < 0)) held) n context) hdigits hfirst ?_))
    intro d' hd' held
    simp only [State.step, NumberState.step, (digitByte_digit hd').2]
    rfl

theorem NumberState.IsUnmarked.mayEnd {state : NumberState} (h : state.IsUnmarked) (b : UInt8)
    (hb : IsDelimiter b) : state.mayEnd b = true := by
  cases state
  all_goals first | exact h.elim | rfl | rcases hb with rfl | rfl | rfl <;> rfl

theorem NumberState.IsUnmarked.finish {state : NumberState} (h : state.IsUnmarked) {n : Numeral}
    {number : Number}
    (value : Numeral.number? { n with whole := n.whole.reverse, fraction := n.fraction.reverse } =
      some number) : state.finish n = .ok (.number number) := by
  cases state
  all_goals first | exact h.elim | (simp only [NumberState.finish, value]; rfl)

/-- A numeral that stands for a number is read as this number. -/
theorem reads_numeral {n : Numeral} (wellFormed : n.IsWellFormed) {number : Number}
    (value : n.number? = some number) {s : State} {context : Context} (h : s.Expects context) :
    ∃ t, s.Reads (signChars n.negative ++ n.chars) t ∧
      t.Completes (.number number) context := by
  obtain ⟨negative, whole, fraction, exponent⟩ := n
  obtain ⟨hwhole, hnonempty, hleading, hfraction⟩ := wellFormed
  obtain ⟨first, htakes, hsign⟩ : ∃ first : State, first.TakesDigits negative context ∧
      s.Reads (signChars negative) first := by
    cases negative with
    | true => exact ⟨_, takesDigits_minus context, .singleton rfl (h 0x2D rfl (by decide))⟩
    | false => exact ⟨s, h.takesDigits, .refl s⟩
  obtain ⟨state, hafter, hdigits⟩ := reads_whole htakes hwhole hnonempty hleading
  obtain ⟨state', hunmarked, hmore⟩ :=
    reads_fraction context negative whole.reverse hafter hfraction
  have hreads := hsign.trans (hdigits.trans hmore)
  cases exponent with
  | none =>
      have hall : s.Reads
          (signChars negative ++ Numeral.chars ⟨negative, whole, fraction, none⟩)
          (.number state' ⟨negative, whole.reverse, fraction.reverse, none⟩ context) := by
        simpa [Numeral.chars, exponentChars] using hreads
      exact ⟨_, hall, completes_of_finish hunmarked.mayEnd
        (hunmarked.finish (by simpa using value)) context⟩
  | some e =>
      obtain ⟨ds, hds, hexponent⟩ := reads_exponent context hunmarked
        ⟨negative, whole.reverse, fraction.reverse, none⟩ e
      have hall : s.Reads
          (signChars negative ++ Numeral.chars ⟨negative, whole, fraction, some e⟩)
          (.number (.power (decide (e < 0)) ds)
            ⟨negative, whole.reverse, fraction.reverse, none⟩ context) := by
        simpa [Numeral.chars] using hreads.trans hexponent
      have hfinish : (NumberState.power (decide (e < 0)) ds).finish
          ⟨negative, whole.reverse, fraction.reverse, none⟩ = .ok (.number number) := by
        simp only [NumberState.finish, List.reverse_reverse, hds, value]
        rfl
      exact ⟨_, hall, completes_of_finish (fun _ _ => rfl) hfinish context⟩

/-! ### Values of numerals -/

theorem gather_cons {held d : Nat} (h : held * 10 + d < 2 ^ 64) (rest : List Nat) :
    gather held (d :: rest) = gather (held * 10 + d) rest := if_pos h

theorem gather_of_lt (held : Nat) (ds : List Nat)
    (h : held * 10 ^ ds.length + ofDigits ds < 2 ^ 64) :
    gather held ds = (held * 10 ^ ds.length + ofDigits ds, []) := by
  induction ds generalizing held with
  | nil =>
      rw [List.length_nil, Nat.pow_zero, Nat.mul_one]
      rfl
  | cons d rest ih =>
      have hsplit : held * 10 ^ (d :: rest).length + ofDigits (d :: rest) =
          (held * 10 + d) * 10 ^ rest.length + ofDigits rest := by
        have hdigits := ofDigits_append [d] rest
        have hone : ofDigits [d] = d := by simp [ofDigits]
        rw [List.singleton_append, hone] at hdigits
        rw [hdigits, List.length_cons, Nat.pow_succ]
        ring
      rw [hsplit] at h ⊢
      have hfirst : held * 10 + d < 2 ^ 64 := by
        have hpos : 0 < 10 ^ rest.length := by positivity
        have hle := Nat.le_mul_of_pos_right (held * 10 + d) hpos
        omega
      rw [gather_cons hfirst, ih _ h]

/-- A numeral with a fraction or an exponent, whose digits all fit the significand and can be read
in their place. -/
structure Numeral.IsDouble (n : Numeral) : Prop extends n.IsWellFormed where
  mark : n.fraction ≠ [] ∨ n.exponent ≠ none
  short : ofDigits (n.whole ++ n.fraction) < 2 ^ 64
  scaled : ∃ x, scaled? (ofDigits (n.whole ++ n.fraction))
    (n.exponent.getD 0 - n.fraction.length) = some x

theorem Numeral.IsDouble.exists_number {n : Numeral} (h : n.IsDouble) :
    ∃ x, n.number? = some (.double x) := by
  obtain ⟨-, hmark, hshort, x, hx⟩ := h
  have hvalue := ofDigits_append n.whole n.fraction
  have hwhole : gather 0 n.whole = (ofDigits n.whole, []) := by
    have hpos : 0 < 10 ^ n.fraction.length := by positivity
    have hle := Nat.le_mul_of_pos_right (ofDigits n.whole) hpos
    have hgather := gather_of_lt 0 n.whole (by omega)
    rwa [Nat.zero_mul, Nat.zero_add] at hgather
  have hfraction : gather (ofDigits n.whole) n.fraction =
      (ofDigits (n.whole ++ n.fraction), []) := by
    rw [hvalue] at hshort ⊢
    exact gather_of_lt _ _ hshort
  have hplaces : ((0 : Nat) : Int) - (n.fraction.length - (0 : Nat)) + n.exponent.getD 0 =
      n.exponent.getD 0 - n.fraction.length := by omega
  have hdouble : n.double? = some (if n.negative then -x else x) := by
    simp only [Numeral.double?, hwhole, hfraction, List.length_nil, hplaces, hx]
    rfl
  have hnot : ¬ (n.fraction = [] ∧ n.exponent = none ∧
      IsWord (if n.negative then -(ofDigits n.whole : Int) else ofDigits n.whole) ∧
      ¬ (n.negative ∧ (if n.negative then -(ofDigits n.whole : Int) else ofDigits n.whole) = 0)) :=
    fun ⟨hnil, hnone, _⟩ => hmark.elim (absurd hnil) (absurd hnone)
  refine ⟨if n.negative then -x else x, ?_⟩
  unfold Numeral.number?
  rw [dif_neg hnot, hdouble]
  rfl

/-! ### Doubles -/

/-- The text is that of a numeral that is read as a double, with either sign before it. -/
def SpellsDouble (cs : List Char) : Prop :=
  ∃ n : Numeral, n.IsDouble ∧ n.chars = cs

theorem SpellsDouble.reads {cs : List Char} (h : SpellsDouble cs) (negative : Bool) {s : State}
    {context : Context} (expects : s.Expects context) :
    ∃ t x, s.Reads (signChars negative ++ cs) t ∧ t.Completes (.number (.double x)) context := by
  obtain ⟨n, ⟨⟨hwhole, hnonempty, hleading, hfraction⟩, hmark, hshort, hscaled⟩, rfl⟩ := h
  have hsigned : Numeral.IsDouble { n with negative } :=
    ⟨⟨hwhole, hnonempty, hleading, hfraction⟩, hmark, hshort, hscaled⟩
  obtain ⟨x, hx⟩ := hsigned.exists_number
  obtain ⟨t, hreads, hends⟩ := reads_numeral hsigned.toIsWellFormed hx expects
  exact ⟨t, x, hreads, hends⟩

theorem spellsDouble_zero : SpellsDouble ['0', '.', '0'] :=
  ⟨⟨false, [0], [0], none⟩, ⟨⟨by decide, by decide, .inl rfl, by decide⟩, .inl (by decide),
    by decide, exists_scaled_of_neg (by decide)⟩, rfl⟩

theorem digitChars_append (ds es : List Nat) :
    digitChars (ds ++ es) = digitChars ds ++ digitChars es := List.map_append

theorem digitChars_zeros (n : Nat) :
    digitChars (List.replicate n 0) = List.replicate n '0' := List.map_replicate

theorem fractionChars_of_ne_nil {ds : List Nat} (h : ds ≠ []) :
    fractionChars ds = '.' :: digitChars ds := by
  obtain ⟨d, rest, rfl⟩ := List.exists_cons_of_ne_nil h
  rfl

section

variable {s : Scientific}

theorem ofDigits_lt_word (h : s.IsReadable) : ofDigits s.digits < 10 ^ 18 :=
  (ofDigits_lt h.digits).trans_le (Nat.pow_le_pow_right (by decide) h.short)

/-- Less than one: zeros and then the digits. -/
theorem spellsDouble_small (h : s.IsReadable) (small : s.exponent < 0) : SpellsDouble s.plain := by
  let zeros := List.replicate ((-s.exponent).toNat - 1) 0
  have hvalue : ofDigits ([0] ++ (zeros ++ s.digits)) = ofDigits s.digits := by
    rw [ofDigits_append, ofDigits_append, ofDigits_zeros]
    simp [ofDigits]
  have hlt := ofDigits_lt_word h
  have hne : zeros ++ s.digits ≠ [] := List.append_ne_nil_of_right_ne_nil zeros h.nonempty
  have hlength := List.length_pos_of_ne_nil hne
  refine ⟨⟨false, [0], zeros ++ s.digits, none⟩,
    ⟨⟨(by decide : AreDigits [0]), List.cons_ne_nil 0 [], .inl rfl,
      (areDigits_zeros _).append h.digits⟩, .inl hne, ?_, exists_scaled_of_neg ?_⟩, ?_⟩
  · rw [hvalue]
    omega
  · simp only [Option.getD_none]
    omega
  · rw [Numeral.chars, fractionChars_of_ne_nil hne, digitChars_append, digitChars_zeros,
      Scientific.plain, if_pos small]
    simp [digitChars, exponentChars]

/-- The digits before the point are filled up with zeros, and after the point there is one at
least. -/
theorem spellsDouble_large (h : s.IsReadable) (large : 0 ≤ s.exponent) (most : s.exponent ≤ 15) :
    SpellsDouble s.plain := by
  obtain ⟨before, hbefore, hleast, hmost⟩ :
      ∃ before, s.exponent.toNat + 1 = before ∧ 0 < before ∧ before ≤ 16 :=
    ⟨_, rfl, by omega, by omega⟩
  let whole := s.digits.take before ++ List.replicate (before - s.digits.length) 0
  let fraction := if s.digits.drop before = [] then [0] else s.digits.drop before
  have hsplit : AreDigits (s.digits.take before ++ s.digits.drop before) := by
    rw [List.take_append_drop]
    exact h.digits
  have htake : s.digits.take before ≠ [] := by
    rw [ne_eq, List.take_eq_nil_iff]
    exact fun hnil => hnil.elim (by omega) h.nonempty
  have hwhole : AreDigits whole := hsplit.of_append.1.append (areDigits_zeros _)
  have hleading : whole.head? ≠ some 0 := by
    rw [List.head?_append_of_ne_nil _ htake, List.head?_take, if_neg (by omega)]
    exact h.leading
  have hfraction : AreDigits fraction ∧ fraction ≠ [] ∧
      fraction.length ≤ max 1 (s.digits.length - before) := by
    by_cases hnil : s.digits.drop before = []
    · simp only [fraction, if_pos hnil]
      exact ⟨by decide, by decide, le_max_left _ _⟩
    · simp only [fraction, if_neg hnil]
      exact ⟨hsplit.of_append.2, hnil, by simp⟩
  have hlength := List.length_pos_of_ne_nil hfraction.2.1
  refine ⟨⟨false, whole, fraction, none⟩, ⟨⟨hwhole, List.append_ne_nil_of_left_ne_nil htake _,
    .inr hleading, hfraction.1⟩, .inl hfraction.2.1, ?_, exists_scaled_of_neg ?_⟩, ?_⟩
  · have hall : (whole ++ fraction).length ≤ 18 := by
      have hshort := h.short
      have hmax := hfraction.2.2
      rw [List.length_append, List.length_append, List.length_take, List.length_replicate]
      omega
    calc
      ofDigits (whole ++ fraction) < 10 ^ (whole ++ fraction).length :=
        ofDigits_lt (hwhole.append hfraction.1)
      _ ≤ 10 ^ 18 := Nat.pow_le_pow_right (by decide) hall
      _ < 2 ^ 64 := by decide
  · simp only [Option.getD_none]
    omega
  · rw [Numeral.chars, fractionChars_of_ne_nil hfraction.2.1, digitChars_append, digitChars_zeros,
      Scientific.plain, if_neg (by omega), hbefore]
    simp only [fraction]
    by_cases hnil : s.digits.drop before = []
    · simp [hnil, digitChars, exponentChars]
    · have hlong : ¬ s.digits.length ≤ before := fun hle => hnil (List.drop_eq_nil_of_le hle)
      simp [hnil, hlong, digitChars, exponentChars]

theorem spellsDouble_withExponent (h : s.IsReadable) : SpellsDouble s.withExponent := by
  obtain ⟨d, rest, hds⟩ := List.exists_cons_of_ne_nil h.nonempty
  have hdigits := h.digits
  have hleading := h.leading
  obtain ⟨x, hx⟩ := h.scaled
  have hlt := ofDigits_lt_word h
  have hplace : s.exponent - (rest.length : Int) = s.lastPlace := by
    rw [Scientific.lastPlace, hds, List.length_cons]
    omega
  rw [hds] at hdigits hleading hlt hx
  have hsplit : AreDigits ([d] ++ rest) := hdigits
  obtain ⟨hwhole, hfraction⟩ := hsplit.of_append
  refine ⟨⟨false, [d], rest, some s.exponent⟩, ⟨⟨hwhole, List.cons_ne_nil d [], .inr hleading,
    hfraction⟩, .inr (Option.some_ne_none _), ?_, ⟨x, ?_⟩⟩, ?_⟩
  · exact hlt.trans (by decide)
  · rw [List.singleton_append, Option.getD_some, hplace, hx]
  · have hrepr : (toString s.exponent.natAbs).toList = Nat.toDigits 10 s.exponent.natAbs :=
      Nat.toList_repr
    rw [Numeral.chars, exponentChars, Scientific.withExponent, hrepr, hds]
    cases rest with
    | nil => rfl
    | cons d' more => simp [digitChars, fractionChars]

end

theorem spellsDouble_write {b : Binary} (mantissa : b.mantissa < 2 ^ 53)
    (exponent : b.exponent ≤ 971) : SpellsDouble (doubleLayout.write b.shortest) := by
  rcases Binary.isReadable_shortest mantissa exponent with hnone | hreadable
  · rw [hnone]
    exact spellsDouble_zero
  · rw [Layout.write]
    split
    · rename_i hplain
      rcases Int.lt_or_le b.shortest.exponent 0 with hsmall | hlarge
      · exact spellsDouble_small hreadable hsmall
      · exact spellsDouble_large hreadable hlarge hplain.2
    · exact spellsDouble_withExponent hreadable

/-- The text of a double is read as a double again, that of an infinity or a NaN as `null`. -/
theorem reads_double (x : Float) {s : State} {context : Context} (h : s.Expects context) :
    ∃ t v, s.Reads (Number.double x).chars t ∧ t.Completes v context := by
  rw [Number.chars]
  cases htext : doubleLayout.writeDouble? x with
  | none =>
      have hnull : ∃ t, s.Reads "null".toList t ∧ t.Completes .null context :=
        reads_literal h rfl rfl rfl (by decide) rfl
      obtain ⟨t, hreads, hends⟩ := hnull
      exact ⟨t, .null, hreads, hends⟩
  | some cs =>
      obtain ⟨b, hbits, hcs⟩ := Option.bind_eq_some_iff.mp htext
      obtain ⟨hmantissa, hexponent⟩ := Binary.ofBits_bounds hbits
      have hbody : SpellsDouble
          (if b.mantissa = 0 then ['0', '.', '0'] else doubleLayout.write b.shortest) := by
        split
        · exact spellsDouble_zero
        · exact spellsDouble_write hmantissa hexponent
      obtain ⟨t, y, hreads, hends⟩ :=
        hbody.reads (decide (x.toBits.toNat / Nat.pow 2 63 = 1)) h
      refine ⟨t, _, ?_, hends⟩
      cases hcs
      simpa [signChars] using hreads

end RoomRelay.Json
