import Mathlib.Tactic.SplitIfs
import RoomRelay.Json.Reader
import RoomRelay.Json.Printer

/-!
Strings in JSON texts. Every character comes back from its escape, in the form of its UTF-8 bytes,
and so a quoted string is read as the string it was.
-/

namespace RoomRelay

/-- The UTF-8 form of some characters. -/
def charBytes (cs : List Char) : Bytes :=
  cs.flatMap String.utf8EncodeChar

theorem charBytes_append (cs ds : List Char) :
    charBytes (cs ++ ds) = charBytes cs ++ charBytes ds := List.flatMap_append

theorem toList_loop_eq (bytes : ByteArray) (i : Nat) (r : List UInt8) :
    ByteArray.toList.loop bytes i r = r.reverse ++ bytes.data.toList.drop i := by
  fun_induction ByteArray.toList.loop bytes i r with
  | case1 i r hlt ih =>
      have hlen : i < bytes.data.toList.length := by simpa using hlt
      have hget : bytes.get! i = bytes.data.toList[i] := by
        cases bytes
        simp only [ByteArray.get!, Array.getElem_toList]
        exact getElem!_pos _ _ (by simpa using hlen)
      rw [ih, List.drop_eq_getElem_cons hlen, hget]
      simp
  | case2 i r hge =>
      rw [List.drop_eq_nil_of_le (by simpa using Nat.le_of_not_lt hge)]
      simp

theorem textBytes_ofList (cs : List Char) : textBytes (String.ofList cs) = charBytes cs := by
  rw [textBytes, String.toUTF8_eq_toByteArray, String.toByteArray_ofList, ByteArray.toList,
    toList_loop_eq]
  simp [charBytes, List.utf8Encode]

theorem textOfBytes?_charBytes (cs : List Char) :
    textOfBytes? (charBytes cs) = some (String.ofList cs) := by
  have hbytes : (charBytes cs).toByteArray = (String.ofList cs).toByteArray := by
    rw [String.toByteArray_ofList]
    rfl
  unfold textOfBytes? String.fromUTF8?
  rw [hbytes, dif_pos (String.ofList cs).isValidUTF8]
  rfl

theorem textBytes_of_textOfBytes? {bytes : Bytes} {s : String} (h : textOfBytes? bytes = some s) :
    textBytes s = bytes := by
  unfold textOfBytes? String.fromUTF8? at h
  split at h
  · cases h
    rw [textBytes, String.toUTF8_eq_toByteArray, ByteArray.toList, toList_loop_eq]
    change [] ++ bytes.toByteArray.data.toList = bytes
    rw [List.nil_append, List.data_toByteArray]
  · cases h

theorem utf8EncodeChar_of_ascii {c : Char} (ascii : c.toNat < 0x80) :
    String.utf8EncodeChar c = [UInt8.ofNat c.toNat] := by
  have hval : c.val.toNat ≤ 127 := Nat.le_of_lt_succ ascii
  simp only [String.utf8EncodeChar, if_pos hval]
  rfl

/-- No byte of a character beyond the first 128 is one of theirs. -/
theorem le_of_mem_utf8EncodeChar {c : Char} (beyond : 0x80 ≤ c.toNat) {b : UInt8}
    (h : b ∈ String.utf8EncodeChar c) : 0x80 ≤ b := by
  have hval : ¬ c.val.toNat ≤ 127 := Nat.not_le_of_lt beyond
  simp only [String.utf8EncodeChar, if_neg hval] at h
  rw [UInt8.le_iff_toNat_le]
  split at h
  · simp only [List.mem_cons, List.not_mem_nil, or_false] at h
    rcases h with rfl | rfl <;> simp only [UInt8.toNat_ofNat', UInt8.reduceToNat] <;> omega
  · split at h
    · simp only [List.mem_cons, List.not_mem_nil, or_false] at h
      rcases h with rfl | rfl | rfl <;> simp only [UInt8.toNat_ofNat', UInt8.reduceToNat] <;> omega
    · simp only [List.mem_cons, List.not_mem_nil, or_false] at h
      rcases h with rfl | rfl | rfl | rfl <;>
        simp only [UInt8.toNat_ofNat', UInt8.reduceToNat] <;> omega

namespace Json

/-- These characters lead the reader from one state to another. -/
def State.Reads (s : State) (cs : List Char) (t : State) : Prop :=
  (charBytes cs).foldlM State.step s = .ok t

namespace State.Reads

variable {s t u : State} {cs ds : List Char}

theorem refl (s : State) : s.Reads [] s := rfl

theorem trans (first : s.Reads cs t) (second : t.Reads ds u) : s.Reads (cs ++ ds) u := by
  rw [Reads, charBytes_append, List.foldlM_append, first]
  exact second

/-- A character of one byte is one step. -/
theorem cons {c : Char} {b : UInt8} (byte : String.utf8EncodeChar c = [b])
    (step : s.step b = .ok t) (rest : t.Reads cs u) : s.Reads (c :: cs) u := by
  rw [Reads, charBytes, List.flatMap_cons, byte, List.cons_append, List.foldlM_cons, step]
  exact rest

theorem singleton {c : Char} {b : UInt8} (byte : String.utf8EncodeChar c = [b])
    (step : s.step b = .ok t) : s.Reads [c] t := cons byte step (refl t)

end State.Reads

/-- A byte that stands for itself in a string. -/
def IsVerbatim (b : UInt8) : Prop :=
  b ≠ 0x22 ∧ b ≠ 0x5C ∧ 0x20 ≤ b

theorem isVerbatim_of_le {b : UInt8} (h : 0x80 ≤ b) : IsVerbatim b := by
  refine ⟨?_, ?_, ?_⟩
  · rintro rfl
    revert h
    decide
  · rintro rfl
    revert h
    decide
  · exact UInt8.le_trans (by decide) h

/-- The bytes of a character that needs no escape all stand for themselves. -/
theorem isVerbatim_of_mem {c : Char} (quote : c ≠ '"') (backslash : c ≠ '\\')
    (printable : 0x20 ≤ c.toNat) {b : UInt8} (h : b ∈ String.utf8EncodeChar c) :
    IsVerbatim b := by
  rcases Nat.lt_or_ge c.toNat 0x80 with hascii | hbeyond
  · rw [utf8EncodeChar_of_ascii hascii, List.mem_singleton] at h
    have hb : b.toNat = c.toNat := by
      rw [h, UInt8.toNat_ofNat']
      omega
    refine ⟨?_, ?_, UInt8.le_iff_toNat_le.mpr (hb ▸ printable)⟩
    · rintro rfl
      exact quote (Char.toNat_inj.mp hb.symm)
    · rintro rfl
      exact backslash (Char.toNat_inj.mp hb.symm)
  · exact isVerbatim_of_le (le_of_mem_utf8EncodeChar hbeyond h)

theorem step_verbatim {b : UInt8} (h : IsVerbatim b) (read : Bytes) (p : Purpose) :
    (State.text .plain read p).step b = .ok (.text .plain (b :: read) p) := by
  obtain ⟨hquote, hbackslash, hprintable⟩ := h
  have hcontrol : ¬ b < 0x20 := UInt8.not_lt.mpr hprintable
  simp only [State.step, TextState.step, beq_iff_eq, hquote, hbackslash, hcontrol, if_false]
  rfl

theorem foldlM_verbatim {bs : Bytes} (h : ∀ b ∈ bs, IsVerbatim b) (read : Bytes) (p : Purpose) :
    bs.foldlM State.step (.text .plain read p) = .ok (.text .plain (bs.reverse ++ read) p) := by
  induction bs generalizing read with
  | nil => rfl
  | cons b rest ih =>
      rw [List.foldlM_cons, step_verbatim (h b List.mem_cons_self)]
      rw [List.reverse_cons, List.append_assoc]
      exact ih (fun d hd => h d (List.mem_cons_of_mem b hd)) (b :: read)

/-- An escape of one letter stands for the character that it belongs to. -/
theorem reads_escapeLetter {c letter : Char} (h : escapeLetter? c = some letter) (read : Bytes)
    (p : Purpose) :
    (State.text .plain read p).Reads ['\\', letter]
      (.text .plain ((String.utf8EncodeChar c).reverse ++ read) p) := by
  unfold escapeLetter? at h
  split_ifs at h <;> cases h <;> subst c <;> rfl

/-- The byte of a digit up to `f`. -/
def digitByte (d : Nat) : UInt8 := UInt8.ofNat (Nat.digitChar d).toNat

theorem digitByte_spec {n : Nat} (h : n < 0x20) :
    String.utf8EncodeChar (Nat.digitChar (n / 16)) = [digitByte (n / 16)] ∧
      String.utf8EncodeChar (Nat.digitChar (n % 16)) = [digitByte (n % 16)] ∧
      hexValue? [0x30, 0x30, digitByte (n / 16), digitByte (n % 16)] = some n := by
  revert n
  decide

theorem reads_controlEscape {c : Char} (control : c.toNat < 0x20) (read : Bytes) (p : Purpose) :
    (State.text .plain read p).Reads
      ['\\', 'u', '0', '0', Nat.digitChar (c.toNat / 16), Nat.digitChar (c.toNat % 16)]
      (.text .plain ((String.utf8EncodeChar c).reverse ++ read) p) := by
  obtain ⟨hhigh, hlow, hvalue⟩ := digitByte_spec control
  have htrail : isTrailSurrogate c.toNat = false := by
    simp only [isTrailSurrogate, Bool.and_eq_false_iff, decide_eq_false_iff_not]
    omega
  have hlead : isLeadSurrogate c.toNat = false := by
    simp only [isLeadSurrogate, Bool.and_eq_false_iff, decide_eq_false_iff_not]
    omega
  have hdigits : afterDigits [0x30, 0x30, digitByte (c.toNat / 16), digitByte (c.toNat % 16)] none
      read p = .ok (.text .plain ((String.utf8EncodeChar c).reverse ++ read) p) := by
    simp only [afterDigits, hvalue, htrail, hlead, utf8, Char.ofNat_toNat]
    rfl
  exact .cons rfl rfl (.cons rfl rfl (.cons rfl rfl (.cons rfl rfl (.cons hhigh rfl
    (.singleton hlow hdigits)))))

theorem reads_escapeChar (c : Char) (read : Bytes) (p : Purpose) :
    (State.text .plain read p).Reads (escapeChar c)
      (.text .plain ((String.utf8EncodeChar c).reverse ++ read) p) := by
  unfold escapeChar
  cases hletter : escapeLetter? c with
  | some letter => exact reads_escapeLetter hletter read p
  | none =>
      simp only
      split
      · rename_i hcontrol
        exact reads_controlEscape hcontrol read p
      · rename_i hprintable
        have hquote : c ≠ '"' := by
          rintro rfl
          cases hletter
        have hbackslash : c ≠ '\\' := by
          rintro rfl
          cases hletter
        have hverbatim : ∀ b ∈ String.utf8EncodeChar c, IsVerbatim b := fun b hb =>
          isVerbatim_of_mem hquote hbackslash (Nat.le_of_not_lt hprintable) hb
        rw [State.Reads, charBytes, List.flatMap_singleton]
        exact foldlM_verbatim hverbatim read p

theorem reads_escapes (cs : List Char) (read : Bytes) (p : Purpose) :
    (State.text .plain read p).Reads (cs.flatMap escapeChar)
      (.text .plain ((charBytes cs).reverse ++ read) p) := by
  induction cs generalizing read with
  | nil => exact .refl _
  | cons c rest ih =>
      have hbytes : (charBytes (c :: rest)).reverse ++ read =
          (charBytes rest).reverse ++ ((String.utf8EncodeChar c).reverse ++ read) := by
        simp [charBytes]
      rw [List.flatMap_cons, hbytes]
      exact (reads_escapeChar c read p).trans (ih _)

/-- After the opening quote the rest of a quoted string is read, and the string is complete. -/
theorem reads_string (s : String) (p : Purpose) :
    (State.text .plain [] p).Reads (s.toList.flatMap escapeChar ++ ['"']) (p.complete s) := by
  have hclose : (State.text .plain (charBytes s.toList).reverse p).step 0x22 =
      .ok (p.complete s) := by
    simp only [State.step, TextState.step, List.reverse_reverse, textOfBytes?_charBytes,
      String.ofList_toList]
    rfl
  have hescapes := reads_escapes s.toList [] p
  rw [List.append_nil] at hescapes
  exact hescapes.trans (.singleton rfl hclose)

end Json

end RoomRelay
