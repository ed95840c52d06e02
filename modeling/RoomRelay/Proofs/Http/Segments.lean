import RoomRelay.Http.Path
import RoomRelay.Proofs.Json.Strings

/-!
Paths and what their segments say. A path is put together from its segments in one way, a segment
is read as the bytes and escapes that it is made of, and it may name something if it is a word over
the letters and digits of the basic alphabet, the low line and the hyphen.
-/

namespace RoomRelay.Http

/-! ### Segments -/

theorem segments_eq_splitOn (cs : List Char) : segments cs = cs.splitOn '/' := by
  fun_induction segments cs with
  | case1 => rfl
  | case2 rest ih => simp [List.splitOn_cons_eq_if_modifyHead, ih]
  | case3 c rest hne s more heq ih =>
      simp [List.splitOn_cons_eq_if_modifyHead, show c ≠ '/' from hne, ← ih, heq]
  | case4 c rest hne heq ih => exact absurd (ih.symm.trans heq) (List.splitOn_ne_nil _ _)

theorem not_mem_of_mem_segments {cs s : List Char} (mem : s ∈ segments cs) : '/' ∉ s := by
  fun_induction segments cs generalizing s with
  | case1 => simp_all
  | case2 rest ih =>
      rcases List.mem_cons.mp mem with rfl | hrest
      · simp
      · exact ih hrest
  | case3 c rest hne s' more heq ih =>
      rw [heq] at ih
      rcases List.mem_cons.mp mem with rfl | hmore
      · exact fun hslash => (List.mem_cons.mp hslash).elim (fun h => hne h.symm)
          (ih List.mem_cons_self)
      · exact ih (List.mem_cons_of_mem _ hmore)
  | case4 c rest hne heq ih =>
      rw [List.mem_singleton.mp mem]
      exact fun hslash => hne (List.mem_singleton.mp hslash).symm

/-- A path has the segments that it is put together from. -/
theorem segments_eq_iff {cs : List Char} {ls : List (List Char)} (nonempty : ls ≠ []) :
    segments cs = ls ↔ (∀ s ∈ ls, '/' ∉ s) ∧ cs = ['/'].intercalate ls := by
  constructor
  · rintro rfl
    refine ⟨fun s => not_mem_of_mem_segments, ?_⟩
    rw [segments_eq_splitOn, List.intercalate_splitOn]
  · rintro ⟨hslash, rfl⟩
    rw [segments_eq_splitOn, List.splitOn_intercalate '/' hslash nonempty]

theorem segments_eq_root_iff {path : List Char} : segments path = [[], []] ↔ path = ['/'] := by
  rw [segments_eq_iff (by simp)]
  simp [List.intercalate]

/-- A path of exactly two segments. -/
structure Pair (path first second : List Char) : Prop where
  path : path = '/' :: (first ++ '/' :: second)
  first : '/' ∉ first
  second : '/' ∉ second

theorem segments_eq_pair_iff {path first second : List Char} :
    segments path = [[], first, second] ↔ Pair path first second := by
  rw [segments_eq_iff (by simp)]
  constructor
  · rintro ⟨hslash, hpath⟩
    exact ⟨by simpa [List.intercalate] using hpath, hslash first (by simp), hslash second (by simp)⟩
  · rintro ⟨hpath, hfirst, hsecond⟩
    exact ⟨by simp [hfirst, hsecond], by simpa [List.intercalate] using hpath⟩

/-! ### Escapes -/

/-- Two hexadecimal digits behind a percent sign, which stand for a byte. -/
inductive Escape : Bytes → UInt8 → Prop where
  | intro {high low : UInt8} {h l : Nat} (high_digit : hexDigit? high = some h)
      (low_digit : hexDigit? low = some l) : Escape [0x25, high, low] (UInt8.ofNat (16 * h + l))

/-- Bytes are read as themselves where they do not begin an escape. -/
inductive Unescapes : Bytes → Bytes → Prop where
  | nil : Unescapes [] []
  | escape {escape rest read : Bytes} {b : UInt8} (stands : Escape escape b)
      (rest_read : Unescapes rest read) : Unescapes (escape ++ rest) (b :: read)
  | plain {b : UInt8} {rest read : Bytes}
      (plain : ∀ escape more c, Escape escape c → b :: rest ≠ escape ++ more)
      (rest_read : Unescapes rest read) : Unescapes (b :: rest) (b :: read)

theorem escapedByte?_eq_some_iff {mark high low b : UInt8} :
    escapedByte? mark high low = some b ↔ Escape [mark, high, low] b := by
  constructor
  · intro h
    unfold escapedByte? at h
    split at h
    case isTrue hmark =>
        split at h
        case h_1 hhigh hlow =>
            cases h
            exact hmark ▸ .intro hhigh hlow
        case h_2 => cases h
    case isFalse => cases h
  · rintro ⟨hhigh, hlow⟩
    simp [escapedByte?, hhigh, hlow]

theorem Escape.length {escape : Bytes} {b : UInt8} (h : Escape escape b) : escape.length = 3 := by
  cases h
  rfl

theorem percentDecode_cons {b : UInt8} {rest : Bytes}
    (plain : ∀ escape more c, Escape escape c → b :: rest ≠ escape ++ more) :
    percentDecode (b :: rest) = b :: percentDecode rest := by
  match rest with
  | [] => rfl
  | [high] => rfl
  | high :: low :: more =>
      have hnone : escapedByte? b high low = none := by
        rw [Option.eq_none_iff_forall_ne_some]
        exact fun c hc => plain _ more c (escapedByte?_eq_some_iff.mp hc) rfl
      simp [percentDecode, hnone]

/-- Too few bytes for an escape. -/
theorem unescapes_of_short {bytes : Bytes} (short : bytes.length < 3) : Unescapes bytes bytes := by
  induction bytes with
  | nil => exact .nil
  | cons b rest ih =>
      refine .plain (fun escape more c hescape heq => ?_) (ih (Nat.lt_of_succ_lt short))
      have hlength := congrArg List.length heq
      rw [List.length_append, hescape.length] at hlength
      omega

theorem unescapes_percentDecode (bytes : Bytes) : Unescapes bytes (percentDecode bytes) := by
  fun_induction percentDecode bytes with
  | case1 mark high low rest b hb ih => exact .escape (escapedByte?_eq_some_iff.mp hb) ih
  | case2 mark high low rest hb ih =>
      refine .plain (fun escape more c hescape heq => ?_) ih
      cases hescape with
      | intro hhigh hlow =>
          cases heq
          rw [escapedByte?_eq_some_iff.mpr (.intro hhigh hlow)] at hb
          cases hb
  | case3 bytes hshort =>
      match bytes, hshort with
      | [], _ | [_], _ | [_, _], _ => exact unescapes_of_short (by simp)
      | mark :: high :: low :: rest, hshort => exact absurd rfl (hshort mark high low rest)

theorem unescapes_iff {bytes read : Bytes} : Unescapes bytes read ↔ percentDecode bytes = read := by
  constructor
  · intro h
    induction h with
    | nil => rfl
    | escape stands rest_read ih =>
        cases stands with
        | intro hhigh hlow => simp [percentDecode, escapedByte?, hhigh, hlow, ih]
    | plain plain rest_read ih => rw [percentDecode_cons plain, ih]
  · rintro rfl
    exact unescapes_percentDecode bytes

/-- The text that a segment says. -/
def Spells (segment : List Char) (text : String) : Prop :=
  Unescapes (textBytes (String.ofList segment)) (textBytes text)

theorem segmentText?_eq_some_iff {segment : List Char} {text : String} :
    segmentText? segment = some text ↔ Spells segment text := by
  rw [Spells, unescapes_iff, segmentText?]
  constructor
  · exact fun h => (textBytes_of_textOfBytes? h).symm
  · intro h
    rw [h, ← String.ofList_toList (s := text), textBytes_ofList, textOfBytes?_charBytes]

theorem segmentText?_eq_none_iff {segment : List Char} :
    segmentText? segment = none ↔ ∀ text, ¬ Spells segment text := by
  rw [Option.eq_none_iff_forall_ne_some]
  exact forall_congr' fun text => not_congr segmentText?_eq_some_iff

/-! ### Words -/

/-- The characters that may be in a name. -/
def wordChars : List Char :=
  ['A', 'B', 'C', 'D', 'E', 'F', 'G', 'H', 'I', 'J', 'K', 'L', 'M', 'N', 'O', 'P', 'Q', 'R', 'S',
    'T', 'U', 'V', 'W', 'X', 'Y', 'Z', 'a', 'b', 'c', 'd', 'e', 'f', 'g', 'h', 'i', 'j', 'k', 'l',
    'm', 'n', 'o', 'p', 'q', 'r', 's', 't', 'u', 'v', 'w', 'x', 'y', 'z', '0', '1', '2', '3', '4',
    '5', '6', '7', '8', '9', '_', '-']

/-- A text that may name a room or a peer. -/
def IsWord (s : String) : Prop :=
  s ≠ "" ∧ ∀ c ∈ s.toList, c ∈ wordChars

/-- A letter or digit of the basic alphabet, a low line or a hyphen, as a byte. -/
def isIdByte (b : UInt8) : Bool :=
  (0x61 ≤ b && b ≤ 0x7A) || (0x41 ≤ b && b ≤ 0x5A) || (0x30 ≤ b && b ≤ 0x39) || b == 0x5F ||
    b == 0x2D

/-- The three ways to say which characters may be in a name agree on the basic alphabet. -/
theorem isIdChar_of_ascii {c : Char} (ascii : c.toNat < 0x80) :
    (isIdChar c = true ↔ c ∈ wordChars) ∧ isIdByte (UInt8.ofNat c.toNat) = isIdChar c := by
  have hall : ∀ n : Fin 128,
      (isIdChar (Char.ofNat n) = true ↔ Char.ofNat n ∈ wordChars) ∧
      isIdByte (UInt8.ofNat n) = isIdChar (Char.ofNat n) := by decide +kernel
  simpa using hall ⟨c.toNat, ascii⟩

theorem isIdChar_of_beyond {c : Char} (beyond : 0x80 ≤ c.toNat) :
    isIdChar c = false ∧ c ∉ wordChars := by
  have hle {d : Char} (ascii : d.toNat < 0x80) : ¬ c ≤ d := fun h =>
    absurd (UInt32.le_iff_toNat_le.mp h) (Nat.not_le.mpr (Nat.lt_of_lt_of_le ascii beyond))
  have hne {d : Char} (ascii : d.toNat < 0x80) : c ≠ d := fun h => hle ascii (h ▸ Char.le_refl c)
  constructor
  · have hletter : ¬ c ≤ 'z' := hle (by decide)
    have hcapital : ¬ c ≤ 'Z' := hle (by decide)
    have hdigit : ¬ c ≤ '9' := hle (by decide)
    have hline : c ≠ '_' := hne (by decide)
    have hhyphen : c ≠ '-' := hne (by decide)
    simp [isIdChar, hletter, hcapital, hdigit, hline, hhyphen]
  · have hall : wordChars.all (fun c => decide (c.toNat < 0x80)) = true := by decide
    intro hmem
    have hascii : c.toNat < 0x80 := of_decide_eq_true (List.all_eq_true.mp hall c hmem)
    omega

theorem isIdChar_iff (c : Char) : isIdChar c = true ↔ c ∈ wordChars := by
  rcases Nat.lt_or_ge c.toNat 0x80 with hascii | hbeyond
  · exact (isIdChar_of_ascii hascii).1
  · simp [isIdChar_of_beyond hbeyond]

theorem isValidId_iff {s : String} : isValidId s = true ↔ IsWord s := by
  simp [isValidId, IsWord, isIdChar_iff]

theorem isIdByte_of_beyond {b : UInt8} (beyond : 0x80 ≤ b) : isIdByte b = false := by
  have hle {d : UInt8} (ascii : d < 0x80) : ¬ b ≤ d := fun h =>
    UInt8.not_le.mpr ascii (UInt8.le_trans beyond h)
  have hne {d : UInt8} (ascii : d < 0x80) : b ≠ d := fun h => hle ascii (h ▸ UInt8.le_refl b)
  have hletter : ¬ b ≤ 0x7A := hle (by decide)
  have hcapital : ¬ b ≤ 0x5A := hle (by decide)
  have hdigit : ¬ b ≤ 0x39 := hle (by decide)
  have hline : b ≠ 0x5F := hne (by decide)
  have hhyphen : b ≠ 0x2D := hne (by decide)
  simp [isIdByte, hletter, hcapital, hdigit, hline, hhyphen]

/-- A character may be in a name just when every byte of it may. -/
theorem all_isIdByte_utf8EncodeChar (c : Char) :
    (String.utf8EncodeChar c).all isIdByte = isIdChar c := by
  rcases Nat.lt_or_ge c.toNat 0x80 with hascii | hbeyond
  · simp [utf8EncodeChar_of_ascii hascii, (isIdChar_of_ascii hascii).2]
  · obtain ⟨b, bs, hbytes⟩ := List.exists_cons_of_ne_nil (String.utf8EncodeChar_ne_nil (c := c))
    have hb : 0x80 ≤ b := le_of_mem_utf8EncodeChar hbeyond (hbytes ▸ List.mem_cons_self)
    rw [(isIdChar_of_beyond hbeyond).1, hbytes, List.all_cons, isIdByte_of_beyond hb,
      Bool.false_and]

/-- Names can be told by their bytes as well as by their characters. -/
theorem isWord_iff_bytes {s : String} :
    IsWord s ↔ s ≠ "" ∧ ∀ b ∈ textBytes s, isIdByte b = true := by
  have hall : (textBytes s).all isIdByte = s.toList.all isIdChar := by
    rw [← String.ofList_toList (s := s), textBytes_ofList, charBytes, List.all_flatMap,
      String.toList_ofList]
    simp only [all_isIdByte_utf8EncodeChar]
  rw [← isValidId_iff, isValidId, Bool.and_eq_true, bne_iff_ne, ← hall, List.all_eq_true]

end RoomRelay.Http
