import RoomRelay.Proofs.Decimal.Width
import RoomRelay.Proofs.Json.Moves
import RoomRelay.Proofs.Json.Reading

/-!
How long a value becomes when it is written again. What the reader holds, written down, grows by at
most twenty-six bytes with every byte that is read, and so a value that was read is never written
with more than twenty-six times the bytes that it was read from.
-/

namespace RoomRelay

theorem length_charBytes_cons (c : Char) (cs : List Char) :
    (charBytes (c :: cs)).length = c.utf8Size + (charBytes cs).length := by
  simp [charBytes]

theorem length_charBytes_append (cs ds : List Char) :
    (charBytes (cs ++ ds)).length = (charBytes cs).length + (charBytes ds).length := by
  rw [charBytes_append, List.length_append]

theorem length_charBytes_of_fits {n : Nat} {cs : List Char} (h : Decimal.Fits n cs) :
    (charBytes cs).length ≤ n := by
  have hbytes : (charBytes cs).length = cs.length := by
    have hascii := h.ascii
    clear h
    induction cs with
    | nil => rfl
    | cons c rest ih =>
        obtain ⟨hc, hrest⟩ := Decimal.isAscii_cons.mp hascii
        rw [length_charBytes_cons, hc, ih hrest, List.length_cons, Nat.add_comm]
  rw [hbytes]
  exact h.length

namespace Json

/-- The bytes of what is written. -/
def Value.size (v : Value) : Nat := (charBytes v.chars).length

def nameSize (s : String) : Nat := (charBytes (quoted s)).length

/-- What items take inside an array, each with a comma. -/
def itemsSize (items : List Value) : Nat :=
  (items.map fun v => v.size + 1).sum

/-- What fields take inside an object, each with a colon and a comma. -/
def fieldsSize (fields : List (String × Value)) : Nat :=
  (fields.map fun f => nameSize f.1 + f.2.size + 2).sum

theorem itemsSize_cons (v : Value) (items : List Value) :
    itemsSize (v :: items) = v.size + 1 + itemsSize items := rfl

theorem fieldsSize_cons (name : String) (v : Value) (fields : List (String × Value)) :
    fieldsSize ((name, v) :: fields) = nameSize name + v.size + 2 + fieldsSize fields := rfl

theorem itemsSize_reverse (items : List Value) : itemsSize items.reverse = itemsSize items := by
  rw [itemsSize, List.map_reverse, List.sum_reverse, itemsSize]

/-! ### Values -/

theorem length_escapeChar (c : Char) : (charBytes (escapeChar c)).length ≤ 6 * c.utf8Size := by
  have hpos := c.utf8Size_pos
  unfold escapeChar
  cases hletter : escapeLetter? c with
  | some letter =>
      have hsize : letter.utf8Size = 1 := by
        unfold escapeLetter? at hletter
        split_ifs at hletter <;> cases hletter <;> rfl
      simp only [length_charBytes_cons, hsize]
      change 1 + (1 + 0) ≤ _
      omega
  | none =>
      simp only
      split
      · have hdigit (d : Nat) : (Nat.digitChar d).utf8Size = 1 :=
          Decimal.utf8Size_of_mem_alphabet (Decimal.digitChar_mem_alphabet d)
        simp only [length_charBytes_cons, hdigit]
        change 1 + (1 + (1 + (1 + (1 + (1 + 0))))) ≤ _
        omega
      · rw [length_charBytes_cons]
        change c.utf8Size + 0 ≤ _
        omega

theorem nameSize_le (s : String) : nameSize s ≤ 6 * (textBytes s).length + 2 := by
  have hescapes (cs : List Char) :
      (charBytes (cs.flatMap escapeChar)).length ≤ 6 * (charBytes cs).length := by
    induction cs with
    | nil => exact Nat.le_refl _
    | cons c rest ih =>
        have hc := length_escapeChar c
        rw [List.flatMap_cons, length_charBytes_append, length_charBytes_cons]
        omega
  have hbytes : textBytes s = charBytes s.toList := by
    rw [← textBytes_ofList, String.ofList_toList]
  have hall := hescapes s.toList
  rw [nameSize, quoted, length_charBytes_cons, length_charBytes_append, hbytes]
  change 1 + (_ + 1) ≤ _
  omega

theorem size_number_le (n : Number) : (Value.number n).size ≤ 25 := by
  apply length_charBytes_of_fits
  cases n with
  | word n isWord =>
      have hlength : (Nat.toDigits 10 n.natAbs).length ≤ 20 := by
        apply Nat.toDigits_length 10 _ 20 (by decide)
        obtain ⟨hlow, hhigh⟩ := isWord
        omega
      change Decimal.Fits 25 (Number.word n isWord).chars
      rw [chars_word]
      split
      · exact ⟨by rw [List.length_cons]; omega, Decimal.isAscii_of_subset (by simp +decide)⟩
      · exact ⟨by omega, Decimal.isAscii_of_subset (Decimal.toDigits_subset _)⟩
  | double x =>
      change Decimal.Fits 25 ((doubleLayout.writeDouble? x).getD "null".toList)
      cases hx : doubleLayout.writeDouble? x with
      | some cs => exact Decimal.Layout.fits_writeDouble? (by decide) (by decide) hx
      | none => exact ⟨by decide, by simp +decide⟩

theorem size_string (s : String) : (Value.string s).size = nameSize s := rfl

theorem size_array (items : List Value) :
    (Value.array items).size = (charBytes (itemsChars items)).length + 2 := by
  change (charBytes ('[' :: (itemsChars items ++ [']']))).length = _
  rw [length_charBytes_cons, length_charBytes_append]
  change 1 + (_ + 1) = _
  omega

theorem size_object (fields : List (String × Value)) :
    (Value.object fields).size = (charBytes (fieldsChars fields)).length + 2 := by
  change (charBytes ('\x7b' :: (fieldsChars fields ++ ['\x7d']))).length = _
  rw [length_charBytes_cons, length_charBytes_append]
  change 1 + (_ + 1) = _
  omega

theorem length_itemsChars (items : List Value) :
    (charBytes (itemsChars items)).length ≤ itemsSize items := by
  induction items with
  | nil => exact Nat.le_refl _
  | cons v rest ih =>
      cases rest with
      | nil => exact Nat.le_add_right _ _
      | cons w rest =>
          rw [itemsChars, length_charBytes_append, length_charBytes_cons, itemsSize_cons]
          change v.size + (1 + _) ≤ _
          omega

theorem length_fieldsChars (fields : List (String × Value)) :
    (charBytes (fieldsChars fields)).length ≤ fieldsSize fields := by
  induction fields with
  | nil => exact Nat.le_refl _
  | cons f rest ih =>
      obtain ⟨key, v⟩ := f
      cases rest with
      | nil =>
          rw [fieldsChars, length_charBytes_append, length_charBytes_cons, fieldsSize_cons]
          change nameSize key + (1 + v.size) ≤ _
          omega
      | cons g rest =>
          rw [fieldsChars, length_charBytes_append, length_charBytes_cons,
            length_charBytes_append, length_charBytes_cons, fieldsSize_cons]
          change nameSize key + (1 + (v.size + (1 + _))) ≤ _
          omega

theorem size_array_le (items : List Value) : (Value.array items).size ≤ itemsSize items + 2 := by
  rw [size_array]
  exact Nat.add_le_add_right (length_itemsChars items) 2

theorem size_object_le (fields : List (String × Value)) :
    (Value.object fields).size ≤ fieldsSize fields + 2 := by
  rw [size_object]
  exact Nat.add_le_add_right (length_fieldsChars fields) 2

/-- A field takes the place of an earlier one of its name. -/
theorem fieldsSize_insert_le (key : String) (v : Value) (fields : List (String × Value)) :
    fieldsSize (Fields.insert key v fields) ≤ nameSize key + v.size + 2 + fieldsSize fields := by
  induction fields with
  | nil => exact Nat.le_refl _
  | cons f rest ih =>
      obtain ⟨k, w⟩ := f
      simp only [Fields.insert]
      split
      · exact Nat.le_refl _
      · split
        · simp only [fieldsSize_cons]
          omega
        · simp only [fieldsSize_cons]
          omega

/-! ### The reader -/

/-- What the open containers take, written down as far as they have been read. -/
def Context.size : Context → Nat
  | .top => 0
  | .item before outer => itemsSize before + 2 + outer.size
  | .field before key outer => fieldsSize before + nameSize key + 4 + outer.size

def Purpose.size : Purpose → Nat
  | .value context => context.size
  | .key before outer => fieldsSize before + 4 + outer.size

/-- What the reader holds, written down. Of a string it may be all escapes, and a number counts in
full from its first byte on. -/
def State.size : State → Nat
  | .value context => context.size
  | .firstItem outer => outer.size + 2
  | .firstKey outer => outer.size + 2
  | .key before outer => fieldsSize before + 2 + outer.size
  | .colon before name outer => fieldsSize before + nameSize name + 4 + outer.size
  | .literal _ v context => v.size + context.size
  | .text _ read purpose => 6 * read.length + 2 + purpose.size
  | .number _ _ context => 25 + context.size
  | .after v context => v.size + context.size

theorem size_ends {s : State} {v : Value} {context : Context} (h : s.Ends v context) :
    v.size + context.size ≤ s.size := by
  cases h with
  | literal => exact Nat.le_refl _
  | number state numeral n => exact Nat.add_le_add_right (size_number_le n) _
  | after => exact Nat.le_refl _

theorem size_awaits {s : State} {context : Context} (h : s.Awaits context) :
    context.size = s.size := by
  cases h with
  | value => rfl
  | firstItem outer =>
      change 0 + 2 + outer.size = outer.size + 2
      omega

theorem size_starts {context : Context} {t : State} (h : Starts context t) :
    t.size ≤ context.size + 25 := by
  have hliteral (left : Bytes) {v : Value} (hv : v.size ≤ 25) :
      (State.literal left v context).size ≤ context.size + 25 := by
    simp only [State.size]
    omega
  cases h with
  | null left => exact hliteral left (by decide)
  | bool left b =>
      cases b with
      | true => exact hliteral left (by decide)
      | false => exact hliteral left (by decide)
  | text =>
      change 6 * 0 + 2 + context.size ≤ context.size + 25
      omega
  | number => exact (Nat.add_comm 25 context.size).le
  | array => exact Nat.add_le_add_left (by decide) _
  | object => exact Nat.add_le_add_left (by decide) _

theorem size_follows {v : Value} {context : Context} {t : State} (h : Follows v context t) :
    t.size ≤ v.size + context.size + 1 := by
  cases h with
  | blank => exact Nat.le_add_right _ _
  | nextItem before outer =>
      simp only [State.size, Context.size, itemsSize_cons]
      omega
  | array before outer =>
      have harray := size_array_le (v :: before).reverse
      rw [itemsSize_reverse, itemsSize_cons] at harray
      simp only [State.size, Context.size]
      omega
  | nextKey before key outer =>
      have hinsert := fieldsSize_insert_le key v before
      simp only [State.size, Context.size]
      omega
  | object before key outer =>
      have hinsert := fieldsSize_insert_le key v before
      have hobject := size_object_le (Fields.insert key v before)
      simp only [State.size, Context.size]
      omega

theorem size_complete {read : Bytes} {s : String} (p : Purpose)
    (h : textOfBytes? read.reverse = some s) :
    (p.complete s).size ≤ 6 * read.length + 2 + p.size := by
  have hname := nameSize_le s
  rw [textBytes_of_textOfBytes? h, List.length_reverse] at hname
  cases p with
  | value context =>
      change nameSize s + context.size ≤ 6 * read.length + 2 + context.size
      omega
  | key before outer =>
      change fieldsSize before + nameSize s + 4 + outer.size ≤
        6 * read.length + 2 + (fieldsSize before + 4 + outer.size)
      omega

/-- A byte that is read adds at most twenty-six bytes to what is written. -/
theorem size_moves {s t : State} (h : s.Moves t) : t.size ≤ s.size + 26 := by
  cases h with
  | stay => exact Nat.le_add_right _ _
  | start awaits starts =>
      have hstarts := size_starts starts
      rw [size_awaits awaits] at hstarts
      omega
  | follow ends follows =>
      have hends := size_ends ends
      have hfollows := size_follows follows
      omega
  | emptyArray outer =>
      change 2 + outer.size ≤ outer.size + 2 + 26
      omega
  | emptyObject outer =>
      change 2 + outer.size ≤ outer.size + 2 + 26
      omega
  | firstKey outer =>
      change 0 + 2 + (0 + 4 + outer.size) ≤ outer.size + 2 + 26
      omega
  | key before outer =>
      change 0 + 2 + (fieldsSize before + 4 + outer.size) ≤
        fieldsSize before + 2 + outer.size + 26
      omega
  | colon => exact Nat.le_add_right _ _
  | literal => exact Nat.le_add_right _ _
  | literalEnd => exact Nat.le_add_right _ _
  | text state next read more p few =>
      simp only [State.size, List.length_append]
      omega
  | textEnd state read text p whole =>
      exact (size_complete p whole).trans (Nat.le_add_right _ _)
  | number => exact Nat.le_add_right _ _

/-- Written again, a document takes at most twenty-six times the bytes that it was read from. -/
theorem size_parse {input : Bytes} {v : Value} (h : parse input = .ok v) :
    v.size ≤ 26 * input.length := by
  obtain ⟨t, hread, hends⟩ := parse_cases h
  have hall : t.size ≤ 26 * (0 + input.length) := by
    apply foldlM_rule (P := fun n s => s.size ≤ 26 * n) _ hread (Nat.zero_le _)
    intro n s t hmoves hs
    have hmove := size_moves hmoves
    omega
  have hv := size_ends hends
  change v.size + 0 ≤ t.size at hv
  omega

end Json

end RoomRelay
