import Mathlib.Tactic.IntervalCases
import RoomRelay.Proofs.Json.Strings

/-!
How the parts of a value that were printed are read again: integers, words, and the marks of arrays
and objects. The reader may be in the middle of a number when this is all that was written, so that
what follows is said of any state that goes on as after the value.
-/

namespace RoomRelay.Json

mutual

/-- The value holds no double, and the fields of every object in it are in ascending order. -/
def Value.IsExact : Value → Prop
  | .number (.double _) => False
  | .array items => itemsExact items
  | .object fields => Fields.Ascending fields ∧ fieldsExact fields
  | _ => True

def itemsExact : List Value → Prop
  | [] => True
  | v :: rest => v.IsExact ∧ itemsExact rest

def fieldsExact : List (String × Value) → Prop
  | [] => True
  | (_, v) :: rest => v.IsExact ∧ fieldsExact rest

end

theorem itemsExact_strings (strings : List String) : itemsExact (strings.map .string) := by
  induction strings with
  | nil => trivial
  | cons s rest ih => exact ⟨trivial, ih⟩

theorem itemsDepth_strings (strings : List String) : itemsDepth (strings.map .string) = 0 := by
  induction strings with
  | nil => rfl
  | cons s rest ih => simp [itemsDepth, Value.depth, ih]

/-- What may follow a value inside a document without blanks. -/
def IsDelimiter (b : UInt8) : Prop :=
  b = 0x2C ∨ b = 0x5D ∨ b = 0x7D

/-- All of a value has been read: the state goes on as after the value, and so ends. A number is in
this state before it is known to be over. -/
structure State.Completes (s : State) (v : Value) (context : Context) : Prop where
  step : ∀ b, IsDelimiter b → s.step b = (State.after v context).step b
  finish : s.finish = (State.after v context).finish

theorem State.completes_after (v : Value) (context : Context) :
    (State.after v context).Completes v context := ⟨fun _ _ => rfl, rfl⟩

theorem completes_of_finish {state : NumberState} {n : Numeral} {v : Value}
    (ends : ∀ b, IsDelimiter b → state.mayEnd b = true) (finish : state.finish n = .ok v)
    (context : Context) : (State.number state n context).Completes v context := by
  constructor
  · intro b hb
    have hover : state.step n b = none := by
      rcases hb with rfl | rfl | rfl <;> cases state <;> rfl
    simp only [State.step, hover, ends b hb, finish, if_true]
    rfl
  · simp only [State.finish, finish]
    cases context <;> rfl

/-- A state in which a value may start. -/
def State.Expects (s : State) (context : Context) : Prop :=
  ∀ b, isBlank b = false → b ≠ 0x5D → s.step b = startValue context b

theorem State.expects_value (context : Context) : (State.value context).Expects context := by
  intro b hblank _
  simp [State.step, hblank]

theorem State.expects_firstItem (outer : Context) :
    (State.firstItem outer).Expects (.item [] outer) := by
  intro b hblank hother
  simp [State.step, hblank, hother]

/-! ### Numbers -/

theorem digitByte_digit {d : Nat} (h : d < 10) :
    String.utf8EncodeChar (Nat.digitChar d) = [digitByte d] ∧ digit? (digitByte d) = some d := by
  revert d
  decide

/-- The state of a whole number that has these digits so far, the latest first. -/
def wholeState (m : Nat) : NumberState :=
  if m = 0 then .zero else .whole

theorem ofDigits_append_singleton (ds : List Nat) (d : Nat) :
    ofDigits (ds ++ [d]) = ofDigits ds * 10 + d := by
  simp [ofDigits]

/-- A state that takes the first digit of a number. -/
def State.TakesDigits (s : State) (negative : Bool) (context : Context) : Prop :=
  ∀ d < 10, s.step (digitByte d) =
    .ok (.number (wholeState d) ⟨negative, [d], [], none⟩ context)

theorem State.Expects.takesDigits {s : State} {context : Context} (h : s.Expects context) :
    s.TakesDigits false context := by
  intro d hd
  have hstep := h (digitByte d)
  interval_cases d <;> exact hstep rfl (by decide)

theorem takesDigits_minus (context : Context) :
    (State.number .minus ⟨true, [], [], none⟩ context).TakesDigits true context := by
  intro d hd
  interval_cases d <;> rfl

/-- The digits of a number are read from the front. By induction on all of them but the last, since
what has been read so far is a number as well. -/
theorem reads_toDigits {s : State} {negative : Bool} {context : Context}
    (takes : s.TakesDigits negative context) (m : Nat) :
    ∃ ds : List Nat, ofDigits ds.reverse = m ∧
      s.Reads (Nat.toDigits 10 m) (.number (wholeState m) ⟨negative, ds, [], none⟩ context) := by
  induction m using Nat.strongRecOn with
  | ind m ih =>
      rcases Nat.lt_or_ge m 10 with hsmall | hlarge
      · rw [Nat.toDigits_of_lt_base hsmall]
        refine ⟨[m], by simp [ofDigits], ?_⟩
        exact .singleton (digitByte_digit hsmall).1 (takes m hsmall)
      · obtain ⟨ds, hvalue, hreads⟩ := ih (m / 10) (by omega)
        have hlast : m % 10 < 10 := Nat.mod_lt m (by decide)
        obtain ⟨hbyte, hdigit⟩ := digitByte_digit hlast
        have hwhole : wholeState (m / 10) = .whole := if_neg (by omega)
        have hwhole' : wholeState m = .whole := if_neg (by omega)
        rw [Nat.toDigits_of_base_le (by decide) hlarge, hwhole']
        refine ⟨m % 10 :: ds, ?_, ?_⟩
        · rw [List.reverse_cons, ofDigits_append_singleton, hvalue]
          omega
        · rw [hwhole] at hreads
          refine hreads.trans (.singleton hbyte ?_)
          simp only [State.step, NumberState.step, hdigit]
          rfl

theorem finish_wholeState {n : Int} (isWord : IsWord n) {negative : Bool} {ds : List Nat}
    (sign : negative = decide (n < 0)) (magnitude : ofDigits ds.reverse = n.natAbs) :
    (wholeState n.natAbs).finish ⟨negative, ds, [], none⟩ = .ok (.number (.word n isWord)) := by
  have hsigned : (if negative = true then -(ofDigits ds.reverse : Int) else ofDigits ds.reverse) =
      n := by
    simp only [sign, magnitude, decide_eq_true_eq]
    split <;> omega
  have hzero : ¬ (negative = true ∧ n = 0) := by
    rw [sign, decide_eq_true_eq]
    omega
  have hnumber : Numeral.number? ⟨negative, ds.reverse, [], none⟩ = some (.word n isWord) := by
    unfold Numeral.number?
    simp only [hsigned]
    exact dif_pos ⟨trivial, trivial, isWord, hzero⟩
  unfold wholeState
  split <;> simp only [NumberState.finish, List.reverse_nil, hnumber] <;> rfl

theorem completes_number {n : Int} (isWord : IsWord n) {negative : Bool} {ds : List Nat}
    (sign : negative = decide (n < 0)) (magnitude : ofDigits ds.reverse = n.natAbs)
    (context : Context) :
    (State.number (wholeState n.natAbs) ⟨negative, ds, [], none⟩ context).Completes
      (.number (.word n isWord)) context := by
  refine completes_of_finish (fun b hb => ?_) (finish_wholeState isWord sign magnitude) context
  unfold wholeState
  rcases hb with rfl | rfl | rfl <;> split <;> rfl

theorem chars_word {n : Int} (isWord : IsWord n) :
    (Number.word n isWord).chars =
      if n < 0 then '-' :: Nat.toDigits 10 n.natAbs else Nat.toDigits 10 n.natAbs := by
  have hrepr : (Number.word n isWord).chars = n.repr.toList := rfl
  rw [hrepr]
  cases n with
  | ofNat m => simp [Int.repr, Nat.repr_eq_ofList_toDigits]
  | negSucc m => simp [Int.repr, Nat.repr_eq_ofList_toDigits, Int.negSucc_lt_zero]

theorem reads_number {n : Int} (isWord : IsWord n) {s : State} {context : Context}
    (h : s.Expects context) :
    ∃ t, s.Reads (Number.word n isWord).chars t ∧
      t.Completes (.number (.word n isWord)) context := by
  rw [chars_word]
  split
  · rename_i hneg
    obtain ⟨ds, hvalue, hreads⟩ := reads_toDigits (takesDigits_minus context) n.natAbs
    have hminus : s.step 0x2D = .ok (.number .minus ⟨true, [], [], none⟩ context) :=
      h 0x2D rfl (by decide)
    exact ⟨_, .cons rfl hminus hreads, completes_number isWord (by simp [hneg]) hvalue context⟩
  · rename_i hnonneg
    obtain ⟨ds, hvalue, hreads⟩ := reads_toDigits h.takesDigits n.natAbs
    exact ⟨_, hreads, completes_number isWord (by simpa using hnonneg) hvalue context⟩

/-! ### Values -/

theorem reads_literal {s : State} {context : Context} {v : Value} {c : Char} {b : UInt8}
    {cs : List Char} {left : Bytes} (h : s.Expects context) (byte : String.utf8EncodeChar c = [b])
    (start : startValue context b = .ok (.literal left v context)) (blank : isBlank b = false)
    (other : b ≠ 0x5D) (rest : (State.literal left v context).Reads cs (.after v context)) :
    ∃ t, s.Reads (c :: cs) t ∧ t.Completes v context :=
  ⟨_, .cons byte ((h b blank other).trans start) rest, State.completes_after v context⟩

theorem insert_eq_append {fields : List (String × Value)} (key : String) (v : Value)
    (h : ∀ f ∈ fields, f.1 < key) : Fields.insert key v fields = fields ++ [(key, v)] := by
  induction fields with
  | nil => rfl
  | cons f rest ih =>
      have hlt := h f List.mem_cons_self
      have hnot : ¬ key < f.1 := fun hkey => String.lt_irrefl key (String.lt_trans hkey hlt)
      have hne : key ≠ f.1 := fun heq => String.lt_irrefl f.1 (heq ▸ hlt)
      rw [Fields.insert, if_neg hnot, if_neg hne, List.cons_append,
        ih fun g hg => h g (List.mem_cons_of_mem f hg)]

/-- The fields of an object into which these are read after those before. -/
def Fields.insertAll (fields before : List (String × Value)) : List (String × Value) :=
  fields.foldl (fun held f => Fields.insert f.1 f.2 held) before

/-- Fields that are read in the order of their keys stay in this order. -/
theorem insertAll_eq_append {fields before : List (String × Value)}
    (h : Fields.Ascending (before ++ fields)) :
    Fields.insertAll fields before = before ++ fields := by
  induction fields generalizing before with
  | nil => exact (List.append_nil before).symm
  | cons f rest ih =>
      have hinsert : Fields.insert f.1 f.2 before = before ++ [f] :=
        insert_eq_append f.1 f.2
          fun g hg => (List.pairwise_append.mp h).2.2 g hg f List.mem_cons_self
      have hrest : before ++ f :: rest = before ++ [f] ++ rest := by simp
      rw [hrest] at h ⊢
      change Fields.insertAll rest (Fields.insert f.1 f.2 before) = _
      rw [hinsert, ih h]

theorem insertAll_of_ascending {fields : List (String × Value)} (h : Fields.Ascending fields) :
    Fields.insertAll fields [] = fields := by
  rw [← List.nil_append fields] at h
  exact insertAll_eq_append h

/-- The name of a field is read up to its colon. -/
theorem reads_fieldName {s : State} {before : List (String × Value)} {outer : Context}
    (h : s.step 0x22 = .ok (.text .plain [] (.key before outer))) (key : String) :
    s.Reads (quoted key ++ [':']) (.value (.field before key outer)) := by
  have hname : s.Reads (quoted key) (.colon before key outer) :=
    .cons rfl h (reads_string key (.key before outer))
  exact hname.trans (.singleton rfl rfl)

theorem startValue_bracket (context : Context) :
    startValue context 0x5B =
      if context.depth < maxDepth then .ok (.firstItem context) else .error .malformed := rfl

theorem startValue_brace (context : Context) :
    startValue context 0x7B =
      if context.depth < maxDepth then .ok (.firstKey context) else .error .malformed := rfl

theorem step_bracket {s : State} {context : Context} (h : s.Expects context)
    (depth : context.depth < maxDepth) : s.step 0x5B = .ok (.firstItem context) := by
  rw [h 0x5B rfl (by decide), startValue_bracket, if_pos depth]

theorem step_brace {s : State} {context : Context} (h : s.Expects context)
    (depth : context.depth < maxDepth) : s.step 0x7B = .ok (.firstKey context) := by
  rw [h 0x7B rfl (by decide), startValue_brace, if_pos depth]

end RoomRelay.Json
