import Mathlib.Tactic.SplitIfs
import RoomRelay.Json.Reader

/-!
What one byte may do to the reader, said once: in any state a byte starts a value, ends one, opens
or closes a container, or adds to what is being read. Whatever holds of everything that is read is
shown for these moves and carried along the input by `foldlM_rule` and `parse_cases`.
-/

namespace RoomRelay.Json

/-- A value may start here. -/
inductive State.Awaits : State → Context → Prop where
  | value (context : Context) : Awaits (.value context) context
  | firstItem (outer : Context) : Awaits (.firstItem outer) (.item [] outer)

/-- All of a value has been read. -/
inductive State.Ends : State → Value → Context → Prop where
  | literal (v : Value) (context : Context) : Ends (.literal [] v context) v context
  | number (state : NumberState) (numeral : Numeral) (n : Number) (context : Context) :
      Ends (.number state numeral context) (.number n) context
  | after (v : Value) (context : Context) : Ends (.after v context) v context

/-- What the first byte of a value may lead to. -/
inductive Starts (context : Context) : State → Prop where
  | null (left : Bytes) : Starts context (.literal left .null context)
  | bool (left : Bytes) (b : Bool) : Starts context (.literal left (.bool b) context)
  | text : Starts context (.text .plain [] (.value context))
  | number (state : NumberState) (numeral : Numeral) :
      Starts context (.number state numeral context)
  | array (shallow : context.depth < maxDepth) : Starts context (.firstItem context)
  | object (shallow : context.depth < maxDepth) : Starts context (.firstKey context)

/-- What the byte after a value may lead to. -/
inductive Follows (v : Value) : Context → State → Prop where
  | blank (context : Context) : Follows v context (.after v context)
  | nextItem (before : List Value) (outer : Context) :
      Follows v (.item before outer) (.value (.item (v :: before) outer))
  | array (before : List Value) (outer : Context) :
      Follows v (.item before outer) (.after (.array (v :: before).reverse) outer)
  | nextKey (before : List (String × Value)) (key : String) (outer : Context) :
      Follows v (.field before key outer) (.key (Fields.insert key v before) outer)
  | object (before : List (String × Value)) (key : String) (outer : Context) :
      Follows v (.field before key outer) (.after (.object (Fields.insert key v before)) outer)

/-- What one byte may lead to. -/
inductive State.Moves : State → State → Prop where
  | stay (s : State) : Moves s s
  | start {s t : State} {context : Context} (awaits : s.Awaits context)
      (starts : Starts context t) : Moves s t
  | follow {s t : State} {v : Value} {context : Context} (ends : s.Ends v context)
      (follows : Follows v context t) : Moves s t
  | emptyArray (outer : Context) : Moves (.firstItem outer) (.after (.array []) outer)
  | emptyObject (outer : Context) : Moves (.firstKey outer) (.after (.object []) outer)
  | firstKey (outer : Context) : Moves (.firstKey outer) (.text .plain [] (.key [] outer))
  | key (before : List (String × Value)) (outer : Context) :
      Moves (.key before outer) (.text .plain [] (.key before outer))
  | colon (before : List (String × Value)) (name : String) (outer : Context) :
      Moves (.colon before name outer) (.value (.field before name outer))
  | literal (left rest : Bytes) (v : Value) (context : Context) :
      Moves (.literal left v context) (.literal rest v context)
  | literalEnd (left : Bytes) (v : Value) (context : Context) :
      Moves (.literal left v context) (.after v context)
  | text (state next : TextState) (read more : Bytes) (p : Purpose) (few : more.length ≤ 4) :
      Moves (.text state read p) (.text next (more ++ read) p)
  | textEnd (state : TextState) (read : Bytes) (s : String) (p : Purpose)
      (whole : textOfBytes? read.reverse = some s) : Moves (.text state read p) (p.complete s)
  | number (state next : NumberState) (numeral longer : Numeral) (context : Context) :
      Moves (.number state numeral context) (.number next longer context)

theorem starts_startValue {context : Context} {b : UInt8} {t : State}
    (h : startValue context b = .ok t) : Starts context t := by
  unfold startValue at h
  split_ifs at h with _ _ _ _ _ _ harray _ hobject
  · cases h
    exact .null _
  · cases h
    exact .bool _ true
  · cases h
    exact .bool _ false
  · cases h
    exact .text
  · cases h
    exact .number _ _
  · cases h
    exact .array harray
  · cases h
    exact .object hobject
  · split at h
    · cases h
      exact .number _ _
    · cases h

theorem follows_afterValue {v : Value} {context : Context} {b : UInt8} {t : State}
    (h : afterValue v context b = .ok t) : Follows v context t := by
  unfold afterValue at h
  split at h
  · cases h
    exact .blank context
  · cases context with
    | top => cases h
    | item before outer =>
        simp only at h
        split_ifs at h
        · cases h
          exact .nextItem before outer
        · cases h
          exact .array before outer
    | field before key outer =>
        simp only at h
        split_ifs at h
        · cases h
          exact .nextKey before key outer
        · cases h
          exact .object before key outer

theorem length_utf8_le (codePoint : Nat) : (utf8 codePoint).length ≤ 4 := by
  rw [utf8, String.length_utf8EncodeChar]
  exact Char.utf8Size_le_four _

theorem moves_afterDigits {state : TextState} {bs : Bytes} {lead : Option Nat} {read : Bytes}
    {p : Purpose} {t : State} (h : afterDigits bs lead read p = .ok t) :
    (State.text state read p).Moves t := by
  have hread (codePoint : Nat) :
      (State.text state read p).Moves (.text .plain ((utf8 codePoint).reverse ++ read) p) :=
    .text state .plain read _ p (by rw [List.length_reverse]; exact length_utf8_le codePoint)
  unfold afterDigits at h
  split at h
  · cases h
  · split_ifs at h
    · cases h
      exact .text state _ read [] p (Nat.zero_le 4)
    · cases h
      exact hread _
  · split_ifs at h
    cases h
    exact hread _

theorem moves_text {state : TextState} {read : Bytes} {p : Purpose} {b : UInt8} {t : State}
    (h : state.step read p b = .ok t) : (State.text state read p).Moves t := by
  have hsame (next : TextState) : (State.text state read p).Moves (.text next read p) :=
    .text state next read [] p (Nat.zero_le 4)
  have hcons (c : UInt8) : (State.text state read p).Moves (.text .plain (c :: read) p) :=
    .text state .plain read [c] p (by simp)
  unfold TextState.step at h
  cases state with
  | plain =>
      simp only at h
      split_ifs at h
      · split at h
        · rename_i s hs
          cases h
          exact .textEnd .plain read s p hs
        · cases h
      · cases h
        exact hsame _
      · cases h
        exact hcons b
  | escape =>
      simp only at h
      split_ifs at h
      · cases h
        exact hsame _
      · split at h
        · cases h
          exact hcons _
        · cases h
  | digits taken lead =>
      simp only at h
      split_ifs at h
      · exact moves_afterDigits h
      · cases h
        exact hsame _
  | halfEscape lead =>
      simp only at h
      split_ifs at h
      cases h
      exact hsame _
  | halfMark lead =>
      simp only at h
      split_ifs at h
      cases h
      exact hsame _

theorem exists_number_of_finish {state : NumberState} {numeral : Numeral} {v : Value}
    (h : state.finish numeral = .ok v) : ∃ n, v = .number n := by
  unfold NumberState.finish at h
  extract_lets complete at h
  have hcomplete {longer : Numeral} (hn : complete longer = .ok v) : ∃ n, v = .number n := by
    simp only [complete] at hn
    split at hn
    · rename_i n _
      cases hn
      exact ⟨n, rfl⟩
    · cases hn
  cases state with
  | zero => exact hcomplete h
  | whole => exact hcomplete h
  | fraction => exact hcomplete h
  | power negative digits => exact hcomplete h
  | minus => cases h
  | point => cases h
  | mark => cases h
  | sign negative => cases h

/-- A number that is over is followed by what comes after a value. -/
theorem moves_number {state : NumberState} {numeral : Numeral} {context : Context} {b : UInt8}
    {t : State} (h : (State.number state numeral context).step b = .ok t) :
    (State.number state numeral context).Moves t := by
  simp only [State.step] at h
  split at h
  · cases h
    exact .number state _ numeral _ context
  · split at h
    · cases hv : state.finish numeral with
      | error e =>
          rw [hv] at h
          cases h
      | ok v =>
          rw [hv] at h
          obtain ⟨n, rfl⟩ := exists_number_of_finish hv
          exact .follow (.number state numeral n context) (follows_afterValue h)
    · cases h

/-- Every byte that is read is one of the moves. -/
theorem moves_step {s t : State} {b : UInt8} (h : s.step b = .ok t) : s.Moves t := by
  cases s with
  | value context =>
      simp only [State.step] at h
      split at h
      · cases h
        exact .stay _
      · exact .start (.value context) (starts_startValue h)
  | firstItem outer =>
      simp only [State.step] at h
      split_ifs at h
      · cases h
        exact .stay _
      · cases h
        exact .emptyArray outer
      · exact .start (.firstItem outer) (starts_startValue h)
  | firstKey outer =>
      simp only [State.step] at h
      split_ifs at h
      · cases h
        exact .stay _
      · cases h
        exact .firstKey outer
      · cases h
        exact .emptyObject outer
  | key before outer =>
      simp only [State.step] at h
      split_ifs at h
      · cases h
        exact .stay _
      · cases h
        exact .key before outer
  | colon before name outer =>
      simp only [State.step] at h
      split_ifs at h
      · cases h
        exact .stay _
      · cases h
        exact .colon before name outer
  | literal left v context =>
      match left, h with
      | [], h => exact .follow (.literal v context) (follows_afterValue h)
      | [last], h =>
          simp only [State.step] at h
          split_ifs at h
          cases h
          exact .literalEnd [last] v context
      | next :: more :: left, h =>
          simp only [State.step] at h
          split_ifs at h
          cases h
          exact .literal (next :: more :: left) (more :: left) v context
  | text state read purpose => exact moves_text h
  | number state numeral context => exact moves_number h
  | after v context => exact .follow (.after v context) (follows_afterValue h)

/-- Input that is read has its first byte read first. -/
theorem exists_of_foldlM_cons {b : UInt8} {rest : Bytes} {s t : State}
    (h : (b :: rest).foldlM State.step s = .ok t) :
    ∃ u, s.step b = .ok u ∧ rest.foldlM State.step u = .ok t := by
  rw [List.foldlM_cons] at h
  cases hb : s.step b with
  | error e =>
      rw [hb] at h
      cases h
  | ok u =>
      rw [hb] at h
      exact ⟨u, rfl, h⟩

/-- What holds after `n` bytes and is carried on by every move holds at the end of the input. -/
theorem foldlM_rule {P : Nat → State → Prop}
    (keeps : ∀ n s t, State.Moves s t → P n s → P (n + 1) t) {input : Bytes} {n : Nat}
    {s t : State} (h : input.foldlM State.step s = .ok t) (start : P n s) :
    P (n + input.length) t := by
  induction input generalizing n s with
  | nil =>
      cases h
      exact start
  | cons b rest ih =>
      obtain ⟨u, hb, hrest⟩ := exists_of_foldlM_cons h
      have hall := ih hrest (keeps n s u (moves_step hb) start)
      rwa [List.length_cons, Nat.add_comm rest.length 1, ← Nat.add_assoc]

theorem ends_finish {s : State} {v : Value} (h : s.finish = .ok v) : s.Ends v .top := by
  unfold State.finish at h
  split at h
  · cases h
    exact .after v .top
  · rename_i state numeral context
    cases hv : state.finish numeral with
    | error e =>
        rw [hv] at h
        cases h
    | ok w =>
        rw [hv] at h
        obtain ⟨n, rfl⟩ := exists_number_of_finish hv
        cases context with
        | top =>
            cases h
            exact .number state numeral n .top
        | item before outer => cases h
        | field before key outer => cases h
  · cases h

/-- A document is read up to a state in which all of its value has been read. -/
theorem parse_cases {input : Bytes} {v : Value} (h : parse input = .ok v) :
    ∃ t, input.foldlM State.step (.value .top) = .ok t ∧ t.Ends v .top := by
  unfold parse at h
  cases hread : input.foldlM State.step (.value .top) with
  | error e =>
      rw [hread] at h
      cases h
  | ok t =>
      rw [hread] at h
      exact ⟨t, rfl, ends_finish h⟩

end RoomRelay.Json
