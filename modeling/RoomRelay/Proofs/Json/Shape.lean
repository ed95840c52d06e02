import RoomRelay.Proofs.Json.Moves
import RoomRelay.Proofs.Json.Reading

/-!
The shape of what is read: objects have their fields in the order of the keys, and nothing is nested
deeper than a document may be. So a value that was read can be written and read again without a
change, provided that all its numbers are words.
-/

namespace RoomRelay.Json

mutual

/-- The fields of every object in the value are in ascending order. -/
def Value.IsOrdered : Value → Prop
  | .array items => itemsOrdered items
  | .object fields => Fields.Ascending fields ∧ fieldsOrdered fields
  | _ => True

def itemsOrdered : List Value → Prop
  | [] => True
  | v :: rest => v.IsOrdered ∧ itemsOrdered rest

def fieldsOrdered : List (String × Value) → Prop
  | [] => True
  | (_, v) :: rest => v.IsOrdered ∧ fieldsOrdered rest

end

mutual

/-- All numbers in the value are words. -/
def Value.OnlyWords : Value → Prop
  | .number (.double _) => False
  | .array items => itemsOnlyWords items
  | .object fields => fieldsOnlyWords fields
  | _ => True

def itemsOnlyWords : List Value → Prop
  | [] => True
  | v :: rest => v.OnlyWords ∧ itemsOnlyWords rest

def fieldsOnlyWords : List (String × Value) → Prop
  | [] => True
  | (_, v) :: rest => v.OnlyWords ∧ fieldsOnlyWords rest

end

mutual

theorem Value.IsOrdered.isExact : ∀ {v : Value}, v.IsOrdered → v.OnlyWords → v.IsExact
  | .null, _, _ => trivial
  | .bool _, _, _ => trivial
  | .number (.word _ _), _, _ => trivial
  | .string _, _, _ => trivial
  | .array _, ordered, words => itemsExact_of_ordered ordered words
  | .object _, ordered, words => ⟨ordered.1, fieldsExact_of_ordered ordered.2 words⟩

theorem itemsExact_of_ordered :
    ∀ {items : List Value}, itemsOrdered items → itemsOnlyWords items → itemsExact items
  | [], _, _ => trivial
  | _ :: _, ordered, words =>
      ⟨ordered.1.isExact words.1, itemsExact_of_ordered ordered.2 words.2⟩

theorem fieldsExact_of_ordered :
    ∀ {fields : List (String × Value)}, fieldsOrdered fields → fieldsOnlyWords fields →
      fieldsExact fields
  | [], _, _ => trivial
  | (_, _) :: _, ordered, words =>
      ⟨ordered.1.isExact words.1, fieldsExact_of_ordered ordered.2 words.2⟩

end

/-! ### Values inside containers -/

/-- The value may stand in a document inside of this many containers. -/
structure Value.Fits (v : Value) (n : Nat) : Prop where
  ordered : v.IsOrdered
  depth : n + v.depth ≤ maxDepth

theorem itemsOrdered_iff {items : List Value} :
    itemsOrdered items ↔ ∀ v ∈ items, v.IsOrdered := by
  induction items with
  | nil => simp [itemsOrdered]
  | cons v rest ih => simp [itemsOrdered, ih]

theorem itemsDepth_le_iff {items : List Value} {n : Nat} :
    itemsDepth items ≤ n ↔ ∀ v ∈ items, v.depth ≤ n := by
  induction items with
  | nil => simp [itemsDepth]
  | cons v rest ih => simp [itemsDepth, ih]

theorem fieldsOrdered_iff {fields : List (String × Value)} :
    fieldsOrdered fields ↔ ∀ f ∈ fields, f.2.IsOrdered := by
  induction fields with
  | nil => simp [fieldsOrdered]
  | cons f rest ih => simp [fieldsOrdered, ih]

theorem fieldsExact_iff {fields : List (String × Value)} :
    fieldsExact fields ↔ ∀ f ∈ fields, f.2.IsExact := by
  induction fields with
  | nil => simp [fieldsExact]
  | cons f rest ih => simp [fieldsExact, ih]

theorem fieldsDepth_le_iff {fields : List (String × Value)} {n : Nat} :
    fieldsDepth fields ≤ n ↔ ∀ f ∈ fields, f.2.depth ≤ n := by
  induction fields with
  | nil => simp [fieldsDepth]
  | cons f rest ih => simp [fieldsDepth, ih]

theorem fits_array_iff {items : List Value} {n : Nat} :
    (Value.array items).Fits n ↔ n < maxDepth ∧ ∀ v ∈ items, v.Fits (n + 1) := by
  constructor
  · rintro ⟨hordered, hdepth⟩
    rw [Value.depth] at hdepth
    refine ⟨by omega, fun v hv => ⟨itemsOrdered_iff.mp hordered v hv, ?_⟩⟩
    have hv := itemsDepth_le_iff.mp (Nat.le_refl (itemsDepth items)) v hv
    omega
  · rintro ⟨hshallow, hitems⟩
    refine ⟨itemsOrdered_iff.mpr fun v hv => (hitems v hv).ordered, ?_⟩
    have hdepth : itemsDepth items ≤ maxDepth - (n + 1) := by
      refine itemsDepth_le_iff.mpr fun v hv => ?_
      have hv := (hitems v hv).depth
      omega
    rw [Value.depth]
    omega

theorem fits_object_iff {fields : List (String × Value)} {n : Nat} :
    (Value.object fields).Fits n ↔
      n < maxDepth ∧ Fields.Ascending fields ∧ ∀ f ∈ fields, f.2.Fits (n + 1) := by
  constructor
  · rintro ⟨⟨hascending, hordered⟩, hdepth⟩
    rw [Value.depth] at hdepth
    refine ⟨by omega, hascending, fun f hf => ⟨fieldsOrdered_iff.mp hordered f hf, ?_⟩⟩
    have hf := fieldsDepth_le_iff.mp (Nat.le_refl (fieldsDepth fields)) f hf
    omega
  · rintro ⟨hshallow, hascending, hfields⟩
    refine ⟨⟨hascending, fieldsOrdered_iff.mpr fun f hf => (hfields f hf).ordered⟩, ?_⟩
    have hdepth : fieldsDepth fields ≤ maxDepth - (n + 1) := by
      refine fieldsDepth_le_iff.mpr fun f hf => ?_
      have hf := (hfields f hf).depth
      omega
    rw [Value.depth]
    omega

theorem depth_object_le {fields : List (String × Value)}
    (fits : ∀ f ∈ fields, 1 + f.2.depth ≤ maxDepth) :
    (Value.object fields).depth ≤ maxDepth := by
  have hroom : 0 < maxDepth := by decide
  have hfields : fieldsDepth fields ≤ maxDepth - 1 := by
    refine fieldsDepth_le_iff.mpr fun f hf => ?_
    have hf := fits f hf
    omega
  rw [Value.depth]
  omega

/-! ### The reader -/

/-- The fields of an object that is open inside of this context. -/
structure Context.Holds (outer : Context) (before : List (String × Value)) : Prop where
  shallow : outer.depth < maxDepth
  ascending : Fields.Ascending before
  fits : ∀ f ∈ before, f.2.Fits (outer.depth + 1)

/-- What the open containers hold may stand in them. -/
def Context.Sound : Context → Prop
  | .top => True
  | .item before outer =>
    outer.Sound ∧ outer.depth < maxDepth ∧ ∀ v ∈ before, v.Fits (outer.depth + 1)
  | .field before _ outer => outer.Sound ∧ outer.Holds before

def Purpose.Sound : Purpose → Prop
  | .value context => context.Sound
  | .key before outer => outer.Sound ∧ outer.Holds before

def State.Sound : State → Prop
  | .value context => context.Sound
  | .firstItem outer => outer.Sound ∧ outer.depth < maxDepth
  | .firstKey outer => outer.Sound ∧ outer.depth < maxDepth
  | .key before outer => outer.Sound ∧ outer.Holds before
  | .colon before _ outer => outer.Sound ∧ outer.Holds before
  | .literal _ v context => context.Sound ∧ v.Fits context.depth
  | .text _ _ purpose => purpose.Sound
  | .number _ _ context => context.Sound
  | .after v context => context.Sound ∧ v.Fits context.depth

theorem Context.depth_le {context : Context} (h : context.Sound) : context.depth ≤ maxDepth := by
  cases context with
  | top => exact Nat.zero_le _
  | item before outer => exact h.2.1
  | field before key outer => exact h.2.shallow

/-- What is no container may stand wherever a value may. -/
theorem Context.Sound.fits {context : Context} (h : context.Sound) {v : Value}
    (ordered : v.IsOrdered) (flat : v.depth = 0) : v.Fits context.depth :=
  ⟨ordered, flat ▸ Context.depth_le h⟩

theorem Context.Holds.nil {outer : Context} (shallow : outer.depth < maxDepth) :
    outer.Holds [] :=
  ⟨shallow, List.Pairwise.nil, by simp⟩

theorem Context.Holds.insert {outer : Context} {before : List (String × Value)}
    (h : outer.Holds before) (key : String) {v : Value} (fits : v.Fits (outer.depth + 1)) :
    outer.Holds (Fields.insert key v before) where
  shallow := h.shallow
  ascending := h.ascending.insert key v
  fits := by
    intro f hf
    rcases Fields.mem_insert hf with rfl | hbefore
    · exact fits
    · exact h.fits f hbefore

theorem Context.Holds.fits_object {outer : Context} {before : List (String × Value)}
    (h : outer.Holds before) : (Value.object before).Fits outer.depth :=
  fits_object_iff.mpr ⟨h.shallow, h.ascending, h.fits⟩

theorem State.Sound.ends {s : State} {v : Value} {context : Context} (h : s.Sound)
    (ends : s.Ends v context) : context.Sound ∧ v.Fits context.depth := by
  cases ends with
  | literal => exact h
  | number => exact ⟨h, Context.Sound.fits h trivial rfl⟩
  | after => exact h

theorem State.Sound.awaits {s : State} {context : Context} (h : s.Sound)
    (awaits : s.Awaits context) : context.Sound := by
  cases awaits with
  | value => exact h
  | firstItem outer => exact ⟨h.1, h.2, by simp⟩

theorem sound_starts {context : Context} {t : State} (h : context.Sound)
    (starts : Starts context t) : t.Sound := by
  cases starts with
  | null => exact ⟨h, h.fits trivial rfl⟩
  | bool => exact ⟨h, h.fits trivial rfl⟩
  | text => exact h
  | number => exact h
  | array shallow => exact ⟨h, shallow⟩
  | object shallow => exact ⟨h, shallow⟩

theorem sound_follows {v : Value} {context : Context} {t : State} (h : context.Sound)
    (fits : v.Fits context.depth) (follows : Follows v context t) : t.Sound := by
  have hitems {before : List Value} {n : Nat} (hv : v.Fits n) (hbefore : ∀ w ∈ before, w.Fits n) :
      ∀ w ∈ v :: before, w.Fits n := List.forall_mem_cons.mpr ⟨hv, hbefore⟩
  cases follows with
  | blank => exact ⟨h, fits⟩
  | nextItem before outer =>
      obtain ⟨houter, hshallow, hbefore⟩ := h
      exact ⟨houter, hshallow, hitems fits hbefore⟩
  | array before outer =>
      obtain ⟨houter, hshallow, hbefore⟩ := h
      refine ⟨houter, fits_array_iff.mpr ⟨hshallow, fun w hw => ?_⟩⟩
      exact hitems fits hbefore w (List.mem_reverse.mp hw)
  | nextKey before key outer => exact ⟨h.1, h.2.insert key fits⟩
  | object before key outer => exact ⟨h.1, (h.2.insert key fits).fits_object⟩

theorem sound_moves {s t : State} (h : s.Sound) (moves : s.Moves t) : t.Sound := by
  cases moves with
  | stay => exact h
  | start awaits starts => exact sound_starts (h.awaits awaits) starts
  | follow ends follows =>
      obtain ⟨hcontext, hfits⟩ := h.ends ends
      exact sound_follows hcontext hfits follows
  | emptyArray outer => exact ⟨h.1, fits_array_iff.mpr ⟨h.2, by simp⟩⟩
  | emptyObject outer => exact ⟨h.1, (Context.Holds.nil h.2).fits_object⟩
  | firstKey outer => exact ⟨h.1, Context.Holds.nil h.2⟩
  | key => exact h
  | colon => exact h
  | literal => exact h
  | literalEnd => exact h
  | text => exact h
  | textEnd state read s p whole =>
      cases p with
      | value context => exact ⟨h, Context.Sound.fits h trivial rfl⟩
      | key before outer => exact h
  | number => exact h

/-- A value that was read is in order, and it is not nested deeper than a document may be. -/
theorem fits_parse {input : Bytes} {v : Value} (h : parse input = .ok v) : v.Fits 0 := by
  obtain ⟨t, hread, hends⟩ := parse_cases h
  have hsound : t.Sound :=
    foldlM_rule (P := fun _ s => s.Sound) (fun _ _ _ hmoves hs => sound_moves hs hmoves) (n := 0)
      hread trivial
  exact (hsound.ends hends).2

end RoomRelay.Json
