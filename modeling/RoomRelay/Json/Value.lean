/-!
JSON values.

An object keeps its fields in ascending order of their keys, each key once: `Fields.insert` is the
only way to add a field and a later field of the same key takes the place of an earlier one.
Strings are compared by code points, which is also the order of their UTF-8 bytes.
-/

namespace RoomRelay.Json

/-- The integers that a number holds exactly: those of a signed or an unsigned 64-bit word. -/
def IsWord (n : Int) : Prop :=
  -9223372036854775808 ≤ n ∧ n < 18446744073709551616

instance (n : Int) : Decidable (IsWord n) :=
  inferInstanceAs (Decidable (_ ∧ _))

inductive Number where
  | word (n : Int) (isWord : IsWord n)
  | double (x : Float)

inductive Value where
  | null
  | bool (b : Bool)
  | number (n : Number)
  | string (s : String)
  | array (items : List Value)
  | object (fields : List (String × Value))

instance : Inhabited Value := ⟨.null⟩

namespace Fields

/-- Sets the field `key`, keeping the keys in ascending order. -/
def insert {α : Type} (key : String) (v : α) : List (String × α) → List (String × α)
  | [] => [(key, v)]
  | (k, w) :: rest =>
    if key < k then (key, v) :: (k, w) :: rest
    else if key = k then (key, v) :: rest
    else (k, w) :: insert key v rest

def find? {α : Type} (key : String) (fields : List (String × α)) : Option α :=
  (fields.find? (·.1 == key)).map (·.2)

theorem find?_insert_self {α : Type} (key : String) (v : α) (fields : List (String × α)) :
    find? key (insert key v fields) = some v := by
  induction fields with
  | nil => simp [insert, find?]
  | cons f rest ih =>
    simp only [insert]
    split
    · simp [find?]
    · split
      · simp [find?]
      · rename_i h
        simpa [find?, Ne.symm h] using ih

theorem find?_insert_of_ne {α : Type} {key other : String} (h : other ≠ key) (v : α)
    (fields : List (String × α)) : find? other (insert key v fields) = find? other fields := by
  induction fields with
  | nil => simp [insert, find?, Ne.symm h]
  | cons f rest ih =>
    simp only [insert]
    split
    · simp [find?, Ne.symm h]
    · split
      · rename_i hk
        simp [find?, ← hk, Ne.symm h]
      · simp only [find?, List.find?_cons] at ih ⊢
        split
        · rfl
        · exact ih

/-- Each key once, in ascending order. -/
def Ascending {α : Type} (fields : List (String × α)) : Prop :=
  fields.Pairwise fun f g => f.1 < g.1

theorem mem_insert {α : Type} {key : String} {v : α} {fields : List (String × α)}
    {f : String × α} (h : f ∈ insert key v fields) : f = (key, v) ∨ f ∈ fields := by
  induction fields with
  | nil => exact .inl (by simpa [insert] using h)
  | cons g rest ih =>
    simp only [insert] at h
    split at h
    · simpa using h
    · split at h
      · rcases List.mem_cons.mp h with h | h
        · exact .inl h
        · exact .inr (List.mem_cons_of_mem _ h)
      · rcases List.mem_cons.mp h with h | h
        · exact .inr (h ▸ List.mem_cons_self)
        · exact (ih h).imp id (List.mem_cons_of_mem _)

theorem Ascending.insert {α : Type} {fields : List (String × α)} (h : Ascending fields)
    (key : String) (v : α) : Ascending (insert key v fields) := by
  induction fields with
  | nil => exact List.pairwise_singleton ..
  | cons f rest ih =>
    obtain ⟨hf, hrest⟩ := List.pairwise_cons.mp h
    simp only [Fields.insert]
    split
    · rename_i hlt
      refine List.pairwise_cons.mpr ⟨fun g hg => ?_, h⟩
      rcases List.mem_cons.mp hg with rfl | hg
      · exact hlt
      · exact String.lt_trans hlt (hf g hg)
    · split
      · rename_i hk
        exact List.pairwise_cons.mpr ⟨fun g hg => hk ▸ hf g hg, hrest⟩
      · rename_i hlt hne
        refine List.pairwise_cons.mpr ⟨fun g hg => ?_, ih hrest⟩
        rcases mem_insert hg with rfl | hg
        · exact Decidable.byContradiction fun hn =>
            hne (String.le_antisymm (String.not_lt.mp hn) (String.not_lt.mp hlt))
        · exact hf g hg

end Fields

/-- Words are equal as integers, doubles as floating point numbers; a word and a double differ. -/
def Number.same : Number → Number → Bool
  | .word m _, .word n _ => m == n
  | .double x, .double y => x == y
  | _, _ => false

mutual

/-- Equality of values, with `Number.same` at the leaves. -/
def Value.same : Value → Value → Bool
  | .null, .null => true
  | .bool a, .bool b => a == b
  | .number m, .number n => m.same n
  | .string s, .string t => s == t
  | .array xs, .array ys => sameItems xs ys
  | .object fs, .object gs => sameFields fs gs
  | _, _ => false

def sameItems : List Value → List Value → Bool
  | [], [] => true
  | x :: xs, y :: ys => x.same y && sameItems xs ys
  | _, _ => false

def sameFields : List (String × Value) → List (String × Value) → Bool
  | [], [] => true
  | (k, v) :: fs, (l, w) :: gs => k == l && v.same w && sameFields fs gs
  | _, _ => false

end

mutual

/-- How many arrays and objects are open at the innermost point of a value. -/
def Value.depth : Value → Nat
  | .array items => itemsDepth items + 1
  | .object fields => fieldsDepth fields + 1
  | _ => 0

def itemsDepth : List Value → Nat
  | [] => 0
  | v :: rest => max v.depth (itemsDepth rest)

def fieldsDepth : List (String × Value) → Nat
  | [] => 0
  | (_, v) :: rest => max v.depth (fieldsDepth rest)

end

/-- The strings among the items, in order. -/
def stringItems (items : List Value) : List String :=
  items.filterMap fun
    | .string s => some s
    | _ => none

/-- The items as strings when each of them is one. -/
def allStrings? (items : List Value) : Option (List String) :=
  items.mapM fun
    | .string s => some s
    | _ => none

end RoomRelay.Json
