import RoomRelay.Proofs.Json.Rereading
import RoomRelay.Proofs.Json.Shape

/-!
Values that are the same but for the order of the fields in their objects, at any depth. A value
that was read has its fields in the order of their keys, and so two that are alike are written as
one and the same text.
-/

namespace RoomRelay.Json

/-- Words are alike if they are the same integer, doubles if they have the same bits: zero and
minus zero are two numbers, with a text each. -/
def Number.Alike : Number → Number → Prop
  | .word m _, .word n _ => m = n
  | .double x, .double y => x.toBits = y.toBits
  | _, _ => False

theorem Number.Alike.chars_eq {m n : Number} (h : m.Alike n) : m.chars = n.chars := by
  cases m with
  | word m _ =>
      cases n with
      | word n _ =>
          cases h
          rfl
      | double y => cases h
  | double x =>
      cases n with
      | word n _ => cases h
      | double y =>
          have hbits : x.toBits = y.toBits := h
          simp only [Number.chars, Decimal.Layout.writeDouble?, hbits]

mutual

/-- The same but for the order of fields. -/
def Value.Alike : Value → Value → Prop
  | .null, .null => True
  | .bool a, .bool b => a = b
  | .number m, .number n => m.Alike n
  | .string s, .string t => s = t
  | .array xs, .array ys => itemsAlike xs ys
  | .object fs, .object gs => fieldsAlike fs gs ∧ gs.map (·.1) ⊆ fs.map (·.1)
  | _, _ => False

def itemsAlike : List Value → List Value → Prop
  | [], [] => True
  | x :: xs, y :: ys => x.Alike y ∧ itemsAlike xs ys
  | _, _ => False

/-- Each of these fields has a value like that under its key among the others. -/
def fieldsAlike : List (String × Value) → List (String × Value) → Prop
  | [], _ => True
  | (key, v) :: rest, gs => (∃ w, Fields.find? key gs = some w ∧ v.Alike w) ∧ fieldsAlike rest gs

end

theorem Number.alike_refl (n : Number) : n.Alike n := by
  cases n <;> exact rfl

mutual

theorem Value.alike_refl : ∀ {v : Value}, v.IsOrdered → v.Alike v
  | .null, _ => trivial
  | .bool _, _ => rfl
  | .number n, _ => n.alike_refl
  | .string _, _ => rfl
  | .array _, h => itemsAlike_refl h
  | .object _, h =>
      ⟨fieldsAlike_of_found h.2 fun _ hf => find?_of_mem_fields h.1.keys_nodup hf,
        List.Subset.refl _⟩

theorem itemsAlike_refl : ∀ {items : List Value}, itemsOrdered items → itemsAlike items items
  | [], _ => trivial
  | _ :: _, h => ⟨Value.alike_refl h.1, itemsAlike_refl h.2⟩

theorem fieldsAlike_of_found : ∀ {fs gs : List (String × Value)}, fieldsOrdered fs →
    (∀ f ∈ fs, Fields.find? f.1 gs = some f.2) → fieldsAlike fs gs
  | [], _, _, _ => trivial
  | (_, v) :: _, _, h, found =>
      ⟨⟨v, found _ List.mem_cons_self, Value.alike_refl h.1⟩,
        fieldsAlike_of_found h.2 fun f hf => found f (List.mem_cons_of_mem _ hf)⟩

end

/-! ### What a value is like -/

section

variable {w : Value}

theorem null_alike_iff : Value.null.Alike w ↔ w = .null := by
  cases w <;> simp [Value.Alike]

theorem bool_alike_iff {b : Bool} : (Value.bool b).Alike w ↔ w = .bool b := by
  cases w <;> simp [Value.Alike, eq_comm]

theorem number_alike_iff {m : Number} :
    (Value.number m).Alike w ↔ ∃ n, w = .number n ∧ m.Alike n := by
  cases w <;> simp [Value.Alike]

theorem string_alike_iff {s : String} : (Value.string s).Alike w ↔ w = .string s := by
  cases w <;> simp [Value.Alike, eq_comm]

theorem array_alike_iff {xs : List Value} :
    (Value.array xs).Alike w ↔ ∃ ys, w = .array ys ∧ itemsAlike xs ys := by
  cases w <;> simp [Value.Alike]

theorem object_alike_iff {fs : List (String × Value)} :
    (Value.object fs).Alike w ↔
      ∃ gs, w = .object gs ∧ fieldsAlike fs gs ∧ gs.map (·.1) ⊆ fs.map (·.1) := by
  cases w <;> simp [Value.Alike]

theorem itemsAlike_cons_iff {x : Value} {xs ys : List Value} :
    itemsAlike (x :: xs) ys ↔ ∃ y rest, ys = y :: rest ∧ x.Alike y ∧ itemsAlike xs rest := by
  cases ys <;> simp [itemsAlike]

theorem itemsAlike_nil_iff {ys : List Value} : itemsAlike [] ys ↔ ys = [] := by
  cases ys <;> simp [itemsAlike]

end

/-! ### Fields in the same order -/

theorem keys_subset_of_fieldsAlike {fs gs : List (String × Value)} (h : fieldsAlike fs gs) :
    fs.map (·.1) ⊆ gs.map (·.1) := by
  induction fs with
  | nil => exact List.nil_subset _
  | cons f rest ih =>
      obtain ⟨⟨w, hw, -⟩, hrest⟩ := h
      obtain ⟨g, hg, -⟩ := Option.map_eq_some_iff.mp hw
      have hkey : g.1 = f.1 := by simpa using List.find?_some hg
      rw [List.map_cons]
      exact List.cons_subset.mpr
        ⟨hkey ▸ List.mem_map_of_mem (List.mem_of_find?_eq_some hg), ih hrest⟩

/-- Ascending fields with the same keys have them in the same order. -/
theorem keys_eq_of_ascending {fs gs : List (String × Value)} (hfs : Fields.Ascending fs)
    (hgs : Fields.Ascending gs) (sub : fs.map (·.1) ⊆ gs.map (·.1))
    (sup : gs.map (·.1) ⊆ fs.map (·.1)) : fs.map (·.1) = gs.map (·.1) := by
  have hperm : (fs.map (·.1)).Perm (gs.map (·.1)) :=
    (List.perm_ext_iff_of_nodup hfs.keys_nodup hgs.keys_nodup).mpr
      fun key => ⟨fun h => sub h, fun h => sup h⟩
  have hfs : (fs.map (·.1)).Pairwise (· < ·) := List.pairwise_map.mpr hfs
  have hgs : (gs.map (·.1)).Pairwise (· < ·) := List.pairwise_map.mpr hgs
  refine hperm.eq_of_pairwise (fun a b _ _ hab hba => ?_) hfs hgs
  exact absurd (String.lt_trans hab hba) (String.lt_irrefl a)

/-- Where the other fields start with one of a key that is not looked for, it may be left out. -/
theorem fieldsAlike_of_cons {key : String} {w : Value} {fs gs : List (String × Value)}
    (h : fieldsAlike fs ((key, w) :: gs)) (fresh : key ∉ fs.map (·.1)) : fieldsAlike fs gs := by
  induction fs with
  | nil => trivial
  | cons f rest ih =>
      rw [List.map_cons, List.mem_cons, not_or] at fresh
      obtain ⟨⟨v, hv, halike⟩, hrest⟩ := h
      refine ⟨⟨v, ?_, halike⟩, ih hrest fresh.2⟩
      simpa [Fields.find?, fresh.1] using hv

/-- If the first keys are the same then so are the first values. -/
theorem fieldsAlike_cons {key : String} {v w : Value} {fs gs : List (String × Value)}
    (h : fieldsAlike ((key, v) :: fs) ((key, w) :: gs)) (fresh : key ∉ fs.map (·.1)) :
    v.Alike w ∧ fieldsAlike fs gs := by
  obtain ⟨⟨other, hfind, halike⟩, hrest⟩ := h
  have hother : other = w := by simpa [Fields.find?, eq_comm] using hfind
  exact ⟨hother ▸ halike, fieldsAlike_of_cons hrest fresh⟩

mutual

/-- Values in order that are alike are written alike. -/
theorem chars_eq_of_alike :
    ∀ (v : Value) {w : Value}, v.IsOrdered → w.IsOrdered → v.Alike w → v.chars = w.chars
  | .null, w, _, _, h => by rw [null_alike_iff.mp h]
  | .bool b, w, _, _, h => by rw [bool_alike_iff.mp h]
  | .number m, w, _, _, h => by
      obtain ⟨n, rfl, hnumber⟩ := number_alike_iff.mp h
      simp only [Value.chars]
      exact hnumber.chars_eq
  | .string s, w, _, _, h => by rw [string_alike_iff.mp h]
  | .array xs, w, hv, hw, h => by
      obtain ⟨ys, rfl, hitems⟩ := array_alike_iff.mp h
      simp only [Value.chars]
      rw [itemsChars_eq_of_alike xs hv hw hitems]
  | .object fs, w, hv, hw, h => by
      obtain ⟨gs, rfl, hfields, hsup⟩ := object_alike_iff.mp h
      have hkeys := keys_eq_of_ascending hv.1 hw.1 (keys_subset_of_fieldsAlike hfields) hsup
      simp only [Value.chars]
      rw [fieldsChars_eq_of_alike fs hv.1 hv.2 hw.2 hkeys hfields]

theorem itemsChars_eq_of_alike : ∀ (xs : List Value) {ys : List Value}, itemsOrdered xs →
    itemsOrdered ys → itemsAlike xs ys → itemsChars xs = itemsChars ys
  | [], ys, _, _, h => by rw [itemsAlike_nil_iff.mp h]
  | [x], ys, hxs, hys, h => by
      obtain ⟨y, rest, rfl, hfirst, hrest⟩ := itemsAlike_cons_iff.mp h
      cases itemsAlike_nil_iff.mp hrest
      exact chars_eq_of_alike x hxs.1 hys.1 hfirst
  | x :: x' :: xs, ys, hxs, hys, h => by
      obtain ⟨y, rest, rfl, hfirst, hrest⟩ := itemsAlike_cons_iff.mp h
      have hmore := itemsChars_eq_of_alike (x' :: xs) hxs.2 hys.2 hrest
      obtain ⟨y', ys, rfl, -, -⟩ := itemsAlike_cons_iff.mp hrest
      simp only [itemsChars] at hmore ⊢
      rw [chars_eq_of_alike x hxs.1 hys.1 hfirst, hmore]

theorem fieldsChars_eq_of_alike : ∀ (fs : List (String × Value)) {gs : List (String × Value)},
    Fields.Ascending fs → fieldsOrdered fs → fieldsOrdered gs → fs.map (·.1) = gs.map (·.1) →
    fieldsAlike fs gs → fieldsChars fs = fieldsChars gs
  | [], gs, _, _, _, keys, _ => by
      cases List.map_eq_nil_iff.mp keys.symm
      rfl
  | [(key, v)], gs, _, hfs, hgs, keys, h => by
      obtain ⟨⟨other, w⟩, rest, rfl, hkey, hrest⟩ := List.map_eq_cons_iff.mp keys.symm
      cases List.map_eq_nil_iff.mp hrest
      cases hkey
      have hfirst := (fieldsAlike_cons h (by simp)).1
      simp only [fieldsChars]
      rw [chars_eq_of_alike v hfs.1 hgs.1 hfirst]
  | (key, v) :: f :: fs, gs, ascending, hfs, hgs, keys, h => by
      obtain ⟨⟨other, w⟩, rest, rfl, hkey, hrest⟩ := List.map_eq_cons_iff.mp keys.symm
      cases hkey
      obtain ⟨hleast, hascending⟩ := List.pairwise_cons.mp ascending
      have hfresh : key ∉ (f :: fs).map (·.1) := by
        intro hmem
        obtain ⟨g, hg, hsame⟩ := List.mem_map.mp hmem
        exact String.lt_irrefl g.1 (hsame ▸ hleast g hg)
      obtain ⟨hfirst, hmore⟩ := fieldsAlike_cons h hfresh
      have htail := fieldsChars_eq_of_alike (f :: fs) hascending hfs.2 hgs.2 hrest.symm hmore
      obtain ⟨g, gs, rfl, -, -⟩ := List.map_eq_cons_iff.mp hrest
      simp only [fieldsChars] at htail ⊢
      rw [chars_eq_of_alike v hfs.1 hgs.1 hfirst, htail]

end

end RoomRelay.Json
