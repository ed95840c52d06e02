import Mathlib.Data.List.Forall2
import RoomRelay.Proofs.Json.Doubles

/-!
What has been printed can be read again, whatever stands in it, unless it is nested deeper than a
document may be. A double need not come back as it was, but all that holds no double does, provided
that its objects are in the order of their keys as every object that was read is. In any order,
every field of an object is found again, with its key and, if it holds a string, with this string.
-/

namespace RoomRelay.Json

/-! ### Reading what was written -/

/-- The second value is what the first is read as, as far as it holds no double. -/
def Value.Echoes (v w : Value) : Prop :=
  v.IsExact → w = v

/-- What is read as it was is an echo of itself. -/
theorem exists_echo {s : State} {context : Context} {v : Value}
    (h : ∃ t, s.Reads v.chars t ∧ t.Completes v context) :
    ∃ t w, s.Reads v.chars t ∧ t.Completes w context ∧ v.Echoes w := by
  obtain ⟨t, hreads, hends⟩ := h
  exact ⟨t, v, hreads, hends, fun _ => rfl⟩

theorem eq_of_itemsEcho {items read : List Value} (h : List.Forall₂ Value.Echoes items read)
    (exact : itemsExact items) : read = items := by
  induction h with
  | nil => rfl
  | cons hfirst _ ih => rw [hfirst exact.1, ih exact.2]

/-- The fields are those that were written, as far as keys and exact values go. -/
def FieldsEcho : List (String × Value) → List (String × Value) → Prop :=
  List.Forall₂ fun f g => f.1 = g.1 ∧ f.2.Echoes g.2

theorem FieldsEcho.eq {fields read : List (String × Value)} (h : FieldsEcho fields read)
    (exact : fieldsExact fields) : read = fields := by
  induction h with
  | nil => rfl
  | @cons f g fs gs hfirst _ ih =>
      obtain ⟨key, v⟩ := f
      obtain ⟨hkey, hecho⟩ := hfirst
      rw [ih exact.2]
      exact congrArg (· :: fs) (Prod.ext hkey.symm (hecho exact.1))

/-- An object is read when its fields are, if it has any. -/
theorem reads_object {s : State} {context : Context} {fields : List (String × Value)}
    (h : s.Expects context) (depth : context.depth < maxDepth)
    (rest : fields ≠ [] → ∃ read, FieldsEcho fields read ∧
      (State.firstKey context).Reads (fieldsChars fields ++ ['\x7d'])
        (.after (.object (Fields.insertAll read [])) context)) :
    ∃ read, FieldsEcho fields read ∧
      s.Reads (Value.object fields).chars
        (.after (.object (Fields.insertAll read [])) context) := by
  have hopen := step_brace h depth
  cases fields with
  | nil => exact ⟨[], .nil, .cons rfl hopen (.singleton rfl rfl)⟩
  | cons f more =>
      obtain ⟨read, hecho, hreads⟩ := rest (List.cons_ne_nil f more)
      exact ⟨read, hecho, .cons rfl hopen hreads⟩

mutual

/- By induction on what was written. A number is not known to be over before the byte after it, and
so every value is read up to a state that goes on as after a value. -/
theorem reads_value : ∀ (v : Value) {s : State} {context : Context},
    context.depth + v.depth ≤ maxDepth → s.Expects context →
    ∃ t w, s.Reads v.chars t ∧ t.Completes w context ∧ v.Echoes w
  | .null, s, context, _, h => exists_echo (reads_literal h rfl rfl rfl (by decide) rfl)
  | .bool true, s, context, _, h => exists_echo (reads_literal h rfl rfl rfl (by decide) rfl)
  | .bool false, s, context, _, h => exists_echo (reads_literal h rfl rfl rfl (by decide) rfl)
  | .number (.word n isWord), s, context, _, h => exists_echo (reads_number isWord h)
  | .number (.double x), s, context, _, h => by
      obtain ⟨t, w, hreads, hends⟩ := reads_double x h
      exact ⟨t, w, hreads, hends, False.elim⟩
  | .string text, s, context, _, h => by
      have hopen : s.step 0x22 = .ok (.text .plain [] (.value context)) := h 0x22 rfl (by decide)
      exact exists_echo ⟨_, .cons rfl hopen (reads_string text (.value context)),
        State.completes_after (.string text) context⟩
  | .array [], s, context, depth, h => by
      simp only [Value.depth] at depth
      have hopen := step_bracket h (by omega)
      exact exists_echo ⟨_, .cons rfl hopen (.singleton rfl rfl),
        State.completes_after (.array []) context⟩
  | .array (v :: rest), s, context, depth, h => by
      simp only [Value.depth] at depth
      have hopen := step_bracket h (by omega)
      obtain ⟨read, hecho, hitems⟩ := reads_items (v :: rest) (by omega) (List.cons_ne_nil v rest)
        (State.expects_firstItem context)
      exact ⟨_, _, .cons rfl hopen hitems, State.completes_after (.array read) context,
        fun exact => congrArg Value.array (eq_of_itemsEcho hecho exact)⟩
  | .object fields, s, context, depth, h => by
      simp only [Value.depth] at depth
      obtain ⟨read, hecho, hobject⟩ := reads_object h (by omega) fun nonempty =>
        reads_fields fields [] (by omega) nonempty rfl
      refine ⟨_, _, hobject, State.completes_after _ context, fun exact => ?_⟩
      rw [hecho.eq exact.2, insertAll_of_ascending exact.1]

/-- The items of an array that is not empty, and its end. -/
theorem reads_items : ∀ (items : List Value) {s : State} {before : List Value} {outer : Context},
    outer.depth + 1 + itemsDepth items ≤ maxDepth → items ≠ [] →
    s.Expects (.item before outer) →
    ∃ read, List.Forall₂ Value.Echoes items read ∧
      s.Reads (itemsChars items ++ [']']) (.after (.array (before.reverse ++ read)) outer)
  | [], _, _, _, _, nonempty, _ => absurd rfl nonempty
  | [v], s, before, outer, depth, _, h => by
      simp only [itemsDepth] at depth
      obtain ⟨t, w, hreads, hends, hecho⟩ :=
        reads_value v (by simp only [Context.depth]; omega) h
      have hclose : t.step 0x5D = .ok (.after (.array (before.reverse ++ [w])) outer) := by
        rw [hends.step 0x5D (Or.inr (Or.inl rfl)), ← List.reverse_cons]
        rfl
      exact ⟨[w], .cons hecho .nil, hreads.trans (.singleton rfl hclose)⟩
  | v :: v' :: rest, s, before, outer, depth, _, h => by
      rw [itemsDepth] at depth
      obtain ⟨t, w, hreads, hends, hecho⟩ :=
        reads_value v (by simp only [Context.depth]; omega) h
      have hcomma : t.step 0x2C = .ok (.value (.item (w :: before) outer)) :=
        hends.step 0x2C (Or.inl rfl)
      obtain ⟨read, hechoes, hrest⟩ := reads_items (v' :: rest) (by omega)
        (List.cons_ne_nil v' rest) (State.expects_value (.item (w :: before) outer))
      rw [List.reverse_cons, List.append_assoc, List.singleton_append] at hrest
      have htail : t.Reads (',' :: (itemsChars (v' :: rest) ++ [']']))
          (.after (.array (before.reverse ++ w :: read)) outer) := .cons rfl hcomma hrest
      have hall := hreads.trans htail
      rw [← List.cons_append, ← List.append_assoc] at hall
      exact ⟨w :: read, .cons hecho hechoes, hall⟩

/-- The fields of an object that is not empty, and its end. They may be written in any order. -/
theorem reads_fields : ∀ (fields before : List (String × Value)) {s : State} {outer : Context},
    outer.depth + 1 + fieldsDepth fields ≤ maxDepth → fields ≠ [] →
    s.step 0x22 = .ok (.text .plain [] (.key before outer)) →
    ∃ read, FieldsEcho fields read ∧
      s.Reads (fieldsChars fields ++ ['\x7d'])
        (.after (.object (Fields.insertAll read before)) outer)
  | [], _, _, _, _, nonempty, _ => absurd rfl nonempty
  | [(key, v)], before, s, outer, depth, _, h => by
      simp only [fieldsDepth] at depth
      obtain ⟨t, w, hreads, hends, hecho⟩ := reads_value v (by simp only [Context.depth]; omega)
        (State.expects_value (.field before key outer))
      have hclose : t.step 0x7D =
          .ok (.after (.object (Fields.insertAll [(key, w)] before)) outer) :=
        hends.step 0x7D (Or.inr (Or.inr rfl))
      have htail : t.Reads ['\x7d']
          (.after (.object (Fields.insertAll [(key, w)] before)) outer) := .singleton rfl hclose
      have hall := (reads_fieldName h key).trans (hreads.trans htail)
      exact ⟨[(key, w)], .cons ⟨rfl, hecho⟩ .nil, by simpa [fieldsChars] using hall⟩
  | (key, v) :: f :: rest, before, s, outer, depth, _, h => by
      rw [fieldsDepth] at depth
      obtain ⟨t, w, hreads, hends, hecho⟩ := reads_value v (by simp only [Context.depth]; omega)
        (State.expects_value (.field before key outer))
      have hcomma : t.step 0x2C = .ok (.key (Fields.insert key w before) outer) :=
        hends.step 0x2C (Or.inl rfl)
      obtain ⟨read, hechoes, hrest⟩ := reads_fields (f :: rest) (Fields.insert key w before)
        (s := .key (Fields.insert key w before) outer) (by omega) (List.cons_ne_nil f rest) rfl
      have htail : t.Reads (',' :: (fieldsChars (f :: rest) ++ ['\x7d']))
          (.after (.object (Fields.insertAll ((key, w) :: read) before)) outer) :=
        .cons rfl hcomma hrest
      have hall := (reads_fieldName h key).trans (hreads.trans htail)
      exact ⟨(key, w) :: read, .cons ⟨rfl, hecho⟩ hechoes, by simpa [fieldsChars] using hall⟩

end

theorem parse_of_reads {v w : Value} {t : State} (reads : (State.value .top).Reads v.chars t)
    (ends : t.Completes w .top) : parse (textBytes v.text) = .ok w := by
  rw [State.Reads] at reads
  rw [Value.text, textBytes_ofList, parse, reads]
  exact ends.finish

/-- Whatever an object is read as, it is an object of the fields that were written. -/
theorem exists_read {fields : List (String × Value)}
    (depth : (Value.object fields).depth ≤ maxDepth) :
    ∃ read, FieldsEcho fields read ∧
      parse (textBytes (Value.object fields).text) = .ok (.object (Fields.insertAll read [])) := by
  rw [Value.depth] at depth
  obtain ⟨read, hecho, hobject⟩ := reads_object (State.expects_value .top) (by decide)
    fun nonempty => reads_fields fields [] (by simp only [Context.depth]; omega) nonempty rfl
  exact ⟨read, hecho, parse_of_reads hobject (State.completes_after _ .top)⟩

/-- An object comes back with its fields in the order of their keys, in whatever order they were
written. -/
theorem parse_object {fields : List (String × Value)} (exact : fieldsExact fields)
    (depth : (Value.object fields).depth ≤ maxDepth) :
    parse (textBytes (Value.object fields).text) = .ok (.object (Fields.insertAll fields [])) := by
  obtain ⟨read, hecho, hparse⟩ := exists_read depth
  rw [hparse, hecho.eq exact]

/-! ### What is nested too deeply -/

/-- These characters are refused, and so is whatever follows. -/
def State.Refuses (s : State) (cs : List Char) : Prop :=
  (charBytes cs).foldlM State.step s = .error .malformed

namespace State.Refuses

variable {s t : State} {cs ds : List Char}

theorem append (h : s.Refuses cs) (ds : List Char) : s.Refuses (cs ++ ds) := by
  rw [Refuses, charBytes_append, List.foldlM_append, h]
  rfl

theorem after (first : s.Reads cs t) (h : t.Refuses ds) : s.Refuses (cs ++ ds) := by
  rw [Refuses, charBytes_append, List.foldlM_append, first]
  exact h

theorem cons {c : Char} {b : UInt8} (byte : String.utf8EncodeChar c = [b])
    (step : s.step b = .ok t) (rest : t.Refuses cs) : s.Refuses (c :: cs) :=
  after (.singleton byte step) rest

theorem head {c : Char} {b : UInt8} (byte : String.utf8EncodeChar c = [b])
    (step : s.step b = .error .malformed) (cs : List Char) : s.Refuses (c :: cs) := by
  rw [Refuses, charBytes, List.flatMap_cons, byte, List.cons_append, List.foldlM_cons, step]
  rfl

end State.Refuses

mutual

/- Where a value is not refused itself, it is read up to one that is. -/
theorem refuses_value : ∀ (v : Value) {s : State} {context : Context},
    context.depth ≤ maxDepth → maxDepth < context.depth + v.depth → s.Expects context →
    s.Refuses v.chars
  | .null, _, _, shallow, deep, _ => absurd deep (Nat.not_lt.mpr shallow)
  | .bool _, _, _, shallow, deep, _ => absurd deep (Nat.not_lt.mpr shallow)
  | .number _, _, _, shallow, deep, _ => absurd deep (Nat.not_lt.mpr shallow)
  | .string _, _, _, shallow, deep, _ => absurd deep (Nat.not_lt.mpr shallow)
  | .array items, s, context, shallow, deep, h => by
      simp only [Value.depth] at deep
      rcases Nat.lt_or_ge context.depth maxDepth with hopen | hfull
      · exact .cons rfl (step_bracket h hopen)
          (refuses_items items hopen (by omega) (State.expects_firstItem context))
      · have hstep : s.step 0x5B = .error .malformed := by
          rw [h 0x5B rfl (by decide), startValue_bracket, if_neg (by omega)]
        exact .head rfl hstep _
  | .object fields, s, context, shallow, deep, h => by
      simp only [Value.depth] at deep
      rcases Nat.lt_or_ge context.depth maxDepth with hopen | hfull
      · exact .cons rfl (step_brace h hopen) (refuses_fields fields [] hopen (by omega) rfl)
      · have hstep : s.step 0x7B = .error .malformed := by
          rw [h 0x7B rfl (by decide), startValue_brace, if_neg (by omega)]
        exact .head rfl hstep _

theorem refuses_items : ∀ (items : List Value) {s : State} {before : List Value}
    {outer : Context}, outer.depth < maxDepth → maxDepth < outer.depth + 1 + itemsDepth items →
    s.Expects (.item before outer) → s.Refuses (itemsChars items ++ [']'])
  | [], _, _, _, shallow, deep, _ => absurd deep (Nat.not_lt.mpr shallow)
  | [v], s, before, outer, shallow, deep, h => by
      simp only [itemsDepth] at deep
      have hdepth : (Context.item before outer).depth ≤ maxDepth := shallow
      exact (refuses_value v hdepth (by simp only [Context.depth]; omega) h).append _
  | v :: v' :: rest, s, before, outer, shallow, deep, h => by
      rw [itemsDepth] at deep
      rw [itemsChars, List.append_assoc]
      rcases Nat.lt_or_ge maxDepth (outer.depth + 1 + v.depth) with hdeep | hread
      · have hdepth : (Context.item before outer).depth ≤ maxDepth := shallow
        exact (refuses_value v hdepth (by simp only [Context.depth]; omega) h).append _
      · obtain ⟨t, w, hreads, hends, -⟩ :=
          reads_value v (by simp only [Context.depth]; omega) h
        have hcomma : t.step 0x2C = .ok (.value (.item (w :: before) outer)) :=
          hends.step 0x2C (Or.inl rfl)
        exact .after hreads (.cons rfl hcomma
          (refuses_items (v' :: rest) shallow (by omega) (State.expects_value _)))

theorem refuses_fields : ∀ (fields before : List (String × Value)) {s : State} {outer : Context},
    outer.depth < maxDepth → maxDepth < outer.depth + 1 + fieldsDepth fields →
    s.step 0x22 = .ok (.text .plain [] (.key before outer)) →
    s.Refuses (fieldsChars fields ++ ['\x7d'])
  | [], _, _, _, shallow, deep, _ => absurd deep (Nat.not_lt.mpr shallow)
  | [(key, v)], before, s, outer, shallow, deep, h => by
      simp only [fieldsDepth] at deep
      have hdepth : (Context.field before key outer).depth ≤ maxDepth := shallow
      have hvalue := refuses_value v hdepth (by simp only [Context.depth]; omega)
        (State.expects_value _)
      have hall := State.Refuses.after (reads_fieldName h key) (hvalue.append ['\x7d'])
      simpa [fieldsChars] using hall
  | (key, v) :: f :: rest, before, s, outer, shallow, deep, h => by
      rw [fieldsDepth] at deep
      have hsplit : fieldsChars ((key, v) :: f :: rest) ++ ['\x7d'] =
          (quoted key ++ [':']) ++ (v.chars ++ ',' :: (fieldsChars (f :: rest) ++ ['\x7d'])) := by
        simp [fieldsChars]
      rw [hsplit]
      refine .after (reads_fieldName h key) ?_
      rcases Nat.lt_or_ge maxDepth (outer.depth + 1 + v.depth) with hdeep | hread
      · have hdepth : (Context.field before key outer).depth ≤ maxDepth := shallow
        exact (refuses_value v hdepth (by simp only [Context.depth]; omega)
          (State.expects_value _)).append _
      · obtain ⟨t, w, hreads, hends, -⟩ := reads_value v
          (by simp only [Context.depth]; omega) (State.expects_value (.field before key outer))
        have hcomma : t.step 0x2C = .ok (.key (Fields.insert key w before) outer) :=
          hends.step 0x2C (Or.inl rfl)
        exact .after hreads (.cons rfl hcomma
          (refuses_fields (f :: rest) _ shallow (by omega) rfl))

end

/-- The text of a value that is nested too deeply is refused. -/
theorem parse_of_deep {v : Value} (deep : maxDepth < v.depth) :
    parse (textBytes v.text) = .error .malformed := by
  have hrefuses : (State.value .top).Refuses v.chars :=
    refuses_value v (Nat.zero_le _) (by simpa [Context.depth] using deep) (State.expects_value .top)
  rw [State.Refuses] at hrefuses
  rw [Value.text, textBytes_ofList, parse, hrefuses]
  rfl

theorem echoes_of_parse {fields : List (String × Value)} {v : Value}
    (h : parse (textBytes (Value.object fields).text) = .ok v) :
    ∃ read, FieldsEcho fields read ∧ v = .object (Fields.insertAll read []) := by
  rcases Nat.lt_or_ge maxDepth (Value.object fields).depth with hdeep | hdepth
  · cases (parse_of_deep hdeep).symm.trans h
  · obtain ⟨read, hecho, hparse⟩ := exists_read hdepth
    exact ⟨read, hecho, Except.ok.inj (h.symm.trans hparse)⟩

/-! ### Looking fields up -/

theorem Fields.Ascending.keys_nodup {fields : List (String × Value)} (h : Fields.Ascending fields) :
    (fields.map (·.1)).Nodup := by
  refine List.pairwise_map.mpr (h.imp ?_)
  rintro f g hlt heq
  exact String.lt_irrefl g.1 (heq ▸ hlt)

theorem find?_eq_none_of_not_mem {key : String} {fields : List (String × Value)}
    (h : key ∉ fields.map (·.1)) : Fields.find? key fields = none := by
  rw [Fields.find?, List.find?_eq_none.mpr, Option.map_none]
  intro f hf
  have hne : f.1 ≠ key := fun heq => h (heq ▸ List.mem_map_of_mem hf)
  simpa using hne

@[simp]
theorem find?_cons (key name : String) (v : Value) (fields : List (String × Value)) :
    Fields.find? key ((name, v) :: fields) =
      if name = key then some v else Fields.find? key fields := by
  rcases eq_or_ne name key with rfl | hne
  · simp [Fields.find?]
  · simp [Fields.find?, hne]

theorem find?_of_mem_fields {fields : List (String × Value)} (nodup : (fields.map (·.1)).Nodup)
    {f : String × Value} (h : f ∈ fields) : Fields.find? f.1 fields = some f.2 := by
  induction fields with
  | nil => cases h
  | cons g rest ih =>
      rw [List.map_cons, List.nodup_cons] at nodup
      rw [find?_cons]
      rcases List.mem_cons.mp h with rfl | hrest
      · exact if_pos rfl
      · have hne : g.1 ≠ f.1 := fun heq => nodup.1 (heq ▸ List.mem_map_of_mem hrest)
        rw [if_neg hne, ih nodup.2 hrest]

@[simp]
theorem find?_append (key : String) (fields more : List (String × Value)) :
    Fields.find? key (fields ++ more) = (Fields.find? key fields).or (Fields.find? key more) := by
  simp [Fields.find?, Option.map_or]

/-- Of several fields of one key the last that is read counts. -/
theorem find?_insertAll (key : String) (fields before : List (String × Value)) :
    Fields.find? key (Fields.insertAll fields before) =
      (Fields.find? key fields.reverse).or (Fields.find? key before) := by
  induction fields generalizing before with
  | nil => rfl
  | cons f rest ih =>
      change Fields.find? key (Fields.insertAll rest (Fields.insert f.1 f.2 before)) = _
      rw [ih, List.reverse_cons, find?_append, Option.or_assoc, find?_cons]
      rcases eq_or_ne f.1 key with rfl | hne
      · rw [Fields.find?_insert_self, if_pos rfl, Option.some_or]
      · rw [Fields.find?_insert_of_ne hne.symm, if_neg hne]
        rfl

/-- When no key comes twice, it does not matter in which order the fields are read. -/
theorem find?_reverse {fields : List (String × Value)} (nodup : (fields.map (·.1)).Nodup)
    (key : String) : Fields.find? key fields.reverse = Fields.find? key fields := by
  induction fields with
  | nil => rfl
  | cons f rest ih =>
      rw [List.map_cons, List.nodup_cons] at nodup
      rw [List.reverse_cons, find?_append, ih nodup.2, find?_cons, find?_cons]
      rcases eq_or_ne f.1 key with rfl | hne
      · rw [find?_eq_none_of_not_mem nodup.1, if_pos rfl, if_pos rfl, Option.none_or]
      · rw [if_neg hne, if_neg hne]
        exact Option.or_none

theorem find?_read {fields : List (String × Value)} (nodup : (fields.map (·.1)).Nodup)
    (key : String) : Fields.find? key (Fields.insertAll fields []) = Fields.find? key fields := by
  rw [find?_insertAll, find?_reverse nodup]
  exact Option.or_none

/-- These are the fields that were written, whatever the order: no key is lost or added, and a
string is found as it was. -/
structure Recovers (written found : List (String × Value)) : Prop where
  keys : ∀ key, Fields.find? key found = none ↔ Fields.find? key written = none
  strings : ∀ key s, Fields.find? key written = some (.string s) →
    Fields.find? key found = some (.string s)

theorem FieldsEcho.keys_eq {written read : List (String × Value)} (h : FieldsEcho written read) :
    written.map (·.1) = read.map (·.1) := by
  induction h with
  | nil => rfl
  | cons hfirst _ ih => rw [List.map_cons, List.map_cons, hfirst.1, ih]

/-- A value that holds no double is found as it was. -/
theorem FieldsEcho.find?_eq {written read : List (String × Value)} (h : FieldsEcho written read)
    {key : String} (exact : ∀ v, Fields.find? key written = some v → v.IsExact) :
    Fields.find? key read = Fields.find? key written := by
  induction h with
  | nil => rfl
  | @cons f g fs gs hfirst _ ih =>
      obtain ⟨hkey, hecho⟩ := hfirst
      rw [find?_cons] at exact
      rw [find?_cons, find?_cons, ← hkey]
      rcases eq_or_ne f.1 key with heq | hne
      · rw [if_pos heq] at exact ⊢
        rw [if_pos heq, hecho (exact f.2 rfl)]
      · rw [if_neg hne] at exact ⊢
        rw [if_neg hne, ih exact]

theorem FieldsEcho.find?_eq_none_iff {written read : List (String × Value)}
    (h : FieldsEcho written read) (key : String) :
    Fields.find? key read = none ↔ Fields.find? key written = none := by
  induction h with
  | nil => exact Iff.rfl
  | @cons f g fs gs hfirst _ ih =>
      rw [find?_cons, find?_cons, ← hfirst.1]
      split
      · simp
      · exact ih

theorem FieldsEcho.find?_read {written read : List (String × Value)} (h : FieldsEcho written read)
    (nodup : (written.map (·.1)).Nodup) {key : String}
    (exact : ∀ v, Fields.find? key written = some v → v.IsExact) :
    Fields.find? key (Fields.insertAll read []) = Fields.find? key written := by
  rw [Json.find?_read (h.keys_eq ▸ nodup), h.find?_eq exact]

/-- If the text of an object is read at all, then as an object from which its fields are
recovered. -/
theorem recovers_of_parse {fields : List (String × Value)} {v : Value}
    (nodup : (fields.map (·.1)).Nodup)
    (h : parse (textBytes (Value.object fields).text) = .ok v) :
    ∃ found, v = .object found ∧ Recovers fields found := by
  obtain ⟨read, hecho, rfl⟩ := echoes_of_parse h
  refine ⟨_, rfl, fun key => ?_, fun key s hs => ?_⟩
  · rw [find?_read (hecho.keys_eq ▸ nodup), hecho.find?_eq_none_iff]
  · rw [hecho.find?_read nodup, hs]
    rintro v hv
    cases hs.symm.trans hv
    trivial

end RoomRelay.Json
