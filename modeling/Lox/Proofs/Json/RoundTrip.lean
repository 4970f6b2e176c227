import Lox.Proofs.Json.Scalar

/-!
# Documents are read back

A written document is read back as itself, on one line or on many, if it keeps within what the
reader takes: arrays and objects that stand inside each other only so far, and integers of not too
many digits. Only documents whose floats have no sign and whose objects hold no key twice are
considered; the documents of trees are of this kind.
-/

namespace Lox.Json

/-! ## Between the parts of a document -/

section

variable {cs rest : List Char}

theorem skipSpaces_append {spaces : List Char} (hspaces : ∀ c ∈ spaces, isSpace c = true) :
    skipSpaces (spaces ++ cs) = skipSpaces cs :=
  List.dropWhile_append_of_pos hspaces

theorem skipSpaces_cons {c : Char} (hc : isSpace c = false) : skipSpaces (c :: cs) = c :: cs :=
  List.dropWhile_cons_of_neg (by simp [hc])

theorem isSpace_of_mem_itemBreak {depth : Option Nat} {c : Char}
    (hc : c ∈ (itemBreak depth).toList) : isSpace c = true := by
  cases depth with
  | none => cases hc
  | some depth =>
    rw [itemBreak, String.toList_ofList, List.mem_cons] at hc
    rcases hc with rfl | hc
    · rfl
    · rw [List.eq_of_mem_replicate hc]
      rfl

theorem skipSpaces_itemBreak (depth : Option Nat) :
    skipSpaces ((itemBreak depth).toList ++ cs) = skipSpaces cs :=
  skipSpaces_append fun _ => isSpace_of_mem_itemBreak

/-- Between two items there is a comma with spaces behind it. -/
theorem exists_itemComma (depth : Option Nat) :
    ∃ spaces, (itemComma depth).toList = ',' :: spaces ∧ ∀ c ∈ spaces, isSpace c = true := by
  cases depth with
  | none => exact ⟨[' '], rfl, by simp [isSpace]⟩
  | some depth =>
    refine ⟨(itemBreak (some depth)).toList, ?_, fun _ => isSpace_of_mem_itemBreak⟩
    rw [itemComma, String.toList_append]
    rfl

theorem endsNumber_cons {c : Char}
    (hc : c.isDigit = false ∧ c ≠ '.' ∧ c ≠ 'e' ∧ c ≠ 'E') : EndsNumber (c :: cs) := by
  rintro _ ⟨⟩
  exact hc

theorem endsNumber_itemBreak {depth : Option Nat} (hcs : EndsNumber cs) :
    EndsNumber ((itemBreak depth).toList ++ cs) := by
  cases depth with
  | none => exact hcs
  | some depth =>
    rw [itemBreak, String.toList_ofList]
    exact endsNumber_cons (by decide)

end

/-! ## Single documents -/

/-- The characters that a document begins with. -/
def StartsDocument (c : Char) : Prop :=
  StartsScalar c ∨ c ∈ ['"', '[', '\x7b']

/-- A document is read back from its text, with at most `room` arrays and objects inside each
other. -/
structure ReadsBack (room : Nat) (document : Json) : Prop where
  starts : ∀ depth, ∃ c tail, (document.textAt depth).toList = c :: tail ∧ StartsDocument c
  reads : ∀ depth fuel rest, 2 * (document.textAt depth).toList.length < fuel → EndsNumber rest →
    readValue fuel room ((document.textAt depth).toList ++ rest) = .ok (document, rest)

section

variable {room : Nat}

theorem StartsScalar.ne {c other : Char} (hc : StartsScalar c) (hother : other.isDigit = false)
    (hword : other ∉ ['-', 'I', 'n', 't', 'f']) : c ≠ other := by
  rintro rfl
  rcases hc with hc | hc
  · rw [hc] at hother
    cases hother
  · exact hword hc

theorem StartsDocument.ne {c other : Char} (hc : StartsDocument c) (hother : other.isDigit = false)
    (hword : other ∉ ['-', 'I', 'n', 't', 'f'] ∧ other ∉ ['"', '[', '\x7b']) : c ≠ other := by
  rcases hc with hc | hc
  · exact hc.ne hother hword.1
  · rintro rfl
    exact hword.2 hc

theorem StartsDocument.isSpace {c : Char} (hc : StartsDocument c) : Json.isSpace c = false := by
  have hblank : c ≠ ' ' := hc.ne rfl (by decide)
  have htab : c ≠ '\t' := hc.ne rfl (by decide)
  have hnewline : c ≠ '\n' := hc.ne rfl (by decide)
  have hreturn : c ≠ '\r' := hc.ne rfl (by decide)
  simp [Json.isSpace, hblank, htab, hnewline, hreturn]

theorem readValue_of_startsScalar {c : Char} (hc : StartsScalar c) (fuel : Nat) {cs rest : List Char}
    {document : Json} (hscalar : scalar (c :: cs) = .ok (document, rest)) :
    readValue (fuel + 1) room (c :: cs) = .ok (document, rest) := by
  have hquote : c ≠ '"' := hc.ne rfl (by decide)
  have hbracket : c ≠ '[' := hc.ne rfl (by decide)
  have hbrace : c ≠ '\x7b' := hc.ne rfl (by decide)
  rw [readValue, hscalar]
  · exact fun _ heq => hquote (List.cons.inj heq).1
  · exact fun _ heq _ => hbracket (List.cons.inj heq).1
  · exact fun _ _ heq _ => hbracket (List.cons.inj heq).1
  · exact fun _ heq _ => hbrace (List.cons.inj heq).1
  · exact fun _ _ heq _ => hbrace (List.cons.inj heq).1

theorem ReadsScalar.readsBack {document : Json}
    (h : ∀ depth, ReadsScalar (document.textAt depth).toList document) : ReadsBack room document := by
  refine ⟨fun depth => ?_, fun depth fuel rest hfuel hrest => ?_⟩
  · obtain ⟨c, tail, htext, hc⟩ := (h depth).starts
    exact ⟨c, tail, htext, .inl hc⟩
  · obtain ⟨c, tail, htext, hc⟩ := (h depth).starts
    have hread := (h depth).reads rest hrest
    obtain ⟨fuel, rfl⟩ : ∃ k, fuel = k + 1 := ⟨fuel - 1, by omega⟩
    rw [htext, List.cons_append] at hread ⊢
    exact readValue_of_startsScalar hc fuel hread

theorem stringText_toList (s : String) :
    (stringText s).toList = '"' :: (s.toList.flatMap escapedChar ++ ['"']) := by
  rw [stringText, String.toList_ofList]
  rfl

theorem stringRest_stringText (s : String) (start rest : List Char) :
    stringRest start [] 0 (s.toList.flatMap escapedChar ++ ['"'] ++ rest) = .ok (s, rest) := by
  rw [List.append_assoc, List.singleton_append, stringRest_flatMap_escapedChar]
  simp

theorem readsBack_str (s : String) : ReadsBack room (.str s) := by
  refine ⟨fun depth => ⟨'"', _, stringText_toList s, .inr (by decide)⟩, ?_⟩
  intro depth fuel rest hfuel _
  obtain ⟨fuel, rfl⟩ : ∃ k, fuel = k + 1 := ⟨fuel - 1, by omega⟩
  rw [textAt, stringText_toList, List.cons_append, readValue, stringRest_stringText]
  rfl

/-! ## Arrays -/

theorem readItems_single {fuel : Nat} {item : Json} {cs after rest : List Char}
    (hitem : readValue fuel room cs = .ok (item, after)) (hafter : skipSpaces after = ']' :: rest) :
    readItems (fuel + 1) room cs = .ok ([item], rest) := by
  rw [readItems, hitem]
  simp [bind, Except.bind, hafter, pure, Except.pure]

theorem readItems_cons {fuel : Nat} {item : Json} {items : List Json}
    {cs after between rest : List Char}
    (hitem : readValue fuel room cs = .ok (item, after)) (hafter : skipSpaces after = ',' :: between)
    (hitems : readItems fuel room (skipSpaces between) = .ok (items, rest)) :
    readItems (fuel + 1) room cs = .ok (item :: items, rest) := by
  rw [readItems, hitem]
  simp [bind, Except.bind, hafter, hitems, pure, Except.pure]

def itemsText (depth : Option Nat) (items : List Json) : List Char :=
  (String.intercalate (itemComma depth) (itemTexts depth items)).toList

theorem itemsText_cons_cons (depth : Option Nat) (item next : Json) (items : List Json) :
    itemsText depth (item :: next :: items) =
      (item.textAt depth).toList ++ ((itemComma depth).toList ++ itemsText depth (next :: items)) := by
  simp only [itemsText, itemTexts, String.intercalate_cons_cons, String.toList_append,
    List.append_assoc]

theorem itemsText_starts (depth : Option Nat) {items : List Json} (hne : items ≠ [])
    (hitems : ∀ item ∈ items, ReadsBack room item) :
    ∃ c tail, itemsText depth items = c :: tail ∧ StartsDocument c := by
  obtain ⟨item, items, rfl⟩ := List.exists_cons_of_ne_nil hne
  obtain ⟨c, tail, htext, hc⟩ := (hitems item List.mem_cons_self).starts depth
  cases items with
  | nil =>
    refine ⟨c, tail, ?_, hc⟩
    simpa [itemsText, itemTexts] using htext
  | cons next items =>
    rw [itemsText_cons_cons, htext]
    exact ⟨c, _, rfl, hc⟩

/-- The items of an array are read back one after another. -/
theorem readItems_itemsText {inner outer : Option Nat} {items : List Json} (hne : items ≠ [])
    (hitems : ∀ item ∈ items, ReadsBack room item) {fuel : Nat}
    (hfuel : 2 * (itemsText inner items).length + 1 < fuel) (rest : List Char) :
    readItems fuel room (itemsText inner items ++ ((itemBreak outer).toList ++ ']' :: rest)) =
      .ok (items, rest) := by
  induction items generalizing fuel with
  | nil => exact absurd rfl hne
  | cons item items ih =>
    obtain ⟨hitem, hrest⟩ := List.forall_mem_cons.1 hitems
    obtain ⟨fuel, rfl⟩ : ∃ k, fuel = k + 1 := ⟨fuel - 1, by omega⟩
    -- The bracket follows the last item only, and a comma pays for the fuel of every other one.
    cases items with
    | nil =>
      have htext : itemsText inner [item] = (item.textAt inner).toList := by
        rw [itemsText, itemTexts, itemTexts, String.intercalate_singleton]
      rw [htext] at hfuel ⊢
      refine readItems_single (hitem.reads inner fuel _ (by omega) ?_) ?_
      · exact endsNumber_itemBreak (endsNumber_cons (by decide))
      · rw [skipSpaces_itemBreak, skipSpaces_cons (by decide)]
    | cons next items =>
      obtain ⟨spaces, hcomma, hspaces⟩ := exists_itemComma inner
      obtain ⟨c, tail, hstarts, hc⟩ := itemsText_starts inner (by simp) hrest
      rw [itemsText_cons_cons, hcomma] at hfuel ⊢
      simp only [List.length_append, List.length_cons] at hfuel
      simp only [List.append_assoc, List.cons_append]
      refine readItems_cons (hitem.reads inner fuel _ (by omega) (endsNumber_cons (by decide)))
        (skipSpaces_cons (by decide)) ?_
      rw [skipSpaces_append hspaces, hstarts, List.cons_append, skipSpaces_cons hc.isSpace,
        ← List.cons_append, ← hstarts]
      exact ih (by simp) hrest (by omega)

theorem readValue_arr {fuel : Nat} {cs rest : List Char} {items : List Json} (inside : List Char)
    (hinside : skipSpaces cs = inside) (hclose : inside.head? ≠ some ']')
    (hitems : readItems fuel room inside = .ok (items, rest)) :
    readValue (fuel + 1) (room + 1) ('[' :: cs) = .ok (.arr items, rest) := by
  rw [readValue, hinside]
  split
  · exact absurd rfl hclose
  · rw [hitems]
    rfl

theorem readsBack_arr {items : List Json} (hitems : ∀ item ∈ items, ReadsBack room item) :
    ReadsBack (room + 1) (.arr items) := by
  cases items with
  | nil =>
    have htext : ∀ depth, ((Json.arr []).textAt depth).toList = ['[', ']'] := by
      intro depth
      rw [textAt]
      rfl
    refine ⟨fun depth => ⟨'[', [']'], htext depth, .inr (by decide)⟩, ?_⟩
    intro depth fuel rest hfuel _
    obtain ⟨fuel, rfl⟩ : ∃ k, fuel = k + 1 := ⟨fuel - 1, by omega⟩
    rw [htext]
    rfl
  | cons item items =>
    have htext : ∀ depth, ((Json.arr (item :: items)).textAt depth).toList =
        '[' :: ((itemBreak (depth.map (· + 1))).toList ++
          (itemsText (depth.map (· + 1)) (item :: items) ++ ((itemBreak depth).toList ++ [']']))) := by
      intro depth
      simp [textAt, itemsText, -String.toList_intercalate]
    refine ⟨fun depth => ⟨'[', _, htext depth, .inr (by decide)⟩, ?_⟩
    intro depth fuel rest hfuel _
    obtain ⟨fuel, rfl⟩ : ∃ k, fuel = k + 1 := ⟨fuel - 1, by omega⟩
    obtain ⟨c, tail, hstarts, hc⟩ := itemsText_starts (depth.map (· + 1)) (by simp) hitems
    have hclose : c ≠ ']' := hc.ne rfl (by decide)
    rw [htext] at hfuel ⊢
    simp only [List.length_append, List.length_cons] at hfuel
    simp only [List.cons_append, List.append_assoc]
    refine readValue_arr (itemsText (depth.map (· + 1)) (item :: items) ++
      ((itemBreak depth).toList ++ ']' :: rest)) ?_ ?_ ?_
    · rw [skipSpaces_itemBreak, hstarts]
      exact skipSpaces_cons hc.isSpace
    · rw [hstarts]
      simpa using hclose
    · exact readItems_itemsText (by simp) hitems (by omega) rest

/-! ## Objects -/

theorem setField_eq_append {key : String} (value : Json) {fields : List (String × Json)}
    (hkey : key ∉ fields.map Prod.fst) : setField key value fields = fields ++ [(key, value)] := by
  induction fields with
  | nil => rfl
  | cons field fields ih =>
    rw [List.map_cons, List.mem_cons, not_or] at hkey
    rw [setField, if_neg (Ne.symm hkey.1), ih hkey.2]
    rfl

section Fields

variable {fuel : Nat} {read fields : List (String × Json)} {key : String} {value : Json}
  {cs named valued after rest : List Char}

theorem readFields_last (hkey : stringRest ('"' :: cs) [] 0 cs = .ok (key, named))
    (hcolon : skipSpaces named = ':' :: valued)
    (hvalue : readValue fuel room (skipSpaces valued) = .ok (value, after))
    (hafter : skipSpaces after = '\x7d' :: rest) :
    readFields (fuel + 1) room read ('"' :: cs) = .ok (setField key value read, rest) := by
  rw [readFields, hkey]
  simp [bind, Except.bind, hcolon, hvalue, hafter, pure, Except.pure]

theorem readFields_more (hkey : stringRest ('"' :: cs) [] 0 cs = .ok (key, named))
    (hcolon : skipSpaces named = ':' :: valued)
    (hvalue : readValue fuel room (skipSpaces valued) = .ok (value, after))
    (hafter : skipSpaces after = ',' :: rest) :
    readFields (fuel + 1) room read ('"' :: cs) =
      readFields fuel room (setField key value read) (skipSpaces rest) := by
  rw [readFields, hkey]
  simp [bind, Except.bind, hcolon, hvalue, hafter]

end Fields

/-- The text of a field behind the quote that it begins with. -/
def fieldTail (depth : Option Nat) (field : String × Json) : List Char :=
  field.1.toList.flatMap escapedChar ++ ['"'] ++ ':' :: ' ' :: (field.2.textAt depth).toList

def fieldsText (depth : Option Nat) (fields : List (String × Json)) : List Char :=
  (String.intercalate (itemComma depth) (fieldTexts depth fields)).toList

theorem fieldsText_single (depth : Option Nat) (field : String × Json) :
    fieldsText depth [field] = '"' :: fieldTail depth field := by
  simp [fieldsText, fieldTexts, fieldTail, stringText_toList]

theorem fieldsText_cons_cons (depth : Option Nat) (field next : String × Json)
    (fields : List (String × Json)) :
    fieldsText depth (field :: next :: fields) = '"' :: (fieldTail depth field ++
      ((itemComma depth).toList ++ fieldsText depth (next :: fields))) := by
  simp [fieldsText, fieldTexts, fieldTail, stringText_toList, String.intercalate_cons_cons,
    -String.toList_intercalate]

theorem fieldsText_starts (depth : Option Nat) (field : String × Json)
    (fields : List (String × Json)) : ∃ tail, fieldsText depth (field :: fields) = '"' :: tail := by
  cases fields with
  | nil => exact ⟨_, fieldsText_single depth field⟩
  | cons next fields => exact ⟨_, fieldsText_cons_cons depth field next fields⟩

theorem stringRest_fieldTail (depth : Option Nat) (field : String × Json) (start tail : List Char) :
    stringRest start [] 0 (fieldTail depth field ++ tail) =
      .ok (field.1, ':' :: ' ' :: ((field.2.textAt depth).toList ++ tail)) := by
  rw [fieldTail, List.append_assoc, stringRest_stringText]
  rfl

theorem ReadsBack.skipSpaces {document : Json} (h : ReadsBack room document) (depth : Option Nat)
    (tail : List Char) :
    Json.skipSpaces (' ' :: ((document.textAt depth).toList ++ tail)) =
      (document.textAt depth).toList ++ tail := by
  obtain ⟨c, text, hstarts, hc⟩ := h.starts depth
  rw [hstarts, List.cons_append, ← List.singleton_append, skipSpaces_append (by simp [isSpace]),
    skipSpaces_cons hc.isSpace]

/-- The fields of an object are read back one after another, behind those already read. -/
theorem readFields_fieldsText {inner outer : Option Nat} {read fields : List (String × Json)}
    (hne : fields ≠ []) (hfields : ∀ field ∈ fields, ReadsBack room field.2)
    (hkeys : ((read ++ fields).map Prod.fst).Nodup) {fuel : Nat}
    (hfuel : 2 * (fieldsText inner fields).length + 1 < fuel) (rest : List Char) :
    readFields fuel room read
      (fieldsText inner fields ++ ((itemBreak outer).toList ++ '\x7d' :: rest)) =
      .ok (read ++ fields, rest) := by
  induction fields generalizing read fuel with
  | nil => exact absurd rfl hne
  | cons field fields ih =>
    obtain ⟨hfield, hrest⟩ := List.forall_mem_cons.1 hfields
    obtain ⟨fuel, rfl⟩ : ∃ k, fuel = k + 1 := ⟨fuel - 1, by omega⟩
    -- The key is new, so the field goes behind those that were read before it.
    have hset : setField field.1 field.2 read = read ++ [field] := by
      refine setField_eq_append field.2 fun hmem => ?_
      rw [List.map_append, List.nodup_append] at hkeys
      exact hkeys.2.2 _ hmem _ List.mem_cons_self rfl
    have hlength : ∀ tail, (field.2.textAt inner).toList.length ≤
        (fieldTail inner field ++ tail).length := by
      intro tail
      simp only [fieldTail, List.length_append, List.length_cons]
      omega
    have hvalue : ∀ tail, EndsNumber tail → 2 * (field.2.textAt inner).toList.length < fuel →
        readValue fuel room (Json.skipSpaces (' ' :: ((field.2.textAt inner).toList ++ tail))) =
          .ok (field.2, tail) := by
      intro tail htail hfuel
      rw [hfield.skipSpaces]
      exact hfield.reads inner fuel tail hfuel htail
    cases fields with
    | nil =>
      have hshort := hlength []
      rw [fieldsText_single] at hfuel ⊢
      rw [List.append_nil] at hshort
      rw [List.length_cons] at hfuel
      rw [List.cons_append, readFields_last (stringRest_fieldTail inner field _ _)
        (skipSpaces_cons (by decide)) (hvalue _ ?_ (by omega)) ?_, hset]
      · exact endsNumber_itemBreak (endsNumber_cons (by decide))
      · rw [skipSpaces_itemBreak, skipSpaces_cons (by decide)]
    | cons next fields =>
      obtain ⟨spaces, hcomma, hspaces⟩ := exists_itemComma inner
      obtain ⟨tail, hstarts⟩ := fieldsText_starts inner next fields
      have hshort := hlength []
      rw [fieldsText_cons_cons, hcomma] at hfuel ⊢
      rw [List.append_nil] at hshort
      simp only [List.length_append, List.length_cons] at hfuel
      simp only [List.append_assoc, List.cons_append]
      rw [readFields_more (stringRest_fieldTail inner field _ _) (skipSpaces_cons (by decide))
        (hvalue _ (endsNumber_cons (by decide)) (by omega)) (skipSpaces_cons (by decide)), hset,
        skipSpaces_append hspaces, hstarts, List.cons_append, skipSpaces_cons (by decide),
        ← List.cons_append, ← hstarts, ih (by simp) hrest (by simpa using hkeys) (by omega)]
      simp

theorem readValue_obj {fuel : Nat} {cs rest : List Char} {fields : List (String × Json)}
    (inside : List Char) (hinside : skipSpaces cs = inside) (hclose : inside.head? ≠ some '\x7d')
    (hfields : readFields fuel room [] inside = .ok (fields, rest)) :
    readValue (fuel + 1) (room + 1) ('\x7b' :: cs) = .ok (.obj fields, rest) := by
  rw [readValue, hinside]
  split
  · exact absurd rfl hclose
  · rw [hfields]
    rfl

theorem readsBack_obj {fields : List (String × Json)} (hkeys : (fields.map Prod.fst).Nodup)
    (hfields : ∀ field ∈ fields, ReadsBack room field.2) : ReadsBack (room + 1) (.obj fields) := by
  cases fields with
  | nil =>
    have htext : ∀ depth, ((Json.obj []).textAt depth).toList = ['\x7b', '\x7d'] := by
      intro depth
      rw [textAt]
      rfl
    refine ⟨fun depth => ⟨'\x7b', ['\x7d'], htext depth, .inr (by decide)⟩, ?_⟩
    intro depth fuel rest hfuel _
    obtain ⟨fuel, rfl⟩ : ∃ k, fuel = k + 1 := ⟨fuel - 1, by omega⟩
    rw [htext]
    rfl
  | cons field fields =>
    have htext : ∀ depth, ((Json.obj (field :: fields)).textAt depth).toList =
        '\x7b' :: ((itemBreak (depth.map (· + 1))).toList ++
          (fieldsText (depth.map (· + 1)) (field :: fields) ++
            ((itemBreak depth).toList ++ ['\x7d']))) := by
      intro depth
      simp [textAt, fieldsText, -String.toList_intercalate]
    refine ⟨fun depth => ⟨'\x7b', _, htext depth, .inr (by decide)⟩, ?_⟩
    intro depth fuel rest hfuel _
    obtain ⟨fuel, rfl⟩ : ∃ k, fuel = k + 1 := ⟨fuel - 1, by omega⟩
    obtain ⟨tail, hstarts⟩ := fieldsText_starts (depth.map (· + 1)) field fields
    rw [htext] at hfuel ⊢
    simp only [List.length_append, List.length_cons] at hfuel
    simp only [List.cons_append, List.append_assoc]
    refine readValue_obj (fieldsText (depth.map (· + 1)) (field :: fields) ++
      ((itemBreak depth).toList ++ '\x7d' :: rest)) ?_ ?_ ?_
    · rw [skipSpaces_itemBreak, hstarts]
      exact skipSpaces_cons (by decide)
    · rw [hstarts]
      simp
    · exact readFields_fieldsText (by simp) hfields hkeys (by omega) rest

end

/-! ## All documents -/

mutual
/-- How many arrays and objects stand inside each other. -/
def nesting : Json → Nat
  | arr items => nestingItems items + 1
  | obj fields => nestingFields fields + 1
  | _ => 0
def nestingItems : List Json → Nat
  | [] => 0
  | item :: rest => max item.nesting (nestingItems rest)
def nestingFields : List (String × Json) → Nat
  | [] => 0
  | (_, value) :: rest => max value.nesting (nestingFields rest)
end

theorem nesting_le_nestingItems {items : List Json} {item : Json} (hitem : item ∈ items) :
    item.nesting ≤ nestingItems items := by
  induction hitem with
  | head => exact Nat.le_max_left _ _
  | tail _ _ ih => exact Nat.le_trans ih (Nat.le_max_right _ _)

theorem nesting_le_nestingFields {fields : List (String × Json)} {field : String × Json}
    (hfield : field ∈ fields) : field.2.nesting ≤ nestingFields fields := by
  induction hfield with
  | head => exact Nat.le_max_left _ _
  | tail _ _ ih => exact Nat.le_trans ih (Nat.le_max_right _ _)

/-- A document without integers of too many digits, floats with a sign and keys that stand twice in
one object. -/
inductive Plain : Json → Prop where
  | null : Plain .null
  | bool {value : Bool} : Plain (.bool value)
  | int {n : Int} (hlength : (Nat.toDigits 10 n.natAbs).length ≤ Numeral.digitLimit) : Plain (.int n)
  | float {x : Float} (hx : Unsigned x) : Plain (.float x)
  | str {s : String} : Plain (.str s)
  | arr {items : List Json} (hitems : ∀ item ∈ items, Plain item) : Plain (.arr items)
  | obj {fields : List (String × Json)} (hkeys : (fields.map Prod.fst).Nodup)
    (hfields : ∀ field ∈ fields, Plain field.2) : Plain (.obj fields)

theorem Plain.readsBack {document : Json} (h : Plain document) {room : Nat}
    (hroom : document.nesting ≤ room) : ReadsBack room document := by
  induction h generalizing room with
  | null => exact ReadsScalar.readsBack fun _ => readsScalar_null
  | bool => exact ReadsScalar.readsBack fun _ => readsScalar_bool _
  | int hlength => exact ReadsScalar.readsBack fun _ => readsScalar_int hlength
  | float hx => exact ReadsScalar.readsBack fun _ => readsScalar_float hx
  | str => exact readsBack_str _
  | @arr items _ ih =>
    rw [nesting] at hroom
    obtain ⟨room, rfl⟩ : ∃ k, room = k + 1 := ⟨room - 1, by omega⟩
    refine readsBack_arr fun item hitem => ih item hitem ?_
    exact Nat.le_trans (nesting_le_nestingItems hitem) (Nat.le_of_succ_le_succ hroom)
  | @obj fields hkeys _ ih =>
    rw [nesting] at hroom
    obtain ⟨room, rfl⟩ : ∃ k, room = k + 1 := ⟨room - 1, by omega⟩
    refine readsBack_obj hkeys fun field hfield => ih field hfield ?_
    exact Nat.le_trans (nesting_le_nestingFields hfield) (Nat.le_of_succ_le_succ hroom)

/-- What is written is read back, within the limits of the reader. -/
theorem read_textAt {document : Json} (h : Plain document)
    (hnesting : document.nesting ≤ depthLimit) (depth : Option Nat) :
    read (document.textAt depth) = .ok document := by
  have hback := h.readsBack hnesting
  obtain ⟨c, tail, hstarts, hc⟩ := hback.starts depth
  have hreads := hback.reads depth (2 * (document.textAt depth).toList.length + 1) []
    (Nat.lt_succ_self _) nofun
  rw [List.append_nil, hstarts] at hreads
  have hmark : c ≠ '\uFEFF' := hc.ne rfl (by decide)
  rw [read, readChars, hstarts, List.head?_cons, if_neg (by simpa using hmark),
    skipSpaces_cons hc.isSpace, hreads]
  rfl

end Lox.Json
