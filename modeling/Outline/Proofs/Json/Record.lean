import Outline.Proofs.Json.Text

/-!
# Records read back

A record is written as an object whose members are its fields, each under its name. So every
declared field is found again with the form of its text, and a field that was left out is missing.
What a field stands for is then up to its own reader.

Going the other way, a value that a record was read from has been given one level less than the
record, and can be written at that depth again.

Main results:

* `Json.form_of_value?` — the forms that single values are read from;
* `Json.yields_fields` — the fields of a written record are given, each with its form;
* `Json.Reader.RoundTrips` — what it is for the texts of a type to be read and written again.
-/

namespace Outline.Json

/-! ## Single values -/

/-- The text is read as `a` at a depth, whatever follows it. -/
abbrev Reads {α : Type} (reader : Reader α) (depth : Nat) (text : List Char) (a : α) : Prop :=
  Yields text fun form => reader depth form = some a

theorem Reads.ofWhole? {α : Type} {reader : Reader α} {text : List Char} {a : α}
    (h : Reads reader maxDepth text a) : reader.ofWhole? (String.ofList text) = some a := by
  obtain ⟨form, hread, hform⟩ := h (text.length + 1) [] (Nat.le_succ _) ends_nil
  rw [List.append_nil] at hread
  rw [Reader.ofWhole?, readText?, String.toList_ofList, read?, hread]
  exact hform

/-- The forms of a value that is neither an array nor an object nor a fraction. -/
def HasForm (form : Form) : Json → Prop
  | .null => form = .null
  | .bool b => form = .bool b
  | .int i => ∃ n, form = .numeral n ∧ n.value? = some (.int i)
  | .str s => ∃ pieces, form = .str pieces ∧ decodeText? pieces = some s
  | _ => True

theorem form_of_value? {depth : Nat} {form : Form} {v : Json} (h : form.value? depth = some v) :
    HasForm form v := by
  cases form with
  | null =>
    cases h
    rfl
  | bool b =>
    cases h
    rfl
  | numeral n =>
    rcases Numeral.value?_cases h with ⟨i, rfl, -⟩ | ⟨bits, rfl, -⟩
    · exact ⟨n, rfl, h⟩
    · trivial
  | str pieces =>
    rw [Form.value?, Option.map_eq_some_iff] at h
    obtain ⟨s, hs, rfl⟩ := h
    exact ⟨pieces, rfl, hs⟩
  -- arrays and objects have none of the values that something is said about
  | arr items =>
    cases depth with
    | zero => cases h
    | succ depth =>
      rw [Form.value?, Option.map_eq_some_iff] at h
      obtain ⟨vs, -, rfl⟩ := h
      trivial
  | obj members =>
    cases depth with
    | zero => cases h
    | succ depth =>
      rw [Form.value?, Option.map_eq_some_iff] at h
      obtain ⟨vs, -, rfl⟩ := h
      trivial

section Single

variable {depth : Nat}

theorem yields_string (s : String) :
    Yields (writeString s) fun form => ∃ pieces, form = .str pieces ∧ decodeText? pieces = some s :=
  (show ReadsBack 0 (.str s) from readsBack_str s).imp form_of_value?

theorem reads_text (s : String) : Reads .text depth (writeString s) s := by
  refine (yields_string s).imp ?_
  rintro _ ⟨pieces, rfl, hs⟩
  exact hs

theorem reads_ofText {α : Type} {parse : String → Option α} {s : String} {a : α}
    (h : parse s = some a) : Reads (.ofText parse) depth (writeString s) a := by
  refine (yields_string s).imp ?_
  rintro _ ⟨pieces, rfl, hs⟩
  rw [Reader.ofText, Reader.text, hs]
  exact h

theorem reads_choice {α : Type} {parse : String → Option α} {s : String} {a : α}
    (h : parse s = some a) : Reads (.choice parse) depth (writeString s) a := by
  refine (yields_string s).imp ?_
  rintro _ ⟨pieces, rfl, hs⟩
  rw [Reader.choice, hs]
  exact h

theorem reads_bool (b : Bool) : Reads .bool depth (Json.bool b).write b := by
  refine (.bool : Fits 0 (.bool b)).readValue?_write.imp fun {form} h => ?_
  obtain rfl : form = .bool b := form_of_value? h
  rfl

theorem reads_sortKey (k : SortKey) : Reads .sortKey depth (writeInt k.val) k := by
  have hmin := k.ge_min
  have hmax := k.lt_max
  have hfits : Fits 0 (.int k.val) := .int hmin (by omega)
  have htext : writeInt k.val = (Json.int k.val).write := by rw [write]
  rw [Reads, htext]
  refine hfits.readValue?_write.imp fun {form} h => ?_
  obtain ⟨n, rfl, hn⟩ := form_of_value? h
  simp only [Reader.sortKey, Reader.int, hn]
  rw [if_pos ⟨hmin, by omega⟩]
  exact SortKey.ofInt?_val k

theorem reads_value {v : Json} (h : Fits depth v) : Reads .value depth v.write v :=
  h.readValue?_write

/-- Null is written for none, and is read as such wherever it is no value. -/
theorem reads_nullable {α : Type} {reader : Reader α} {writer : α → List Char} {o : Option α}
    (hnull : reader depth .null = none)
    (h : ∀ a, o = some a → Reads reader depth (writer a) a) :
    Reads reader.nullable depth (writeOption writer o) o := by
  cases o with
  | none =>
    refine (.null : Fits 0 .null).readValue?_write.imp fun {form} h => ?_
    obtain rfl : form = .null := form_of_value? h
    rfl
  | some a =>
    refine (h a rfl).imp fun {form} ha => ?_
    cases form with
    | null =>
      rw [hnull] at ha
      cases ha
    | bool | numeral | str | arr | obj => exact congrArg (Option.map some) ha

end Single

/-! ## Fields -/

/-- A field as it is written, and what its form has to be. -/
structure Entry where
  name : String
  text : List Char
  form : Form → Prop

namespace Entry

def written (e : Entry) : Written := (e.name, e.text)

/-- A field whose text is to be read as `a`. -/
def of {α : Type} (name : String) (text : List Char) (reader : Reader α) (depth : Nat) (a : α) :
    Entry :=
  ⟨name, text, fun form => reader depth form = some a⟩

/-- A field that may be left out. -/
def optional {α : Type} (name : String) (writer : α → List Char) (reader : Reader α) (depth : Nat)
    (o : Option α) : List Entry :=
  (o.map fun a => .of name (writer a) reader.nullable depth (some a)).toList

end Entry

/-- The fields are those that were written, at a depth. -/
structure Fields.Are (fields : Fields) (depth : Nat) (declared : List String)
    (entries : List Entry) : Prop where
  named   : fields.named = true
  depth   : fields.depth = depth
  given   : ∀ e ∈ entries, e.name ∈ declared →
              ∃ form, fields.given.lookup e.name = some form ∧ e.form form
  missing : ∀ name, name ∉ entries.map (·.name) → fields.given.lookup name = none

theorem lookup_cons_of_ne {name other : String} (h : name ≠ other) (form : Form)
    (given : List (String × Form)) : ((other, form) :: given).lookup name = given.lookup name := by
  rw [List.lookup_cons, beq_false_of_ne h]

theorem select?_entries (declared : List String) {entries : List Entry}
    {members : List (List Piece × Form)}
    (h : List.Forall₂ (IsMember Entry.name Entry.form) entries members)
    (hnodup : (entries.map (·.name)).Nodup) :
    ∃ given, Fields.select? declared members = some given ∧
      (∀ e ∈ entries, e.name ∈ declared → ∃ form, given.lookup e.name = some form ∧ e.form form) ∧
      ∀ name, name ∉ entries.map (·.name) → given.lookup name = none := by
  induction h with
  | nil => exact ⟨[], rfl, by simp, by simp⟩
  | @cons e m entries members hm _ ih =>
    obtain ⟨hname, hnodup⟩ := List.nodup_cons.1 hnodup
    obtain ⟨given, hselect, hgiven, hmissing⟩ := ih hnodup
    obtain ⟨pieces, form⟩ := m
    obtain ⟨hkey, hform⟩ := hm
    -- a later field has another name
    have hne : ∀ e' ∈ entries, e'.name ≠ e.name :=
      fun e' he' heq => hname (List.mem_map.2 ⟨e', he', heq⟩)
    have hstep : Fields.select? declared ((pieces, form) :: members) =
        if e.name ∉ declared then some given else some ((e.name, form) :: given) := by
      rw [Fields.select?, show decodeText? pieces = some e.name from hkey, hselect]
      simp only [Option.bind_eq_bind, Option.bind_some, hmissing _ hname, Option.isSome_none,
        Bool.false_eq_true, if_false]
    by_cases hdeclared : e.name ∈ declared
    · refine ⟨(e.name, form) :: given, by rw [hstep, if_neg (not_not.2 hdeclared)],
        fun e' he' hdeclared' => ?_, fun name hout => ?_⟩
      · rcases List.mem_cons.1 he' with rfl | he'
        · exact ⟨form, List.lookup_cons_self, hform⟩
        · obtain ⟨form', hlookup, hform'⟩ := hgiven e' he' hdeclared'
          exact ⟨form', by rw [lookup_cons_of_ne (hne e' he'), hlookup], hform'⟩
      · rw [List.map_cons, List.mem_cons, not_or] at hout
        rw [lookup_cons_of_ne hout.1, hmissing name hout.2]
    · refine ⟨given, by rw [hstep, if_pos hdeclared], fun e' he' hdeclared' => ?_,
        fun name hout => ?_⟩
      · rcases List.mem_cons.1 he' with rfl | he'
        · exact absurd hdeclared' hdeclared
        · exact hgiven e' he' hdeclared'
      · exact hmissing name fun hin => hout (List.mem_cons_of_mem _ hin)

/-- The fields of a written record are given under their names. -/
theorem yields_fields {entries : List Entry} (h : ∀ e ∈ entries, Yields e.text e.form)
    (hnodup : (entries.map (·.name)).Nodup) (declared : List String) (depth : Nat) :
    Yields (writeRecord (entries.map Entry.written)) fun form =>
      ∃ fields, Fields.ofForm? declared (depth + 1) form = some fields ∧
        fields.Are depth declared entries := by
  refine (yields_record Entry.name h).imp ?_
  rintro _ ⟨members, rfl, hmembers⟩
  obtain ⟨given, hselect, hgiven, hmissing⟩ :=
    select?_entries declared hmembers hnodup
  exact ⟨⟨true, given, depth⟩, by rw [Fields.ofForm?, hselect, Option.map_some],
    rfl, rfl, hgiven, hmissing⟩

namespace Fields

variable {fields : Fields} {α : Type} {name : String} {reader : Reader α}

/-- What a field that is given is read as. -/
theorem required_eq {a : α}
    (h : ∃ form, fields.given.lookup name = some form ∧ reader fields.depth form = some a) :
    fields.required name reader = some a := by
  obtain ⟨form, hlookup, hform⟩ := h
  rw [required, hlookup]
  exact hform

theorem defaulted_eq {a default : α}
    (h : ∃ form, fields.given.lookup name = some form ∧ reader fields.depth form = some a) :
    fields.defaulted name reader default = some a := by
  obtain ⟨form, hlookup, hform⟩ := h
  rw [defaulted, hlookup]
  exact hform

theorem optional_eq {o : Option α}
    (h : ∃ form, fields.given.lookup name = some form ∧
      reader.nullable fields.depth form = some o) : fields.optional name reader = some o := by
  obtain ⟨form, hlookup, hform⟩ := h
  rw [optional, hlookup]
  exact hform

/-- A field that may be left out is read as none where it is. -/
theorem defaultedOptional_eq {o : Option α}
    (hgiven : ∀ a, o = some a → ∃ form, fields.given.lookup name = some form ∧
      reader.nullable fields.depth form = some (some a))
    (hmissing : o = none → fields.given.lookup name = none) :
    fields.defaultedOptional name reader = some o := by
  cases o with
  | none => rw [defaultedOptional, defaulted, hmissing rfl]
  | some a => exact defaulted_eq (hgiven a rfl)

/-- An optional field of a written record. Its value may itself count as none. -/
theorem Are.optional_eq {β : Type} {declared : List String} {entries : List Entry} {o : Option β}
    {g : β → Option α} (h : fields.Are fields.depth declared entries) (hdeclared : name ∈ declared)
    (hgiven : ∀ b, o = some b →
      ∃ text, Entry.of name text reader.nullable fields.depth (g b) ∈ entries)
    (hmissing : o = none → name ∉ entries.map (·.name)) :
    fields.optional name reader = some (o.bind g) := by
  cases o with
  | none => rw [optional, h.missing name (hmissing rfl), Option.bind_none, if_pos h.named]
  | some b =>
    obtain ⟨text, hentry⟩ := hgiven b rfl
    exact Fields.optional_eq (h.given _ hentry hdeclared)

/-! ## What a record was read from -/

theorem depth_of_ofForm? {declared : List String} {depth : Nat} {form : Form}
    (h : ofForm? declared depth form = some fields) : depth = fields.depth + 1 := by
  unfold ofForm? at h
  split at h
  · obtain ⟨given, -, rfl⟩ := Option.map_eq_some_iff.1 h
    rfl
  · split at h
    · cases h
      rfl
    · cases h
  · cases h

/-- A required field was read from a form, one level further in. -/
theorem exists_of_required {a : α} (h : fields.required name reader = some a) :
    ∃ form, reader fields.depth form = some a := by
  unfold required at h
  split at h
  · exact ⟨_, h⟩
  · cases h

/-- A value that was required can be written as deep as it stood. -/
theorem fits_of_required {v : Json} (h : fields.required name .value = some v) :
    Fits fields.depth v := by
  obtain ⟨form, hform⟩ := exists_of_required h
  exact fits_of_value? form hform

theorem fits_of_defaulted {v default : Json} (hdefault : Fits fields.depth default)
    (h : fields.defaulted name .value default = some v) : Fits fields.depth v := by
  unfold defaulted at h
  split at h
  · exact fits_of_value? _ h
  · cases h
    exact hdefault

end Fields

/-! ## Types with a written form -/

/-- The texts of a type are read and written in agreement. -/
structure Reader.RoundTrips {α : Type} (reader : Reader α) (write : α → List Char)
    (Fits Legible : α → Prop) : Prop where
  /-- a value that a text can hold is read from its own text as it was -/
  reads    : ∀ a, Fits a → reader.ofWhole? (String.ofList (write a)) = some a
  /-- a value that was read from any text can be written, and its text is that of a value that is
  written the same way -/
  rewrites : ∀ s a, reader.ofWhole? s = some a → Legible a →
               ∃ b, reader.ofWhole? (String.ofList (write a)) = some b ∧ write b = write a

/-- It is enough that written values are read, and that what was read can be written. -/
theorem Reader.RoundTrips.of_reads {α : Type} {reader : Reader α} {write : α → List Char}
    {Fits Legible : α → Prop} (hreads : ∀ a, Fits a → Reads reader maxDepth (write a) a)
    (hfits : ∀ form a, reader maxDepth form = some a → Legible a → Fits a) :
    reader.RoundTrips write Fits Legible where
  reads a ha := (hreads a ha).ofWhole?
  rewrites s a hs ha := by
    obtain ⟨form, -, hform⟩ := Option.bind_eq_some_iff.1 hs
    exact ⟨a, (hreads a (hfits form a hform ha)).ofWhole?, rfl⟩

end Outline.Json
