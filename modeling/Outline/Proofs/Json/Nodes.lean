import Outline.Node.Json
import Outline.Proofs.Json.Record
import Outline.Proofs.Timestamp.Text

/-!
# The JSON forms of nodes, drafts and trees

A node is written with all its fields, a draft without an identifier or a kind that it does not
have, a tree with the trees of its children inside it. Each is read back as it was, if its
properties are no deeper than the reader goes and its years have four digits. The text of a node
takes one level of nesting, that of a tree two for each generation.

Whatever text was read, in whatever order and notation, what it was read as fits, apart from the
years. So it can be written, and its text is read as the same again.

Main results:

* `Node.Fits.reads`, `Draft.Fits.reads`, `Tree.Fits.reads` — what is written is read;
* `Node.fits_of_reader`, `Draft.fits_of_reader`, `Tree.fits_of_reader` — what was read can be
  written;
* `json_roundTrips` — both for all three types.
-/

namespace Outline

open Json (Reader Fields Entry Reads Yields Form writeRecord writeString writeOption maxDepth)

/-! ## Single fields -/

theorem Uuid.reads (depth : Nat) (id : Uuid) : Reads Uuid.reader depth id.writeJson id :=
  Json.reads_ofText (ofText?_toText id)

theorem Uuid.reads_nullable (depth : Nat) (id : Option Uuid) :
    Reads Uuid.reader.nullable depth (writeOption Uuid.writeJson id) id :=
  Json.reads_nullable rfl fun a _ => a.reads depth

theorem Kind.reads (depth : Nat) (k : Kind) : Reads Kind.reader depth k.writeJson k :=
  Json.reads_choice k.ofName?_name

/-- A time is read back if its year has four digits. -/
theorem Timestamp.reads (depth : Nat) {t : Timestamp} (h : t.HasPlainYear) :
    Reads Timestamp.reader depth t.writeJson t :=
  Json.reads_ofText (ofLooseText?_toText h)

/-! ## Nodes -/

namespace Node

/-- Both times have years of four digits. -/
structure HasPlainYears (n : Node) : Prop where
  created : n.created.HasPlainYear
  updated : n.updated.HasPlainYear

/-- The node can be written where that many levels are allowed; it takes one of them itself. -/
inductive Fits : Nat → Node → Prop
  | intro {depth : Nat} {n : Node} : Json.Fits depth n.properties → n.HasPlainYears →
      Fits (depth + 1) n

/-- The fields of a node, as they are written and read. -/
def entries (depth : Nat) (n : Node) : List Entry := [
  .of "id" n.id.writeJson Uuid.reader depth n.id,
  .of "spaceId" n.space.writeJson Uuid.reader depth n.space,
  .of "type" n.kind.writeJson Kind.reader depth n.kind,
  .of "parentId" (writeOption Uuid.writeJson n.parent) Uuid.reader.nullable depth n.parent,
  .of "title" (writeString n.title) .text depth n.title,
  .of "properties" n.properties.write .value depth n.properties,
  .of "sort" n.sort.writeJson .sortKey depth n.sort,
  .of "archived" (Json.bool n.archived).write .bool depth n.archived,
  .of "createdAt" n.created.writeJson Timestamp.reader depth n.created,
  .of "updatedAt" n.updated.writeJson Timestamp.reader depth n.updated]

/-- A node is read from a form in which each of its entries is given. -/
theorem reader_of_given {depth : Nat} {n : Node} {form : Form} {fields : Fields}
    (hfields : Fields.ofForm? ["id", "spaceId", "type", "parentId", "title", "properties",
      "sort", "archived", "createdAt", "updatedAt"] depth form = some fields)
    (hgiven : ∀ e ∈ n.entries fields.depth,
      ∃ form, fields.given.lookup e.name = some form ∧ e.form form) :
    Node.reader depth form = some n := by
  simp only [entries, Entry.of, List.forall_mem_cons] at hgiven
  obtain ⟨hid, hspace, hkind, hparent, htitle, hproperties, hsort, harchived, hcreated,
    hupdated, -⟩ := hgiven
  rw [Node.reader, hfields]
  simp only [Option.bind_eq_bind, Option.bind_some, Fields.required_eq hid,
    Fields.required_eq hspace, Fields.required_eq hkind, Fields.optional_eq hparent,
    Fields.defaulted_eq htitle, Fields.required_eq hproperties, Fields.required_eq hsort,
    Fields.defaulted_eq harchived, Fields.required_eq hcreated, Fields.required_eq hupdated]
  rfl

theorem Fits.reads {depth : Nat} {n : Node} (h : n.Fits depth) :
    Reads Node.reader depth n.writeJson n := by
  cases h with
  | @intro depth n hproperties hyears =>
    have htexts : ∀ e ∈ n.entries depth, Yields e.text e.form := by
      simp only [entries, List.forall_mem_cons]
      exact ⟨n.id.reads depth, n.space.reads depth, n.kind.reads depth,
        Uuid.reads_nullable depth n.parent, Json.reads_text n.title, Json.reads_value hproperties,
        Json.reads_sortKey n.sort, Json.reads_bool n.archived,
        Timestamp.reads depth hyears.created, Timestamp.reads depth hyears.updated,
        List.forall_mem_nil _⟩
    refine (Json.yields_fields htexts (by simp [entries, Entry.of])
      ((n.entries depth).map (·.name)) depth).imp ?_
    rintro form ⟨fields, hfields, -, rfl, hgiven, -⟩
    exact reader_of_given hfields fun e he => hgiven e he (List.mem_map_of_mem he)

/-- A node that was read can be written where it was read. -/
theorem fits_of_reader {depth : Nat} {n : Node} {form : Form}
    (h : Node.reader depth form = some n) (hyears : n.HasPlainYears) : n.Fits depth := by
  unfold Node.reader at h
  simp only [Option.bind_eq_bind, Option.bind_eq_some_iff, Option.pure_def, Option.some.injEq] at h
  obtain ⟨fields, hfields, id, -, space, -, kind, -, parent, -, title, -, properties, hproperties,
    sort, -, archived, -, created, -, updated, -, rfl⟩ := h
  obtain rfl := Fields.depth_of_ofForm? hfields
  exact .intro (Fields.fits_of_required hproperties) hyears

end Node

/-! ## Drafts -/

namespace Draft

/-- The draft can be written where that many levels are allowed. -/
inductive Fits : Nat → Draft → Prop
  | intro {depth : Nat} {d : Draft} : Json.Fits depth d.properties → Fits (depth + 1) d

/-- The fields of a draft, as they are written and read. -/
def entries (depth : Nat) (d : Draft) : List Entry :=
  Entry.optional "id" Uuid.writeJson Uuid.reader depth d.id ++
  .of "spaceId" d.space.writeJson Uuid.reader depth d.space ::
  (Entry.optional "type" Kind.writeJson Kind.reader depth d.kind ++ [
  .of "parentId" (writeOption Uuid.writeJson d.parent) Uuid.reader.nullable depth d.parent,
  .of "title" (writeString d.title) .text depth d.title,
  .of "properties" d.properties.write .value depth d.properties])

/-- A draft is written as a record of its entries. -/
theorem writeJson_eq (depth : Nat) (d : Draft) :
    d.writeJson = writeRecord ((d.entries depth).map Entry.written) := by
  unfold writeJson entries
  cases d.id <;> cases d.kind <;> rfl

/-- No field of a draft is written twice. -/
theorem names_nodup (depth : Nat) (d : Draft) : ((d.entries depth).map (·.name)).Nodup := by
  unfold entries
  cases d.id <;> cases d.kind <;> simp [Entry.optional, Entry.of]

/-- A draft is read from its fields whether or not the optional ones are there. -/
theorem reader_of_are {depth : Nat} {d : Draft} {form : Form} {fields : Fields}
    (hfields : Fields.ofForm? ["id", "spaceId", "type", "parentId", "title", "properties"]
      depth form = some fields)
    (h : fields.Are fields.depth ["id", "spaceId", "type", "parentId", "title", "properties"]
      (d.entries fields.depth)) : Draft.reader depth form = some d := by
  have hgiven := h.given
  simp only [entries, Entry.of, List.forall_mem_append, List.forall_mem_cons] at hgiven
  obtain ⟨hid, hspace, hkind, hparent, htitle, hproperties, -⟩ := hgiven
  -- an identifier or a kind is given when the draft has one, and missing otherwise
  have hid : fields.defaultedOptional "id" Uuid.reader = some d.id := by
    refine Fields.defaultedOptional_eq (fun a ha => ?_) fun hnone => h.missing "id" ?_
    · exact hid (.of "id" a.writeJson Uuid.reader.nullable fields.depth (some a))
        (by simp [Entry.optional, ha]) (by simp [Entry.of])
    · unfold entries
      cases d.kind <;> simp [Entry.optional, Entry.of, hnone]
  have hkind : fields.defaultedOptional "type" Kind.reader = some d.kind := by
    refine Fields.defaultedOptional_eq (fun a ha => ?_) fun hnone => h.missing "type" ?_
    · exact hkind (.of "type" a.writeJson Kind.reader.nullable fields.depth (some a))
        (by simp [Entry.optional, ha]) (by simp [Entry.of])
    · unfold entries
      cases d.id <;> simp [Entry.optional, Entry.of, hnone]
  have hparent : fields.defaultedOptional "parentId" Uuid.reader = some d.parent :=
    Fields.defaulted_eq (hparent (by simp))
  rw [Draft.reader, hfields]
  simp only [Option.bind_eq_bind, Option.bind_some, hid, Fields.required_eq (hspace (by simp)),
    hkind, hparent, Fields.defaulted_eq (htitle (by simp)),
    Fields.defaulted_eq (hproperties (by simp))]
  rfl

theorem Fits.reads {depth : Nat} {d : Draft} (h : d.Fits depth) :
    Reads Draft.reader depth d.writeJson d := by
  cases h with
  | @intro depth d hproperties =>
    have htexts : ∀ e ∈ d.entries depth, Yields e.text e.form := by
      simp only [entries, List.forall_mem_append, List.forall_mem_cons]
      refine ⟨fun e he => ?_, d.space.reads depth, fun e he => ?_,
        Uuid.reads_nullable depth d.parent, Json.reads_text d.title, Json.reads_value hproperties,
        List.forall_mem_nil _⟩
      · obtain ⟨id, -, rfl⟩ := Option.map_eq_some_iff.1 (Option.mem_toList.1 he)
        exact Uuid.reads_nullable depth (some id)
      · obtain ⟨kind, -, rfl⟩ := Option.map_eq_some_iff.1 (Option.mem_toList.1 he)
        exact Json.reads_nullable (o := some kind) rfl fun a _ => a.reads depth
    rw [Reads, writeJson_eq depth]
    refine (Json.yields_fields htexts (d.names_nodup depth)
      ["id", "spaceId", "type", "parentId", "title", "properties"] depth).imp ?_
    rintro form ⟨fields, hfields, hare⟩
    obtain rfl := hare.depth
    exact reader_of_are hfields hare

/-- A draft that was read can be written where it was read; what it was read without is empty. -/
theorem fits_of_reader {depth : Nat} {d : Draft} {form : Form} (hdepth : 2 ≤ depth)
    (h : Draft.reader depth form = some d) : d.Fits depth := by
  unfold Draft.reader at h
  simp only [Option.bind_eq_bind, Option.bind_eq_some_iff, Option.pure_def, Option.some.injEq] at h
  obtain ⟨fields, hfields, id, -, space, -, kind, -, parent, -, title, -, properties, hproperties,
    rfl⟩ := h
  obtain rfl := Fields.depth_of_ofForm? hfields
  obtain ⟨depth, hsucc⟩ : ∃ n, fields.depth = n + 1 := ⟨fields.depth - 1, by omega⟩
  have hempty : Json.Fits fields.depth Json.emptyObject :=
    hsucc ▸ .obj List.Pairwise.nil (List.forall_mem_nil _)
  exact .intro (Fields.fits_of_defaulted hempty hproperties)

end Draft

/-! ## Trees -/

namespace Tree

/-- What holds of every node of a tree. -/
inductive All (P : Node → Prop) : Tree → Prop
  | node {root : Node} {children : List Tree} : P root → (∀ t ∈ children, All P t) →
      All P (.node root children)

/-- The tree can be written where that many levels are allowed: one for its own object, and another
for the object of its node or the list of its children. -/
inductive Fits : Nat → Tree → Prop
  | node {depth : Nat} {root : Node} {children : List Tree} : root.Fits (depth + 1) →
      (∀ t ∈ children, Fits depth t) → Fits (depth + 2) (.node root children)

theorem writeJsonMore_eq (trees : List Tree) :
    writeJsonMore trees = Json.closeItems (trees.map writeJson) := by
  induction trees with
  | nil => rfl
  | cons t trees ih => rw [writeJsonMore, ih, List.map_cons, Json.closeItems]

theorem writeJsonList_eq (trees : List Tree) :
    writeJsonList trees = Json.openItems (trees.map writeJson) := by
  cases trees with
  | nil => rfl
  | cons t trees => rw [writeJsonList, writeJsonMore_eq, List.map_cons, Json.openItems]

theorem begins_writeJson (t : Tree) : Json.Begins t.writeJson := by
  obtain ⟨root, children⟩ := t
  exact ⟨'\x7b', _, by rw [writeJson, writeRecord], rfl, by decide⟩

/-- The form of the list of children: each of them is read one level further in. -/
def IsChildren (depth : Nat) (children : List Tree) (form : Form) : Prop :=
  ∃ items, form = .arr items ∧
    List.Forall₂ (fun t form => Tree.reader depth form = some t) children items

/-- The fields of a tree, as they are written and read. -/
def entries (depth : Nat) (root : Node) (children : List Tree) : List Entry := [
  .of "node" root.writeJson Node.reader (depth + 1) root,
  ⟨"children", '[' :: writeJsonList children, IsChildren depth children⟩]

theorem mapM_of_forall₂ {α β : Type} {f : β → Option α} {as : List α} {bs : List β}
    (h : List.Forall₂ (fun a b => f b = some a) as bs) : bs.mapM f = some as := by
  induction h with
  | nil => rfl
  | cons hab _ ih => rw [List.mapM_cons, hab, ih]; rfl

theorem Fits.reads {depth : Nat} {t : Tree} (h : t.Fits depth) :
    Reads Tree.reader depth t.writeJson t := by
  induction h with
  | @node depth root children hroot _ ih =>
    have hchildren : Yields ('[' :: writeJsonList children) (IsChildren depth children) := by
      rw [writeJsonList_eq]
      exact Json.yields_list (fun t _ => t.begins_writeJson) ih
    have htexts : ∀ e ∈ entries depth root children, Yields e.text e.form := by
      simp only [entries, List.forall_mem_cons]
      exact ⟨hroot.reads, hchildren, List.forall_mem_nil _⟩
    have htext : (Tree.node root children).writeJson =
        writeRecord ((entries depth root children).map Entry.written) := by
      rw [writeJson]
      rfl
    rw [Reads, htext]
    refine (Json.yields_fields htexts (by simp [entries, Entry.of]) ["node", "children"]
      (depth + 1)).imp ?_
    rintro form ⟨fields, hfields, -, hdepth, hgiven, -⟩
    simp only [entries, Entry.of, List.forall_mem_cons, ← hdepth] at hgiven
    obtain ⟨hnode, hlist, -⟩ := hgiven
    obtain ⟨_, hlookup, items, rfl, hitems⟩ := hlist (by simp)
    rw [Tree.reader, hfields]
    simp only [Option.bind_eq_bind, Option.bind_some, Fields.required_eq (hnode (by simp)),
      hlookup, mapM_of_forall₂ hitems]
    rfl

theorem exists_of_mapM {α β : Type} {f : β → Option α} {bs : List β} {as : List α}
    (h : bs.mapM f = some as) : ∀ a ∈ as, ∃ b, f b = some a := by
  induction bs generalizing as with
  | nil =>
    cases h
    exact List.forall_mem_nil _
  | cons b bs ih =>
    rw [List.mapM_cons] at h
    simp only [Option.bind_eq_bind, Option.bind_eq_some_iff, Option.pure_def,
      Option.some.injEq] at h
    obtain ⟨a, ha, as, has, rfl⟩ := h
    exact List.forall_mem_cons.2 ⟨⟨b, ha⟩, ih has⟩

/-- A tree that was read can be written where it was read. -/
theorem fits_of_reader {depth : Nat} {t : Tree} {form : Form} (hyears : t.All Node.HasPlainYears)
    (h : Tree.reader depth form = some t) : t.Fits depth := by
  induction hyears generalizing depth form with
  | @node root children hroot _ ih =>
    match depth, h with
    -- the reader of a tree asks for two levels
    | 0, h => cases h
    | 1, h => cases h
    | depth + 2, h =>
      rw [Tree.reader] at h
      simp only [Option.bind_eq_bind, Option.bind_eq_some_iff] at h
      obtain ⟨fields, hfields, node, hnode, h⟩ := h
      have hdepth : depth + 1 = fields.depth := Nat.succ.inj (Fields.depth_of_ofForm? hfields)
      split at h
      · next items hlookup =>
        simp only [Option.bind_eq_some_iff, Option.pure_def, Option.some.injEq] at h
        obtain ⟨ts, hts, heq⟩ := h
        cases heq
        refine .node ?_ fun t ht => ?_
        · obtain ⟨form, hform⟩ := Fields.exists_of_required hnode
          rw [hdepth]
          exact Node.fits_of_reader hform hroot
        · obtain ⟨item, hitem⟩ := exists_of_mapM hts t ht
          exact ih t ht hitem
      · cases h

end Tree

/-- The JSON forms of nodes, drafts and trees are read and written in agreement: what can be
written is read as it was, and what was read from any text can be written and read again. -/
theorem json_roundTrips :
    Node.reader.RoundTrips Node.writeJson (Node.Fits maxDepth) Node.HasPlainYears ∧
    Draft.reader.RoundTrips Draft.writeJson (Draft.Fits maxDepth) (fun _ => True) ∧
    Tree.reader.RoundTrips Tree.writeJson (Tree.Fits maxDepth) (Tree.All Node.HasPlainYears) :=
  ⟨.of_reads (fun _ h => h.reads) fun _ _ h hyears => Node.fits_of_reader h hyears,
    .of_reads (fun _ h => h.reads) fun _ _ h _ => Draft.fits_of_reader (by decide) h,
    .of_reads (fun _ h => h.reads) fun _ _ h hyears => Tree.fits_of_reader hyears h⟩

namespace Sample

def family : Tree :=
  let time : Timestamp := ⟨⟨2024, 2, 29, by decide⟩, 23, 59, 60, 5000, by decide⟩
  let page : Node := ⟨⟨1, by decide⟩, ⟨9, by decide⟩, .page, none, "a\"b\nc",
    .obj [("k", .arr [.int (-1), .null])], ⟨-5, by decide, by decide⟩, true, time, time⟩
  .node page [.leaf { page with id := ⟨2, by decide⟩, parent := some ⟨1, by decide⟩ }]

/-- A draft with an unknown field, a field out of order, an escape and a braced identifier. -/
def spelled : String :=
  "\x7b \"more\": [1], \"title\": \"\\u0041\", " ++
    "\"spaceId\": \"\x7b00000000-0000-0000-0000-0000000000AB\x7d\" \x7d"

end Sample

/-- The tree is read back from its text. What the draft is read as is written, read back and written
again without a change. -/
theorem json_roundTrips_family :
    Tree.reader.ofWhole? (String.ofList Sample.family.writeJson) = some Sample.family ∧
    ∃ d, Draft.reader.ofWhole? Sample.spelled = some d ∧
      ∃ b, Draft.reader.ofWhole? (String.ofList d.writeJson) = some b ∧
        b.writeJson = d.writeJson := by
  obtain ⟨-, hdraft, htree⟩ := json_roundTrips
  constructor
  · have hproperties : ∀ depth, Json.Fits (depth + 2) (.obj [("k", .arr [.int (-1), .null])]) := by
      intro depth
      refine .obj (List.pairwise_singleton _ _) (List.forall_mem_singleton.2 (.arr ?_))
      exact List.forall_mem_cons.2 ⟨.int (by decide) (by decide), List.forall_mem_singleton.2 .null⟩
    refine htree.reads _ (.node (.intro (hproperties 123) ⟨by decide, by decide⟩) ?_)
    refine List.forall_mem_singleton.2 (.node ?_ (List.forall_mem_nil _))
    exact .intro (hproperties 121) ⟨by decide, by decide⟩
  · obtain ⟨d, hd⟩ := Option.isSome_iff_exists.1
      (show (Draft.reader.ofWhole? Sample.spelled).isSome = true by decide +kernel)
    exact ⟨d, hd, hdraft.rewrites _ d hd trivial⟩

end Outline
