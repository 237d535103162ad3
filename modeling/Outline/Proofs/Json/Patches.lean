import Outline.Node.Json
import Outline.Proofs.Json.Record
import Outline.Proofs.Service.Retries

/-!
# Patches read back

A patch is written with the fields that it gives. Properties that are given as null are written as
null, but null is what an optional field is read as none from. So a patch is read back as it was
unless its properties are null, and then it is read back without them.

The service tells the two apart. It refuses a patch whose properties are no object, null among
them, and it takes a patch without properties: if that gives nothing else the node is returned as
it is, and otherwise the rest of the patch is stored. Before it looks at the patch it finds the
node, and up to there both go the same way.

Main results:

* `Patch.Fits.reads` — what a written patch is read as;
* `Operation.exec_update` — an update finds its node first;
* `patch_readBack` — which patches are read back, and what an update with the other ones does.
-/

namespace Outline

open Json (Reader Fields Entry Yields Form writeRecord writeString maxDepth)

/-! ## Null in an optional field -/

/-- The value that an optional field gives: null gives none. -/
def Json.nonnull? : Json → Option Json
  | .null => none
  | v => some v

theorem Json.nonnull?_of_ne {v : Json} (h : v ≠ .null) : v.nonnull? = some v := by
  cases v with
  | null => exact absurd rfl h
  | bool | int | float | str | arr | obj => rfl

theorem Json.reads_nonnull {depth : Nat} {v : Json} (h : Json.Fits depth v) :
    Json.Reads Reader.value.nullable depth v.write v.nonnull? := by
  refine (Json.reads_value h).imp fun {form} hv => ?_
  -- null is the only value whose form is null
  by_cases hnull : v = .null
  · subst hnull
    obtain rfl : form = .null := Json.form_of_value? hv
    rfl
  · have hform : Reader.value.nullable depth form = (Reader.value depth form).map some := by
      cases form with
      | null => exact absurd (Option.some.inj hv).symm hnull
      | bool | numeral | str | arr | obj => rfl
    rw [hform, hv, Json.nonnull?_of_ne hnull]
    rfl

namespace Patch

/-! ## Reading -/

/-- The patch can be written where that many levels are allowed; it takes one of them itself. -/
inductive Fits : Nat → Patch → Prop
  | intro {depth : Nat} {p : Patch} : (∀ v, p.properties = some v → Json.Fits depth v) →
      Fits (depth + 1) p

/-- What the text of a patch is read as: properties that are null are not given. -/
def recalled (p : Patch) : Patch :=
  { p with properties := p.properties.bind Json.nonnull? }

/-- The fields of a patch, as they are written and read. -/
def entries (depth : Nat) (p : Patch) : List Entry :=
  Entry.optional "title" writeString .text depth p.title ++
  ((p.properties.map fun v =>
    .of "properties" v.write Reader.value.nullable depth v.nonnull?).toList ++
  Entry.optional "archived" (fun b => (Json.bool b).write) .bool depth p.archived)

theorem writeJson_eq (depth : Nat) (p : Patch) :
    p.writeJson = writeRecord ((p.entries depth).map Entry.written) := by
  unfold writeJson entries
  cases p.title <;> cases p.properties <;> cases p.archived <;> rfl

theorem names_nodup (depth : Nat) (p : Patch) : ((p.entries depth).map (·.name)).Nodup := by
  unfold entries
  cases p.title <;> cases p.properties <;> cases p.archived <;> simp [Entry.optional, Entry.of]

theorem reader_of_are {depth : Nat} {p : Patch} {form : Form} {fields : Fields}
    (hfields : Fields.ofForm? ["title", "properties", "archived"] depth form = some fields)
    (h : fields.Are fields.depth ["title", "properties", "archived"] (p.entries fields.depth)) :
    Patch.reader depth form = some p.recalled := by
  -- a field is written when the patch gives it, and missing otherwise
  have htitle : fields.optional "title" .text = some (p.title.bind some) := by
    refine h.optional_eq (by simp) (fun a ha => ⟨writeString a, ?_⟩) fun hnone => ?_
    · simp [entries, Entry.optional, ha]
    · unfold entries
      cases p.properties <;> cases p.archived <;> simp [Entry.optional, Entry.of, hnone]
  have hproperties : fields.optional "properties" .value =
      some (p.properties.bind Json.nonnull?) := by
    refine h.optional_eq (by simp) (fun v hv => ⟨v.write, ?_⟩) fun hnone => ?_
    · simp [entries, hv]
    · unfold entries
      cases p.title <;> cases p.archived <;> simp [Entry.optional, Entry.of, hnone]
  have harchived : fields.optional "archived" .bool = some (p.archived.bind some) := by
    refine h.optional_eq (by simp) (fun b hb => ⟨(Json.bool b).write, ?_⟩) fun hnone => ?_
    · simp [entries, Entry.optional, hb]
    · unfold entries
      cases p.title <;> cases p.properties <;> simp [Entry.optional, Entry.of, hnone]
  rw [Patch.reader, hfields]
  simp only [Option.bind_eq_bind, Option.bind_some, htitle, hproperties, harchived,
    Option.bind_fun_some]
  rfl

theorem Fits.reads {depth : Nat} {p : Patch} (h : p.Fits depth) :
    Json.Reads Patch.reader depth p.writeJson p.recalled := by
  cases h with
  | @intro depth p hproperties =>
    have htexts : ∀ e ∈ p.entries depth, Yields e.text e.form := by
      simp only [entries, List.forall_mem_append]
      refine ⟨fun e he => ?_, fun e he => ?_, fun e he => ?_⟩ <;>
        obtain ⟨a, ha, rfl⟩ := Option.map_eq_some_iff.1 (Option.mem_toList.1 he)
      · exact Json.reads_nullable (o := some a) rfl fun a _ => Json.reads_text a
      · exact Json.reads_nonnull (hproperties a ha)
      · exact Json.reads_nullable (o := some a) rfl fun a _ => Json.reads_bool a
    rw [Json.Reads, writeJson_eq depth]
    refine (Json.yields_fields htexts (p.names_nodup depth) ["title", "properties", "archived"]
      depth).imp ?_
    rintro form ⟨fields, hfields, hare⟩
    obtain rfl := hare.depth
    exact reader_of_are hfields hare

theorem recalled_eq_iff {p : Patch} : p.recalled = p ↔ p.properties ≠ some .null := by
  obtain ⟨title, properties, archived⟩ := p
  cases properties with
  | none => simp [recalled]
  | some v =>
    by_cases hnull : v = .null
    · subst hnull
      simp [recalled, Json.nonnull?]
    · simp [recalled, Json.nonnull?_of_ne hnull, hnull]

/-- A patch is read back as an empty one that was not empty only if null is all that it gave. -/
theorem isEmpty_recalled_iff {p : Patch} :
    p.recalled.isEmpty = p.isEmpty ↔ p ≠ ⟨none, some .null, none⟩ := by
  by_cases hnull : p.properties = some .null
  · obtain ⟨title, properties, archived⟩ := p
    cases title <;> cases archived <;> simp_all [isEmpty, recalled, Json.nonnull?]
  · have hne : p ≠ ⟨none, some .null, none⟩ := fun hp => hnull (hp ▸ rfl)
    simp [recalled_eq_iff.2 hnull, hne]

end Patch

/-! ## Updating -/

namespace Operation

/-- The node that an update is about. -/
def updated (kind : Kind) (id : Uuid) : Operation Node := do
  let operation := s!"update_{kind}_properties"
  requireId operation kind id
  fetchKind operation kind id

/-- What is done with the node once it is found. -/
def updateFound (kind : Kind) (id : Uuid) (p : Patch) (n : Node) : Operation Node := do
  let operation := s!"update_{kind}_properties"
  if p.isEmpty then return n
  if p.properties.any (!·.isObject) then
    throw (.invalidArgument operation .propertiesNotObject)
  ask operation (.update id p)

variable {σ : Type} {server : Server σ} {kind : Kind} {id : Uuid} {p : Patch} {s s' : σ} {n : Node}

/-- An update finds its node before it looks at the patch. -/
theorem exec_update (server : Server σ) (kind : Kind) (id : Uuid) (p : Patch) (s : σ) :
    exec (update kind id p) server s =
      match exec (updated kind id) server s with
      | (some (.ok n), s) => exec (updateFound kind id p n) server s
      | (some (.error e), s) => (some (.error e), s)
      | (none, s) => (none, s) := by
  have hupdate : update kind id p =
      requireId s!"update_{kind}_properties" kind id >>= fun _ =>
        fetchKind s!"update_{kind}_properties" kind id >>= updateFound kind id p := rfl
  rw [hupdate, updated, exec_bind, exec_bind]
  rcases exec (requireId _ kind id) server s with ⟨_ | _ | _, s'⟩
  · rfl
  · rfl
  · dsimp only
    rw [exec_bind]
    rcases exec (fetchKind _ kind id) server s' with ⟨_ | _ | _, _⟩ <;> rfl

theorem updateFound_empty (hempty : p.isEmpty = true) :
    exec (updateFound kind id p n) server s = (some (.ok n), s) := by
  rw [updateFound, if_pos hempty]
  rfl

theorem updateFound_refused (hproperties : ∃ v, p.properties = some v ∧ v.isObject = false) :
    exec (updateFound kind id p n) server s =
      (some (.error (.invalidArgument s!"update_{kind}_properties" .propertiesNotObject)), s) := by
  obtain ⟨v, hv, hobject⟩ := hproperties
  have hgiven : ¬p.isEmpty = true := by simp [Patch.isEmpty, hv]
  have hbad : p.properties.any (!·.isObject) = true := by simp [hv, hobject]
  rw [updateFound, if_neg hgiven]
  dsimp only
  rw [if_pos hbad]
  rfl

theorem updateFound_asked (hgiven : p.isEmpty = false) (hproperties : p.properties = none) :
    exec (updateFound kind id p n) server s =
      exec (ask s!"update_{kind}_properties" (.update id p)) server s := by
  rw [updateFound, if_neg (by simp [hgiven])]
  dsimp only
  rw [if_neg (by simp [hproperties])]

/-- A store finds the node that it serves, if that is of the kind. -/
theorem exec_updated_of_served {store : Store σ} {now : Timestamp} (hid : id.isNil = false)
    (hserve : store.serve (.get id) now s = .ok (n, s)) (hkind : n.kind = kind) :
    exec (updated kind id) (store.server now) s = (some (.ok n), s) := by
  have hgiven : exec (requireId s!"update_{kind}_properties" kind id) (store.server now) s =
      (some (.ok ()), s) := by
    rw [requireId, hid]
    rfl
  have hfetch : exec (fetch s!"update_{kind}_properties" id) (store.server now) s =
      (some (.ok n), s) := by
    rw [fetch, exec_ask, hserve]
  have hrule : exec (require s!"update_{kind}_properties" (checkKind n kind)) (store.server now) s =
      (some (.ok ()), s) := by
    rw [checkKind, if_pos hkind]
    rfl
  rw [updated, exec_bind, hgiven]
  dsimp only
  rw [fetchKind, exec_bind, hfetch]
  dsimp only
  rw [exec_bind, hrule]
  rfl

end Operation

open Operation (exec updated updateFound)

variable {σ : Type}

/-- A request to update ends with what is done with the node, once that is found. -/
theorem Service.perform_update (config : Config) (server : Server σ) (now : Timestamp)
    (fresh id : Uuid) (kind : Kind) (p : Patch) (s : σ) :
    Service.perform config server now fresh (.update kind id p) s =
      match exec (updated kind id) server s with
      | (some (.ok n), s) =>
        (Service.deadline config s!"update_{kind}_properties"
          ((exec (updateFound kind id p n) server s).1.map (·.map .node)),
          (exec (updateFound kind id p n) server s).2)
      | (some (.error e), s) => (some (.error e), s)
      | (none, s) => (Service.deadline config s!"update_{kind}_properties" none, s) := by
  have hexec := Operation.exec_map server Answer.node (Operation.update kind id p) s
  have hperform : Service.perform config server now fresh (.update kind id p) s =
      (Service.deadline config s!"update_{kind}_properties"
        (exec (Answer.node <$> Operation.update kind id p) server s).1,
        (exec (Answer.node <$> Operation.update kind id p) server s).2) := rfl
  rw [hperform, hexec, Operation.exec_update]
  rcases exec (updated kind id) server s with ⟨_ | _ | _, _⟩ <;> rfl

/-- How an update with the patch and one with what is read of its text go from the same state. They
go alike unless the properties are null and the node is found; then the first is refused, and the
second is carried out without the properties. -/
structure Patch.BothAnswered (p : Patch) (server : Server σ) (config : Config) (now : Timestamp)
    (fresh id : Uuid) (kind : Kind) (s : σ) : Prop where
  same    : p.properties ≠ some .null →
              Service.perform config server now fresh (.update kind id p.recalled) s =
                Service.perform config server now fresh (.update kind id p) s
  unfound : (∀ n s', exec (updated kind id) server s ≠ (some (.ok n), s')) →
              Service.perform config server now fresh (.update kind id p.recalled) s =
                Service.perform config server now fresh (.update kind id p) s
  refused : p.properties = some .null → ∀ n s', exec (updated kind id) server s =
              (some (.ok n), s') →
              Service.perform config server now fresh (.update kind id p) s =
                (some (.error (.invalidArgument s!"update_{kind}_properties"
                  .propertiesNotObject)), s')
  kept    : p = ⟨none, some .null, none⟩ → ∀ n s', exec (updated kind id) server s =
              (some (.ok n), s') →
              Service.perform config server now fresh (.update kind id p.recalled) s =
                (some (.ok (.node n)), s')
  stored  : p.properties = some .null → p ≠ ⟨none, some .null, none⟩ → ∀ n s',
              exec (updated kind id) server s = (some (.ok n), s') →
              let c := .update id ⟨p.title, none, p.archived⟩
              Service.perform config server now fresh (.update kind id p.recalled) s =
                (Service.deadline config s!"update_{kind}_properties"
                  (Ending.ofCall s!"update_{kind}_properties" c (server.reply c s').1),
                  (server.reply c s').2)

theorem Patch.bothAnswered (p : Patch) (server : Server σ) (config : Config) (now : Timestamp)
    (fresh id : Uuid) (kind : Kind) (s : σ) :
    p.BothAnswered server config now fresh id kind s where
  same hnull := by rw [Patch.recalled_eq_iff.2 hnull]
  unfound hnone := by
    rw [Service.perform_update, Service.perform_update]
    split
    · next n s' heq => exact absurd heq (hnone n s')
    · rfl
    · rfl
  refused hnull n s' hfound := by
    rw [Service.perform_update, hfound]
    dsimp only
    rw [Operation.updateFound_refused ⟨.null, hnull, rfl⟩]
    rfl
  kept hp n s' hfound := by
    subst hp
    rw [Service.perform_update, hfound]
    dsimp only
    rw [Operation.updateFound_empty rfl]
    rfl
  stored hnull hgiven n s' hfound := by
    obtain ⟨title, properties, archived⟩ := p
    cases hnull
    -- without the properties something else is given
    have hmore : (⟨title, none, archived⟩ : Patch).isEmpty = false := by
      cases title <;> cases archived <;> simp_all [Patch.isEmpty]
    have hrecalled : recalled ⟨title, some .null, archived⟩ = ⟨title, none, archived⟩ := rfl
    rw [Service.perform_update, hfound, hrecalled]
    dsimp only
    rw [Operation.updateFound_asked hmore rfl, Operation.exec_ask_reply]
    dsimp only
    exact congrArg (fun e : Ending => (Service.deadline config _ e, _))
      (Ending.ofCall_eq (c := .update id ⟨title, none, archived⟩) (f := Answer.node)
        (fun _ => rfl) _ _)

/-- A patch is read back from its text as it was unless its properties are null. Then they are
lost, and with them, if nothing else was given, that the patch was not empty. An update with what is
read goes as one with the patch itself from every state, unless the properties are null and the
node is found: then the patch is refused and what is read of it is not. -/
theorem patch_readBack {p : Patch} (h : p.Fits maxDepth) :
    Patch.reader.ofWhole? (String.ofList p.writeJson) = some p.recalled ∧
    (p.recalled = p ↔ p.properties ≠ some .null) ∧
    (p.recalled.isEmpty = p.isEmpty ↔ p ≠ ⟨none, some .null, none⟩) ∧
    ∀ {σ : Type} (server : Server σ) (config : Config) (now : Timestamp) (fresh id : Uuid)
      (kind : Kind) (s : σ), p.BothAnswered server config now fresh id kind s :=
  ⟨h.reads.ofWhole?, Patch.recalled_eq_iff, Patch.isEmpty_recalled_iff, p.bothAnswered⟩

namespace Sample

/-- All that is given is null. -/
def nulled : Patch := ⟨none, some .null, none⟩

/-- A store in memory with one page. -/
def paged : Shelf := Shelf.store.run [(.createLast (page 2 none), time)] (.empty .standard)

def updatePage (p : Patch) : Option (Except ServiceError Answer) × Shelf :=
  Service.perform .standard (Shelf.store.server time) time (uuid 3) (.update .page (uuid 2) p) paged

end Sample

/-- A page is not updated with null, but it is with what is read of that. -/
theorem patch_readBack_nulled :
    Patch.reader.ofWhole? (String.ofList Sample.nulled.writeJson) = some .empty ∧
    Sample.updatePage Sample.nulled = (some (.error
      (.invalidArgument "update_page_properties" .propertiesNotObject)), Sample.paged) ∧
    ∃ n, Sample.updatePage .empty = (some (.ok (.node n)), Sample.paged) := by
  obtain ⟨hread, -, -, hboth⟩ := patch_readBack (p := Sample.nulled)
    (.intro fun v hv => Option.some.inj hv ▸ .null)
  have hanswered := hboth (Shelf.store.server Sample.time) .standard Sample.time (Sample.uuid 3)
    (Sample.uuid 2) .page Sample.paged
  obtain ⟨n, hget⟩ : ∃ n, Sample.paged.get (Sample.uuid 2) = .ok n :=
    exists_eq_ok_of_isOk (by decide +kernel)
  have hpage : (Sample.paged.get (Sample.uuid 2)).toOption.any (·.kind = .page) = true := by
    decide +kernel
  have hkind : n.kind = .page := by
    rw [hget] at hpage
    exact of_decide_eq_true hpage
  have hserve : Shelf.store.serve (.get (Sample.uuid 2)) Sample.time Sample.paged =
      .ok (n, Sample.paged) := congrArg (Except.map (·, Sample.paged)) hget
  have hfound := Operation.exec_updated_of_served rfl hserve hkind
  exact ⟨hread, hanswered.refused rfl n _ hfound, n, hanswered.kept rfl n _ hfound⟩

end Outline
