import Outline.Proofs.Alone.Runs
import Outline.Proofs.Excerpt.Linked
import Outline.Proofs.Exhaustion
import Outline.Proofs.ReadBack

/-!
# Payload has no say in structure

Two histories of requests differ in the titles and properties of new nodes and in the patches of
updates, and in nothing else but times. Then at every request both succeed or both fail with one
error, and afterwards the same nodes are stored at the same places with the same keys.

What is shown of a store without payload does not change when payload is written, and whatever else
is done is done to what is shown. Two requests may make different calls, though: an update that
changes nothing is left out, and a branch is read without archived nodes. So for these it has to be
shown that they succeed on whatever is stored.

The properties have to be objects. In the table the properties and times have to be readable from
their texts.

Main results:

* `Blind.request` — two requests end alike in states that show the same places;
* `payload_free_run` — all requests of two histories.
-/

namespace Outline

variable {α β σ τ : Type}

/-! ## Requests of one shape -/

/-- Requests that differ in nothing but the payload that they bring along. -/
inductive Request.SameShape : Request → Request → Prop
  | same (request : Request) : SameShape request request
  | create (kind : Kind) (draft : Draft) (title : String) (properties : Json) :
      SameShape (.create kind draft)
        (.create kind { draft with title := title, properties := properties })
  | update (kind : Kind) (id : Uuid) (patch patch' : Patch) :
      SameShape (.update kind id patch) (.update kind id patch')

/-- The properties that the request brings along are an object. -/
def Request.BringsObject (request : Request) : Prop :=
  ∀ v, request.properties? = some v → v.isObject = true

/-- Turns that differ in nothing but payload and times, with properties that are objects. -/
structure Turn.SameShape (t t' : Turn) : Prop where
  request : t.request.SameShape t'.request
  fresh   : t'.fresh = t.fresh
  object  : t.request.BringsObject
  object' : t'.request.BringsObject

theorem Request.all_isObject {kind : Kind} {id : Uuid} {patch : Patch}
    (h : (Request.update kind id patch).BringsObject) :
    patch.properties.all Json.isObject = true := by
  cases hv : patch.properties with
  | none => rfl
  | some v => exact h v hv

/-- The ends of two requests: both with an answer, or both with one error. -/
inductive SameFate : Ending → Ending → Prop
  | answered (a b : Answer) : SameFate (some (.ok a)) (some (.ok b))
  | failed (e : ServiceError) : SameFate (some (.error e)) (some (.error e))

/-- Programs that agree end as two requests do. -/
theorem Agree.sameFate {server : Server σ} {server' : Server τ} {R : σ → τ → Prop}
    {p q : Operation Answer} {s : σ} {t : τ}
    (hpq : Agree server server' R (fun _ _ => True) p s q t) (config : Config)
    (name name' : String) :
    SameFate (Service.deadline config name (Operation.exec p server s).1)
        (Service.deadline config name' (Operation.exec q server' t).1) ∧
      R (Operation.exec p server s).2 (Operation.exec q server' t).2 := by
  rcases hpq.ends with ⟨a, s', b, t', hp, hq, h, -⟩ | ⟨e, s', t', hp, hq, h⟩
  · rw [hp, hq]
    exact ⟨.answered a b, h⟩
  · rw [hp, hq]
    exact ⟨.failed e, h⟩

/-! ## Stores without payload -/

/-- The places of all nodes. -/
def Excerpt.places : Excerpt := ⟨fun _ => true, false⟩

theorem Excerpt.near_places {π ρ : Type} (f : Forest π ρ) (id : Uuid) : places.Near f id :=
  fun _ _ => rfl

theorem Excerpt.fits_places {π ρ : Type} (f : Forest π ρ) :
    places.Fits f (fun _ => True) fun _ => True where
  sees _ := rfl
  reach _ := near_places f _
  home _ _ := ⟨trivial, trivial⟩

/-- A store and what is shown of it without payload. In states that are `ready` it serves what is
named alike if the same is shown, updates any node that it has, and lists the children of any. -/
structure Blind (store : Store σ) (plain : Timestamp → Prop) (ready : σ → Prop) (shown : σ → σ) :
    Prop where
  linked  : ∀ {s s' now now'}, ready s → ready s' → shown s = shown s' → plain now → plain now' →
              Linked store store now now' (fun s s' => shown s = shown s')
                (fun n m => n.bare = m.bare) (fun _ => True) (fun _ => True) s s'
  creates : ∀ {s s' now now' n n'}, ready s → ready s' → shown s = shown s' → plain now →
              plain now' → n.bare = n'.bare → n.properties.isObject = true →
              n'.properties.isObject = true →
              Matched (fun s s' => shown s = shown s') (fun n m => n.bare = m.bare)
                (store.serve (.createLast n) now s) (store.serve (.createLast n') now' s')
  updates : ∀ {s now id n patch}, ready s → store.serve (.get id) now s = .ok (n, s) →
              patch.properties.all Json.isObject = true →
              ∃ m s', store.serve (.update id patch) now s = .ok (m, s') ∧ shown s' = shown s
  lists   : ∀ {s now id n}, ready s → store.serve (.get id) now s = .ok (n, s) →
              n.id = id ∧ ∃ ns, store.serve (.list ⟨n.space, some id⟩) now s = .ok (ns, s) ∧
                ∀ m ∈ ns, m.space = n.space ∧ store.serve (.get m.id) now s = .ok (m, s)

namespace Blind

open Operation (exec)

/-! ## Requests -/

/-- The operation succeeds, and nothing that is shown is changed. -/
def Spares (server : Server σ) (shown : σ → σ) (p : Operation α) (s : σ) : Prop :=
  ∃ a s', exec p server s = (some (.ok a), s') ∧ shown s' = shown s

theorem Spares.agree {server server' : Server σ} {shown : σ → σ} {p : Operation α} {q : Operation β}
    {s t : σ} (hp : Spares server shown p s) (hq : Spares server' shown q t)
    (hst : shown s = shown t) :
    Agree server server' (fun s t => shown s = shown t) (fun _ _ => True) p s q t := by
  obtain ⟨a, s', hp, hs⟩ := hp
  obtain ⟨b, t', hq, ht⟩ := hq
  unfold Agree
  rw [hp, hq]
  exact .answered (by rw [hs, ht, hst]) trivial

variable {store : Store σ} {plain : Timestamp → Prop} {ready : σ → Prop} {shown : σ → σ}
  (h : Blind store plain ready shown) {s t : σ} {now now' : Timestamp}
include h

/-- Once there is the node, an update succeeds whether or not it has anything to change. -/
theorem spares_update (hs : ready s) {id : Uuid} {n : Node}
    (hn : store.serve (.get id) now s = .ok (n, s)) {patch : Patch}
    (hobject : patch.properties.all Json.isObject = true) (operation : String) (unchanged : Node) :
    Spares (store.server now) shown
      (if patch.isEmpty then pure unchanged else do
        if patch.properties.any (!·.isObject) then
          throw (.invalidArgument operation .propertiesNotObject)
        Operation.ask operation (.update id patch)) s := by
  by_cases hempty : patch.isEmpty = true
  · rw [if_pos hempty]
    exact ⟨unchanged, s, rfl, rfl⟩
  -- the call is made, and as the properties are an object nothing is there to refuse it
  · have hany : patch.properties.any (!·.isObject) = false := by
      cases hv : patch.properties with
      | none => rfl
      | some v =>
        rw [hv] at hobject
        simpa using hobject
    obtain ⟨m, s', hserve, hshown⟩ := h.updates hs hn hobject
    rw [if_neg hempty, if_neg (by rw [hany]; decide)]
    refine ⟨m, s', ?_, hshown⟩
    rw [Operation.exec_ask, hserve]

/-- A branch is collected whatever is archived, as its nodes are stored in one space. -/
theorem exec_collect (hs : ready s) (operation : String) (space : Uuid) (fuel : Nat)
    (visited : List Node) {pending : List Node}
    (hpending : ∀ p ∈ pending, ∃ n, store.serve (.get p.id) now s = .ok (n, s) ∧ n.space = space) :
    ∃ ns, exec (Branch.collect operation space fuel visited pending) (store.server now) s =
      (some (.ok ns), s) ∧ (visited ++ pending ≠ [] → ns ≠ []) := by
  -- every round lists the children of a stored node, which are stored as well
  induction fuel generalizing visited pending with
  | zero =>
    cases pending with
    | nil => exact ⟨visited, rfl, by simp⟩
    | cons p rest => exact ⟨visited ++ p :: rest, rfl, by simp⟩
  | succ fuel ih =>
    cases pending with
    | nil => exact ⟨visited, rfl, by simp⟩
    | cons p rest =>
      obtain ⟨n, hn, rfl⟩ := hpending p (by simp)
      obtain ⟨-, ms, hlist, hms⟩ := h.lists hs hn
      have hstored : ∀ q ∈ rest ++ Branch.unseen ((visited ++ p :: rest).map (·.id)) ms,
          ∃ m, store.serve (.get q.id) now s = .ok (m, s) ∧ m.space = n.space := by
        intro q hq
        rcases List.mem_append.1 hq with hq | hq
        · exact hpending q (by simp [hq])
        · obtain ⟨hspace, hget⟩ := hms q (Branch.mem_of_mem_unseen hq)
          exact ⟨q, hget, hspace⟩
      obtain ⟨ns, hns, hne⟩ := ih (visited ++ [p]) hstored
      refine ⟨ns, ?_, fun _ => hne (by simp)⟩
      rw [Branch.collect, Operation.exec_bind, Operation.exec_ask, hlist]
      exact hns

theorem spares_branch (hs : ready s) {id : Uuid} {n root : Node}
    (hn : store.serve (.get id) now s = .ok (n, s)) (hid : root.id = id)
    (hspace : root.space = n.space) (operation : String) :
    Spares (store.server now) shown (do
      match Branch.tree? (← Branch.collect operation root.space (2 ^ 128) [] [root]) with
      | some t => return t
      | none => throw (.notFound id)) s := by
  have hroot : ∀ p ∈ [root], ∃ n, store.serve (.get p.id) now s = .ok (n, s) ∧
      n.space = root.space := by
    intro p hp
    rw [List.mem_singleton.1 hp, hid]
    exact ⟨n, hn, hspace.symm⟩
  -- the root itself is collected, so there is something to make a tree of
  obtain ⟨ns, hns, hne⟩ := h.exec_collect hs operation root.space (2 ^ 128) [] hroot
  cases ns with
  | nil => exact absurd rfl (hne (by simp))
  | cons m rest =>
    obtain ⟨children, htree⟩ := Branch.tree?_cons m rest
    refine ⟨.node m children, s, ?_, rfl⟩
    rw [Operation.exec_bind, hns]
    dsimp only
    rw [htree]
    rfl

section Pair

variable (hs : ready s) (ht : ready t) (hst : shown s = shown t) (hnow : plain now)
  (hnow' : plain now')
include hs ht hst hnow hnow'

theorem update (kind : Kind) (id : Uuid) {patch patch' : Patch}
    (hobject : patch.properties.all Json.isObject = true)
    (hobject' : patch'.properties.all Json.isObject = true) :
    Agree (store.server now) (store.server now') (fun s t => shown s = shown t) (fun _ _ => True)
      (Operation.update kind id patch) s (Operation.update kind id patch') t := by
  have hl := h.linked hs ht hst hnow hnow'
  unfold Operation.update
  dsimp only
  refine Agree.requireId (R := fun s t => shown s = shown t) hl.related _ _ _ ?_
  refine (hl.fetchKind _ _ trivial).read hl.related fun n m ⟨hn, _⟩ => ?_
  -- one of the two patches may be empty, so the calls that follow cannot be compared
  obtain ⟨m', hm', -⟩ := hl.exists_got hn
  exact (h.spares_update hs hn.2 hobject _ n).agree (h.spares_update ht hm' hobject' _ m) hst

theorem branch (kind : Kind) (id : Uuid) :
    Agree (store.server now) (store.server now') (fun s t => shown s = shown t) (fun _ _ => True)
      (Operation.branch kind id) s (Operation.branch kind id) t := by
  have hl := h.linked hs ht hst hnow hnow'
  unfold Operation.branch
  dsimp only
  refine Agree.requireId (R := fun s t => shown s = shown t) hl.related _ _ _ ?_
  refine (hl.fetchKind _ _ trivial).read hl.related fun n m ⟨hn, hnm⟩ => ?_
  -- archived nodes are left out, so the trees may differ in their nodes
  obtain ⟨m', hm', hnm'⟩ := hl.exists_got hn
  obtain ⟨hid, hspace, -⟩ := hl.place hnm
  obtain ⟨hid', -⟩ := h.lists hs hn.2
  have hspace' : m.space = m'.space := by rw [hspace, (hl.place hnm').2.1]
  exact (h.spares_branch hs hn.2 hid' rfl _).agree
    (h.spares_branch ht hm' (hid.trans hid') hspace' _) hst

/-- Nodes are created alike from drafts that differ in payload. -/
theorem create (config : Config) (kind : Kind) (draft : Draft) (title : String) {properties : Json}
    (hobject : draft.properties.isObject = true) (hobject' : properties.isObject = true)
    (drafted drafted' : Timestamp) (fresh : Uuid) :
    Agree (store.server now) (store.server now') (fun s t => shown s = shown t)
      (fun n m => n.bare = m.bare) (Operation.create config kind draft drafted fresh) s
      (Operation.create config kind { draft with title := title, properties := properties } drafted'
        fresh) t := by
  refine (h.linked hs ht hst hnow hnow').create config kind rfl rfl rfl ?_ (fun _ _ => trivial)
    fun _ _ => ?_
  · rw [hobject, hobject']
  · exact h.creates hs ht hst hnow hnow' rfl hobject hobject'

/-- Two requests of one shape end alike, and afterwards the same is shown. -/
theorem request (config : Config) {request request' : Request} (hshape : request.SameShape request')
    (hobject : request.BringsObject) (hobject' : request'.BringsObject)
    (drafted drafted' : Timestamp) (fresh : Uuid) :
    Agree (store.server now) (store.server now') (fun s t => shown s = shown t) (fun _ _ => True)
      (request.operation config drafted fresh) s (request'.operation config drafted' fresh) t := by
  have hl := h.linked hs ht hst hnow hnow'
  -- requests of one shape are the same but for the payload that two of them bring
  cases hshape with
  | create kind draft title properties =>
    exact (h.create hs ht hst hnow hnow' config kind draft title (hobject _ rfl) (hobject' _ rfl)
      drafted drafted' fresh).map fun _ _ _ => trivial
  | update kind id patch patch' =>
    exact (h.update hs ht hst hnow hnow' kind id (Request.all_isObject hobject)
      (Request.all_isObject hobject')).map fun _ _ _ => trivial
  | same =>
    cases request with
    | create kind draft =>
      exact (h.create hs ht hst hnow hnow' config kind draft draft.title (hobject _ rfl)
        (hobject _ rfl) drafted drafted' fresh).map fun _ _ _ => trivial
    | update kind id patch =>
      exact (h.update hs ht hst hnow hnow' kind id (Request.all_isObject hobject)
        (Request.all_isObject hobject)).map fun _ _ _ => trivial
    | branch kind id => exact (h.branch hs ht hst hnow hnow' kind id).map fun _ _ _ => trivial
    | delete kind space id => exact (hl.delete kind space trivial).map fun _ _ _ => trivial
    | get kind id => exact (hl.get kind trivial).map fun _ _ _ => trivial
    | children kind id archived =>
      exact (hl.children kind trivial archived).map fun _ _ _ => trivial
    | roots space => exact (hl.roots trivial).map fun _ _ _ => trivial
    | move kind id parent sort =>
      exact (hl.move config kind trivial (fun _ _ => trivial) sort).map fun _ _ _ => trivial
    | moveBlock id parent sort =>
      exact (hl.moveBlock config trivial trivial sort).map fun _ _ _ => trivial
    | reorder kind id sort => exact (hl.reorder config kind trivial sort).map fun _ _ _ => trivial
    | moveBeside kind id anchor side =>
      exact (hl.moveBeside config kind trivial trivial side).map fun _ _ _ => trivial
    | renumber group => exact (hl.renumber trivial fun _ _ => trivial).map fun _ _ _ => trivial

end Pair

/-! ## Turns -/

variable (clock : Turn → Clock) (config : Config)

/-- Two turns of one shape end alike. -/
theorem turn (hs : ready s) (ht : ready t) (hst : shown s = shown t) {u v : Turn}
    (huv : u.SameShape v) (hu : plain (clock u).served) (hv : plain (clock v).served) :
    SameFate (u.on store clock config s).1 (v.on store clock config t).1 ∧
      shown (u.on store clock config s).2 = shown (v.on store clock config t).2 := by
  have hagree := h.request hs ht hst hu hv config huv.request huv.object huv.object'
    (clock u).drafted (clock v).drafted u.fresh
  unfold Turn.on
  rw [huv.fresh]
  exact hagree.sameFate config u.request.name v.request.name

/-- All turns of two histories end alike. -/
theorem trace {good : Turn → Prop} (hplain : ∀ u, good u → plain (clock u).served)
    (hkeeps : ∀ u s, good u → ready s → ready (u.on store clock config s).2) (hs : ready s)
    (ht : ready t) (hst : shown s = shown t) {us vs : List Turn}
    (hturns : List.Forall₂ Turn.SameShape us vs) (hus : ∀ u ∈ us, good u) (hvs : ∀ v ∈ vs, good v) :
    List.Forall₂ (fun x y => SameFate x.1 y.1 ∧ ready x.2 ∧ ready y.2 ∧ shown x.2 = shown y.2)
      (trace (Turn.on store clock config) us s) (trace (Turn.on store clock config) vs t) := by
  -- both states stay ready and show the same
  induction hturns generalizing s t with
  | nil => exact .nil
  | @cons u v us vs huv _ ih =>
    have hu := hus u (by simp)
    have hv := hvs v (by simp)
    obtain ⟨hfate, hst'⟩ := h.turn clock config hs ht hst huv (hplain u hu) (hplain v hv)
    have hs' := hkeeps u s hu hs
    have ht' := hkeeps v t hv ht
    exact .cons ⟨hfate, hs', ht', hst'⟩
      (ih hs' ht' hst' (fun w hw => hus w (by simp [hw])) fun w hw => hvs w (by simp [hw]))

end Blind

/-! ## In memory -/

namespace Shelf

/-- The same nodes are stored at the same places with the same keys. -/
def SamePlaces (s s' : Shelf) : Prop :=
  ∀ id, (s.get id).map Node.bare = (s'.get id).map Node.bare

theorem Orderly.samePlaces {s s' : Shelf} (h : s.Orderly) (h' : s'.Orderly)
    (heq : Excerpt.places.shelf s = Excerpt.places.shelf s') : s.SamePlaces s' := by
  intro id
  have hget := Excerpt.shelf_get h.sound.agrees (Excerpt.near_places s.forest id)
  rw [heq, Excerpt.shelf_get h'.sound.agrees (Excerpt.near_places s'.forest id)] at hget
  exact hget.symm

theorem blind : Blind store (fun _ => True) Orderly Excerpt.places.shelf where
  linked hs hs' heq _ _ := linked_of_shown hs.sound hs'.sound (Excerpt.fits_places _)
    (Excerpt.fits_places _) heq _ _
  creates hs hs' heq _ _ hn hobject hobject' :=
    createLast_of_shown hs.sound.agrees hs'.sound.agrees heq (Excerpt.near_places _ _)
      (Excerpt.near_places _ _) rfl hn (Excerpt.node_check (.inr hobject))
      (Excerpt.node_check (.inr hobject')) _ _
  updates {s now id n patch} hs hn hobject := by
    have hr := forest_of_served hs.sound.agrees hn
    obtain ⟨⟨m, s'⟩, hupdate⟩ := update_accepted hs.sound hs.proper hr hobject now
    exact ⟨m, s', hupdate, Excerpt.shelf_update_of_bare rfl id patch now m s' hupdate⟩
  lists {s now id n} hs hn := by
    have ha := hs.sound.agrees
    have hr := forest_of_served ha hn
    obtain ⟨ns, hlist⟩ : ∃ ns, s.list ⟨n.space, some id⟩ = .ok ns :=
      list_of_parent ha fun p hp => ⟨n.record, Option.some.inj hp ▸ hr, rfl⟩
    refine ⟨hs.sound.outline.rooted.own_id hr, ns, ?_, fun m hm => ?_⟩
    · show (s.list _).map (·, s) = _
      rw [hlist]
      rfl
    · obtain ⟨hm, hspace⟩ := forest_of_list ha hlist hm
      refine ⟨hspace, ?_⟩
      show (s.get m.id).map (·, s) = _
      rw [get_of_record hs.sound hm]
      rfl

end Shelf

/-! ## In the table -/

namespace Database

/-- The same nodes are stored at the same places with the same keys. -/
def SamePlaces (db db' : Database) : Prop :=
  ∀ id, (db.rows.fetch id).map Node.bare = (db'.rows.fetch id).map Node.bare

/-- What can be read can be read without what is not shown. -/
theorem Orderly.reads {db : Database} (h : db.Orderly) : ∀ r ∈ db.rows, Excerpt.places.Reads r := by
  intro r hr
  obtain ⟨n, hn⟩ := h.readable r hr
  obtain ⟨l, -, rfl⟩ := h.sound.holds.row hr
  obtain ⟨hproperties, hcreated, hupdated⟩ := Row.exists_toNode_iff.1 ⟨n, hn⟩
  exact ⟨.inr hproperties, hcreated, hupdated⟩

theorem Orderly.samePlaces {db db' : Database} (h : db.Orderly) (h' : db'.Orderly)
    (heq : Excerpt.places.database db = Excerpt.places.database db') : db.SamePlaces db' := by
  intro id
  have hrows : Excerpt.places.table db.rows = Excerpt.places.table db'.rows :=
    congrArg Database.rows heq
  have hcovers := Excerpt.keeps_of_forest h.sound.holds (Excerpt.near_places _ id)
  have hcovers' := Excerpt.keeps_of_forest h'.sound.holds (Excerpt.near_places _ id)
  have hfetch := Excerpt.fetch_table hcovers h.reads
  rw [hrows, Excerpt.fetch_table hcovers' h'.reads] at hfetch
  exact hfetch.symm

theorem blind : Blind store Timestamp.HasPlainYear Orderly Excerpt.places.database where
  linked hs hs' heq hnow hnow' := linked_of_shown hs.sound hs'.sound hs.reads hs'.reads
    (Excerpt.fits_places _) (Excerpt.fits_places _) heq hnow hnow'
  creates hs hs' heq _ _ hn hobject hobject' :=
    createLast_of_shown heq hs.sound hs'.sound hs.reads hs'.reads (Excerpt.near_places _ _)
      (Excerpt.near_places _ _) (fun _ _ => ⟨Excerpt.near_places _ _, Excerpt.near_places _ _⟩) rfl
      hn (Excerpt.node_check (.inr hobject)) (Excerpt.node_check (.inr hobject')) _ _
  updates {db now id n patch} hs hn hobject := by
    obtain ⟨l, hl, -⟩ := hs.sound.holds.of_fetch (fetch_of_served hn)
    obtain ⟨⟨m, u⟩, hupdate⟩ := hs.sound.holds.update_accepted hs.sound.outline hs.readable
      hs.proper hl hobject now
    refine ⟨m, { db with rows := u }, ?_, ?_⟩
    · show db.writing (db.rows.updateNode id patch now) = _
      rw [hupdate]
      rfl
    · exact congrArg (Database.mk db.gap)
        (Excerpt.table_updateNode_of_bare rfl id patch now m u hupdate)
  lists {db now id n} hs hn := by
    have hh := hs.sound.holds
    obtain ⟨l, hl, hnode⟩ := hh.of_fetch (fetch_of_served hn)
    obtain ⟨hid, hspace, -⟩ := Row.toNode_row_eq_ok_iff.1 hnode
    obtain ⟨ns, hlist⟩ : ∃ ns, db.rows.list ⟨n.space, some id⟩ = .ok ns :=
      hh.list_of_readable hs.readable fun p hp => ⟨l, Option.some.inj hp ▸ hl, hspace.symm⟩
    refine ⟨hid.trans (hs.sound.outline.rooted.own_id hl), ns, ?_, fun m hm => ?_⟩
    · show (db.rows.list _).map (·, db) = _
      rw [hlist]
      rfl
    · obtain ⟨q, hq, hqspace, hqnode⟩ := hh.forest_of_list hlist hm
      refine ⟨(Row.toNode_row_eq_ok_iff.1 hqnode).2.1.trans hqspace, ?_⟩
      show (db.rows.fetch m.id).map (·, db) = _
      rw [fetch_of_line hh hq hqnode]
      rfl

end Database

/-! ## Two histories -/

/-- Payload has no say in structure. Two histories that differ in nothing but payload and times go
the same way: each request succeeds in both or fails in both with one error, and after each the same
nodes are stored at the same places with the same keys. -/
theorem payload_free_run (gap : Gap) (config : Config) {us vs : List Turn}
    (hturns : List.Forall₂ Turn.SameShape us vs) :
    List.Forall₂ (fun x y => SameFate x.1 y.1 ∧ x.2.SamePlaces y.2)
        (trace (Turn.onShelf config) us (.empty gap))
        (trace (Turn.onShelf config) vs (.empty gap)) ∧
      ((∀ u ∈ us, u.Storable) → (∀ v ∈ vs, v.Storable) →
        List.Forall₂ (fun x y => SameFate x.1 y.1 ∧ x.2.SamePlaces y.2)
          (trace (Turn.onTable config) us (.empty gap))
          (trace (Turn.onTable config) vs (.empty gap))) := by
  constructor
  · have hempty := Shelf.orderly_empty gap
    have hkeeps : ∀ (u : Turn) (s : Shelf), True → s.Orderly →
        (u.on Shelf.store Turn.memory config s).2.Orderly := fun u s _ hs => hs.turn config u
    have htrace := Shelf.blind.trace Turn.memory config (fun _ _ => trivial) hkeeps hempty hempty
      rfl hturns (fun _ _ => trivial) fun _ _ => trivial
    exact htrace.imp fun x y ⟨hfate, hx, hy, heq⟩ => ⟨hfate, hx.samePlaces hy heq⟩
  · intro hus hvs
    have hempty := Database.orderly_empty gap
    have hkeeps : ∀ (u : Turn) (db : Database), u.Storable → db.Orderly →
        (u.on Database.store Turn.table config db).2.Orderly := fun u db hu hs => hs.turn config hu
    have htrace := Database.blind.trace Turn.table config (fun u hu => hu.served) hkeeps hempty
      hempty rfl hturns hus hvs
    exact htrace.imp fun x y ⟨hfate, hx, hy, heq⟩ => ⟨hfate, hx.samePlaces hy heq⟩

namespace Sample

/-- Two pages, of which the lower one gets a title, is perhaps archived, and goes to the roots. -/
def dressed (title : String) (archived : Option Bool) : List Turn :=
  [turn (.create .page { Draft.page (uuid 1) with title := title }) 2,
    turn (.create .page { Draft.page (uuid 1) with parent := some (uuid 2) }) 3,
    turn (.update .page (uuid 3) ⟨some title, none, archived⟩) 4,
    turn (.branch .page (uuid 2)) 5,
    turn (.move .page (uuid 3) none none) 6]

theorem sameShape_dressed (title title' : String) (archived archived' : Option Bool) :
    List.Forall₂ Turn.SameShape (dressed title archived) (dressed title' archived') := by
  have hcreate : ∀ draft : Draft, draft.properties = Json.emptyObject →
      (Request.create .page draft).BringsObject := by
    intro draft hdraft v hv
    cases hv
    rw [hdraft]
    rfl
  have hnone : ∀ request : Request, request.properties? = none → request.BringsObject := by
    intro request hnone v hv
    rw [hnone] at hv
    cases hv
  refine .cons ⟨.create .page _ title' Json.emptyObject, rfl, hcreate _ rfl, hcreate _ rfl⟩ ?_
  refine .cons ⟨.same _, rfl, hcreate _ rfl, hcreate _ rfl⟩ ?_
  refine .cons ⟨.update .page (uuid 3) _ _, rfl, hnone _ rfl, hnone _ rfl⟩ ?_
  refine .cons ⟨.same _, rfl, hnone _ rfl, hnone _ rfl⟩ ?_
  exact .cons ⟨.same _, rfl, hnone _ rfl, hnone _ rfl⟩ .nil

theorem storable_dressed (title : String) (archived : Option Bool) :
    ∀ t ∈ dressed title archived, t.Storable := by
  intro t ht
  simp only [dressed, List.mem_cons, List.not_mem_nil, or_false] at ht
  rcases ht with rfl | rfl | rfl | rfl | rfl
  · exact storable_turn (fun v hv => by cases hv; rfl) 2
  · exact storable_turn (fun v hv => by cases hv; rfl) 3
  · exact storable_turn (fun v hv => by cases hv) 4
  · exact storable_turn (fun v hv => by cases hv) 5
  · exact storable_turn (fun v hv => by cases hv) 6

end Sample

/-- A title and the archiving of a page make no difference to the places. -/
theorem payload_free_run_dressed :
    List.Forall₂ (fun x y => SameFate x.1 y.1 ∧ x.2.SamePlaces y.2)
        (trace (Turn.onShelf .standard) (Sample.dressed "" none) (.empty .standard))
        (trace (Turn.onShelf .standard) (Sample.dressed "Plans" (some true)) (.empty .standard)) ∧
      List.Forall₂ (fun x y => SameFate x.1 y.1 ∧ x.2.SamePlaces y.2)
        (trace (Turn.onTable .standard) (Sample.dressed "" none) (.empty .standard))
        (trace (Turn.onTable .standard) (Sample.dressed "Plans" (some true))
          (.empty .standard)) := by
  obtain ⟨hshelf, htable⟩ := payload_free_run .standard .standard
    (Sample.sameShape_dressed "" "Plans" none (some true))
  exact ⟨hshelf, htable (Sample.storable_dressed _ _) (Sample.storable_dressed _ _)⟩

end Outline
