import Outline.Proofs.Alone.History
import Outline.Proofs.Excerpt.Linked

/-!
# Spaces are independent

Two parties share a store. Each names nothing but a space of its own and identifiers that the other
does not name. Then every request of a party ends as if the other were not there, the times apart,
and its space holds what it would hold then.

Every stored node is in the space of the party that named its identifier. So a party works within
what is shown of its space, and the other party leaves that as it is. The two runs that are
compared, with the other party and without it, may take place at different times.

In the table the times have to be readable from their texts. Nothing else is asked of it: properties
that cannot be read back are refused in the one run as in the other.

Main results:

* `Divided.own`, `Divided.foreign` — a turn of a party, and one of the other;
* `Divided.lefts` — any number of turns in any order;
* `spaces_independent_run` — both parties, from empty stores.
-/

namespace Outline

variable {α β σ τ : Type}

/-! ## What a party names -/

/-- The identifiers that the turn names, and that of a node that it creates. -/
def Turn.names (u : Turn) : List Uuid :=
  u.request.ids ++ (u.request.newId? u.fresh).toList

/-- A turn of a party: it names the space of the party and its identifiers, and nothing else. -/
structure Turn.Within (u : Turn) (space : Uuid) (mine : Uuid → Prop) : Prop where
  spaces : ∀ sp ∈ u.request.spaces, sp = space
  names  : ∀ id ∈ u.names, mine id

/-- A turn of somebody else. -/
structure Turn.Outside (u : Turn) (space : Uuid) (mine : Uuid → Prop) : Prop where
  spaces : ∀ sp ∈ u.request.spaces, sp ≠ space
  names  : ∀ id ∈ u.names, ¬mine id

/-- The same turn at other times. -/
structure Turn.Retimed (u v : Turn) : Prop where
  request : v.request = u.request
  fresh   : v.fresh = u.fresh

/-- A call writes to what its request names. -/
theorem Request.names_of_write? {request : Request} {now : Timestamp} {fresh : Uuid} {c : StoreCall}
    (hc : request.write? now fresh = some c) :
    (∀ sp, c.space? = some sp → sp ∈ request.spaces) ∧
      ∀ id, c.subject? = some id → id ∈ request.ids ++ (request.newId? fresh).toList := by
  cases request with
  | create kind draft =>
    obtain rfl := Option.some.inj hc
    refine ⟨fun sp hsp => ?_, fun id hid => List.mem_append_right _ ?_⟩
    · rw [← Option.some.inj hsp]
      exact List.mem_singleton_self _
    · rw [← Option.some.inj hid]
      exact List.mem_singleton_self _
  | delete | renumber =>
    obtain rfl := Option.some.inj hc
    refine ⟨fun sp hsp => ?_, fun id hid => (by cases hid)⟩
    rw [← Option.some.inj hsp]
    exact List.mem_singleton_self _
  | get | children | roots | branch => cases hc
  | update | reorder | moveBeside =>
    obtain rfl := Option.some.inj hc
    refine ⟨fun sp hsp => (by cases hsp), fun id hid => ?_⟩
    rw [← Option.some.inj hid]
    exact List.mem_cons_self
  | move _ _ _ sort | moveBlock _ _ sort =>
    cases sort with
    | none | some sort =>
      obtain rfl := Option.some.inj hc
      refine ⟨fun sp hsp => (by cases hsp), fun id hid => ?_⟩
      rw [← Option.some.inj hid]
      exact List.mem_cons_self

namespace StoreCall

/-- A call that writes to a space and to nodes of which something holds. -/
structure Writes (inSpace named : Uuid → Prop) (c : StoreCall) : Prop where
  space   : ∀ sp, c.space? = some sp → inSpace sp
  subject : ∀ id, c.subject? = some id → named id

/-- A call that reads writes nowhere. -/
theorem Writes.of_isRead {inSpace named : Uuid → Prop} {c : StoreCall} (hc : c.isRead = true) :
    c.Writes inSpace named := by
  cases c with
  | get | list | nextSort => exact ⟨fun sp hsp => (by cases hsp), fun id hid => (by cases hid)⟩
  | _ => cases hc

/-- A node that is created is written to its space. -/
theorem Writes.created {inSpace named : Uuid → Prop} {c : StoreCall} (h : c.Writes inSpace named)
    {n : Node} (hn : c.created? = some n) : inSpace n.space ∧ named n.id := by
  cases c with
  | create m | createLast m =>
    cases hn
    exact ⟨h.space _ rfl, h.subject _ rfl⟩
  | _ => cases hn

end StoreCall

section Turn

variable {u : Turn} {space : Uuid} {mine : Uuid → Prop} {now : Timestamp} {c : StoreCall}

/-- What a party asks for is written to its space and to nodes that it names. -/
theorem Turn.Within.writes (h : u.Within space mine)
    (hc : u.request.write? now u.fresh = some c) : c.Writes (· = space) mine := by
  obtain ⟨hspaces, hids⟩ := Request.names_of_write? hc
  exact ⟨fun sp hsp => h.spaces sp (hspaces sp hsp), fun id hid => h.names id (hids id hid)⟩

/-- What others ask for is written elsewhere. -/
theorem Turn.Outside.writes (h : u.Outside space mine)
    (hc : u.request.write? now u.fresh = some c) : c.Writes (· ≠ space) fun id => ¬mine id := by
  obtain ⟨hspaces, hids⟩ := Request.names_of_write? hc
  exact ⟨fun sp hsp => h.spaces sp (hspaces sp hsp), fun id hid => h.names id (hids id hid)⟩

end Turn

/-! ## Stores that are divided -/

/-- The nodes of one space. -/
def Excerpt.ofSpace (space : Uuid) : Excerpt := ⟨fun sp => decide (sp = space), true⟩

/-- The space of a party holds the nodes whose identifiers it names, and no others. -/
def Homed {π ρ : Type} (f : Forest π ρ) (space : Uuid) (mine : Uuid → Prop) : Prop :=
  f.All fun r => r.space = space ↔ mine r.id

/-- A store and what is shown of it with payload. In states that are `ready` it serves what is named
alike if the same is shown, and what names nothing that is shown leaves that as it is. -/
structure Divided {π ρ : Type} (store : Store σ) (forest : σ → Forest π ρ) (shown : Excerpt → σ → σ)
    (ready : σ → Prop) (fine : StoreCall → Prop) (plain : Timestamp → Prop) : Prop where
  reads   : ∀ {c}, c.isRead = true → fine c
  keeps   : ∀ {s c now}, ready s → fine c → plain now → ready (store.step c now s).2
  own_id  : ∀ {s id r}, ready s → forest s id = some r → r.id = id
  homed   : ∀ {s c now space} {mine : Uuid → Prop}, ready s →
              (∀ n : Node, c.created? = some n → (n.space = space ↔ mine n.id)) →
              Homed (forest s) space mine → Homed (forest (store.step c now s).2) space mine
  apart   : ∀ {e : Excerpt} {s c now}, ready s → (∀ sp, c.space? = some sp → e.sees sp = false) →
              (∀ id, c.subject? = some id → e.Far (forest s) id) →
              shown e (store.step c now s).2 = shown e s
  linked  : ∀ {e : Excerpt} {s t now now'} {near opened : Uuid → Prop}, e.payload = true →
              ready s → ready t → shown e s = shown e t → e.Fits (forest s) near opened →
              e.Fits (forest t) near opened → plain now → plain now' →
              Linked store store now now' (fun s t => shown e s = shown e t)
                (fun n m => e.node n = e.node m) near opened s t
  creates : ∀ {e : Excerpt} {s t now now' n m} {near opened : Uuid → Prop}, e.payload = true →
              ready s → ready t → shown e s = shown e t → e.Fits (forest s) near opened →
              e.Fits (forest t) near opened → near n.id → opened n.space →
              (∀ p, n.parent = some p → near p) → e.node n = e.node m →
              Matched (fun s t => shown e s = shown e t) (fun n m => e.node n = e.node m)
                (store.serve (.createLast n) now s) (store.serve (.createLast m) now' t)
  updates : ∀ {e : Excerpt} {s t now now' id patch} {near opened : Uuid → Prop}, e.payload = true →
              ready s → ready t → shown e s = shown e t → e.Fits (forest s) near opened →
              e.Fits (forest t) near opened → near id →
              Matched (fun s t => shown e s = shown e t) (fun n m => e.node n = e.node m)
                (store.serve (.update id patch) now s) (store.serve (.update id patch) now' t)

/-- A turn that the store can take as it stands. -/
structure Turn.Apt (fine : StoreCall → Prop) (plain : Timestamp → Prop) (clock : Turn → Clock)
    (u : Turn) : Prop where
  served : plain (clock u).served
  calls  : ∀ c, u.request.write? (clock u).drafted u.fresh = some c → fine c

/-- A state that is ready, with the nodes of a party in its space and nowhere else. -/
structure Settled {π ρ : Type} (forest : σ → Forest π ρ) (ready : σ → Prop) (space : Uuid)
    (mine : Uuid → Prop) (s : σ) : Prop where
  isReady : ready s
  homed   : Homed (forest s) space mine

namespace Divided

variable {π ρ : Type} {store : Store σ} {forest : σ → Forest π ρ} {shown : Excerpt → σ → σ}
  {ready : σ → Prop} {fine : StoreCall → Prop} {plain : Timestamp → Prop}
  (h : Divided store forest shown ready fine plain) {space : Uuid} {mine : Uuid → Prop}
  {clock : Turn → Clock} (config : Config) {s t : σ}
include h

/-! ## One turn -/

section Homes

variable {inSpace named : Uuid → Prop}
  (hhome : ∀ sp id, inSpace sp → named id → (sp = space ↔ mine id))
include hhome

/-- Everybody writes at home, so the nodes of a party stay in its space. -/
theorem settled_step {c : StoreCall} {now : Timestamp} (hc : fine c ∧ c.Writes inSpace named)
    (hnow : plain now) (hs : Settled forest ready space mine s) :
    Settled forest ready space mine (store.step c now s).2 where
  isReady := h.keeps hs.isReady hc.1 hnow
  homed := by
    refine h.homed hs.isReady (fun n hn => ?_) hs.homed
    obtain ⟨hsp, hid⟩ := hc.2.created hn
    exact hhome n.space n.id hsp hid

/-- Whoever takes a turn, the space of the party holds the nodes that it names. -/
theorem settled_turn {u : Turn} (hu : u.Apt fine plain clock)
    (hwrites : ∀ c, u.request.write? (clock u).drafted u.fresh = some c → c.Writes inSpace named)
    (hs : Settled forest ready space mine s) :
    Settled forest ready space mine (u.on store clock config s).2 := by
  have hasks := u.request.asks (fun hc => ⟨h.reads hc, .of_isRead hc⟩) config
    fun c hc => And.intro (hu.calls c hc) (hwrites c hc)
  exact hasks.keeps (fun c s' hc hs' => h.settled_step hhome hc hu.served hs') hs

end Homes

/-- What a party names is what is shown of its space. -/
theorem fits (hs : Settled forest ready space mine s) :
    (Excerpt.ofSpace space).Fits (forest s) mine (· = space) where
  sees hsp := decide_eq_true hsp
  reach {id} hid r hr := by
    rw [← h.own_id hs.isReady hr] at hid
    exact decide_eq_true ((hs.homed hr).2 hid)
  home {id r} hr hsees := by
    have hsp : r.space = space := of_decide_eq_true hsees
    exact ⟨h.own_id hs.isReady hr ▸ (hs.homed hr).1 hsp, hsp⟩

/-- What somebody else names is not shown. -/
theorem far (hs : Settled forest ready space mine s) {id : Uuid} (hid : ¬mine id) :
    (Excerpt.ofSpace space).Far (forest s) id := fun _ hr =>
  decide_eq_false fun hsp => hid (h.own_id hs.isReady hr ▸ (hs.homed hr).1 hsp)

/-- A turn of somebody else leaves what is shown of the space of the party as it is. -/
theorem foreign {u : Turn} (hu : u.Apt fine plain clock) (hout : u.Outside space mine)
    (hs : Settled forest ready space mine s) :
    Settled forest ready space mine (u.on store clock config s).2 ∧
      shown (.ofSpace space) (u.on store clock config s).2 = shown (.ofSpace space) s := by
  have hhome : ∀ sp id, sp ≠ space → ¬mine id → (sp = space ↔ mine id) :=
    fun _ _ => iff_of_false
  have hasks := u.request.asks (fun hc => ⟨h.reads hc, .of_isRead hc⟩) config
    fun c hc => And.intro (hu.calls c hc) (hout.writes hc)
  refine ⟨h.settled_turn config hhome hu (fun c hc => hout.writes hc) hs, ?_⟩
  refine (hasks.keeps (I := fun s' => Settled forest ready space mine s' ∧
    shown (.ofSpace space) s' = shown (.ofSpace space) s) (fun c s' hc ⟨hs', heq⟩ => ?_)
    ⟨hs, rfl⟩).2
  refine ⟨h.settled_step hhome hc hu.served hs', ?_⟩
  refine (h.apart hs'.isReady (fun sp hsp => ?_) fun id hid => ?_).trans heq
  · exact decide_eq_false (hc.2.space sp hsp)
  · exact h.far hs' (hc.2.subject id hid)

/-- A turn of the party ends alike in states of which the same is shown. -/
theorem own {u v : Turn} (huv : u.Retimed v) (hu : u.Apt fine plain clock)
    (hv : v.Apt fine plain clock) (hin : u.Within space mine)
    (hs : Settled forest ready space mine s) (ht : Settled forest ready space mine t)
    (hst : shown (.ofSpace space) s = shown (.ofSpace space) t) :
    SameEnding (u.on store clock config s).1 (v.on store clock config t).1 ∧
      shown (.ofSpace space) (u.on store clock config s).2 =
        shown (.ofSpace space) (v.on store clock config t).2 := by
  have hfit := h.fits hs
  have hfit' := h.fits ht
  have hlinked := h.linked rfl hs.isReady ht.isReady hst hfit hfit' hu.served hv.served
  have hids : ∀ id ∈ u.request.ids, mine id := fun id hid =>
    hin.names id (List.mem_append_left _ hid)
  have hagree : Agree (store.server (clock u).served) (store.server (clock v).served)
      (fun s t => shown (.ofSpace space) s = shown (.ofSpace space) t)
      (fun a b => b.undated = a.undated)
      (u.request.operation config (clock u).drafted u.fresh) s
      (u.request.operation config (clock v).drafted u.fresh) t := by
    -- the parent of a new node is named, so it is shown if it is stored at all
    refine hlinked.request config (fun heq => heq.symm) u.request hids hin.spaces
      (fun kind draft hrequest _ _ => ?_) fun kind id patch hrequest => ?_
    · have hnew := hin.names
      have hspaces := hin.spaces
      unfold Turn.names at hnew
      rw [hrequest] at hids hnew hspaces
      refine h.creates rfl hs.isReady ht.isReady hst hfit hfit' (hnew _ ?_) (hspaces _ ?_)
        (fun p hp => hids p (Option.mem_toList.2 hp)) rfl
      · exact List.mem_append_right _ (List.mem_singleton_self _)
      · exact List.mem_singleton_self _
    · rw [hrequest] at hids
      exact h.updates rfl hs.isReady ht.isReady hst hfit hfit' (hids id (List.mem_singleton_self _))
  unfold Turn.on
  rw [huv.request, huv.fresh]
  exact hagree.sameEnding config u.request.name

end Divided

/-! ## In any order -/

/-- How the turns of two parties end, each in the state that those before it lead to. -/
def endings (perform : Turn → σ → Ending × σ) : List (Turn ⊕ Turn) → σ → List (Ending ⊕ Ending)
  | [], _ => []
  | .inl u :: rest, s => .inl (perform u s).1 :: endings perform rest (perform u s).2
  | .inr u :: rest, s => .inr (perform u s).1 :: endings perform rest (perform u s).2

/-- The state that the turns of two parties lead to. -/
def afterBoth (perform : Turn → σ → Ending × σ) (us : List (Turn ⊕ Turn)) (s : σ) : σ :=
  afterTurns perform (us.map (Sum.elim id id)) s

theorem Turn.Retimed.symm {u v : Turn} (h : u.Retimed v) : v.Retimed u :=
  ⟨h.request.symm, h.fresh.symm⟩

/-- What a turn names does not depend on its times. -/
theorem Turn.Retimed.within {u v : Turn} (h : u.Retimed v) {space : Uuid} {mine : Uuid → Prop}
    (hu : u.Within space mine) : v.Within space mine := by
  have hnames : v.names = u.names := by rw [Turn.names, h.request, h.fresh, Turn.names]
  exact ⟨h.request ▸ hu.spaces, hnames ▸ hu.names⟩

/-- The turns of a party end as they do without the other, and so does what its space holds. -/
theorem Divided.lefts {π ρ : Type} {store : Store σ} {forest : σ → Forest π ρ}
    {shown : Excerpt → σ → σ} {ready : σ → Prop} {fine : StoreCall → Prop}
    {plain : Timestamp → Prop} (h : Divided store forest shown ready fine plain)
    {clock : Turn → Clock} (config : Config) {space : Uuid} {mine : Uuid → Prop}
    {us : List (Turn ⊕ Turn)} {vs : List Turn}
    (hretimed : List.Forall₂ Turn.Retimed (us.filterMap Sum.getLeft?) vs)
    (hin : ∀ u, .inl u ∈ us → u.Within space mine)
    (hout : ∀ u, .inr u ∈ us → u.Outside space mine)
    (hus : ∀ u ∈ us, (u.elim id id).Apt fine plain clock) (hvs : ∀ v ∈ vs, v.Apt fine plain clock)
    {s t : σ} (hs : Settled forest ready space mine s) (ht : Settled forest ready space mine t)
    (hst : shown (.ofSpace space) s = shown (.ofSpace space) t) :
    List.Forall₂ SameEnding
        ((endings (Turn.on store clock config) us s).filterMap Sum.getLeft?)
        ((trace (Turn.on store clock config) vs t).map Prod.fst) ∧
      shown (.ofSpace space) (afterBoth (Turn.on store clock config) us s) =
        shown (.ofSpace space) (afterTurns (Turn.on store clock config) vs t) := by
  have hhome : ∀ sp id, sp = space → mine id → (sp = space ↔ mine id) := fun _ _ => iff_of_true
  -- both states stay settled and show the same of the space
  induction us generalizing vs s t with
  | nil =>
    cases hretimed
    exact ⟨.nil, hst⟩
  | cons u rest ih =>
    have hin' : ∀ u, .inl u ∈ rest → u.Within space mine := fun u hu => hin u (.tail _ hu)
    have hout' : ∀ u, .inr u ∈ rest → u.Outside space mine := fun u hu => hout u (.tail _ hu)
    have hrest' := fun u hu => hus u (.tail _ hu)
    cases u with
    -- a turn of the party is taken in both runs
    | inl u =>
      cases hretimed with
      | @cons _ v _ vs huv hrest =>
        have hu := hus _ (.head _)
        have hv := hvs v (.head _)
        have hwithin := hin u (.head _)
        obtain ⟨hend, hst'⟩ := h.own config huv hu hv hwithin hs ht hst
        obtain ⟨hends, hfinal⟩ := ih hrest hin' hout' hrest' (fun v hv => hvs v (.tail _ hv))
          (h.settled_turn config hhome hu (fun c hc => hwithin.writes hc) hs)
          (h.settled_turn config hhome hv (fun c hc => (huv.within hwithin).writes hc) ht) hst'
        exact ⟨.cons hend hends, hfinal⟩
    -- a turn of the other is taken in one run only
    | inr u =>
      obtain ⟨hs', heq⟩ := h.foreign config (hus _ (.head _)) (hout u (.head _)) hs
      exact ih hretimed hin' hout' hrest' hvs hs' ht (heq.trans hst)

/-! ## Two parties -/

/-- Two parties take turns on one store, in any order. Each names a space of its own and identifiers
that the other does not name. What it does alone it may do at other times. -/
structure Parties (left right : Uuid) (as bs : List Turn) (us : List (Turn ⊕ Turn)) : Prop where
  lefts       : List.Forall₂ Turn.Retimed (us.filterMap Sum.getLeft?) as
  rights      : List.Forall₂ Turn.Retimed (us.filterMap Sum.getRight?) bs
  ne          : left ≠ right
  leftSpaces  : ∀ a ∈ as, ∀ sp ∈ a.request.spaces, sp = left
  rightSpaces : ∀ b ∈ bs, ∀ sp ∈ b.request.spaces, sp = right
  names       : ∀ a ∈ as, ∀ b ∈ bs, ∀ id ∈ a.names, id ∉ b.names

/-- Every request of a party ends as it ends when the party is alone, and so does what its space
holds. -/
structure Independent (perform : Turn → σ → Ending × σ) (shown : Excerpt → σ → σ) (s : σ)
    (left right : Uuid) (as bs : List Turn) (us : List (Turn ⊕ Turn)) : Prop where
  lefts  : List.Forall₂ SameEnding ((endings perform us s).filterMap Sum.getLeft?)
             ((trace perform as s).map Prod.fst)
  rights : List.Forall₂ SameEnding ((endings perform us s).filterMap Sum.getRight?)
             ((trace perform bs s).map Prod.fst)
  left   : shown (.ofSpace left) (afterBoth perform us s) =
             shown (.ofSpace left) (afterTurns perform as s)
  right  : shown (.ofSpace right) (afterBoth perform us s) =
             shown (.ofSpace right) (afterTurns perform bs s)

theorem exists_of_forall₂ {R : α → β → Prop} {xs : List α} {ys : List β}
    (h : List.Forall₂ R xs ys) {x : α} (hx : x ∈ xs) : ∃ y ∈ ys, R x y := by
  induction h with
  | nil => cases hx
  | @cons x' y xs ys hxy _ ih =>
    rcases List.mem_cons.1 hx with rfl | hx
    · exact ⟨y, .head _, hxy⟩
    · obtain ⟨z, hz, hxz⟩ := ih hx
      exact ⟨z, .tail _ hz, hxz⟩

section Swap

variable (us : List (Turn ⊕ Turn))

theorem filterMap_getLeft?_swap (xs : List (α ⊕ β)) :
    (xs.map Sum.swap).filterMap Sum.getLeft? = xs.filterMap Sum.getRight? := by
  rw [List.filterMap_map]
  congr 1
  exact funext Sum.getLeft?_swap

theorem filterMap_getRight?_swap (xs : List (α ⊕ β)) :
    (xs.map Sum.swap).filterMap Sum.getRight? = xs.filterMap Sum.getLeft? := by
  rw [List.filterMap_map]
  congr 1
  exact funext Sum.getRight?_swap

/-- The parties may change places. -/
theorem endings_swap (perform : Turn → σ → Ending × σ) (s : σ) :
    endings perform (us.map Sum.swap) s = (endings perform us s).map Sum.swap := by
  induction us generalizing s with
  | nil => rfl
  | cons u rest ih =>
    cases u with
    | inl u => exact congrArg _ (ih (perform u s).2)
    | inr u => exact congrArg _ (ih (perform u s).2)

theorem afterBoth_swap (perform : Turn → σ → Ending × σ) (s : σ) :
    afterBoth perform (us.map Sum.swap) s = afterBoth perform us s := by
  rw [afterBoth, List.map_map, Sum.elim_swap, afterBoth]

end Swap

namespace Parties

variable {left right : Uuid} {as bs : List Turn} {us : List (Turn ⊕ Turn)}
  (p : Parties left right as bs us)
include p

theorem swap : Parties right left bs as (us.map Sum.swap) where
  lefts := by
    rw [filterMap_getLeft?_swap]
    exact p.rights
  rights := by
    rw [filterMap_getRight?_swap]
    exact p.lefts
  ne := p.ne.symm
  leftSpaces := p.rightSpaces
  rightSpaces := p.leftSpaces
  names b hb a ha id hid hid' := p.names a ha b hb id hid' hid

/-- The identifiers of the party on the left. -/
abbrev Mine (as : List Turn) (id : Uuid) : Prop :=
  ∃ a ∈ as, id ∈ a.names

/-- The turns of the first party name its space and its identifiers alone. -/
theorem within {u : Turn} (hu : .inl u ∈ us) : u.Within left (Mine as) := by
  obtain ⟨a, ha, hretimed⟩ := exists_of_forall₂ p.lefts (List.mem_filterMap.2 ⟨_, hu, rfl⟩)
  have hwithin : a.Within left (Mine as) := ⟨p.leftSpaces a ha, fun id hid => ⟨a, ha, hid⟩⟩
  exact hretimed.symm.within hwithin

/-- The turns of the second party are those of somebody else. -/
theorem outside {u : Turn} (hu : .inr u ∈ us) : u.Outside left (Mine as) := by
  obtain ⟨b, hb, hretimed⟩ := exists_of_forall₂ p.rights (List.mem_filterMap.2 ⟨_, hu, rfl⟩)
  have hwithin : b.Within right fun id => ¬Mine as id :=
    ⟨p.rightSpaces b hb, fun id hid ⟨a, ha, hid'⟩ => p.names a ha b hb id hid' hid⟩
  have hu := hretimed.symm.within hwithin
  -- no space is that of both
  exact ⟨fun sp hsp heq => p.ne (heq.symm.trans (hu.spaces sp hsp)), hu.names⟩

end Parties

/-- From a store without nodes each party finds what it finds alone. -/
theorem Divided.independent {π ρ : Type} {store : Store σ} {forest : σ → Forest π ρ}
    {shown : Excerpt → σ → σ} {ready : σ → Prop} {fine : StoreCall → Prop}
    {plain : Timestamp → Prop} (h : Divided store forest shown ready fine plain)
    {clock : Turn → Clock} (config : Config) {left right : Uuid} {as bs : List Turn}
    {us : List (Turn ⊕ Turn)} (p : Parties left right as bs us)
    (hus : ∀ u ∈ us, (u.elim id id).Apt fine plain clock)
    (has : ∀ a ∈ as, a.Apt fine plain clock) (hbs : ∀ b ∈ bs, b.Apt fine plain clock) {s : σ}
    (hs : ready s) (hempty : ∀ id, forest s id = none) :
    Independent (Turn.on store clock config) shown s left right as bs us := by
  have hsettled : ∀ space mine, Settled forest ready space mine s := fun space mine =>
    ⟨hs, fun id r hr => by rw [hempty id] at hr; cases hr⟩
  have hswap : ∀ u ∈ us.map Sum.swap, (u.elim id id).Apt fine plain clock := by
    intro u hu
    obtain ⟨v, hv, rfl⟩ := List.mem_map.1 hu
    have hapt := hus v hv
    cases v with
    | inl v | inr v => exact hapt
  obtain ⟨hlefts, hleft⟩ := h.lefts config p.lefts (fun _ => p.within) (fun _ => p.outside) hus has
    (hsettled _ _) (hsettled _ _) rfl
  -- seen from the other side, the party on the right is on the left
  obtain ⟨hrights, hright⟩ := h.lefts config p.swap.lefts (fun _ => p.swap.within)
    (fun _ => p.swap.outside) hswap hbs (hsettled _ _) (hsettled _ _) rfl
  rw [endings_swap, filterMap_getLeft?_swap] at hrights
  rw [afterBoth_swap] at hright
  exact ⟨hlefts, hrights, hleft, hright⟩

/-! ## In memory -/

/-- In memory nothing is asked of the calls. -/
theorem Shelf.divided :
    Divided store forest Excerpt.shelf Sound (fun _ => True) fun _ => True where
  reads _ := trivial
  keeps hs _ _ := Store.step_keeps hs fun _ _ => hs.serve
  own_id hs hr := hs.outline.rooted.own_id hr
  homed {_ _ _ space mine} hs hnew hf := by
    refine Store.step_keeps (P := fun s : Shelf => Homed s.forest space mine) hf
      fun _ _ hserve => ?_
    -- neither a move nor a patch changes the identifier or the space of a node
    refine serve_all hs hserve (fun _ _ _ _ _ hr _ => hr) (fun n hn _ => hnew n hn)
      (fun id patch n _ hn _ => ?_) hf
    have hstored := hf hn
    exact hstored
  apart {e s c now} hs hsp hid :=
    Store.step_keeps (P := fun s' => e.shelf s' = e.shelf s) rfl
      (Excerpt.shelf_serve_of_apart hs hsp hid now)
  linked _ hs ht heq hfit hfit' _ _ := linked_of_shown hs ht hfit hfit' heq _ _
  creates he hs ht heq hfit hfit' hid hsp _ hn :=
    createLast_of_shown hs.agrees ht.agrees heq (hfit.reach hid)
      (hfit'.reach ((Excerpt.place_of_node_eq _ hn).1 ▸ hid)) (hfit.sees hsp) hn
      (Excerpt.node_check (.inl he)) (Excerpt.node_check (.inl he)) _ _
  updates he hs ht heq hfit hfit' hid :=
    update_of_shown he hs.agrees ht.agrees heq (hfit.reach hid) (hfit'.reach hid) _ _ _

/-! ## In the table -/

/-- The times of the record can be read. -/
def Record.Timely (l : Line) : Prop :=
  (∃ created, Timestamp.ofText? l.payload.created = some created) ∧
    ∃ updated, Timestamp.ofText? l.updated = some updated

/-- A node that the call creates has times that can be read. -/
def StoreCall.Timely (c : StoreCall) : Prop :=
  ∀ n, c.created? = some n → n.created.HasPlainYear ∧ n.updated.HasPlainYear

namespace Database

/-- A sound state whose rows have times that can be read. -/
structure Timely (db : Database) : Prop where
  sound : db.Sound
  times : db.rows.forest.All Record.Timely

theorem timely_empty (gap : Gap) : (empty gap).Timely :=
  ⟨sound_empty gap, fun _ _ hl => by cases hl⟩

/-- With payload everything on a row is shown but its times, and those can be read. -/
theorem Timely.reads {db : Database} (h : db.Timely) {e : Excerpt} (he : e.payload = true) :
    ∀ r ∈ db.rows, e.Reads r := by
  intro r hr
  obtain ⟨l, hl, rfl⟩ := h.sound.holds.row hr
  exact ⟨.inl he, h.times hl⟩

/-- Rows stay readable when the times that are written have plain years. -/
theorem Timely.step {db : Database} (h : db.Timely) {c : StoreCall} (hc : c.Timely)
    {now : Timestamp} (hyear : now.HasPlainYear) : (store.step c now db).2.Timely := by
  refine Store.step_keeps h fun answer db' hserve => ⟨h.sound.serve hserve, ?_⟩
  refine serve_all h.sound hserve ?_ (fun n hn _ => ?_) (fun id patch n l _ _ hnode _ => ?_) h.times
  -- a node that gets a key has been changed then, or not at all
  · rintro l parent sort updated ⟨hcreated, hupdated⟩ (rfl | rfl)
    · exact ⟨hcreated, hupdated⟩
    · exact ⟨hcreated, now, Timestamp.ofText?_toOffsetText hyear⟩
  -- a new node brings both of its times along
  · obtain ⟨hcreated, hupdated⟩ := hc n hn
    exact ⟨⟨_, Timestamp.ofText?_toOffsetText hcreated⟩, _,
      Timestamp.ofText?_toOffsetText hupdated⟩
  -- a node that is patched was read, and so was the time of its creation
  · obtain ⟨-, -, -, -, -, -, -, -, hcreated, -⟩ := Row.toNode_row_eq_ok_iff.1 hnode
    exact ⟨⟨_, hcreated⟩, now, Timestamp.ofText?_toOffsetText hyear⟩

/-- The table is divided as long as its times can be read. -/
theorem divided :
    Divided store (fun db => db.rows.forest) Excerpt.database Timely StoreCall.Timely
      Timestamp.HasPlainYear where
  reads {c} hc n hn := by
    cases c with
    | get | list | nextSort => cases hn
    | _ => cases hc
  keeps hs hc hnow := hs.step hc hnow
  own_id hs hr := hs.sound.outline.rooted.own_id hr
  homed {_ _ _ space mine} hs hnew hf := by
    refine Store.step_keeps (P := fun db : Database => Homed db.rows.forest space mine) hf
      fun _ _ hserve => ?_
    refine serve_all hs.sound hserve (fun _ _ _ _ hr _ => hr) (fun n hn _ => hnew n hn)
      (fun id patch n l _ hl _ _ => ?_) hf
    -- an update leaves a node in its space
    have hstored := hf hl
    exact hstored
  apart {e db c now} hs hsp hid :=
    Store.step_keeps (P := fun db' => e.database db' = e.database db) rfl
      (Excerpt.database_serve_of_apart hs.sound hsp hid now)
  linked he hs ht heq hfit hfit' hnow hnow' :=
    linked_of_shown hs.sound ht.sound (hs.reads he) (ht.reads he) hfit hfit' heq hnow hnow'
  creates he hs ht heq hfit hfit' hid hsp hparent hn :=
    createLast_of_shown heq hs.sound ht.sound (hs.reads he) (ht.reads he) (hfit.reach hid)
      (hfit'.reach ((Excerpt.place_of_node_eq _ hn).1 ▸ hid))
      (fun p hp => ⟨hfit.reach (hparent p hp), hfit'.reach (hparent p hp)⟩) (hfit.sees hsp) hn
      (Excerpt.node_check (.inl he)) (Excerpt.node_check (.inl he)) _ _
  updates he hs ht heq hfit hfit' hid :=
    update_of_shown heq he hs.sound ht.sound (hs.reads he) (ht.reads he) (hfit.reach hid)
      (hfit'.reach hid) _ _ _

end Database

/-! ## After every run -/

/-- Both clocks of the table show years of four digits. -/
structure Turn.Timely (u : Turn) : Prop where
  drafted : u.table.drafted.HasPlainYear
  served  : u.table.served.HasPlainYear

theorem Turn.Timely.apt {u : Turn} (h : u.Timely) :
    u.Apt StoreCall.Timely Timestamp.HasPlainYear Turn.table where
  served := h.served
  calls c hc n hn := by
    -- a node is created by one request only, with the time of the service on it
    cases hrequest : u.request with
    | create kind draft =>
      rw [hrequest] at hc
      obtain rfl := Option.some.inj hc
      obtain rfl := Option.some.inj hn
      exact ⟨h.drafted, h.drafted⟩
    | move _ _ _ sort | moveBlock _ _ sort =>
      rw [hrequest] at hc
      cases sort with
      | none | some sort =>
        obtain rfl := Option.some.inj hc
        cases hn
    | get | children | roots | branch =>
      rw [hrequest] at hc
      cases hc
    | delete | update | reorder | moveBeside | renumber =>
      rw [hrequest] at hc
      obtain rfl := Option.some.inj hc
      cases hn

/-- Spaces are independent. Of two parties that name neither a space nor a node in common, each
finds what it would find alone, in whatever order their requests are made: every request ends alike,
the times apart, and in the end its space holds the same. -/
theorem spaces_independent_run (gap : Gap) (config : Config) {left right : Uuid} {as bs : List Turn}
    {us : List (Turn ⊕ Turn)} (p : Parties left right as bs us) :
    Independent (Turn.onShelf config) Excerpt.shelf (.empty gap) left right as bs us ∧
      ((∀ u ∈ us, (u.elim id id).Timely) → (∀ a ∈ as, a.Timely) → (∀ b ∈ bs, b.Timely) →
        Independent (Turn.onTable config) Excerpt.database (.empty gap) left right as bs us) := by
  have hapt : ∀ u : Turn, u.Apt (fun _ => True) (fun _ => True) Turn.memory := fun u =>
    ⟨trivial, fun _ _ => trivial⟩
  refine ⟨Shelf.divided.independent config p (fun u _ => hapt _) (fun a _ => hapt a)
    (fun b _ => hapt b) (Shelf.sound_empty gap) fun id => rfl, fun hus has hbs => ?_⟩
  exact Database.divided.independent config p (fun u hu => (hus u hu).apt)
    (fun a ha => (has a ha).apt) (fun b hb => (hbs b hb).apt) (Database.timely_empty gap)
    fun id => rfl

namespace Sample

/-- Two pages of one party, one below the other, and a page that another party creates and deletes
meanwhile. -/
def mixed : List (Turn ⊕ Turn) :=
  [.inl (turn (.create .page (.page (uuid 1))) 2),
    .inr (turn (.create .page (.page (uuid 9))) 3),
    .inl (turn (.create .page { Draft.page (uuid 1) with parent := some (uuid 2) }) 4),
    .inr (turn (.delete .page (uuid 9) (uuid 3)) 5),
    .inl (turn (.branch .page (uuid 2)) 6)]

theorem parties_mixed :
    Parties (uuid 1) (uuid 9) (mixed.filterMap Sum.getLeft?) (mixed.filterMap Sum.getRight?)
      mixed where
  lefts := List.forall₂_same.2 fun _ _ => ⟨rfl, rfl⟩
  rights := List.forall₂_same.2 fun _ _ => ⟨rfl, rfl⟩
  ne := by decide
  leftSpaces := by decide
  rightSpaces := by decide
  names := by decide

theorem timely_mixed : ∀ u ∈ mixed, (u.elim id id).Timely := by
  have hyear : time.HasPlainYear := by decide
  have htimely : ∀ (request : Request) (fresh : UInt8), (turn request fresh).Timely :=
    fun _ _ => ⟨hyear, hyear⟩
  intro u hu
  simp only [mixed, List.mem_cons, List.not_mem_nil, or_false] at hu
  rcases hu with rfl | rfl | rfl | rfl | rfl
  all_goals exact htimely _ _

end Sample

/-- Each party finds what it would have found alone. -/
theorem spaces_independent_run_mixed :
    Independent (Turn.onShelf .standard) Excerpt.shelf (.empty .standard) (Sample.uuid 1)
        (Sample.uuid 9) (Sample.mixed.filterMap Sum.getLeft?)
        (Sample.mixed.filterMap Sum.getRight?) Sample.mixed ∧
      Independent (Turn.onTable .standard) Excerpt.database (.empty .standard) (Sample.uuid 1)
        (Sample.uuid 9) (Sample.mixed.filterMap Sum.getLeft?)
        (Sample.mixed.filterMap Sum.getRight?) Sample.mixed := by
  obtain ⟨hshelf, htable⟩ := spaces_independent_run .standard .standard Sample.parties_mixed
  refine ⟨hshelf, htable Sample.timely_mixed (fun a ha => ?_) fun b hb => ?_⟩
  · obtain ⟨u, hu, ha⟩ := List.mem_filterMap.1 ha
    obtain rfl := Sum.getLeft?_eq_some_iff.1 ha
    exact Sample.timely_mixed _ hu
  · obtain ⟨u, hu, hb⟩ := List.mem_filterMap.1 hb
    obtain rfl := Sum.getRight?_eq_some_iff.1 hb
    exact Sample.timely_mixed _ hu

end Outline
