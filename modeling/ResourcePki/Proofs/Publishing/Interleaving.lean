import ResourcePki.Proofs.Publishing.Clients
import Mathlib.Logic.Function.Basic

/-! Clients of the publisher repositories whose steps come in any order. The records of the CAs and
of the repository service agree but for the publishers that some client has in hand, and for those
that the service failed to remove. -/

namespace ResourcePki

open RepositoryCall

/-- The records, while clients have publishers in hand. -/
structure PublishersAccounted (known : List PublisherHandle) (limit : Nat)
    (pending : Nat → Option PendingPublisher) (t : CaTree) (calls : List RepositoryCall) :
    Prop where
  registered : ∀ id h, t.Registers id h → h ∈ outside known calls
  unique : ∀ id id' h, t.Registers id h → t.Registers id' h → id' = id
  size : ∀ id, (t.publishers id).size ≤ limit
  covered : ∀ h ∈ outside known calls, (∃ id, t.Registers id h) ∨
    (∃ i p, pending i = some p ∧ p.handle = h) ∨
    ∃ fault, (about calls h).head? = some (.delete h (.error fault))
  /-- What a client has in hand no CA has, and its handle is not drawn again. -/
  loose : ∀ i p, pending i = some p →
    (∀ id, ¬ t.Registers id p.handle) ∧ ¬ Fresh known calls p.handle
  apart : ∀ i j p q, pending i = some p → pending j = some q → p.handle = q.handle → i = j
  /-- All that the service was ever asked of a publisher that a client has just created. -/
  own : ∀ i h request, pending i = some (.created h request) → h ∉ known ∧
    ∃ response, about calls h = [.create h request (.ok response)]

namespace PublishersAccounted

variable {known : List PublisherHandle} {limit : Nat} {pending : Nat → Option PendingPublisher}
  {t u : CaTree} {calls : List RepositoryCall} {i : Nat} {id : CaId} {handle : PublisherHandle}
  {request : PublisherRequest}

theorem outside_of_created (h : PublishersAccounted known limit pending t calls)
    (hi : pending i = some (.created handle request)) : handle ∈ outside known calls := by
  obtain ⟨-, response, hcalls⟩ := h.own i handle request hi
  rw [← mem_outside_about, hcalls, mem_outside_create]
  exact .inl ⟨rfl, rfl⟩

theorem ne_of_fresh (h : PublishersAccounted known limit pending t calls)
    (hfresh : Fresh known calls handle) {j : Nat} {p : PendingPublisher}
    (hj : pending j = some p) : handle ≠ p.handle := fun heq =>
  (h.loose j p hj).2 (heq ▸ hfresh)

theorem update_eq_some {o : Option PendingPublisher} {j : Nat} {p : PendingPublisher} :
    Function.update pending i o j = some p ↔
      (j = i ∧ o = some p) ∨ (j ≠ i ∧ pending j = some p) := by
  rw [Function.update_apply]
  split <;> simp [*]

theorem of_update_none {j : Nat} {p : PendingPublisher}
    (hj : Function.update pending i none j = some p) : j ≠ i ∧ pending j = some p :=
  (update_eq_some.mp hj).resolve_left fun hnone => absurd hnone.2.symm (Option.some_ne_none p)

/-- A client that had nothing in hand takes nothing from the others. -/
theorem update_of_none {o : Option PendingPublisher} {j : Nat} {p : PendingPublisher}
    (hi : pending i = none) (hj : pending j = some p) : Function.update pending i o j = some p := by
  have hne : j ≠ i := by
    rintro rfl
    cases hi.symm.trans hj
  exact update_eq_some.mpr (.inr ⟨hne, hj⟩)

theorem apart_update (h : PublishersAccounted known limit pending t calls)
    {o : Option PendingPublisher}
    (hnew : ∀ p, o = some p → ∀ j q, pending j = some q → p.handle ≠ q.handle) (j j' : Nat)
    (p q : PendingPublisher) (hj : Function.update pending i o j = some p)
    (hj' : Function.update pending i o j' = some q) (heq : p.handle = q.handle) : j = j' := by
  rcases update_eq_some.mp hj with ⟨rfl, hp⟩ | ⟨-, hold⟩ <;>
    rcases update_eq_some.mp hj' with ⟨rfl, hq⟩ | ⟨-, hold'⟩
  · rfl
  · exact absurd heq (hnew p hp j' q hold')
  · exact absurd heq.symm (hnew q hq j p hold)
  · exact h.apart j j' p q hold hold' heq

theorem created_eq_some {outcome : Except RepositoryFault RepositoryResponse}
    {p : PendingPublisher} :
    (outcome.toOption.map fun _ => PendingPublisher.created handle request) = some p ↔
      outcome.isOk = true ∧ p = .created handle request := by
  cases outcome <;> simp [Except.toOption, Except.isOk, Except.toBool, eq_comm]

theorem create (h : PublishersAccounted known limit pending t calls)
    (hfresh : Fresh known calls handle) (hi : pending i = none)
    (outcome : Except RepositoryFault RepositoryResponse) :
    PublishersAccounted known limit
      (Function.update pending i (outcome.toOption.map fun _ => .created handle request)) t
      (.create handle request outcome :: calls) where
  registered id k hk := mem_outside_create.mpr (.inr (h.registered id k hk))
  unique := h.unique
  size := h.size
  covered k hk := by
    rcases mem_outside_create.mp hk with ⟨rfl, hok⟩ | hk
    · exact .inr (.inl ⟨i, .created k request,
        update_eq_some.mpr (.inl ⟨rfl, created_eq_some.mpr ⟨hok, rfl⟩⟩), rfl⟩)
    · have hne : (RepositoryCall.create handle request outcome).handle ≠ k := by
        rintro rfl
        exact hfresh.not_outside hk
      rw [about_cons_other hne]
      exact (h.covered k hk).imp_right
        (Or.imp_left fun ⟨j, p, hj, hp⟩ => ⟨j, p, update_of_none hi hj, hp⟩)
  loose j p hj := by
    rcases update_eq_some.mp hj with ⟨-, hp⟩ | ⟨-, hj⟩
    · obtain ⟨-, rfl⟩ := created_eq_some.mp hp
      exact ⟨fun id hid => hfresh.not_outside (h.registered id _ hid),
        not_fresh_self (.create handle request outcome) calls⟩
    · exact ⟨(h.loose j p hj).1, fun hf => (h.loose j p hj).2 hf.of_cons⟩
  apart := h.apart_update fun p hp j q hj => by
    obtain ⟨-, rfl⟩ := created_eq_some.mp hp
    exact h.ne_of_fresh hfresh hj
  own j k request' hj := by
    rcases update_eq_some.mp hj with ⟨-, hp⟩ | ⟨-, hj⟩
    · obtain ⟨hok, hp⟩ := created_eq_some.mp hp
      obtain ⟨rfl, rfl⟩ := PendingPublisher.created.inj hp
      cases outcome with
      | ok response =>
        have habout := about_cons_self (.create k request' (.ok response)) calls
        refine ⟨hfresh.1, response, habout.trans ?_⟩
        rw [RepositoryCall.handle, hfresh.about]
      | error fault => cases hok
    · obtain ⟨hknown, response, hcalls⟩ := h.own j k request' hj
      have hne : (RepositoryCall.create handle request outcome).handle ≠ k :=
        h.ne_of_fresh hfresh hj
      exact ⟨hknown, response, (about_cons_other hne).trans hcalls⟩

theorem register (h : PublishersAccounted known limit pending t calls)
    (hi : pending i = some (.created handle request))
    (hu : CaTree.Registered limit t id handle u) :
    PublishersAccounted known limit (Function.update pending i none) u calls where
  registered x k hk := by
    rcases (hu.registers x k).mp hk with hk | ⟨-, rfl⟩
    · exact h.registered x k hk
    · exact h.outside_of_created hi
  -- What the client had in hand no CA had, so it has one CA now.
  unique x x' k hk hk' := by
    have hnew : ∀ x, ¬ t.Registers x handle := (h.loose i _ hi).1
    rcases (hu.registers x k).mp hk with hk | ⟨rfl, rfl⟩ <;>
      rcases (hu.registers x' _).mp hk' with hk' | ⟨rfl, heq⟩
    · exact h.unique x x' k hk hk'
    · exact absurd (heq ▸ hk) (hnew x)
    · exact absurd hk' (hnew x')
    · rfl
  size x := Nat.le_trans (hu.size x) (Nat.max_le.mpr ⟨h.size x, Nat.le_refl _⟩)
  covered k hk := by
    rcases h.covered k hk with ⟨x, hx⟩ | ⟨j, p, hj, rfl⟩ | hlast
    · exact .inl ⟨x, (hu.registers x k).mpr (.inl hx)⟩
    · by_cases hji : j = i
      · obtain rfl := Option.some.inj (hi.symm.trans (hji ▸ hj))
        exact .inl ⟨id, (hu.registers id _).mpr (.inr ⟨rfl, rfl⟩)⟩
      · exact .inr (.inl ⟨j, p, update_eq_some.mpr (.inr ⟨hji, hj⟩), rfl⟩)
    · exact .inr (.inr hlast)
  loose j p hj := by
    obtain ⟨hji, hj⟩ := of_update_none hj
    refine ⟨fun x hx => ?_, (h.loose j p hj).2⟩
    rcases (hu.registers x _).mp hx with hx | ⟨-, heq⟩
    · exact (h.loose j p hj).1 x hx
    · exact hji (h.apart j i p _ hj hi heq)
  apart := h.apart_update fun p hp => absurd hp.symm (Option.some_ne_none p)
  own j k request' hj := h.own j k request' (of_update_none hj).2

theorem unregister (h : PublishersAccounted known limit pending t calls) (hi : pending i = none)
    (hu : CaTree.Unregistered t id handle u) :
    PublishersAccounted known limit (Function.update pending i (some (.dropped handle))) u
      calls where
  registered x k hk := h.registered x k (hu.subset hk)
  unique x x' k hk hk' := h.unique x x' k (hu.subset hk) (hu.subset hk')
  size x := Nat.le_trans (hu.size x) (h.size x)
  covered k hk := by
    by_cases hkh : k = handle
    · exact .inr (.inl ⟨i, .dropped handle, update_eq_some.mpr (.inl ⟨rfl, rfl⟩), hkh.symm⟩)
    · exact (h.covered k hk).imp
        (fun ⟨x, hx⟩ => ⟨x, (hu.registers x k).mpr ⟨hx, fun heq => hkh heq.2⟩⟩)
        (Or.imp_left fun ⟨j, p, hj, hp⟩ => ⟨j, p, update_of_none hi hj, hp⟩)
  loose j p hj := by
    rcases update_eq_some.mp hj with ⟨-, hp⟩ | ⟨-, hj⟩
    · obtain rfl := Option.some.inj hp
      refine ⟨fun x hx => ?_, fun hf => hf.not_outside (h.registered id handle hu.before)⟩
      -- No other CA had it.
      obtain ⟨hx, hne⟩ := (hu.registers x handle).mp hx
      exact hne ⟨h.unique id x handle hu.before hx, rfl⟩
    · exact ⟨fun x hx => (h.loose j p hj).1 x (hu.subset hx), (h.loose j p hj).2⟩
  -- What another client has in hand was not registered, so it is not what was dropped.
  apart := h.apart_update fun p hp j q hj heq => by
    obtain rfl := Option.some.inj hp
    exact (h.loose j q hj).1 id (heq ▸ hu.before)
  own j k request' hj := by
    rcases update_eq_some.mp hj with ⟨-, hp⟩ | ⟨-, hj⟩
    · cases hp
    · exact h.own j k request' hj

theorem remove (h : PublishersAccounted known limit pending t calls) {p : PendingPublisher}
    (hi : pending i = some p) (outcome : Except RepositoryFault Unit) :
    PublishersAccounted known limit (Function.update pending i none) t
      (.delete p.handle outcome :: calls) where
  registered x k hk := by
    refine mem_outside_delete.mpr ⟨h.registered x k hk, fun heq => ?_⟩
    exact absurd (heq ▸ hk) ((h.loose i p hi).1 x)
  unique := h.unique
  size := h.size
  covered k hk := by
    obtain ⟨hk, hfailed⟩ := mem_outside_delete.mp hk
    by_cases hkp : k = p.handle
    · subst hkp
      cases outcome with
      | ok u => cases hfailed rfl
      | error fault =>
        have habout := about_cons_self (.delete p.handle (.error fault)) calls
        exact .inr (.inr ⟨fault, congrArg List.head? habout⟩)
    · have hne : (RepositoryCall.delete p.handle outcome).handle ≠ k := Ne.symm hkp
      rw [about_cons_other hne]
      refine (h.covered k hk).imp_right (Or.imp_left fun ⟨j, q, hj, hq⟩ => ?_)
      have hji : j ≠ i := fun heq => by
        obtain rfl := Option.some.inj (hi.symm.trans (heq ▸ hj))
        exact hkp hq.symm
      exact ⟨j, q, update_eq_some.mpr (.inr ⟨hji, hj⟩), hq⟩
  loose j q hj := by
    obtain ⟨-, hj⟩ := of_update_none hj
    exact ⟨(h.loose j q hj).1, fun hf => (h.loose j q hj).2 hf.of_cons⟩
  apart := h.apart_update fun q hq => absurd hq.symm (Option.some_ne_none q)
  -- The service was asked about a publisher that no other client has in hand.
  own j k request' hj := by
    obtain ⟨hji, hj⟩ := of_update_none hj
    obtain ⟨hknown, response, hcalls⟩ := h.own j k request' hj
    have hne : (RepositoryCall.delete p.handle outcome).handle ≠ k :=
      fun heq => hji (h.apart j i _ p hj hi heq.symm)
    exact ⟨hknown, response, (about_cons_other hne).trans hcalls⟩

end PublishersAccounted

/-- The clients, and what they share. -/
structure PublishingSystem where
  state : PublishingState Journal
  clients : List PublisherClient

namespace PublishingSystem

def tree (a : PublishingSystem) : CaTree := a.state.engine.tree

/-- The publishers that the repository service has. -/
def outside (known : List PublisherHandle) (a : PublishingSystem) : List PublisherHandle :=
  RepositoryCall.outside known a.state.calls

def pending (a : PublishingSystem) (i : Nat) : Option PendingPublisher :=
  a.clients[i]?.bind (·.pending?)

/-- The next step of a client. -/
def advance (a : PublishingSystem) (desk : PublisherRepositories Journal) (i : Nat) :
    PublishingSystem :=
  match a.clients[i]? with
  | none => a
  | some c => ⟨(c.advance desk a.state).2, a.clients.set i (c.advance desk a.state).1⟩

/-- If the next step of a client is to draw a handle, the service has never heard of that. -/
def DrawsFresh (known : List PublisherHandle) (service : RepositoryService)
    (a : PublishingSystem) (i : Nat) : Prop :=
  ∀ c ∈ a.clients[i]?, c.draws = true → Fresh known a.state.calls (service.handle a.state.calls)

/-- The second system comes from the first as clients arrive and take steps. Each step has a server
of its own, as the clock goes on; but the limit on publishers is always the same. -/
inductive History (known : List PublisherHandle) (limit : Nat) :
    PublishingSystem → PublishingSystem → Prop
  | refl (a : PublishingSystem) : History known limit a a
  | arrive {a b : PublishingSystem} (c : PublisherClient) (hnew : c.isNew = true)
      (h : History known limit a b) : History known limit a ⟨b.state, b.clients ++ [c]⟩
  | advance {a b : PublishingSystem} (server : Server) (i : Nat)
      (hlimit : server.config.publisherLimit = limit)
      (hfresh : b.DrawsFresh known server.repositories i) (h : History known limit a b) :
      History known limit a (b.advance server.publishers i)

/-- Nothing is under way, the service has just the publishers that a CA has registered, each with
one CA only, and no CA has more of them than it may. -/
structure Agreed (known : List PublisherHandle) (limit : Nat) (a : PublishingSystem) : Prop where
  clients : a.clients = []
  outside_iff : ∀ h, h ∈ a.outside known ↔ ∃ id, a.tree.Registers id h
  unique : ∀ id id' h, a.tree.Registers id h → a.tree.Registers id' h → id' = id
  size : ∀ id, (a.tree.publishers id).size ≤ limit

variable {known : List PublisherHandle} {limit : Nat} {a b : PublishingSystem}

/-- What `PublishersAccounted` says of a system. -/
abbrev Accounted (known : List PublisherHandle) (limit : Nat) (a : PublishingSystem) : Prop :=
  PublishersAccounted known limit a.pending a.tree a.state.calls

theorem Agreed.accounted (h : a.Agreed known limit) : a.Accounted known limit := by
  have hnone : ∀ {i p}, a.pending i ≠ some p := by
    intro i p hi
    rw [pending, h.clients] at hi
    cases hi
  exact {
    registered := fun id k hk => (h.outside_iff k).mpr ⟨id, hk⟩
    unique := h.unique
    size := h.size
    covered := fun k hk => .inl ((h.outside_iff k).mp hk)
    loose := fun _ _ hi => absurd hi hnone
    apart := fun _ _ _ _ hi => absurd hi hnone
    own := fun _ _ _ hi => absurd hi hnone }

theorem pending_arrive {c : PublisherClient} (hnew : c.isNew = true) :
    (PublishingSystem.mk b.state (b.clients ++ [c])).pending = b.pending := by
  funext i
  rw [pending, pending, List.getElem?_append]
  split
  · rfl
  · rename_i hi
    rw [List.getElem?_eq_none (Nat.le_of_not_lt hi)]
    cases hd : [c][i - b.clients.length]? with
    | none => rfl
    | some d =>
      obtain rfl := List.mem_singleton.mp (List.mem_of_getElem? hd)
      exact PublisherClient.pending?_of_isNew hnew

theorem pending_set {i : Nat} {c c' : PublisherClient} {s : PublishingState Journal}
    (hc : b.clients[i]? = some c) :
    (PublishingSystem.mk s (b.clients.set i c')).pending =
      Function.update b.pending i c'.pending? := by
  have hlt : i < b.clients.length := (List.getElem?_eq_some_iff.mp hc).1
  funext j
  rw [pending, Function.update_apply, List.getElem?_set]
  simp only [eq_comm (a := i), hlt, if_true]
  split <;> rfl

theorem accounted_advance (server : Server) {i : Nat}
    (hlimit : server.config.publisherLimit = limit)
    (hfresh : b.DrawsFresh known server.repositories i) (h : b.Accounted known limit) :
    (b.advance server.publishers i).Accounted known limit := by
  rw [advance]
  cases hc : b.clients[i]? with
  | none => exact h
  | some c =>
    have hi : b.pending i = c.pending? := by rw [pending, hc, Option.bind_some]
    have hloose : ∀ p, c.pending? = some p → ∀ id, ¬ b.state.engine.tree.Registers id p.handle :=
      fun p hp => (h.loose i p (hi.trans hp)).1
    have hmoves := PublisherClient.advance_moves server hloose
    have hdraws := hfresh c hc
    dsimp only
    generalize c.advance server.publishers b.state = after at hmoves ⊢
    obtain ⟨c', s'⟩ := after
    change PublishersAccounted known limit (PublishingSystem.mk s' (b.clients.set i c')).pending
      s'.engine.tree s'.calls
    rw [pending_set hc]
    cases hmoves with
    | waits hsame htree hcalls =>
      rw [hsame, ← hi, Function.update_eq_self, htree, hcalls]
      exact h
    | creates request outcome hdraw hbefore hafter htree hcalls =>
      rw [hafter, htree, hcalls]
      exact h.create (hdraws hdraw) (hi.trans hbefore) outcome
    | registers id handle request hbefore hafter htree hcalls =>
      rw [hafter, hcalls]
      exact h.register (hi.trans hbefore) (hlimit ▸ htree)
    | unregisters id handle hbefore hafter htree hcalls =>
      rw [hafter, hcalls]
      exact h.unregister (hi.trans hbefore) htree
    | removes p outcome hbefore hafter htree hcalls =>
      rw [hafter, htree, hcalls]
      exact h.remove (hi.trans hbefore) outcome

theorem accounted_history (hrun : History known limit a b) (h : a.Accounted known limit) :
    b.Accounted known limit := by
  induction hrun with
  | refl => exact h
  | arrive c hnew _ ih =>
    rw [Accounted, pending_arrive hnew]
    exact ih
  | advance server i hlimit hfresh _ ih => exact accounted_advance server hlimit hfresh ih

/-- A publisher that is a client's own: the service was told of it once, on the client's request,
and neither a CA nor another client has anything to do with it. -/
structure Own (known : List PublisherHandle) (b : PublishingSystem) (i : Nat)
    (request : PublisherRequest) (h : PublisherHandle) : Prop where
  unknown : h ∉ known
  created : ∃ response, about b.state.calls h = [.create h request (.ok response)]
  unregistered : ∀ id, ¬ b.tree.Registers id h
  alone : ∀ j p, b.pending j = some p → p.handle = h → j = i

/-- What a step of a provision can remove, when all that came before is accounted for. -/
theorem removed_by_provision {server : Server} {i : Nat} {name : CaName}
    {request : PublisherRequest} {stage : ProvisionStage} (h : b.Accounted known limit)
    (hc : b.clients[i]? = some (.provision name request stage)) :
    (∀ id k, b.tree.Registers id k → (b.advance server.publishers i).tree.Registers id k) ∧
      ∀ k ∈ b.outside known, k ∉ (b.advance server.publishers i).outside known →
        (∃ e, stage = .refused k e) ∧ b.Own known i request k := by
  have hi : b.pending i = (PublisherClient.provision name request stage).pending? := by
    rw [pending, hc, Option.bind_some]
  rw [advance, hc]
  refine ⟨fun id k hk => ?_, fun k hbefore hafter => ?_⟩
  · exact PublisherClient.registers_provision (fun p hp => (h.loose i p (hi.trans hp)).1) hk
  · obtain ⟨e, rfl⟩ := PublisherClient.refused_of_removed hbefore hafter
    have hcreated : b.pending i = some (.created k request) := hi
    obtain ⟨hknown, hcalls⟩ := h.own i k request hcreated
    exact ⟨⟨e, rfl⟩, hknown, hcalls, (h.loose i _ hcreated).1,
      fun j p hj hp => h.apart j i p _ hj hcreated hp⟩

/-- However the steps of the clients come: each registered publisher is there outside and has one
CA only, no CA has more than it may, and each publisher outside is registered, in the hands of a
client, or one that the service failed to remove when it was last asked about it. A provision takes
no publisher from a CA, and removes none outside but its own, which its CA has just refused. -/
theorem publishers_agree (hrun : History known limit a b) (hstart : a.Agreed known limit) :
    (∀ id h, b.tree.Registers id h →
      h ∈ b.outside known ∧ ∀ id', b.tree.Registers id' h → id' = id) ∧
    (∀ id, (b.tree.publishers id).size ≤ limit) ∧
    (∀ h ∈ b.outside known, (∃ id, b.tree.Registers id h) ∨
      (∃ i p, b.pending i = some p ∧ p.handle = h) ∨
      ∃ fault, (about b.state.calls h).head? = some (.delete h (.error fault))) ∧
    ∀ (server : Server) i name request stage,
      b.clients[i]? = some (.provision name request stage) →
      (∀ id h, b.tree.Registers id h → (b.advance server.publishers i).tree.Registers id h) ∧
      ∀ h ∈ b.outside known, h ∉ (b.advance server.publishers i).outside known →
        (∃ e, stage = .refused h e) ∧ b.Own known i request h := by
  have haccounted : b.Accounted known limit := accounted_history hrun hstart.accounted
  refine ⟨fun id h hid => ⟨haccounted.registered id h hid, fun id' => ?_⟩, haccounted.size,
    haccounted.covered, fun server i name request stage hc => removed_by_provision haccounted hc⟩
  exact haccounted.unique id id' h hid

end PublishingSystem

theorem Server.publishers_eq (server : Server) : server.publishers =
    { server.publishers with
      execute := Dispatcher.execute
        ⟨standardHandlers server.services server.config.policy, server.config.retries⟩ } := by
  rw [← Dispatcher.standard_eq]
  rfl

/-! A member with one publisher, which is as many as it may have. While that is removed, two others
are asked for. -/

namespace Member

def handle (n : Nat) : PublisherHandle := ⟨n⟩

def request : PublisherRequest := ⟨"cHVibGlzaGVy", ⟨"publisher"⟩, none⟩

def response : RepositoryResponse where
  idCert := "cmVwb3NpdG9yeQ=="
  name := ⟨"publisher"⟩
  service := ⟨"https://repo.example.net/rfc8181/"⟩
  info := ⟨⟨"rsync://repo.example.net/repo/"⟩, none⟩
  tag := none

def member : CertificateAuthority where
  id := 1
  name := "CN=member"
  kind := .nonHosted [] (SortedMap.insert ∅ (handle 100) ⟨request, response⟩)

def start : PublishingSystem where
  state.engine := { tree := { cas := ⟨[(1, member)], by decide⟩, nextId := 2 }, memory := {} }
  clients := []

/-- The service removes any publisher but the second of those that it creates. -/
def server : Server where
  config := { logLevel := .info, logType := .stderr, publisherLimit := 1 }
  services := Chain.services
  repositories :=
    { create := fun _ _ _ => .ok response
      delete := fun _ h => if h = handle 1 then .error (.unavailable "offline") else .ok ()
      handle := fun calls => handle calls.length }
  isIdentity := fun _ _ => true

def clients : List PublisherClient :=
  [.deletion member.name (handle 100) .requested, .provision member.name request .requested,
    .provision member.name request .requested]

/-- Whose turn it is. Both provisions find a free place, but only one gets it. -/
def turn (n : Nat) : Nat := [0, 1, 2, 1, 2, 1, 2, 2, 0].getD n 0

def after (desk : PublisherRepositories Journal) : Nat → PublishingSystem
  | 0 => ⟨start.state, clients⟩
  | n + 1 => (after desk n).advance desk (turn n)

theorem publishers_eq : server.publishers =
    { server.publishers with
      execute := Dispatcher.execute
        ⟨standardHandlers server.services server.config.policy, server.config.retries⟩ } :=
  Server.publishers_eq server

theorem agreed_start : start.Agreed [handle 100] 1 := by
  have hpublishers : ∀ {id}, start.tree.publishers id =
      if 1 = id then SortedMap.insert ∅ (handle 100) ⟨request, response⟩ else ∅ := by
    intro id
    rw [CaTree.publishers]
    change ((if 1 = id then some member else none).bind (·.publishers?)).getD ∅ = _
    split <;> rfl
  have hempty : ∀ h : PublisherHandle,
      ¬ (∅ : SortedMap PublisherHandle PublisherRepository).contains h = true :=
    fun _ => Bool.false_ne_true
  have hregisters : ∀ {id h}, start.tree.Registers id h ↔ id = 1 ∧ h = handle 100 := by
    intro id h
    rw [CaTree.Registers, hpublishers]
    split
    · rename_i heq
      rw [SortedMap.contains_insert, or_iff_left (hempty h)]
      exact ⟨fun hh => ⟨heq.symm, hh⟩, And.right⟩
    · rename_i hne
      exact ⟨fun hh => absurd hh (hempty h), fun hh => absurd hh.1.symm hne⟩
  refine ⟨rfl, fun h => ?_, fun id id' h hid hid' => ?_, fun id => ?_⟩
  · change h ∈ [handle 100] ↔ _
    simp [hregisters]
  · rw [(hregisters.mp hid).1, (hregisters.mp hid').1]
  · rw [hpublishers]
    split <;> decide

theorem history_after : ∀ n ≤ 9,
    PublishingSystem.History [handle 100] 1 start (after server.publishers n) := by
  have hfresh : ∀ n < 9, (after server.publishers n).DrawsFresh [handle 100] server.repositories
      (turn n) := by
    rw [publishers_eq]
    unfold PublishingSystem.DrawsFresh
    decide +kernel
  intro n hn
  induction n with
  | zero =>
    exact .arrive _ rfl (.arrive _ rfl (.arrive _ rfl (.refl start)))
  | succ n ih => exact .advance server (turn n) rfl (hfresh n hn) (ih (Nat.le_of_succ_le hn))

/-- The provision that came too late is refused, and its cleanup fails. -/
theorem publishers_agree_when_overlapping :
    PublishingSystem.History [handle 100] 1 start (after server.publishers 9) ∧
    start.Agreed [handle 100] 1 ∧
    handle 1 ∈ (after server.publishers 9).outside [handle 100] ∧
    ((∃ id, (after server.publishers 9).tree.Registers id (handle 1)) ∨
      (∃ i p, (after server.publishers 9).pending i = some p ∧ p.handle = handle 1) ∨
      ∃ fault, (about (after server.publishers 9).state.calls (handle 1)).head? =
        some (.delete (handle 1) (.error fault))) := by
  have hrun := history_after 9 (Nat.le_refl 9)
  have hmem : handle 1 ∈ (after server.publishers 9).outside [handle 100] := by
    rw [publishers_eq]
    decide +kernel
  obtain ⟨-, -, hcovered, -⟩ := PublishingSystem.publishers_agree hrun agreed_start
  exact ⟨hrun, agreed_start, hmem, hcovered (handle 1) hmem⟩

end Member

end ResourcePki
