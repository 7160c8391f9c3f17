import ResourcePki.Proofs.Publishing.Listing
import ResourcePki.Proofs.Publishing.Provisioning

/-! Calls of the publisher repositories, one after the other. Each call changes the map of the CA
that it names, and by no more than its answer tells; what the repository service is asked meanwhile
is about publishers of that CA. -/

namespace ResourcePki

inductive PublisherCall where
  | provision (name : CaName) (request : PublisherRequest)
  | provisionXml (name : CaName) (xml : String)
  | delete (name : CaName) (handle : PublisherHandle)

/-- What a call did to the publishers of a CA. -/
inductive PublisherChange where
  | none
  | added (name : CaName) (handle : PublisherHandle) (response : RepositoryResponse)
  | dropped (name : CaName) (handle : PublisherHandle)
deriving DecidableEq

/-- The map of a CA after a change. -/
def PublisherChange.on (name : CaName) (m : SortedMap PublisherHandle RepositoryResponse) :
    PublisherChange → SortedMap PublisherHandle RepositoryResponse
  | none => m
  | added name' handle response => if name' = name then m.insert handle response else m
  | dropped name' handle => if name' = name then m.erase handle else m

/-- The map of a CA after some changes, the first one first. -/
def PublisherChange.replay (changes : List PublisherChange) (name : CaName)
    (m : SortedMap PublisherHandle RepositoryResponse) :
    SortedMap PublisherHandle RepositoryResponse :=
  changes.foldl (fun m c => c.on name m) m

/-- What the service answered when it was last asked to create a publisher, and did. -/
def RepositoryCall.responseFor (h : PublisherHandle) :
    List RepositoryCall → Option RepositoryResponse
  | [] => none
  | create handle _ (.ok response) :: calls =>
    if handle = h then some response else responseFor h calls
  | _ :: calls => responseFor h calls

theorem RepositoryCall.responseFor_create {handle : PublisherHandle} {request : PublisherRequest}
    {response : RepositoryResponse} {calls : List RepositoryCall} :
    responseFor handle (.create handle request (.ok response) :: calls) = some response :=
  if_pos rfl

open RepositoryCall

namespace PublisherCall

def name : PublisherCall → CaName
  | provision name _ => name
  | provisionXml name _ => name
  | delete name _ => name

/-- What a provision asks for, if it can be read. -/
def request? (isIdentity : String → Bool) : PublisherCall → Option (Except Error PublisherRequest)
  | provision _ request => some (.ok request)
  | provisionXml _ xml => some (PublisherRequest.ofDocument isIdentity xml)
  | delete _ _ => none

end PublisherCall

/-- A provision that answers with a handle has added it, with what the service answered for it. -/
def PublisherChange.ofAnswer (name : CaName) :
    Except Error (Option PublisherHandle) → List RepositoryCall → PublisherChange
  | .ok (some handle), calls => (responseFor handle calls).elim none (added name handle)
  | _, _ => none

namespace PublisherRepositories

variable {ε : Type} {desk : PublisherRepositories ε} {name : CaName} {request : PublisherRequest}
  {handle : PublisherHandle} {s : PublishingState ε}

/-- What a call comes to; a provision answers with a handle. -/
def perform (desk : PublisherRepositories ε) (s : PublishingState ε) :
    PublisherCall → Except Error (Option PublisherHandle) × PublishingState ε
  | .provision name request => (desk.provision name request s).map (·.map some) id
  | .provisionXml name xml => (desk.provisionXml name xml s).map (·.map some) id
  | .delete name handle => (desk.delete name handle s).map (·.map fun _ => none) id

/-- What a call did. A deletion drops the publisher when the CA has given it up, whatever the
service then answers. -/
def change (desk : PublisherRepositories ε) (s : PublishingState ε) (call : PublisherCall) :
    PublisherChange :=
  match call with
  | .delete name handle =>
    match (desk.advanceDeletion name handle .requested s).1 with
    | .unregistered => .dropped name handle
    | _ => .none
  | .provision name _ | .provisionXml name _ =>
    .ofAnswer name (desk.perform s call).1 (desk.perform s call).2.calls

end PublisherRepositories

namespace CaTree

variable {t u : CaTree} {name : CaName} {id : CaId} {change : PublisherChange}
  {publishers publishers' found : SortedMap PublisherHandle PublisherRepository}

theorem listing_unchanged (t : CaTree) (name : CaName) :
    t.listing name = (t.listing name).map (PublisherChange.none.on name) := by
  cases t.listing name <;> rfl

/-- What is registered or given up changes the map of the CA, and no other. -/
theorem Republished.listing_on (h : t.Republished id publishers publishers' u) (hwf : t.WellFormed)
    (hfound : t.nonHosted name = .ok (id, found))
    (hchange : change.on name (publishers.mapValues (·.response)) =
      publishers'.mapValues (·.response))
    (hothers : ∀ x m, name ≠ x → change.on x m = m) (x : CaName) :
    u.listing x = (t.listing x).map (change.on x) := by
  obtain rfl := h.of_nonHosted hwf hfound
  rw [h.listing hwf hfound]
  split
  · rename_i heq
    obtain rfl := heq
    rw [CaTree.listing, hfound, ← hchange]
    rfl
  · rename_i hne
    cases t.listing x with
    | error err => rfl
    | ok m => exact congrArg Except.ok (hothers x m hne).symm

end CaTree

/-- Why the repository service may be asked something in a call. It is to create a publisher only on
a request with a valid identity certificate, for a non-hosted CA that may have another one; and to
remove one only if the CA that is named had it, or if it was created in the same call. -/
def PublisherRepositories.Warrants {ε : Type} (desk : PublisherRepositories ε)
    (call : PublisherCall) (s : PublishingState ε) (asked : List RepositoryCall) :
    RepositoryCall → Prop
  | .create _ request _ => call.request? desk.isIdentity = some (.ok request) ∧
      desk.isIdentity request.idCert = true ∧ ∃ id publishers,
        s.engine.tree.nonHosted call.name = .ok (id, publishers) ∧ publishers.size < desk.limit
  | .delete handle _ => (call = .delete call.name handle ∧ ∃ id publishers,
        s.engine.tree.nonHosted call.name = .ok (id, publishers) ∧
          publishers.contains handle = true) ∨
      ∃ request response, .create handle request (.ok response) ∈ asked

/-- What holds of a call and its answer, with what the repository service was asked meanwhile. -/
structure Server.Lawful (server : Server) (call : PublisherCall) (s : PublishingState Journal)
    (answer : Except Error (Option PublisherHandle)) (s' : PublishingState Journal)
    (asked : List RepositoryCall) : Prop where
  wellFormed : s'.engine.tree.WellFormed
  calls : s'.calls = asked ++ s.calls
  warranted : ∀ c ∈ asked, server.publishers.Warrants call s asked c
  listing : ∀ name, s'.engine.tree.listing name =
    (s.engine.tree.listing name).map ((server.publishers.change s call).on name)
  failed : ∀ r, call.request? server.publishers.isIdentity = some r → ∀ err, answer = .error err →
    s'.engine.tree = s.engine.tree
  succeeded : ∀ handle, answer = .ok (some handle) → ∃ request response,
    .create handle request (.ok response) ∈ asked ∧
      server.publishers.change s call = .added call.name handle response

namespace Server

variable {server : Server} {call : PublisherCall} {s : PublishingState Journal}
  {request : PublisherRequest}

theorem lawful_of_unchanged (hwf : s.engine.tree.WellFormed) {err : Error}
    {s' : PublishingState Journal} {asked : List RepositoryCall}
    (htree : s'.engine.tree = s.engine.tree) (hchange : server.publishers.change s call = .none)
    (hcalls : s'.calls = asked ++ s.calls)
    (hwarranted : ∀ c ∈ asked, server.publishers.Warrants call s asked c) :
    server.Lawful call s (.error err) s' asked where
  wellFormed := htree ▸ hwf
  calls := hcalls
  warranted := hwarranted
  listing name := by
    rw [htree, hchange]
    exact s.engine.tree.listing_unchanged name
  failed _ _ _ _ := htree
  succeeded := nofun

theorem lawful_provision (hwf : s.engine.tree.WellFormed)
    (hrequest : call.request? server.publishers.isIdentity = some (.ok request))
    {answer : Except Error PublisherHandle} {s' : PublishingState Journal}
    (h : server.publishers.Provisioned call.name request s answer s')
    (hchange : server.publishers.change s call = .ofAnswer call.name (answer.map some) s'.calls) :
    ∃ asked, server.Lawful call s (answer.map some) s' asked := by
  have hwarrants : ∀ {id handle outcome asked},
      server.publishers.accept s.engine.tree call.name request = .ok id →
      server.publishers.Warrants call s asked (.create handle request outcome) := by
    intro id handle outcome asked haccept
    obtain ⟨publishers, hfound, hsize, hvalid⟩ := PublisherRepositories.accept_ok haccept
    exact ⟨hrequest, hvalid, id, publishers, hfound, hsize⟩
  cases h with
  | rejected => exact ⟨[], lawful_of_unchanged hwf rfl hchange rfl (List.forall_mem_nil _)⟩
  | @failed id handle fault haccept hhandle hcreate =>
    exact ⟨[.create handle request (.error fault)], lawful_of_unchanged hwf rfl hchange rfl
      (List.forall_mem_singleton.mpr (hwarrants haccept))⟩
  | @refused id handle response err engine outcome haccept hhandle hcreate h houtcome =>
    have htree : ((cleanupEvents err outcome).foldl .note engine).tree = s.engine.tree :=
      (PublisherClient.tree_cleanup err outcome engine).trans (Dispatcher.execute_standard_error h)
    refine ⟨[.delete handle outcome, .create handle request (.ok response)],
      lawful_of_unchanged hwf htree hchange rfl ?_⟩
    refine List.forall_mem_cons.mpr ⟨.inr ⟨request, response, ?_⟩,
      List.forall_mem_singleton.mpr (hwarrants haccept)⟩
    exact List.mem_cons_of_mem _ (List.mem_singleton_self _)
  | @registered id handle response status engine haccept hhandle hcreate h =>
    -- If the CA had the handle already, then with this very request and response.
    obtain ⟨found, hfound, -, -⟩ := PublisherRepositories.accept_ok haccept
    obtain ⟨publishers, htree⟩ := Dispatcher.execute_provision_republished h
    have hadded : server.publishers.change s call = .added call.name handle response := by
      rw [hchange, Except.map, PublisherChange.ofAnswer, responseFor_create]
      rfl
    refine ⟨[.create handle request (.ok response)], htree.wellFormed hwf, rfl,
      List.forall_mem_singleton.mpr (hwarrants haccept), ?_, fun _ _ _ herr => (nomatch herr),
      fun k hk => ?_⟩
    · rw [hadded]
      refine htree.listing_on hwf hfound ?_ fun x m hne => if_neg hne
      rw [SortedMap.mapValues_insert]
      exact if_pos rfl
    · obtain rfl := Option.some.inj (Except.ok.inj hk)
      exact ⟨request, response, List.mem_singleton_self _, hadded⟩

theorem lawful_deletion (hwf : s.engine.tree.WellFormed) {name : CaName} {handle : PublisherHandle}
    {answer : Except Error Unit} {s' : PublishingState Journal}
    (h : server.publishers.Deleted name handle s answer s') :
    ∃ asked, server.Lawful (.delete name handle) s (answer.map fun _ => none) s' asked := by
  cases h with
  | missing hnone =>
    refine ⟨[], lawful_of_unchanged hwf rfl ?_ rfl (List.forall_mem_nil _)⟩
    rw [PublisherRepositories.change, PublisherRepositories.advanceDeletion, hnone]
  | @refused id publishers err engine hfound h =>
    refine ⟨[], lawful_of_unchanged hwf (Dispatcher.execute_standard_error h) ?_ rfl
      (List.forall_mem_nil _)⟩
    rw [PublisherRepositories.change, PublisherRepositories.advanceDeletion, hfound]
    dsimp only
    rw [h]
  | @asked id found status engine outcome hfound h houtcome =>
    obtain ⟨publishers, hcontains, htree⟩ := Dispatcher.execute_delete_republished h
    obtain rfl := htree.of_nonHosted hwf hfound
    have hdropped : server.publishers.change s (.delete name handle) = .dropped name handle := by
      rw [PublisherRepositories.change, PublisherRepositories.advanceDeletion, hfound]
      dsimp only
      rw [h]
    -- The service is asked after the CA gave the publisher up; its answer is not for the tree.
    rw [← PublisherClient.tree_settleDeletion name handle engine outcome] at htree
    refine ⟨[.delete handle outcome], htree.wellFormed hwf, rfl, ?_, ?_,
      fun r hr => absurd hr.symm (Option.some_ne_none r), fun k hk => ?_⟩
    · exact List.forall_mem_singleton.mpr (.inl ⟨rfl, id, publishers, hfound, hcontains⟩)
    · rw [hdropped]
      refine htree.listing_on hwf hfound ?_ fun x m hne => if_neg hne
      rw [SortedMap.mapValues_erase]
      exact if_pos rfl
    · generalize (PublisherRepositories.settleDeletion name handle engine outcome).1 = r at hk
      cases r <;> cases hk

theorem lawful_perform (server : Server) (call : PublisherCall) (hwf : s.engine.tree.WellFormed) :
    ∃ asked, server.Lawful call s (server.publishers.perform s call).1
      (server.publishers.perform s call).2 asked := by
  cases call with
  | provision name request =>
    exact lawful_provision hwf rfl (server.publishers.provision_provisioned name request s) rfl
  | provisionXml name xml =>
    cases hdocument : PublisherRequest.ofDocument server.publishers.isIdentity xml with
    | error err =>
      have hperform : server.publishers.perform s (.provisionXml name xml) = (.error err, s) := by
        rw [PublisherRepositories.perform, PublisherRepositories.provisionXml, hdocument]
        rfl
      rw [hperform]
      refine ⟨[], lawful_of_unchanged hwf rfl ?_ rfl (List.forall_mem_nil _)⟩
      rw [PublisherRepositories.change, hperform]
      rfl
    | ok request =>
      have hperform : server.publishers.perform s (.provisionXml name xml) =
          (server.publishers.provision name request s).map (·.map some) id := by
        rw [PublisherRepositories.perform, PublisherRepositories.provisionXml, hdocument]
      have hrequest : (PublisherCall.provisionXml name xml).request? server.publishers.isIdentity =
          some (.ok request) := congrArg some hdocument
      rw [hperform]
      refine lawful_provision hwf hrequest
        (server.publishers.provision_provisioned name request s) ?_
      rw [PublisherRepositories.change, hperform]
      rfl
  | delete name handle =>
    exact lawful_deletion hwf (server.publishers.delete_deleted name handle s)

/-- The state after some calls, each with a server of its own. -/
def performAll (steps : List (Server × PublisherCall)) (s : PublishingState Journal) :
    PublishingState Journal :=
  steps.foldl (fun s step => (step.1.publishers.perform s step.2).2) s

/-- What the calls did, one after the other. -/
def changes : List (Server × PublisherCall) → PublishingState Journal → List PublisherChange
  | [], _ => []
  | (server, call) :: rest, s =>
    server.publishers.change s call :: changes rest (server.publishers.perform s call).2

theorem listing_performAll (hwf : s.engine.tree.WellFormed)
    (steps : List (Server × PublisherCall)) :
    (performAll steps s).engine.tree.WellFormed ∧
      ∀ name, (performAll steps s).engine.tree.listing name =
        (s.engine.tree.listing name).map (PublisherChange.replay (changes steps s) name) := by
  induction steps generalizing s with
  | nil =>
    refine ⟨hwf, fun name => ?_⟩
    cases hlisting : s.engine.tree.listing name <;> exact hlisting
  | cons step rest ih =>
    obtain ⟨server, call⟩ := step
    obtain ⟨asked, hlawful⟩ := server.lawful_perform call hwf
    obtain ⟨hwf', hlisting⟩ := ih hlawful.wellFormed
    refine ⟨hwf', fun name => (hlisting name).trans ?_⟩
    rw [hlawful.listing name]
    cases s.engine.tree.listing name <;> rfl

/-- Clients are shown one map for each non-hosted CA: what was there at first, with what the calls
so far have added and without what they have dropped. And in every call, nothing is asked of the
repository service without cause, and a provision that fails has done nothing. -/
theorem publisher_lists_follow_calls (hwf : s.engine.tree.WellFormed)
    (steps : List (Server × PublisherCall)) :
    (∀ name, (performAll steps s).engine.tree.publisherResponses name =
        (s.engine.tree.listing name).map fun m =>
          (PublisherChange.replay (changes steps s) name m).entries) ∧
    (∀ name handle, (performAll steps s).engine.tree.publisherResponse name handle =
        (s.engine.tree.listing name).bind fun m =>
          ((PublisherChange.replay (changes steps s) name m).get? handle).elim
            (.error (.publisherRepositoryUnknown name handle)) .ok) ∧
    ∀ (server : Server) (call : PublisherCall), ∃ asked,
      server.Lawful call (performAll steps s)
        (server.publishers.perform (performAll steps s) call).1
        (server.publishers.perform (performAll steps s) call).2 asked := by
  obtain ⟨hwf', hlisting⟩ := listing_performAll hwf steps
  refine ⟨fun name => ?_, fun name handle => ?_, fun server call => server.lawful_perform call hwf'⟩
  · rw [CaTree.publisherResponses_eq, hlisting]
    cases s.engine.tree.listing name <;> rfl
  · rw [CaTree.publisherResponse_eq, hlisting]
    cases s.engine.tree.listing name <;> rfl

end Server

namespace Member

def other : CertificateAuthority where
  id := 2
  name := "CN=other member"
  kind := .nonHosted [] ∅

def both : PublishingState Journal where
  engine :=
    { tree := { cas := ⟨[(1, member), (2, other)], by decide⟩, nextId := 3 }, memory := {} }

/-- The member may have no second publisher; it gives up the one it has, and gets another, which
the other member cannot delete. -/
def steps : List (Server × PublisherCall) :=
  [(server, .provision member.name request), (offline, .delete member.name (handle 100)),
    (server, .provision member.name request), (server, .delete other.name (handle 1)),
    (server, .provisionXml other.name "<publisher_request>")]

theorem get?_both {id : CaId} {ca : CertificateAuthority}
    (h : both.engine.tree.get? id = some ca) :
    (id = 1 ∧ ca = member) ∨ (id = 2 ∧ ca = other) := by
  have hmem := SortedMap.get?_eq_some_iff.mp h
  simpa [both] using hmem

theorem wellFormed_both : both.engine.tree.WellFormed where
  ids id ca h := by
    rcases get?_both h with ⟨rfl, rfl⟩ | ⟨rfl, rfl⟩ <;> rfl
  names id id' ca ca' h h' hname := by
    rcases get?_both h with ⟨rfl, rfl⟩ | ⟨rfl, rfl⟩ <;>
      rcases get?_both h' with ⟨rfl, rfl⟩ | ⟨rfl, rfl⟩ <;>
      first
      | rfl
      | exact absurd hname (by decide)
  parents id ca h p hp := by
    rcases get?_both h with ⟨rfl, rfl⟩ | ⟨rfl, rfl⟩ <;> cases hp
  children p parent h c hc := by
    rcases get?_both h with ⟨rfl, rfl⟩ | ⟨rfl, rfl⟩ <;> cases hc
  acyclic := CaTree.acyclic_of_lt fun id ca p h hp => by
    rcases get?_both h with ⟨rfl, rfl⟩ | ⟨rfl, rfl⟩ <;> cases hp

theorem changes_steps : Server.changes steps both =
    [.none, .dropped member.name (handle 100), .added member.name (handle 1) response, .none,
      .none] := by
  simp only [steps, Server.changes]
  rw [offline.publishers_eq, server.publishers_eq]
  decide +kernel

theorem publisher_lists_follow_calls_of_members : both.engine.tree.WellFormed ∧
    (Server.performAll steps both).engine.tree.publisherResponses member.name =
      .ok [(handle 1, response)] ∧
    (Server.performAll steps both).engine.tree.publisherResponses other.name = .ok [] ∧
    (Server.performAll steps both).engine.tree.publisherResponse other.name (handle 1) =
      .error (.publisherRepositoryUnknown other.name (handle 1)) := by
  obtain ⟨hlist, hresponse, -⟩ := Server.publisher_lists_follow_calls wellFormed_both steps
  rw [hlist, hlist, hresponse, changes_steps]
  exact ⟨wellFormed_both, rfl, rfl, rfl⟩

end Member

end ResourcePki
