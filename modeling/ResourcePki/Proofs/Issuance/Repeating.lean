import ResourcePki.Proofs.Issuance.Growing
import ResourcePki.Proofs.Issuance.Settled
import ResourcePki.Proofs.Publishing.Records

/-! Commands that are executed again after they succeeded. What a command has done it does not do
twice, each in its own way; only a request to the trust anchor is made anew, for the same things. -/

namespace ResourcePki

open ResourcePki.Action

/-! What was withdrawn once -/

theorem PublicationStatus.withdraw_withdraw (s : PublicationStatus) :
    s.withdraw.withdraw = s.withdraw := by cases s <;> rfl

theorem PublishedObject.withdraw_withdraw (o : PublishedObject) :
    o.withdraw.withdraw = o.withdraw :=
  congrArg (fun status => { o with status }) o.status.withdraw_withdraw

theorem OutgoingCertificate.withdraw_withdraw (o : OutgoingCertificate) :
    o.withdraw.withdraw = o.withdraw := by
  have hobject : (o.object.map (·.withdraw)).map (·.withdraw) = o.object.map (·.withdraw) := by
    cases o.object with
    | none => rfl
    | some object => exact congrArg some object.withdraw_withdraw
  exact congrArg (fun object => { o with object }) hobject

theorem KeyPair.revoke_revoke (k : KeyPair) : k.revoke.revoke = k.revoke := by
  have houtgoing : (k.outgoing.map (·.withdraw)).map (·.withdraw) =
      k.outgoing.map (·.withdraw) := by
    rw [List.map_map]
    exact List.map_congr_left fun o _ => o.withdraw_withdraw
  have hpublished : (k.published.map (·.withdraw)).map (·.withdraw) =
      k.published.map (·.withdraw) := by
    rw [List.map_map]
    exact List.map_congr_left fun o _ => o.withdraw_withdraw
  rw [revoke, revoke]
  dsimp only
  rw [houtgoing, hpublished]

theorem KeyRing.modifyFirst_modifyFirst {ski : String} {f : KeyPair → KeyPair}
    (hski : ∀ k, (f k).ski = k.ski) (hf : ∀ k, f (f k) = f k) (l : List KeyPair) :
    modifyFirst ski f (modifyFirst ski f l) = modifyFirst ski f l := by
  induction l with
  | nil => rfl
  | cons k rest ih =>
    by_cases hk : k.ski = ski
    · have hk' : (f k).ski = ski := (hski k).trans hk
      rw [modifyFirst, if_pos hk, modifyFirst, if_pos hk', hf]
    · rw [modifyFirst, if_neg hk, modifyFirst, if_neg hk, ih]

namespace CertificateAuthority

variable {ca ca' : CertificateAuthority}

theorem revokeKey_again {ski : String} (h : ca.revokeKey ski = .ok ca') :
    ca'.revokeKey ski = .ok ca' := by
  obtain ⟨keys, pending, -, hfind, rfl⟩ := revokeKey_eq_ok_iff.mp h
  have hski : ∀ k : KeyPair, k.revoke.ski = k.ski := fun _ => rfl
  have hfind' : ((keys.modify ski (·.revoke)).find? ski).isSome = true := by
    rw [keys.find?_modify_self hski, Option.isSome_map, hfind]
  have htwice : (keys.modify ski (·.revoke)).modify ski (·.revoke) =
      keys.modify ski (·.revoke) :=
    congrArg (fun pairs => { keys with pairs })
      (KeyRing.modifyFirst_modifyFirst hski (·.revoke_revoke) keys.pairs)
  refine revokeKey_eq_ok_iff.mpr ⟨_, pending, rfl, hfind', ?_⟩
  rw [htwice]

theorem removePublisher_again {handle : PublisherHandle}
    (h : ca.removePublisher handle = .ok ca') :
    ca'.removePublisher handle = .error (.publisherRepositoryUnknown ca'.name handle) := by
  obtain ⟨publicKeys, publishers, -, -, rfl⟩ := removePublisher_eq_ok_iff.mp h
  have hgone : ¬ (publishers.erase handle).contains handle = true := fun hcontains =>
    (SortedMap.contains_erase.mp hcontains).1 rfl
  rw [removePublisher]
  dsimp only
  rw [if_neg hgone]

/-- A second request is made with the same key and for the same children. -/
theorem prepareRequest_again {children : List CaIdentity} {source : KeySource} {id : Uuid}
    {now : Time} {answers : List (Except Error String)}
    (h : (ca.prepareRequest children source id now answers).1 = .ok ca') (id' : Uuid) (now' : Time)
    (answers' : List (Except Error String)) :
    ∃ keys request, ca'.kind = .allResources keys (some request) ∧
      ca'.prepareRequest children source id' now' answers' =
        (.ok { ca' with
          kind := .allResources keys (some { request with id := id', created := now' }) },
          answers') := by
  obtain ⟨-, keys, -, ski, request, -, -, husable, hrequest, rfl⟩ := prepareRequest_ok h
  refine ⟨keys, request, rfl, ?_⟩
  -- The key that signed the first request is there now.
  have hpairs : keys.pairs.isEmpty = false := by
    refine Bool.eq_false_iff.mpr fun hempty => ?_
    rw [usableKey, KeyRing.activeSkis, List.isEmpty_iff.mp hempty] at husable
    cases husable
  have husable' : usableKey { ca with kind := .allResources keys (some request) } keys = .ok ski :=
    husable
  rw [prepareRequest]
  dsimp only
  rw [hpairs, if_neg Bool.false_ne_true, husable', hrequest]
  rfl

end CertificateAuthority

/-! The steps of commands that find nothing left to do -/

namespace Services

variable {s : Services} {timing : IssuanceTiming} {t : Session Journal} {id : CaId}

theorem activate_of_get? {ca : CertificateAuthority} {name : CaName} {parent : CaId}
    (hca : t.work.tree.get? id = some ca) (hname : ca.name = name)
    (hparent : ca.parent = some parent) :
    s.activate timing id name parent t = (.ok false, t) := by
  have hget : Action.get? id t = (.ok (some ca), t) := congrArg (fun ca => (Except.ok ca, t)) hca
  unfold activate
  rw [bind_of_ok hget]
  dsimp only
  rw [if_pos ⟨hname, hparent⟩]
  rfl

theorem Updated.exists_parent {t t' : CaTree} {b : Bool} (h : s.Updated timing t id b t')
    (hparent : ∀ ca p, t.get? id = some ca → ca.parent = some p →
      ∃ parent, t.get? p = some parent)
    {ca' : CertificateAuthority} {p : CaId} (hca' : t'.get? id = some ca')
    (hp : ca'.parent = some p) : ∃ parent', t'.get? p = some parent' := by
  obtain ⟨ca, hca, -⟩ := h.sameLinks.get? hca'
  rw [h.parent hca hca'] at hp
  obtain ⟨parent, hget⟩ := hparent ca p hca hp
  obtain ⟨parent', hget', -⟩ := h.sameLinks.symm.get? hget
  exact ⟨parent', hget'⟩

end Services

namespace Handler

variable {t : Session Journal} {id : CaId} {ca : CertificateAuthority}

theorem expireIssued_of_overdue {now : Time} (hca : t.work.tree.get? id = some ca)
    (hnone : ∀ keys, ca.keys? = some keys → keys.overdue now = 0) :
    ∃ t', expireIssued id now t = (.ok false, t') ∧ t'.work.tree = t.work.tree ∧
      t'.status = t.status := by
  unfold expireIssued
  rw [bind_of_ok (require_of_get? hca)]
  cases hkeys : ca.keys? with
  | none => exact ⟨t, rfl, rfl, rfl⟩
  | some keys =>
    have hoverdue := hnone keys hkeys
    have hexpire : Action.ofExcept (keys.expireOutgoing now) t = (.ok (0, keys), t) := by
      rw [keys.expireOutgoing_eq now, hoverdue, keys.lapse_of_overdue now hoverdue]
      rfl
    dsimp only
    rw [bind_of_ok hexpire]
    dsimp only
    rw [bind_of_ok (update_of_get? (f := fun ca => .ok (ca.withKeys keys)) hca rfl),
      CertificateAuthority.withKeys_self hkeys]
    have htree := t.work.tree_write_remember id ca
    rw [CaTree.set_of_get? hca] at htree
    exact ⟨_, rfl, htree, rfl⟩

theorem registerPublisher_of_registered {limit : Nat} {handle : PublisherHandle}
    {repository : PublisherRepository} (hca : t.work.tree.get? id = some ca)
    (h : ca.publishers?.bind (·.get? handle) = some repository) :
    registerPublisher limit id handle repository t = (.ok false, t) := by
  unfold registerPublisher
  rw [bind_of_ok (require_of_get? hca), if_pos h]
  rfl

theorem generateRequest_of_prepared {s : Services} {ca' : CertificateAuthority}
    {keys : List (Except Error String)} (hca : t.work.tree.get? id = some ca)
    (h : ca.prepareRequest (childIdentities t.work.tree ca) s.keys
      (s.requestId t.memory.requests) s.now t.memory.keys = (.ok ca', keys)) :
    ∃ t', generateRequest s id t = (.ok (), t') ∧ t'.work.tree = t.work.tree.set id ca' ∧
      t'.status = t.status.setHadEffect := by
  have htree : Action.tree t = (.ok t.work.tree, t) := rfl
  unfold generateRequest
  rw [bind_of_ok htree, bind_of_ok (require_of_get? hca)]
  rw [bind_of_ok (updateWith_of_get? hca (by rw [h]))]
  exact ⟨_, rfl, t.work.tree_write_remember id ca', rfl⟩

end Handler

/-- What a command answers that succeeded just before. -/
def CommandDetails.answerAgain (ca : CaName) : CommandDetails → Except Error CommandStatus
  | .activateHostedCa _ _ => .ok { hadEffect := false }
  | .updateAllIncoming => .ok { hadEffect := false }
  | .generateTrustAnchorRequest => .ok { hadEffect := true }
  | .processRevokedKey _ => .ok { hadEffect := true }
  | .expireOutgoing _ => .ok { hadEffect := false }
  | .provisionPublisher _ _ _ => .ok { hadEffect := false }
  | .deletePublisher handle => .error (.publisherRepositoryUnknown ca handle)

/-- The tree `u` is `t` but for the id and the time of the request that a CA has pending. -/
def CaTree.SameButRequest (t : CaTree) (id : CaId) (u : CaTree) : Prop :=
  ∃ ca keys request newId created, t.get? id = some ca ∧
    ca.kind = .allResources keys (some request) ∧
    u = t.set id { ca with kind := .allResources keys (some { request with id := newId, created }) }

namespace CaTree

theorem SameLinks.childIdentities {t u : CaTree} (h : SameLinks t u)
    {ca ca' : CertificateAuthority} (hlinks : ca'.links = ca.links) :
    Handler.childIdentities u ca' = Handler.childIdentities t ca := by
  have hchildren : ca'.children = ca.children := congrArg (·.children) hlinks
  have hidentity : ∀ x, (u.get? x).map (·.identity) = (t.get? x).map (·.identity) := fun x => by
    have hx := congrArg (Option.map (·.identity)) (h x)
    rwa [Option.map_map, Option.map_map] at hx
  rw [Handler.childIdentities, Handler.childIdentities, hchildren]
  exact List.filterMap_congr fun x _ => hidentity x

end CaTree

namespace Dispatcher

variable {s : Services} {policy : IssuancePolicy} {retries : Nat} {command : CaCommand}

section again

variable {e : Engine Journal} {ca ca' : CertificateAuthority}
  {f : CertificateAuthority → Except Error CertificateAuthority}
  (hhandle : (Handler.forCommand s policy command.type).handle command =
    (do update command.ca f; setHadEffect : Action Journal Unit))
  (hca : e.tree.get? command.ca = some ca)

include hhandle hca

theorem execute_of_noting (hf : f ca = .ok ca') :
    ∃ e', (standard s policy retries).execute command e = (.ok { hadEffect := true }, e') ∧
      e'.tree = e.tree.set command.ca ca' := by
  have hstart : (Session.start e.tree e.memory).work.tree.get? command.ca = some ca := hca
  have hrun := congrFun hhandle (.start e.tree e.memory)
  rw [bind_of_ok (update_of_get? hstart hf)] at hrun
  obtain ⟨e', hexecute, htree⟩ := execute_standard_of_ok hrun
  exact ⟨e', hexecute, htree.trans (UnitOfWork.tree_write_remember _ _ _)⟩

theorem execute_of_refused {err : Error} (hfinal : err.isTransient = false)
    (hf : f ca = .error err) :
    ∃ e', (standard s policy retries).execute command e = (.error err, e') ∧ e'.tree = e.tree := by
  have hstart : (Session.start e.tree e.memory).work.tree.get? command.ca = some ca := hca
  have hrun := congrFun hhandle (.start e.tree e.memory)
  rw [bind_of_error (update_of_error hstart hf)] at hrun
  exact execute_standard_of_handle (fun _ herr => Except.error.inj herr ▸ hfinal) hrun

end again

variable {e : Engine Journal} {id : CaId} {actor : Actor} {ca : CertificateAuthority}

theorem execute_activate_again {name : CaName} {parent : CaId} (hca : e.tree.get? id = some ca)
    (hname : ca.name = name) (hparent : ca.parent = some parent) :
    ∃ e', (standard s policy retries).execute ⟨id, actor, .activateHostedCa name parent⟩ e =
      (.ok { hadEffect := false }, e') ∧ e'.tree = e.tree :=
  execute_of_quiet rfl (Services.activate_of_get? hca hname hparent) rfl rfl

theorem execute_update_again {t : CaTree} {b : Bool} (htiming : policy.timing.verify = .ok ())
    (hself : ∀ ca, t.get? id = some ca → ca.id = id)
    (hparent : ∀ ca p, t.get? id = some ca → ca.parent = some p →
      ∃ parent, t.get? p = some parent)
    (hupdated : s.Updated policy.timing t id b e.tree) :
    ∃ e', (standard s policy retries).execute ⟨id, actor, .updateAllIncoming⟩ e =
      (.ok { hadEffect := false }, e') ∧ e'.tree = e.tree := by
  have hsettled := hupdated.settled htiming hself
  obtain ⟨t, hstep, htree, hstatus⟩ :=
    Services.updateIncoming_of_settled (e := .start e.tree e.memory) hsettled
      (fun _ _ => hupdated.exists_parent hparent) fun _ _ _ => hupdated.apart
  exact execute_of_quiet rfl hstep htree hstatus

theorem execute_expire_again {now : Time} (hca : e.tree.get? id = some ca)
    (hnone : ∀ keys, ca.keys? = some keys → keys.overdue now = 0) :
    ∃ e', (standard s policy retries).execute ⟨id, actor, .expireOutgoing now⟩ e =
      (.ok { hadEffect := false }, e') ∧ e'.tree = e.tree := by
  obtain ⟨t, hstep, htree, hstatus⟩ :=
    Handler.expireIssued_of_overdue (t := .start e.tree e.memory) hca hnone
  exact execute_of_quiet rfl hstep htree hstatus

theorem execute_provision_again {handle : PublisherHandle} {request : PublisherRequest}
    {response : RepositoryResponse} (hca : e.tree.get? id = some ca)
    (h : ca.publishers?.bind (·.get? handle) = some ⟨request, response⟩) :
    ∃ e', (standard s policy retries).execute
        ⟨id, actor, .provisionPublisher handle request response⟩ e =
      (.ok { hadEffect := false }, e') ∧ e'.tree = e.tree :=
  execute_of_quiet rfl (Handler.registerPublisher_of_registered hca h) rfl rfl

theorem execute_generate_again {t : CaTree} {ca' : CertificateAuthority} {j : Journal}
    (hca : t.get? id = some ca)
    (h : (ca.prepareRequest (Handler.childIdentities t ca) s.keys (s.requestId j.requests) s.now
      j.keys).1 = .ok ca') (htree : e.tree = t.set id ca') :
    ∃ e', (standard s policy retries).execute ⟨id, actor, .generateTrustAnchorRequest⟩ e =
      (.ok { hadEffect := true }, e') ∧ e.tree.SameButRequest id e'.tree := by
  have hca' : e.tree.get? id = some ca' := by rw [htree, CaTree.get?_set_self]
  have hlinks : ca'.links = ca.links := by
    obtain ⟨-, -, -, -, -, -, -, -, -, rfl⟩ := CertificateAuthority.prepareRequest_ok h
    rfl
  have hchildren : Handler.childIdentities e.tree ca' = Handler.childIdentities t ca := by
    rw [htree]
    exact (CaTree.SameLinks.set t hca hlinks).childIdentities hlinks
  obtain ⟨keys, request, hkind, hagain⟩ := CertificateAuthority.prepareRequest_again h
    (s.requestId e.memory.requests) s.now e.memory.keys
  rw [← hchildren] at hagain
  obtain ⟨t', hhandle, hset, hstatus⟩ :=
    Handler.generateRequest_of_prepared (t := .start e.tree e.memory) hca' hagain
  obtain ⟨e', hrun, htree'⟩ : ∃ e', (standard s policy retries).execute
      ⟨id, actor, .generateTrustAnchorRequest⟩ e = (.ok t'.status, e') ∧ e'.tree = t'.work.tree :=
    execute_standard_of_ok hhandle
  rw [hstatus] at hrun
  exact ⟨e', hrun, ca', keys, request, _, _, hca', hkind, htree'.trans hset⟩

theorem execute_revoke_again {ski : String} (hca : e.tree.get? id = some ca)
    (h : ca.revokeKey ski = .ok ca) :
    ∃ e', (standard s policy retries).execute ⟨id, actor, .processRevokedKey ski⟩ e =
      (.ok { hadEffect := true }, e') ∧ e'.tree = e.tree := by
  obtain ⟨e', hrun, htree⟩ : ∃ e', (standard s policy retries).execute
      ⟨id, actor, .processRevokedKey ski⟩ e = (.ok { hadEffect := true }, e') ∧
      e'.tree = e.tree.set id ca := execute_of_noting rfl hca h
  exact ⟨e', hrun, htree.trans (CaTree.set_of_get? hca)⟩

theorem execute_delete_again {handle : PublisherHandle} (hca : e.tree.get? id = some ca)
    (h : ca.removePublisher handle = .error (.publisherRepositoryUnknown ca.name handle)) :
    ∃ e', (standard s policy retries).execute ⟨id, actor, .deletePublisher handle⟩ e =
      (.error (.publisherRepositoryUnknown ca.name handle), e') ∧ e'.tree = e.tree :=
  execute_of_refused rfl hca rfl h

/-- When the command is executed, it is answered as one that succeeded just before, and it changes
nothing but a request that it makes anew. -/
def AnswersAgain (d : Dispatcher Journal) (command : CaCommand) (e : Engine Journal) : Prop :=
  ∃ ca e', e.tree.get? command.ca = some ca ∧
    d.execute command e = (command.details.answerAgain ca.name, e') ∧
    (command.details ≠ .generateTrustAnchorRequest → e'.tree = e.tree) ∧
    (command.details = .generateTrustAnchorRequest → e.tree.SameButRequest command.ca e'.tree)

theorem AnswersAgain.of_same {d : Dispatcher Journal} (hca : e.tree.get? command.ca = some ca)
    (hdetails : command.details ≠ .generateTrustAnchorRequest)
    (h : ∃ e', d.execute command e = (command.details.answerAgain ca.name, e') ∧
      e'.tree = e.tree) : d.AnswersAgain command e := by
  obtain ⟨e', hrun, hsame⟩ := h
  exact ⟨ca, e', hca, hrun, fun _ => hsame, fun heq => absurd heq hdetails⟩

theorem answersAgain_of_changes {t : CaTree} {j : Journal} {details : CommandDetails}
    {ca' : CertificateAuthority} {b : Bool} (hca : t.get? id = some ca)
    (h : s.Changes policy.publisherLimit j t details ca b ca') (htree : e.tree = t.set id ca') :
    (standard s policy retries).AnswersAgain ⟨id, actor, details⟩ e := by
  have hca' : e.tree.get? id = some ca' := by rw [htree, CaTree.get?_set_self]
  cases h with
  | request hprepare =>
    obtain ⟨e', hrun, hsame⟩ := execute_generate_again hca hprepare htree
    exact ⟨ca', e', hca', hrun, fun hne => absurd rfl hne, fun _ => hsame⟩
  | revoke hrevoke =>
    have hagain := CertificateAuthority.revokeKey_again hrevoke
    exact .of_same hca' nofun (execute_revoke_again hca' hagain)
  | unmanaged now hkeys =>
    refine .of_same hca' nofun (execute_expire_again hca' fun keys hsome => ?_)
    cases hkeys.symm.trans hsome
  | @expire ca keys now hkeys =>
    refine .of_same hca' nofun (execute_expire_again hca' fun keys' hkeys' => ?_)
    rw [CertificateAuthority.keys?_withKeys hkeys] at hkeys'
    obtain rfl := Option.some.inj hkeys'
    exact keys.overdue_lapse now
  | registered hregistered => exact .of_same hca' nofun (execute_provision_again hca' hregistered)
  | @register ca ca' handle request response hadd =>
    obtain ⟨publishers, -, -, -, hafter⟩ := CertificateAuthority.addPublisher_ok hadd
    have hregistered : ca'.publishers?.bind (·.get? handle) = some ⟨request, response⟩ := by
      rw [hafter, Option.bind_some, SortedMap.get?_insert, if_pos rfl]
    exact .of_same hca' nofun (execute_provision_again hca' hregistered)
  | remove hremove =>
    have hagain := CertificateAuthority.removePublisher_again hremove
    exact .of_same hca' nofun (execute_delete_again hca' hagain)

theorem answersAgain_of_performed {t : CaTree} {j : Journal} {details : CommandDetails} {b : Bool}
    (htiming : policy.timing.verify = .ok ()) (hkeyed : t.Keyed)
    (h : s.Performed policy j t id details b e.tree) :
    (standard s policy retries).AnswersAgain ⟨id, actor, details⟩ e := by
  obtain ⟨t', htree⟩ : ∃ t', e.tree = t' := ⟨_, rfl⟩
  rw [htree] at h
  cases h with
  | present hca hname hparent =>
    rw [← htree] at hca
    exact .of_same hca nofun (execute_activate_again hca hname hparent)
  | created hnone hanswer hins hupdated =>
    -- The new CA was updated, which left its name and its parent alone.
    obtain ⟨ca, hca, hlinks⟩ := hupdated.sameLinks.symm.get? (CaTree.insert_ok hins).2.2.2.1
    rw [← htree] at hca
    have hname := (congrArg (·.name) hlinks).symm
    have hparent := (congrArg (·.parent) hlinks).symm
    exact .of_same hca nofun (execute_activate_again hca hname hparent)
  | updated hupdated hparent =>
    rw [← htree] at hupdated
    obtain ⟨ca, hca, -⟩ := hupdated.settled htiming (hkeyed id)
    exact .of_same hca nofun (execute_update_again htiming (hkeyed id) hparent hupdated)
  | changed hca hchanges => exact answersAgain_of_changes hca hchanges htree

/-- Whoever is not sure that a command went through can execute it again: it is not done twice. As
every CA is still stored under its own number, the same holds of every further execution. -/
theorem execute_again {e e' : Engine Journal} {status : CommandStatus}
    (htiming : policy.timing.verify = .ok ()) (hkeyed : e.tree.Keyed)
    (h : (standard s policy retries).execute command e = (.ok status, e')) :
    e'.tree.Keyed ∧ ∃ ca e'', e'.tree.get? command.ca = some ca ∧
      (standard s policy retries).execute command e' =
        (command.details.answerAgain ca.name, e'') ∧
      (command.details ≠ .generateTrustAnchorRequest → e''.tree = e'.tree) ∧
      (command.details = .generateTrustAnchorRequest →
        e'.tree.SameButRequest command.ca e''.tree) := by
  obtain ⟨j, -, hperformed⟩ := execute_standard_performed h
  exact ⟨hkeyed.performed hperformed, answersAgain_of_performed htiming hkeyed hperformed⟩

end Dispatcher

namespace Chain

/-- In the chain the upper member has lost its certificate, and cannot lose it again. -/
theorem execute_again_in_chain :
    (IssuanceTiming.verify {} = .ok () ∧ tree.Keyed ∧
      (Dispatcher.standard services {} 3).execute ⟨3, .background, .updateAllIncoming⟩ engine =
        (.ok { hadEffect := true }, updated)) ∧
    updated.tree.Keyed ∧ ∃ e,
      (Dispatcher.standard services {} 3).execute ⟨3, .background, .updateAllIncoming⟩ updated =
        (.ok { hadEffect := false }, e) ∧ e.tree = updated.tree := by
  have htiming : IssuanceTiming.verify {} = .ok () := by decide
  obtain ⟨hkeyed, ca, e, -, hrun, hsame, -⟩ :=
    Dispatcher.execute_again htiming wellFormed_tree.ids execute_updated
  exact ⟨⟨htiming, wellFormed_tree.ids, execute_updated⟩, hkeyed, e, hrun, hsame nofun⟩

end Chain

end ResourcePki
