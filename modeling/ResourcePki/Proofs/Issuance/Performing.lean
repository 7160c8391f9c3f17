import ResourcePki.Proofs.Issuance.Effects

/-! What each command comes to when it succeeds, with what it reports. Most commands change one CA
only; `Changes` has a case for what each may do to it, and `Performed` adds the two that issue
certificates. What holds of all successful commands can be read off these cases. -/

namespace ResourcePki

open ResourcePki.Action

theorem CertificateAuthority.requireKeys_ok {ca : CertificateAuthority} {keys : KeyRing}
    (h : ca.requireKeys = .ok keys) : ca.keys? = some keys := by
  unfold requireKeys at h
  split at h
  · rename_i hkeys
    rw [hkeys, Except.ok.inj h]
  · cases h

namespace Services

variable {s : Services} {timing : IssuanceTiming} {t t' : Session Journal}

theorem createKey_ok {pair : KeyPair} (h : s.createKey t = (.ok pair, t')) :
    ∃ ski, s.keys t.memory.keys = .ok ski ∧ pair = KeyPair.requestCertificate { ski } ∧
      t'.work = t.work ∧ t'.status = t.status := by
  obtain ⟨hpair, rfl⟩ := Prod.mk.inj h
  change (s.keys t.memory.keys).map (fun ski => KeyPair.requestCertificate { ski }) = .ok pair
    at hpair
  cases hanswer : s.keys t.memory.keys with
  | error err =>
    rw [hanswer] at hpair
    cases hpair
  | ok ski =>
    rw [hanswer] at hpair
    exact ⟨ski, rfl, (Except.ok.inj hpair).symm, rfl, rfl⟩

theorem ofExcept_ok {α : Type} {r : Except Error α} {x : α}
    (h : ofExcept r t = (.ok x, t')) : r = .ok x ∧ t' = t := by
  obtain ⟨hr, rfl⟩ := Prod.mk.inj h
  exact ⟨hr, rfl⟩

theorem mapError_ok {ε ε' α : Type} {r : Except ε α} {f : ε → ε'} {x : α}
    (h : r.mapError f = .ok x) : r = .ok x := by
  cases r with
  | error err => cases h
  | ok y => exact congrArg Except.ok (Except.ok.inj h)

/-- A new CA comes with one key that waits for its certificate, and is then updated; a CA that is
there must be the one that was asked for. -/
theorem activate_cases {id : CaId} {name : CaName} {parent : CaId} {b : Bool}
    (h : s.activate timing id name parent t = (.ok b, t')) : t'.status = t.status ∧
    ((b = false ∧ t'.work.tree = t.work.tree ∧ ∃ ca, t.work.tree.get? id = some ca ∧
        ca.name = name ∧ ca.parent = some parent) ∨
      (b = true ∧ t.work.tree.get? id = none ∧ ∃ ski directory u b',
        (∃ issuer keys, t.work.tree.get? parent = some issuer ∧ issuer.keys? = some keys ∧
          keys.directory.join s!"{id}/" = .ok directory) ∧
        s.keys t.memory.keys = .ok ski ∧
        t.work.tree.insert ⟨id, name, some parent, ∅,
          .hosted { pairs := [KeyPair.requestCertificate { ski }], directory }⟩ = .ok u ∧
        s.Updated timing u id b' t'.work.tree)) := by
  unfold activate at h
  obtain ⟨existing, t₁, hget, hrest⟩ := bind_ok h
  clear h
  obtain ⟨hexisting, rfl⟩ := Prod.mk.inj hget
  obtain rfl := Except.ok.inj hexisting
  cases hca : t.work.tree.get? id with
  | some ca =>
    have hca' : t.work.get? id = some ca := hca
    rw [hca'] at hrest
    dsimp only at hrest
    split at hrest
    · rename_i hsame
      obtain ⟨hb, rfl⟩ := Prod.mk.inj hrest
      exact ⟨rfl, .inl ⟨(Except.ok.inj hb).symm, rfl, ca, rfl, hsame⟩⟩
    · cases hrest
  | none =>
    have hca' : t.work.get? id = none := hca
    rw [hca'] at hrest
    -- The steps up to the new key only look at the tree.
    obtain ⟨issuer, t₁, hrequire, hkeys'⟩ := bind_ok hrest
    clear hrest
    obtain ⟨hissuer, rfl⟩ := require_ok hrequire
    obtain ⟨keys, t₁, hkeys, hdirectory'⟩ := bind_ok hkeys'
    clear hkeys'
    obtain ⟨hrequired, rfl⟩ := ofExcept_ok hkeys
    obtain ⟨directory, t₁, hdirectory, hpair'⟩ := bind_ok hdirectory'
    clear hdirectory'
    obtain ⟨hjoin, rfl⟩ := ofExcept_ok hdirectory
    obtain ⟨pair, t₂, hpair, hinsert'⟩ := bind_ok hpair'
    obtain ⟨ski, hanswer, rfl, hwork, hstatus₂⟩ := createKey_ok hpair
    obtain ⟨_, t₃, hinsert, hupdate'⟩ := bind_ok hinsert'
    obtain ⟨b', t₄, hupdate, hpure⟩ := bind_ok hupdate'
    obtain ⟨hb, rfl⟩ := Prod.mk.inj hpure
    obtain ⟨hupdated, hstatus₄⟩ := updateIncoming_ok hupdate
    have hstatus₃ : t₃.status = t₂.status := (congrArg (·.2.status) hinsert).symm
    have hins := insert_ok hinsert
    rw [hwork] at hins
    refine ⟨hstatus₄.trans (hstatus₃.trans hstatus₂), .inr ⟨(Except.ok.inj hb).symm, rfl, ?_⟩⟩
    exact ⟨ski, directory, t₃.work.tree, b', ⟨issuer, keys, hissuer,
      CertificateAuthority.requireKeys_ok hrequired, mapError_ok hjoin⟩, hanswer, hins, hupdated⟩

theorem updateIncoming_parent {id : CaId} {b : Bool} {ca : CertificateAuthority} {p : CaId}
    (h : s.updateIncoming timing id t = (.ok b, t')) (hca : t.work.tree.get? id = some ca)
    (hp : ca.parent = some p) : ∃ parent, t.work.tree.get? p = some parent := by
  unfold updateIncoming at h
  obtain ⟨ca', t₁, hrequire, hrest⟩ := bind_ok h
  clear h
  obtain ⟨hca', rfl⟩ := require_ok hrequire
  obtain rfl := Option.some.inj (hca.symm.trans hca')
  rw [hp] at hrest
  obtain ⟨parent, t₂, hrequire', -⟩ := bind_ok hrest
  exact ⟨parent, (require_ok hrequire').1⟩

end Services

/-- What a command makes of the only CA that it changes, and whether it reports an effect. -/
inductive Services.Changes (s : Services) (limit : Nat) (j : Journal) (t : CaTree) :
    CommandDetails → CertificateAuthority → Bool → CertificateAuthority → Prop
  | request {ca ca' : CertificateAuthority}
      (h : (ca.prepareRequest (Handler.childIdentities t ca) s.keys (s.requestId j.requests) s.now
        j.keys).1 = .ok ca') : Changes s limit j t .generateTrustAnchorRequest ca true ca'
  | revoke {ca ca' : CertificateAuthority} {ski : String} (h : ca.revokeKey ski = .ok ca') :
      Changes s limit j t (.processRevokedKey ski) ca true ca'
  | unmanaged {ca : CertificateAuthority} (now : Time) (hkeys : ca.keys? = none) :
      Changes s limit j t (.expireOutgoing now) ca false ca
  | expire {ca : CertificateAuthority} {keys : KeyRing} (now : Time)
      (hkeys : ca.keys? = some keys) :
      Changes s limit j t (.expireOutgoing now) ca (decide (0 < keys.overdue now))
        (ca.withKeys (keys.lapse now))
  | registered {ca : CertificateAuthority} {handle : PublisherHandle} {request : PublisherRequest}
      {response : RepositoryResponse}
      (h : ca.publishers?.bind (·.get? handle) = some ⟨request, response⟩) :
      Changes s limit j t (.provisionPublisher handle request response) ca false ca
  | register {ca ca' : CertificateAuthority} {handle : PublisherHandle}
      {request : PublisherRequest} {response : RepositoryResponse}
      (h : ca.addPublisher handle ⟨request, response⟩ limit = .ok ca') :
      Changes s limit j t (.provisionPublisher handle request response) ca true ca'
  | remove {ca ca' : CertificateAuthority} {handle : PublisherHandle}
      (h : ca.removePublisher handle = .ok ca') :
      Changes s limit j t (.deletePublisher handle) ca true ca'

/-- Certificates only age by such a command, and a new key is what the source of keys answered. -/
theorem Services.Changes.aged {s : Services} {limit : Nat} {j : Journal} {t : CaTree}
    {details : CommandDetails} {ca ca' : CertificateAuthority} {b : Bool} {fresh : String → Prop}
    (h : s.Changes limit j t details ca b ca')
    (hfresh : ∀ ski, s.keys j.keys = .ok ski → fresh ski) : ca.Aged fresh ca' := by
  cases h with
  | request h => exact CertificateAuthority.aged_prepareRequest hfresh h
  | revoke h => exact CertificateAuthority.aged_revokeKey h
  | unmanaged now hkeys => exact .refl fresh ca
  | expire now hkeys => exact CertificateAuthority.aged_lapse now hkeys
  | registered h => exact .refl fresh ca
  | register h => exact CertificateAuthority.aged_addPublisher h
  | remove h => exact CertificateAuthority.aged_removePublisher h

/-- What a successful command for a CA makes of the tree, and whether it reports an effect. -/
inductive Services.Performed (s : Services) (policy : IssuancePolicy) (j : Journal) (t : CaTree)
    (id : CaId) : CommandDetails → Bool → CaTree → Prop
  | present {ca : CertificateAuthority} {name : CaName} {parent : CaId}
      (hca : t.get? id = some ca) (hname : ca.name = name) (hparent : ca.parent = some parent) :
      Performed s policy j t id (.activateHostedCa name parent) false t
  | created {name : CaName} {parent : CaId} {ski : String} {directory : RsyncUri} {u t' : CaTree}
      {b : Bool} (hnone : t.get? id = none) (hanswer : s.keys j.keys = .ok ski)
      (hins : t.insert ⟨id, name, some parent, ∅,
        .hosted { pairs := [KeyPair.requestCertificate { ski }], directory }⟩ = .ok u)
      (hupdated : s.Updated policy.timing u id b t') :
      Performed s policy j t id (.activateHostedCa name parent) true t'
  | updated {b : Bool} {t' : CaTree} (hupdated : s.Updated policy.timing t id b t')
      (hparent : ∀ ca p, t.get? id = some ca → ca.parent = some p →
        ∃ parent, t.get? p = some parent) : Performed s policy j t id .updateAllIncoming b t'
  | changed {ca ca' : CertificateAuthority} {details : CommandDetails} {b : Bool}
      (hca : t.get? id = some ca) (h : s.Changes policy.publisherLimit j t details ca b ca') :
      Performed s policy j t id details b (t.set id ca')

theorem Services.Performed.unchanged {s : Services} {policy : IssuancePolicy} {j : Journal}
    {t : CaTree} {id : CaId} {details : CommandDetails} {b : Bool} {ca : CertificateAuthority}
    (hca : t.get? id = some ca) (h : s.Changes policy.publisherLimit j t details ca b ca) :
    s.Performed policy j t id details b t := by
  have hchanged := Performed.changed hca h
  rwa [CaTree.set_of_get? hca] at hchanged

theorem Services.Performed.of_update {s : Services} {policy : IssuancePolicy} {j : Journal}
    {t t' : CaTree} {id : CaId} {b : Bool}
    (h : s.Performed policy j t id .updateAllIncoming b t') :
    s.Updated policy.timing t id b t' := by
  cases h with
  | updated hupdated _ => exact hupdated
  | changed hca h => cases h

namespace Handler

variable {s : Services} {policy : IssuancePolicy} {t t' : Session Journal}

theorem generateRequest_ok {id : CaId} {u : Unit} (h : generateRequest s id t = (.ok u, t')) :
    ∃ ca ca', t.work.tree.get? id = some ca ∧
      (ca.prepareRequest (childIdentities t.work.tree ca) s.keys (s.requestId t.memory.requests)
        s.now t.memory.keys).1 = .ok ca' ∧
      t'.work.tree = t.work.tree.set id ca' ∧ t'.status.hadEffect = true := by
  unfold generateRequest at h
  obtain ⟨tree, t₁, hlook, hrest⟩ := bind_ok h
  clear h
  obtain ⟨htree, rfl⟩ := Prod.mk.inj hlook
  obtain rfl := Except.ok.inj htree
  obtain ⟨root, t₁, hroot, hrest'⟩ := bind_ok hrest
  clear hrest
  obtain ⟨hget, rfl⟩ := require_ok hroot
  obtain ⟨_, t₂, hupdate, hnote⟩ := bind_ok hrest'
  obtain ⟨ca, ca', hca, hprepare, htree'⟩ := updateWith_ok hupdate
  obtain rfl := Option.some.inj (hget.symm.trans hca)
  obtain ⟨-, rfl⟩ := Prod.mk.inj hnote
  refine ⟨root, ca', hca, ?_, htree', rfl⟩
  generalize root.prepareRequest _ _ _ _ _ = prepared at hprepare ⊢
  obtain ⟨r, keys⟩ := prepared
  cases r with
  | ok ca'' => exact hprepare
  | error err => cases hprepare

theorem expireIssued_ok {id : CaId} {now : Time} {b : Bool}
    (h : expireIssued id now t = (.ok b, t')) : t'.status = t.status ∧
    ∃ ca, t.work.tree.get? id = some ca ∧
      ((b = false ∧ ca.keys? = none ∧ t'.work.tree = t.work.tree) ∨
        ∃ keys, b = decide (0 < keys.overdue now) ∧ ca.keys? = some keys ∧
          t'.work.tree = t.work.tree.set id (ca.withKeys (keys.lapse now))) := by
  unfold expireIssued at h
  obtain ⟨ca, t₁, hrequire, hrest⟩ := bind_ok h
  clear h
  obtain ⟨hca, rfl⟩ := require_ok hrequire
  cases hkeys : ca.keys? with
  | none =>
    rw [hkeys] at hrest
    obtain ⟨hb, rfl⟩ := Prod.mk.inj hrest
    exact ⟨rfl, ca, hca, .inl ⟨(Except.ok.inj hb).symm, hkeys, rfl⟩⟩
  | some keys =>
    rw [hkeys] at hrest
    obtain ⟨⟨count, keys'⟩, t₁, hexpire, hrest'⟩ := bind_ok hrest
    clear hrest
    obtain ⟨hexpire', rfl⟩ := Services.ofExcept_ok hexpire
    rw [keys.expireOutgoing_eq now] at hexpire'
    obtain ⟨rfl, rfl⟩ := Prod.mk.inj (Except.ok.inj hexpire')
    obtain ⟨_, t₂, hupdate, hpure⟩ := bind_ok hrest'
    obtain ⟨hb, rfl⟩ := Prod.mk.inj hpure
    obtain ⟨ca₁, ca', hca₁, hca', htree⟩ := update_ok hupdate
    obtain rfl := Option.some.inj (hca.symm.trans hca₁)
    obtain rfl := Except.ok.inj hca'
    refine ⟨(congrArg (·.2.status) hupdate).symm, ca, hca, .inr ?_⟩
    exact ⟨keys, (Except.ok.inj hb).symm, hkeys, htree⟩

theorem registerPublisher_ok {limit : Nat} {id : CaId} {handle : PublisherHandle}
    {repository : PublisherRepository} {b : Bool}
    (h : registerPublisher limit id handle repository t = (.ok b, t')) : t'.status = t.status ∧
    ∃ ca, t.work.tree.get? id = some ca ∧
      ((b = false ∧ ca.publishers?.bind (·.get? handle) = some repository ∧
          t'.work.tree = t.work.tree) ∨
        ∃ ca', b = true ∧ ca.addPublisher handle repository limit = .ok ca' ∧
          t'.work.tree = t.work.tree.set id ca') := by
  unfold registerPublisher at h
  obtain ⟨ca, t₁, hrequire, hrest⟩ := bind_ok h
  clear h
  obtain ⟨hca, rfl⟩ := require_ok hrequire
  split at hrest
  · rename_i hsame
    obtain ⟨hb, rfl⟩ := Prod.mk.inj hrest
    exact ⟨rfl, ca, hca, .inl ⟨(Except.ok.inj hb).symm, hsame, rfl⟩⟩
  · obtain ⟨_, t₂, hupdate, hpure⟩ := bind_ok hrest
    obtain ⟨hb, rfl⟩ := Prod.mk.inj hpure
    obtain ⟨ca₁, ca', hca₁, hca', htree⟩ := update_ok hupdate
    obtain rfl := Option.some.inj (hca.symm.trans hca₁)
    refine ⟨(congrArg (·.2.status) hupdate).symm, ca, hca, .inr ?_⟩
    exact ⟨ca', (Except.ok.inj hb).symm, hca', htree⟩

/-- A step that changes one CA and then reports an effect. -/
theorem updateNoting_ok {id : CaId}
    {f : CertificateAuthority → Except Error CertificateAuthority} {u : Unit}
    (h : (do update id f; setHadEffect : Action Journal Unit) t = (.ok u, t')) :
    ∃ ca ca', t.work.tree.get? id = some ca ∧ f ca = .ok ca' ∧
      t'.work.tree = t.work.tree.set id ca' ∧ t'.status.hadEffect = true := by
  obtain ⟨_, t₁, hupdate, hnote⟩ := bind_ok h
  obtain ⟨ca, ca', hca, hf, htree⟩ := update_ok hupdate
  obtain ⟨-, rfl⟩ := Prod.mk.inj hnote
  exact ⟨ca, ca', hca, hf, htree, rfl⟩

theorem updateNoting_error {id : CaId}
    {f : CertificateAuthority → Except Error CertificateAuthority} {err : Error}
    (h : (do update id f; setHadEffect : Action Journal Unit) t = (.error err, t')) :
    err = .caUnknown id ∨ ∃ ca, f ca = .error err := by
  rw [bind_apply] at h
  split at h
  · cases h
  · rename_i err' t₁ hupdate
    obtain ⟨herr, -⟩ := Prod.mk.inj h
    exact update_error (hupdate.trans (Prod.ext herr rfl))

/-- A step that says itself whether it had an effect, in a command that had none so far. -/
theorem noteEffect_hadEffect {step : Action Journal Bool} {u : Unit}
    (hstart : t.status.hadEffect = false) (h : noteEffect step t = (.ok u, t'))
    (hquiet : ∀ b t₁, step t = (.ok b, t₁) → t₁.status = t.status) :
    ∃ t₁, step t = (.ok t'.status.hadEffect, t₁) ∧ t'.work = t₁.work := by
  obtain ⟨b, t₁, hstep, hwork, hstatus⟩ := noteEffect_ok h
  have hb : t'.status.hadEffect = b := by
    rw [hstatus, hquiet b t₁ hstep]
    cases b with
    | true => rfl
    | false => exact hstart
  exact ⟨t₁, hb ▸ hstep, hwork⟩

theorem performed_handle {command : CaCommand} {u : Unit} (hstart : t.status.hadEffect = false)
    (h : (forCommand s policy command.type).handle command t = (.ok u, t')) :
    s.Performed policy t.memory t.work.tree command.ca command.details t'.status.hadEffect
      t'.work.tree := by
  obtain ⟨id, actor, details⟩ := command
  cases details with
  | activateHostedCa name parent =>
    obtain ⟨t₁, hstep, hwork⟩ := noteEffect_hadEffect hstart h fun _ _ hstep =>
      (Services.activate_cases hstep).1
    rw [hwork]
    obtain ⟨-, ⟨hb, hsame, ca, hca, hname, hparent⟩ |
      ⟨hb, hnone, ski, directory, u, b', -, hanswer, hins, hupdated⟩⟩ :=
        Services.activate_cases hstep
    · rw [hb, hsame]
      exact .present hca hname hparent
    · rw [hb]
      exact .created hnone hanswer hins hupdated
  | updateAllIncoming =>
    obtain ⟨t₁, hstep, hwork⟩ := noteEffect_hadEffect hstart h fun _ _ hstep =>
      (Services.updateIncoming_ok hstep).2
    rw [hwork]
    exact .updated (Services.updateIncoming_ok hstep).1 fun _ _ =>
      Services.updateIncoming_parent hstep
  | generateTrustAnchorRequest =>
    obtain ⟨ca, ca', hca, hprepare, htree, heffect⟩ := generateRequest_ok h
    rw [htree, heffect]
    exact .changed hca (.request hprepare)
  | processRevokedKey ski =>
    obtain ⟨ca, ca', hca, hrevoke, htree, heffect⟩ := updateNoting_ok h
    rw [htree, heffect]
    exact .changed hca (.revoke hrevoke)
  | expireOutgoing now =>
    obtain ⟨t₁, hstep, hwork⟩ := noteEffect_hadEffect hstart h fun _ _ hstep =>
      (expireIssued_ok hstep).1
    rw [hwork]
    obtain ⟨-, ca, hca, ⟨hb, hkeys, hsame⟩ | ⟨keys, hb, hkeys, htree⟩⟩ :=
      expireIssued_ok hstep
    · rw [hb, hsame]
      exact .unchanged hca (.unmanaged now hkeys)
    · rw [hb, htree]
      exact .changed hca (.expire now hkeys)
  | provisionPublisher handle request response =>
    obtain ⟨t₁, hstep, hwork⟩ := noteEffect_hadEffect hstart h fun _ _ hstep =>
      (registerPublisher_ok hstep).1
    rw [hwork]
    obtain ⟨-, ca, hca, ⟨hb, hregistered, hsame⟩ | ⟨ca', hb, hadd, htree⟩⟩ :=
      registerPublisher_ok hstep
    · rw [hb, hsame]
      exact .unchanged hca (.registered hregistered)
    · rw [hb, htree]
      exact .changed hca (.register hadd)
  | deletePublisher handle =>
    obtain ⟨ca, ca', hca, hremove, htree, heffect⟩ := updateNoting_ok h
    rw [htree, heffect]
    exact .changed hca (.remove hremove)

end Handler

namespace Dispatcher

variable {s : Services} {policy : IssuancePolicy} {retries : Nat} {command : CaCommand}

/-- What the dispatcher reports of a command is what the command did to the tree as it was; failed
attempts before may have written to the journal. -/
theorem execute_standard_performed {e e' : Engine Journal} {status : CommandStatus}
    (h : (standard s policy retries).execute command e = (.ok status, e')) :
    ∃ j, Journal.Grows e.memory j ∧
      s.Performed policy j e.tree command.ca command.details status.hadEffect e'.tree := by
  obtain ⟨j, t, hgrows, hhandle, htree, hstatus⟩ := execute_standard_ok h
  rw [htree, hstatus]
  exact ⟨j, hgrows, Handler.performed_handle rfl hhandle⟩

end Dispatcher

end ResourcePki
