import ResourcePki.Proofs.Invariant.Certifying
import ResourcePki.Proofs.Issuance.Signing
import ResourcePki.Proofs.Issuance.Trying

/-! Why an update fails. In a well-formed tree it has a parent to ask, and a certified parent has a
key to sign with; so what is left is that the signer refuses, or that a certificate has no address
in the repository of the parent. -/

namespace ResourcePki

open ResourcePki.Action

/-- A certificate for a key is not issued, given what the signer made of it and the directory. -/
inductive IssuanceFault (directory : RsyncUri) (subjectKey : String)
    (outcome : Except Error Bytes) : Error → Prop
  | refused {err : Error} (h : outcome = .error err) :
      IssuanceFault directory subjectKey outcome err
  | unplaced {der : Bytes} {fault : Uri.Fault} (hsigned : outcome = .ok der)
      (hjoin : directory.join s!"{subjectKey}.cer" = .error fault) :
      IssuanceFault directory subjectKey outcome
        (.illegalState (.noUri s!"{subjectKey}.cer" directory fault))

section publish

variable {certificate : SignedCertificate} {subject : Subject} {filename : String}
  {directory : RsyncUri}

theorem OutgoingCertificate.publish_error {err : Error}
    (h : publish certificate subject filename directory = .error err) :
    ∃ fault, directory.join filename = .error fault ∧
      err = .illegalState (.noUri filename directory fault) := by
  unfold publish PublishedObject.uri at h
  dsimp only at h
  cases hjoin : directory.join filename with
  | error fault =>
    rw [hjoin] at h
    have herr := Except.error.inj h
    exact ⟨fault, rfl, herr.symm⟩
  | ok uri =>
    rw [hjoin] at h
    cases h

end publish

namespace KeyRing

variable {r r' : KeyRing} {q : ChildRequest} {signer : Signer} {now : Time}
  {signings signings' : List Signing}

theorem draft_error {key : String} {err : Error}
    (h : r.draft q signer signings key = .error err) :
    IssuanceFault r.directory q.subjectKey (signer signings key (q.template r.nextSerial)) err := by
  unfold draft at h
  cases hsigned : signer signings key (q.template r.nextSerial) with
  | error err' =>
    rw [hsigned] at h
    obtain rfl := Except.error.inj h
    exact .refused rfl
  | ok der =>
    rw [hsigned] at h
    obtain ⟨fault, hjoin, rfl⟩ := OutgoingCertificate.publish_error h
    exact .unplaced rfl hjoin

theorem issueChild_error {key : String} {err : Error} (hkey : r.signingKey? = some key)
    (h : r.issueChild q signer now signings = (.error err, r', signings')) :
    signings' = ⟨key, q.template r.nextSerial,
        signer signings key (q.template r.nextSerial)⟩ :: signings ∧
      IssuanceFault r.directory q.subjectKey (signer signings key (q.template r.nextSerial)) err := by
  obtain ⟨_, rfl, ⟨err', hdraft, hrun⟩ | ⟨o, uri, -, -, hrun⟩⟩ :=
    issueChild_draft hkey q signer now signings
  · cases hrun.symm.trans h
    exact ⟨rfl, draft_error hdraft⟩
  · cases hrun.symm.trans h

/-- A certified ring has a key to sign with. -/
theorem exists_signingKey_of_certified {held : ResourceSet} (h : r.certified = some held) :
    ∃ k ∈ r.pairs, k.isCurrent = true ∧ k.incoming.isSome = true ∧ r.signingKey? = some k.ski := by
  obtain ⟨k, hk, hheld⟩ := Option.bind_eq_some_iff.mp h
  obtain ⟨inc, hinc, -⟩ := Option.map_eq_some_iff.mp hheld
  have hsome : k.incoming.isSome = true := by rw [hinc, Option.isSome_some]
  have hcurrent : k.isCurrent = true := by simpa using List.find?_some hk
  refine ⟨k, List.mem_of_find?_eq_some hk, hcurrent, hsome, ?_⟩
  rw [signingKey?, hk, Option.filter_some, if_pos hsome, Option.map_some]

end KeyRing

namespace Certification

variable {terms : CertificationTerms} {c c' : Certification} {err : Error} {key : String}

/-- What was signed last was refused or has no address, if certificates could not be brought in
line though there is a key to sign with. -/
def Fails (terms : CertificationTerms) (keys : KeyRing) (key : String)
    (subjectKeys : List String) (err : Error) (signings : List Signing) : Prop :=
  ∃ template before, template.subjectKey ∈ subjectKeys ∧
    signings = ⟨key, template, terms.sign before key template⟩ :: before ∧
    IssuanceFault keys.directory template.subjectKey (terms.sign before key template) err

theorem issue_error {ski : String} (hkey : c.parentKeys.signingKey? = some key)
    (h : c.issue terms ski = (.error err, c')) :
    Fails terms c.parentKeys key [ski] err c'.signings := by
  unfold issue at h
  generalize hissue : c.parentKeys.issueChild _ _ _ _ = issued at h
  obtain ⟨answer, parentKeys, signings⟩ := issued
  cases answer with
  | ok inc => cases h
  | error err' =>
    obtain ⟨herr, rfl⟩ := Prod.mk.inj h
    obtain rfl := Except.error.inj herr
    obtain ⟨hsignings, hfault⟩ := KeyRing.issueChild_error hkey hissue
    exact ⟨_, _, List.mem_singleton_self ski, hsignings, hfault⟩

theorem certify_error {keys : List String} (hkey : c.parentKeys.signingKey? = some key)
    (h : certify terms keys c = (.error err, c')) :
    Fails terms c.parentKeys key keys err c'.signings := by
  induction keys generalizing c with
  | nil => cases h
  | cons ski rest ih =>
    unfold certify at h
    split at h
    · obtain ⟨answer, hanswered, -⟩ := issue_answered terms c ski
      have hface := hanswered.face
      generalize hissue : c.issue terms ski = issued at h hface
      obtain ⟨result, c₁⟩ := issued
      cases result with
      | error err' =>
        cases h
        obtain ⟨template, before, hmem, hlast⟩ := issue_error hkey hissue
        exact ⟨template, before, List.mem_cons.mpr (.inl (List.mem_singleton.mp hmem)), hlast⟩
      | ok u =>
        -- The ring after an issuance signs with the same key, and into the same directory.
        have hkey₁ : c₁.parentKeys.signingKey? = some key := by
          rw [← KeyRing.signingKey?_face, hface, KeyRing.signingKey?_face, hkey]
        have hdirectory : c₁.parentKeys.face.directory = c.parentKeys.face.directory := by
          rw [hface]
        dsimp only at h
        generalize hcertify : certify terms rest c₁ = certified at h
        obtain ⟨r, c₂⟩ := certified
        cases r with
        | ok b => cases h
        | error err' =>
          cases h
          obtain ⟨template, before, hmem, hsignings, hfault⟩ := ih hkey₁ hcertify
          exact ⟨template, before, List.mem_cons_of_mem _ hmem, hsignings, hdirectory ▸ hfault⟩
    · obtain ⟨template, before, hmem, hlast⟩ := ih hkey h
      exact ⟨template, before, List.mem_cons_of_mem _ hmem, hlast⟩

theorem align_error (hkey : c.parentKeys.signingKey? = some key)
    (h : align terms c = (.error err, c')) :
    Fails terms c.parentKeys key c.child.subjectKeys err c'.signings := by
  unfold align at h
  split at h
  · cases h
  · exact certify_error hkey h

end Certification

namespace Services

variable {s : Services} {timing : IssuanceTiming}

/-- An update of a CA fails with an error once this is signed: the CA has another one as its parent,
which is managed here and has a certified current key, and what was signed with that key at last
was refused or has no address. -/
inductive FailsOutside (s : Services) (t : CaTree) (id : CaId) : Error → List Signing → Prop
  | intro {ca parent : CertificateAuthority} {p : CaId} {keys : KeyRing} {k : KeyPair}
      {template : CertificateTemplate} {before : List Signing} {err : Error}
      (hca : t.get? id = some ca) (hp : ca.parent = some p) (hne : p ≠ id)
      (hparent : t.get? p = some parent) (hkeys : parent.keys? = some keys) (hk : k ∈ keys.pairs)
      (hcurrent : k.isCurrent = true) (hcertified : k.incoming.isSome = true)
      (hsigning : keys.signingKey? = some k.ski)
      (hsubject : template.subjectKey ∈ ca.subjectKeys)
      (hfault : IssuanceFault keys.directory template.subjectKey (s.sign before k.ski template)
        err) :
      FailsOutside s t id err (⟨k.ski, template, s.sign before k.ski template⟩ :: before)

theorem Tried.failsOutside {t u : CaTree} {id : CaId} {signings signings' : List Signing}
    {err : Error} (h : s.Tried timing t id signings (.error err) u signings') :
    s.FailsOutside t id err signings' := by
  cases h with
  | @aligned ca parent p keys resources r c hca hentitled hne hparent hkeys halign =>
    obtain ⟨hp, parent₁, held, requested, hparent₁, hheld, -, -⟩ := entitlement?_eq_some hentitled
    obtain rfl := Option.some.inj (hparent.symm.trans hparent₁)
    have hcertified : keys.certified = some held := by
      rwa [CertificateAuthority.certified, hkeys, Option.bind_some] at hheld
    obtain ⟨k, hk, hcurrent, hsome, hsigning⟩ :=
      KeyRing.exists_signingKey_of_certified hcertified
    obtain ⟨template, before, hsubject, hsignings, hfault⟩ :=
      Certification.align_error hsigning halign
    rw [hsignings]
    exact .intro hca hp hne hparent hkeys hk hcurrent hsome hsigning hsubject hfault

end Services

namespace CaTree

/-- In a well-formed tree the parent of a CA is there, and it is another CA. -/
theorem WellFormed.exists_parent {t : CaTree} (h : t.WellFormed) {id p : CaId}
    {ca : CertificateAuthority} (hca : t.get? id = some ca) (hp : ca.parent = some p) :
    p ≠ id ∧ ∃ parent, t.get? p = some parent := by
  have hlink : t.parent? id = some p := by rw [parent?_of_get? hca, hp]
  obtain ⟨parent, hparent, -⟩ := h.exists_of_parent? hlink
  exact ⟨h.parent_ne hlink, parent, hparent⟩

end CaTree

namespace Dispatcher

variable {s : Services} {policy : IssuancePolicy} {retries : Nat} {command : CaCommand}

/-- Once its handler has done with a command, nothing but the counts of the checks changes. -/
theorem Handled.standard_run {h : Handler Journal} {t t' : Session Journal} {r : Except Error Unit}
    (hr : Handled command (h :: checkingHandlers policy) t r t') :
    ∃ t₁, h.handle command t = (r, t₁) ∧ t'.work = t₁.work ∧ t'.status = t₁.status ∧
      t'.memory.signings = t₁.memory.signings := by
  cases hr with
  | stop hhandle => exact ⟨_, hhandle, rfl, rfl, rfl⟩
  | @next _ _ _ t₁ _ _ hhandle hrest =>
    rw [checkingHandlers_eq] at hrest
    obtain ⟨rfl, hwork, hstatus, -, -⟩ := hrest.checking policy.nodup_models
    exact ⟨t₁, hhandle, hwork, hstatus, hrest.signings_checking⟩

/-- In a well-formed tree, an update comes to what its last attempt comes to. -/
theorem execute_update_tried (s : Services) (policy : IssuancePolicy) (retries : Nat)
    {e : Engine Journal} {ca : CertificateAuthority} (hwf : e.tree.WellFormed)
    (hdetails : command.details = .updateAllIncoming) (hca : e.tree.get? command.ca = some ca) :
    ∃ r e', (standard s policy retries).execute command e =
        (r.map fun b => ({ hadEffect := b } : CommandStatus), e') ∧
      ∃ before u, s.Tried policy.timing e.tree command.ca before r u e'.memory.signings ∧
        e'.tree = match r with
          | .ok _ => u
          | .error _ => e.tree := by
  obtain ⟨errors, memory, r, t, -, -, hr, -, hresult, htree, hmemory⟩ :=
    attempts_handled (d := standard s policy retries) throughWork_standard command 0 retries e
  rw [turn_standard] at hr
  obtain ⟨t₁, hhandle, hwork, hstatus, hsignings⟩ := hr.standard_run
  have hsame : (Handler.forCommand s policy command.type).handle command =
      Handler.noteEffect (s.updateIncoming policy.timing command.ca) := by
    obtain ⟨id, actor, details⟩ := command
    cases hdetails
    rfl
  obtain ⟨r', t₂, hrun, hquiet, htried⟩ := Services.updateIncoming_tried s policy.timing
    (e := .start e.tree memory) hca (fun p hp => (hwf.exists_parent hca hp).2)
    (fun p resources hentitled =>
      (hwf.exists_parent hca (Services.entitlement?_eq_some hentitled).1).1)
  rw [hsame, Handler.noteEffect_apply, hrun] at hhandle
  change ((standard s policy retries).execute command e).1 = _ at hresult
  change ((standard s policy retries).execute command e).2.tree = _ at htree
  change ((standard s policy retries).execute command e).2.memory = _ at hmemory
  refine ⟨r', _, Prod.ext ?_ rfl, memory.signings, t₂.work.tree, ?_⟩
  · rw [hresult, hstatus]
    cases r' with
    | error err =>
      obtain ⟨rfl, rfl⟩ := Prod.mk.inj hhandle
      rfl
    | ok b =>
      obtain ⟨rfl, rfl⟩ := Prod.mk.inj hhandle
      cases b <;> simp [hquiet, Session.start, CommandStatus.setHadEffect, Except.map]
  · rw [htree, hmemory, hsignings, hwork]
    cases r' with
    | error err =>
      obtain ⟨rfl, rfl⟩ := Prod.mk.inj hhandle
      exact ⟨htried, rfl⟩
    | ok b =>
      obtain ⟨rfl, rfl⟩ := Prod.mk.inj hhandle
      cases b <;> exact ⟨htried, rfl⟩

/-- An update of a CA in a well-formed tree only fails when the signer refuses, or when the file of
a certificate cannot be addressed. -/
theorem execute_update_fails_outside {e e' : Engine Journal} {ca : CertificateAuthority}
    {err : Error} (hwf : e.tree.WellFormed) (hdetails : command.details = .updateAllIncoming)
    (hca : e.tree.get? command.ca = some ca)
    (h : (standard s policy retries).execute command e = (.error err, e')) :
    s.FailsOutside e.tree command.ca err e'.memory.signings := by
  obtain ⟨r, e₁, hrun, before, u, htried, -⟩ :=
    execute_update_tried s policy retries hwf hdetails hca
  obtain ⟨hr, rfl⟩ := Prod.mk.inj (hrun.symm.trans h)
  cases r with
  | ok b => cases hr
  | error err' =>
    obtain rfl := Except.error.inj hr
    exact htried.failsOutside

end Dispatcher

namespace Chain

/-- Certificates are due, and the signer is not there. -/
def offline : Services := { renewing with sign := fun _ _ _ => .error (.signer "offline") }

def refused : Engine Journal :=
  ((Dispatcher.standard offline {} 0).execute ⟨3, .background, .updateAllIncoming⟩ engine).2

theorem execute_update_fails_outside_in_chain :
    (tree.WellFormed ∧ tree.get? 3 = some upper ∧
      (Dispatcher.standard offline {} 0).execute ⟨3, .background, .updateAllIncoming⟩ engine =
        (.error (.signer "offline"), refused)) ∧
    offline.FailsOutside tree 3 (.signer "offline") refused.memory.signings := by
  have hrun : (Dispatcher.standard offline {} 0).execute ⟨3, .background, .updateAllIncoming⟩
      engine = (.error (.signer "offline"), refused) := by
    refine Prod.ext ?_ rfl
    rw [Dispatcher.standard_eq]
    decide +kernel
  have hca : engine.tree.get? 3 = some upper := rfl
  exact ⟨⟨wellFormed_tree, hca, hrun⟩,
    Dispatcher.execute_update_fails_outside wellFormed_tree rfl hca hrun⟩

end Chain

end ResourcePki
