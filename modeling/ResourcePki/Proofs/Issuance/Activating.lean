import ResourcePki.Proofs.Invariant.Check
import ResourcePki.Proofs.Issuance.Places

/-! What a successful activation comes to. A CA that was not there is created with one key, which
gets a certificate if anything can be certified. A CA that was there is left as it is, and all
depends on which CAs the command takes for the one that it asks for: those of the same name and
parent, whatever they are. -/

namespace ResourcePki

open Certification ResourcePki.Action

/-- A new certificate is for what was asked for, and nothing comes on top of that. -/
theorem KeyRing.Issued.certified {q : ChildRequest} {r r' : KeyRing} {o : OutgoingCertificate}
    {inc : IncomingCertificate} (h : Issued q r r' o inc) : inc.certified = q.resources := by
  have hown : inc.own = q.resources := by
    rw [IncomingCertificate.own, h.records.certificate]
    exact congrArg CertificateTemplate.resources h.template
  rw [← hown]
  refine IncomingCertificate.certified_eq_own ?_
  rw [h.inherited]
  exact ResourceSet.contains_empty _

theorem CaKind.type_eq_hosted_iff {kind : CaKind} :
    kind.type = .hosted ↔ ∃ keys, kind = .hosted keys := by
  constructor
  · intro h
    cases kind with
    | hosted keys => exact ⟨keys, rfl⟩
    | allResources | production | nonHosted => cases h
  · rintro ⟨keys, rfl⟩
    rfl

/-- A hosted CA as it is created under its parent, with one key. -/
def CertificateAuthority.newcomer (id : CaId) (name : CaName) (p : CaId) (directory : RsyncUri)
    (pair : KeyPair) : CertificateAuthority where
  id := id
  name := name
  parent := some p
  kind := .hosted { pairs := [pair], directory }

namespace CertificateAuthority

variable {id p : CaId} {name : CaName} {directory : RsyncUri} {k : KeyPair}

theorem subjectKeys_newcomer (h : k.isRevoked = false) :
    (newcomer id name p directory k).subjectKeys = [k.ski] := by
  change (List.filter (fun k => !k.isRevoked) [k]).map (·.ski) = [k.ski]
  rw [List.filter_cons_of_pos (by simp [h]), List.filter_nil, List.map_singleton]

theorem certifiable_newcomer {lookup : ResourceLookup} {resources : Option ResourceSet}
    (h : lookup ⟨id, name⟩ = .ok resources) :
    ((newcomer id name p directory k).certifiable lookup).1 = resources := by
  simp [certifiable, newcomer, identity, h]

theorem receive_newcomer (inc : IncomingCertificate) :
    (newcomer id name p directory k).modifyKeys (·.modify k.ski (·.receive inc)) =
      newcomer id name p directory (k.receive inc) := by
  have hpairs : KeyRing.modifyFirst k.ski (·.receive inc) [k] = [k.receive inc] := if_pos rfl
  exact congrArg (fun pairs => mk id name (some p) ∅ (.hosted { pairs, directory })) hpairs

theorem clearIncoming_newcomer : (newcomer id name p directory k).modifyKeys (·.clearIncoming) =
    newcomer id name p directory k.clearIncoming := rfl

end CertificateAuthority

namespace Certification

variable {terms : CertificationTerms} {c c' : Certification} {id p : CaId} {name : CaName}
  {directory : RsyncUri} {k : KeyPair} {b : Bool}

/-- The key of a new CA needs a certificate, whatever the parent issued for it before. -/
theorem needsCertificate_newcomer (h : c.child = .newcomer id name p directory k)
    (hwaits : k.incoming = none) : c.needsCertificate terms k.ski = true := by
  have hlacks : c.lacksIncoming k.ski = true := by
    have hfind : c.child.keys?.bind (·.find? k.ski) = some k := by
      rw [h]
      change [k].find? (·.ski = k.ski) = some k
      rw [List.find?_cons_of_pos (by simp)]
    rw [lacksIncoming, hfind, Option.any_some, hwaits]
    rfl
  rw [needsCertificate, hlacks, Bool.or_true]

/-- Whenever there is something to certify, the key of a new CA is certified for all of it. -/
theorem align_newcomer (h : c.child = .newcomer id name p directory k)
    (hactive : k.isRevoked = false) (hwaits : k.incoming = none)
    (halign : align terms c = (.ok b, c')) :
    ∃ k', c'.child = .newcomer id name p directory k' ∧ (terms.resources.isEmpty = false →
      ∃ inc, k' = k.receive inc ∧ inc.certified = terms.resources) := by
  cases hempty : terms.resources.isEmpty with
  | true =>
    rw [align, if_pos hempty] at halign
    obtain ⟨-, rfl⟩ := Prod.mk.inj halign
    refine ⟨k.clearIncoming, ?_, fun hsome => absurd hsome.symm Bool.false_ne_true⟩
    change c.child.modifyKeys (·.clearIncoming) = _
    rw [h, CertificateAuthority.clearIncoming_newcomer]
  | false =>
    rw [align, if_neg (by simp [hempty]), h, CertificateAuthority.subjectKeys_newcomer hactive,
      certify, if_pos (needsCertificate_newcomer h hwaits)] at halign
    generalize hissue : c.issue terms k.ski = issued at halign
    obtain ⟨r, c₁⟩ := issued
    cases r with
    | error err => cases halign
    | ok u =>
      obtain ⟨-, rfl⟩ := Prod.mk.inj halign
      obtain ⟨o, inc, hissued, hchild⟩ := issue_ok hissue
      refine ⟨k.receive inc, hchild.trans ?_, fun _ => ⟨inc, rfl, hissued.certified⟩⟩
      rw [h, CertificateAuthority.receive_newcomer]

end Certification

/-- A hosted CA with that name, with these keys, is in its place in the tree. -/
structure CaTree.Hosts (t : CaTree) (id : CaId) (name : CaName) (p : CaId) (keys : KeyRing) :
    Prop where
  hosted : ∃ ca, t.get? id = some ca ∧ ca.name = name ∧ ca.parent = some p ∧
    ca.kind = .hosted keys
  listed : ∃ parent, t.get? p = some parent ∧ id ∈ parent.children.toList

theorem CaTree.WellFormed.hosts {t : CaTree} (h : t.WellFormed) {id p : CaId} {name : CaName}
    {ca : CertificateAuthority} {keys : KeyRing} (hca : t.get? id = some ca)
    (hname : ca.name = name) (hparent : ca.parent = some p) (hkind : ca.kind = .hosted keys) :
    t.Hosts id name p keys where
  hosted := ⟨ca, hca, hname, hparent, hkind⟩
  listed := h.parents id ca hca p hparent

namespace Services

/-- The keys with which a CA is opened in a tree: there is one, with a place of its own below that
of the parent, and it is certified for all that the CA may hold, if that is anything. -/
structure Opens (s : Services) (t : CaTree) (id : CaId) (name : CaName) (p : CaId)
    (keys : KeyRing) : Prop where
  directory : ∃ parent parentKeys, t.get? p = some parent ∧ parent.keys? = some parentKeys ∧
    parentKeys.directory.join s!"{id}/" = .ok keys.directory
  pair : ∃ k, keys.pairs = [k] ∧ ∀ parent held requested, t.get? p = some parent →
    parent.certified = some held → s.lookup ⟨id, name⟩ = .ok (some requested) →
    (requested.inter held).isEmpty = false →
    k.status = .current ∧ k.certified = some (requested.inter held)

/-- What an activation of a CA should make of a tree. -/
def Activates (s : Services) (t : CaTree) (id : CaId) (name : CaName) (p : CaId) (t' : CaTree) :
    Prop :=
  ∃ keys, t'.Hosts id name p keys ∧ (t.get? id = none → s.Opens t id name p keys)

variable {s : Services} {timing : IssuanceTiming} {t t' u : CaTree} {id p : CaId} {name : CaName}
  {directory : RsyncUri} {ski : String} {b : Bool}

/-- A new CA after its first update. -/
theorem Updated.newcomer {ca : CertificateAuthority}
    (hca : ca = .newcomer id name p directory (KeyPair.requestCertificate { ski }))
    (hget : u.get? id = some ca) (h : s.Updated timing u id b t') :
    ∃ k, t'.get? id = some (.newcomer id name p directory k) ∧
      ∀ q resources, s.entitlement? u ca = some (q, resources) → resources.isEmpty = false →
        k.status = .current ∧ k.certified = some resources := by
  cases h with
  | skipped hca₁ hnone =>
    obtain rfl := Option.some.inj (hget.symm.trans hca₁)
    refine ⟨_, hca ▸ hget, fun q resources hentitled => ?_⟩
    rw [hnone] at hentitled
    cases hentitled
  | @aligned ca₁ parent q keys resources signings b c hca₁ hentitled hne hparent hkeys halign =>
    obtain rfl := Option.some.inj (hget.symm.trans hca₁)
    obtain ⟨k, hchild, hcertified⟩ := align_newcomer hca rfl rfl halign
    refine ⟨k, hchild ▸ CaTree.get?_set_self, fun q' resources' hentitled' hsome => ?_⟩
    obtain ⟨-, rfl⟩ := Prod.mk.inj (Option.some.inj (hentitled.symm.trans hentitled'))
    obtain ⟨inc, rfl, hresources⟩ := hcertified hsome
    exact ⟨rfl, congrArg some hresources⟩

/-- A CA that is created and updated is what an activation should make of it. -/
theorem activates_newcomer (hwf : t.WellFormed)
    (hins : t.insert (.newcomer id name p directory (KeyPair.requestCertificate { ski })) = .ok u)
    (hdirectory : ∃ parent parentKeys, t.get? p = some parent ∧
      parent.keys? = some parentKeys ∧ parentKeys.directory.join s!"{id}/" = .ok directory)
    (h : s.Updated timing u id b t') : s.Activates t id name p t' := by
  obtain ⟨-, -, -, hself, hlinks⟩ := CaTree.insert_ok hins
  obtain ⟨k, hk, hcertified⟩ := h.newcomer rfl hself
  have hwf' : t'.WellFormed := (hwf.insert hins rfl).of_sameLinks h.sameLinks
  refine ⟨{ pairs := [k], directory }, hwf'.hosts hk rfl rfl rfl, fun _ => ⟨hdirectory, k, rfl, ?_⟩⟩
  intro parent held requested hparent hheld hrequested hsome
  -- What the parent holds is not changed by the new child that it is told of.
  obtain ⟨hnone, -⟩ | ⟨p', parent', hp', -, hparent', hget, -⟩ := hlinks
  · cases hnone
  · obtain rfl := Option.some.inj hp'
    obtain rfl := Option.some.inj (hparent.symm.trans hparent')
    refine hcertified p _ (entitlement?_of rfl hget hheld ?_) hsome
    exact CertificateAuthority.certifiable_newcomer hrequested

end Services

namespace Dispatcher

variable {s : Services} {policy : IssuancePolicy} {retries : Nat} {command : CaCommand}

/-- A successful activation leaves what it should just when no CA of another kind was there. -/
theorem execute_activate_iff {e e' : Engine Journal} {status : CommandStatus} {name : CaName}
    {p : CaId} (hwf : e.tree.WellFormed) (hdetails : command.details = .activateHostedCa name p)
    (h : (standard s policy retries).execute command e = (.ok status, e')) :
    s.Activates e.tree command.ca name p e'.tree ↔
      ∀ old, e.tree.get? command.ca = some old → old.type = .hosted := by
  obtain ⟨memory, t, -, hhandle, htree, -⟩ := execute_standard_ok h
  obtain ⟨id, actor, details⟩ := command
  obtain rfl := hdetails
  obtain ⟨b, t₁, hactivate, hwork, -⟩ := Handler.noteEffect_ok hhandle
  rw [htree, hwork]
  obtain ⟨-, ⟨-, hsame, ca, hca, hname, hparent⟩ |
    ⟨-, hnone, ski, directory, u, b', hdirectory, -, hins, hupdated⟩⟩ :=
      Services.activate_cases hactivate
  -- A CA that is there stays as it is.
  · rw [hsame]
    constructor
    · rintro ⟨keys, hhosts, -⟩ old hold
      obtain ⟨ca', hca', -, -, hkind⟩ := hhosts.hosted
      obtain rfl := Option.some.inj (hold.symm.trans hca')
      exact CaKind.type_eq_hosted_iff.mpr ⟨keys, hkind⟩
    · intro hall
      obtain ⟨keys, hkind⟩ := CaKind.type_eq_hosted_iff.mp (hall ca hca)
      exact ⟨keys, hwf.hosts hca hname hparent hkind, fun hnone => nomatch hca.symm.trans hnone⟩
  · refine iff_of_true (Services.activates_newcomer hwf hins hdirectory hupdated) ?_
    exact fun old hold => nomatch hold.symm.trans hnone

end Dispatcher

namespace Siblings

def answering : KeySource := fun _ => .ok "N"

theorem execute_activate_in_siblings :
    (distinct.tree.WellFormed ∧
      (Dispatcher.standard (services answering) {} 0).execute activate distinct =
        (.ok { hadEffect := true }, after answering activate distinct)) ∧
    (services answering).Activates distinct.tree 5 "CN=newcomer" 2
      (after answering activate distinct).tree := by
  have hwf : distinct.tree.WellFormed := wellFormed_tree [] "K" "J"
  have hrun : (Dispatcher.standard (services answering) {} 0).execute activate distinct =
      (.ok { hadEffect := true }, after answering activate distinct) := by
    refine Prod.ext ?_ rfl
    rw [Dispatcher.standard_eq]
    decide +kernel
  exact ⟨⟨hwf, hrun⟩, (Dispatcher.execute_activate_iff hwf rfl hrun).mpr nofun⟩

/-- Asks for a hosted CA where a member is that keeps its own keys. -/
def activateMember : CaCommand := ⟨3, .background, .activateHostedCa "CN=upper" 2⟩

/-- The member has the name and the parent that the command gives, so the command succeeds, and no
CA is hosted after it. -/
theorem execute_activate_spares_member : ¬ ∀ (s : Services) (policy : IssuancePolicy)
    (retries : Nat) (command : CaCommand) (e e' : Engine Journal) (status : CommandStatus)
    (name : CaName) (p : CaId), e.tree.WellFormed →
    command.details = .activateHostedCa name p →
    (Dispatcher.standard s policy retries).execute command e = (.ok status, e') →
    s.Activates e.tree command.ca name p e'.tree := by
  intro h
  have hrun : (Dispatcher.standard (services silent) {} 0).execute activateMember distinct =
      (.ok {}, after silent activateMember distinct) := by
    refine Prod.ext ?_ rfl
    rw [Dispatcher.standard_eq]
    decide +kernel
  have hmember : ((after silent activateMember distinct).tree.get? 3).map (·.type) =
      some .nonHosted := by
    rw [after, Dispatcher.standard_eq]
    decide +kernel
  obtain ⟨keys, hhosts, -⟩ :=
    h (services silent) {} 0 activateMember _ _ _ "CN=upper" 2 (wellFormed_tree [] "K" "J") rfl hrun
  obtain ⟨ca, hca, -, -, hkind⟩ := hhosts.hosted
  rw [show activateMember.ca = 3 from rfl] at hca
  rw [hca, Option.map_some, CertificateAuthority.type, hkind] at hmember
  cases hmember

end Siblings

end ResourcePki
