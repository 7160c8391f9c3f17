import ResourcePki.Proofs.Invariant.Certifying
import ResourcePki.Proofs.Invariant.Watching
import ResourcePki.Proofs.Issuance.Growing
import ResourcePki.Proofs.Issuance.Shares

/-! What an update establishes when it succeeds and the CA may hold anything at all. Every key of
the CA is served, those that are managed here hold what they were served with, and nobody else sees
a difference. -/

namespace ResourcePki

open Certification

/-- A key that received a certificate does not wait for one. -/
theorem KeyPair.status_receive (k : KeyPair) (inc : IncomingCertificate) :
    (k.receive inc).status ≠ .new ∧ (k.receive inc).status ≠ .pending := by
  unfold receive activate
  split
  · exact ⟨nofun, nofun⟩
  · rename_i h
    exact not_or.mp h

namespace InvariantModel

variable {m : InvariantModel} {ca : CertificateAuthority}

/-- A CA whose keys agree may still issue too much, but that is all that can be wrong with it. -/
theorem check_ne_mismatch {held : ResourceSet} (h : m.incoming ca = .ok held) (name : CaName)
    (distinct : List ResourceSet) : m.check ca ≠ .error (.incomingMismatch name distinct) := by
  unfold check
  cases hkeys : ca.keys? with
  | none => exact nofun
  | some keys =>
    rw [h]
    intro hfails
    have hscopes : (m.scopes keys).forM (checkContained ca held) =
        .error (.incomingMismatch name distinct) := hfails
    obtain ⟨scope, -, -, hv⟩ := forM_checkContained_error hscopes
    cases hv

end InvariantModel

namespace Certification

variable {terms : CertificationTerms} {c c' c₀ : Certification}

/-- A key of the child is as it was, or holds nothing, or does not wait for a certificate. -/
def Awaits (c₀ c : Certification) : Prop :=
  ∀ k ∈ c.child.pairs, k ∈ c₀.child.pairs ∨ k.incoming = none ∨
    (k.status ≠ .new ∧ k.status ≠ .pending)

theorem Awaits.step (hskis : c.child.skis.Nodup) (h : Awaits c₀ c) (hs : Step terms c c') :
    Awaits c₀ c' := by
  intro k' hk'
  cases hs with
  | @issue _ ski o inc _ _ hchild =>
    rw [hchild] at hk'
    rcases mem_pairs_receive hskis hk' with ⟨hk, -⟩ | ⟨k, -, -, rfl⟩
    · exact h k' hk
    · exact .inr (.inr (k.status_receive inc))
  | withdraw => exact .inr (.inl (mem_pairs_clearIncoming hk'))

/-- Where a valid certificate comes from, if it was not there before. -/
structure IsNew (terms : CertificationTerms) (child : CertificateAuthority)
    (o : OutgoingCertificate) : Prop where
  subject : o.subject = .child child.id
  subjectKey : o.certificate.subjectKey ∈ child.subjectKeys
  resources : o.resources = terms.resources
  validity : o.certificate.validity = terms.validity

theorem isNew_steps (h : Steps terms c c') :
    ∀ o ∈ c'.parentKeys.valid, o ∈ c.parentKeys.valid ∨ IsNew terms c.child o := by
  intro o ho
  rcases (Frame.steps h).origin o ho with hbefore | ⟨hsubject, hkey⟩
  · exact .inl hbefore
  · rcases granted_steps h o ho with hbefore | ⟨hresources, hvalidity⟩
    · exact .inl hbefore
    · exact .inr ⟨hsubject, hkey, hresources, hvalidity⟩

end Certification

namespace Services

/-- What holds of a CA and its parent once the CA was brought in line with what it may hold. -/
structure Established (s : Services) (timing : IssuanceTiming) (resources : ResourceSet)
    (parent ca parent' ca' : CertificateAuthority) : Prop where
  /-- No key has to be served again before the time when certificates are renewed. -/
  served : ∀ key ∈ ca.subjectKeys, ∃ o ∈ parent'.validFor ca.id key,
    o.resources.equivalent resources = true ∧ timing.reissueThreshold s.now ≤ o.notAfter
  certified : ∀ k ∈ ca'.pairs, k.isRevoked = false → k.certified = some resources
  /-- A key that had no certificate does not wait for one any more. -/
  received : ∀ k ∈ ca.pairs, k.incoming = none → ∀ k' ∈ ca'.pairs, k'.ski = k.ski →
    k'.status ≠ .new ∧ k'.status ≠ .pending
  agrees : ∀ (m : InvariantModel) name distinct,
    m.check ca' ≠ .error (.incomingMismatch name distinct)
  /-- All of the parent is as before, its keys, what they hold and what was issued to others. -/
  others : parent'.share (.others ca.id) = parent.share (.others ca.id)
  /-- What the parent issued in addition is for keys of the CA, and for what it may hold. -/
  issued : ∀ o ∈ parent'.valid, o ∈ parent.valid ∨
    IsNew (s.terms timing ca.id resources) ca o
  /-- The CA itself is as before, what it issued and all else, but for what its keys hold. -/
  trunk : ca'.trunk = ca.trunk

variable {s : Services} {timing : IssuanceTiming} {t t' : CaTree} {id p : CaId} {b : Bool}
  {ca parent ca' parent' : CertificateAuthority} {resources : ResourceSet}

section entitled

variable (h : s.Updated timing t id b t') (hca : t.get? id = some ca)
  (hentitled : s.entitlement? t ca = some (p, resources)) (hp : t'.get? p = some parent')
  (hid : t'.get? id = some ca')

include h hca hentitled hp hid

theorem Updated.lasting (htiming : timing.verify = .ok ()) (hcaid : ca.id = id)
    (hsome : resources.isEmpty = false) : ∀ key ∈ ca'.subjectKeys,
      ∃ o ∈ parent'.validFor ca'.id key, o.resources.equivalent resources = true ∧
        timing.reissueThreshold s.now ≤ o.notAfter := by
  obtain ⟨parent, keys, signings, c, hparent, hkeys, halign, rfl, rfl⟩ :=
    h.aligned_of hca hentitled hp hid
  have hafter := align_served (Q := fun o => o.resources.equivalent resources = true ∧
      timing.reissueThreshold s.now ≤ o.notAfter) ?_ ?_ hcaid hsome halign
  · intro key hkey
    obtain ⟨o, ho, hserves⟩ := (hafter key hkey).issued
    rw [KeyRing.validChild_eq, ← CertificateAuthority.validFor_of_keys
      (CertificateAuthority.keys?_withKeys hkeys c.parentKeys)] at ho
    exact ⟨o, List.mem_of_head? ho, hserves⟩
  · intro o ho
    obtain ⟨hequivalent, hlast⟩ := Bool.and_eq_true_iff.mp ho
    rw [Bool.not_eq_true', decide_eq_false_iff_not] at hlast
    exact ⟨hequivalent, Int.not_lt.mp hlast⟩
  -- A new certificate outlasts the time of renewal, as the timing was checked for that.
  · intro o hresources hvalidity
    have hlast := not_due_of_verify htiming s.now
    rw [OutgoingCertificate.notAfter, hvalidity]
    exact ⟨ResourceSet.equivalent_iff.mpr hresources, Int.not_lt.mp hlast⟩

theorem Updated.isNew (hcaid : ca.id = id) (hparent : t.get? p = some parent) :
    ∀ o ∈ parent'.valid, o ∈ parent.valid ∨ IsNew (s.terms timing ca.id resources) ca o := by
  obtain ⟨parent₁, keys, signings, c, hparent₁, hkeys, halign, rfl, rfl⟩ :=
    h.aligned_of hca hentitled hp hid
  obtain rfl := Option.some.inj (hparent.symm.trans hparent₁)
  have hnew := isNew_steps (align_steps halign)
  rw [CertificateAuthority.valid_of_keys (CertificateAuthority.keys?_withKeys hkeys c.parentKeys),
    CertificateAuthority.valid_of_keys hkeys, hcaid]
  exact hnew

theorem Updated.received (hskis : ca.skis.Nodup) {k k' : KeyPair} (hk : k ∈ ca.pairs)
    (hnone : k.incoming = none) (hk' : k' ∈ ca'.pairs) (hski : k'.ski = k.ski)
    (hsome : k'.incoming ≠ none) : k'.status ≠ .new ∧ k'.status ≠ .pending := by
  obtain ⟨parent, keys, signings, c, hparent, hkeys, halign, rfl, rfl⟩ :=
    h.aligned_of hca hentitled hp hid
  have hbefore : Awaits ⟨keys, ca, signings⟩ ⟨keys, ca, signings⟩ := fun k hk => .inl hk
  have hafter := (align_steps halign).keep Awaits.step hskis hbefore
  rcases hafter k' hk' with hsame | hcleared | hstatus
  · obtain rfl := List.inj_on_of_nodup_map hskis hsame hk hski
    exact absurd hnone hsome
  · exact absurd hcleared hsome
  · exact hstatus

theorem Updated.holdsValid (hwf : t.WellFormed) (hkeys : t.DistinctKeys)
    (hheld : t.Along CertificateAuthority.HoldsValid) : parent'.HoldsValid ca' := by
  have hafter := h.along CertificateAuthority.HoldsValid.congr
    CertificateAuthority.HoldsValid.steps hwf hkeys hheld
  apply hafter p parent' id ca' hp hid
  rw [h.parent hca hid, (entitlement?_eq_some hentitled).1]

theorem Updated.certified_keys (hwf : t.WellFormed) (hkeys : t.DistinctKeys) (hown : t.OwnOnly)
    (hheld : t.Along CertificateAuthority.HoldsValid) (htiming : timing.verify = .ok ())
    (hsome : resources.isEmpty = false) {k : KeyPair} (hk : k ∈ ca'.pairs)
    (hactive : k.isRevoked = false) :
    ∃ inc, k.incoming = some inc ∧ inc.own = resources ∧ inc.certified = resources := by
  have hlasting := h.lasting hca hentitled hp hid htiming (hwf.ids id ca hca) hsome
  have hserved : ∀ key ∈ ca'.subjectKeys, ∃ o ∈ parent'.validFor ca'.id key,
      o.resources = resources := by
    intro key hkey
    obtain ⟨o, ho, hequivalent, -⟩ := hlasting key hkey
    exact ⟨o, ho, ResourceSet.equivalent_iff.mp hequivalent⟩
  have hholds := h.holdsValid hca hentitled hp hid hwf hkeys hheld
  obtain ⟨inc, hinc, hresources⟩ := hholds.own_eq hserved k hk hactive
  have hown' := h.ownOnly hwf hkeys hown id ca' hid
  refine ⟨inc, hinc, hresources, ?_⟩
  rw [hown'.certified_eq hk hinc, hresources]

theorem Updated.established (hwf : t.WellFormed) (hkeys : t.DistinctKeys) (hown : t.OwnOnly)
    (hheld : t.Along CertificateAuthority.HoldsValid) (htiming : timing.verify = .ok ())
    (hsome : resources.isEmpty = false) (hparent : t.get? p = some parent) :
    s.Established timing resources parent ca parent' ca' := by
  have hcaid := hwf.ids id ca hca
  have hne : p ≠ id := by
    apply hwf.parent_ne
    rw [CaTree.parent?_of_get? hca, (entitlement?_eq_some hentitled).1]
  obtain ⟨ca₁, hca₁, -, htrunk₁, -⟩ := h.get? (hwf.ids id) hid
  obtain rfl := Option.some.inj (hca.symm.trans hca₁)
  have htrunk : ca'.trunk = ca.trunk := htrunk₁ rfl
  have hid' : ca'.id = ca.id := CertificateAuthority.of_trunk CertificateAuthority.id_trunk htrunk
  have hsubjectKeys : ca'.subjectKeys = ca.subjectKeys :=
    CertificateAuthority.of_trunk CertificateAuthority.subjectKeys_trunk htrunk
  have hcertified := fun {k} => h.certified_keys hca hentitled hp hid hwf hkeys hown hheld htiming
    hsome (k := k)
  refine { served := ?_, certified := ?_, received := ?_, agrees := ?_, others := ?_,
           issued := h.isNew hca hentitled hp hid hcaid hparent, trunk := htrunk }
  · have hlasting := h.lasting hca hentitled hp hid htiming hcaid hsome
    rwa [hid', hsubjectKeys] at hlasting
  · intro k hk hactive
    obtain ⟨inc, hinc, -, hresources⟩ := hcertified hk hactive
    rw [KeyPair.certified, hinc, Option.map_some, hresources]
  · intro k hk hnone k' hk' hski
    cases hactive : k'.isRevoked with
    | true =>
      have hstatus : k'.status = .revoked := of_decide_eq_true hactive
      simp [hstatus]
    | false =>
      obtain ⟨inc, hinc, -⟩ := hcertified hk' hactive
      apply h.received hca hentitled hp hid (hkeys id ca hca) hk hnone hk' hski
      simp [hinc]
  · intro m
    have hagrees : ca'.Agrees := by
      refine ⟨resources, fun k hk inc hinc => ?_⟩
      rw [CertificateAuthority.publishable_eq, List.mem_filter] at hk
      obtain ⟨inc', hinc', hresources, -⟩ :=
        hcertified hk.1 (KeyPair.isRevoked_of_isPublishable hk.2)
      obtain rfl := Option.some.inj (hinc.symm.trans hinc')
      exact hresources
    obtain ⟨held, hincoming⟩ := hagrees.incoming_ok (h.ownOnly hwf hkeys hown id ca' hid) m
    exact InvariantModel.check_ne_mismatch hincoming
  · apply h.share (hwf.ids id) _ hne hparent hp
    simp [CertificateChoice.others, hcaid]

end entitled

end Services

namespace Dispatcher

variable {s : Services} {policy : IssuancePolicy} {retries : Nat} {command : CaCommand}

theorem execute_update_establishes {e e' : Engine Journal} {status : CommandStatus} {p : CaId}
    {ca parent : CertificateAuthority} {held requested : ResourceSet} (hwf : e.tree.WellFormed)
    (hkeys : e.tree.DistinctKeys) (hown : e.tree.OwnOnly)
    (hheld : e.tree.Along CertificateAuthority.HoldsValid)
    (htiming : policy.timing.verify = .ok ()) (hdetails : command.details = .updateAllIncoming)
    (hca : e.tree.get? command.ca = some ca) (hp : ca.parent = some p)
    (hparent : e.tree.get? p = some parent) (hcertified : parent.certified = some held)
    (hrequested : (ca.certifiable s.lookup).1 = some requested)
    (hsome : (requested.inter held).isEmpty = false)
    (h : (standard s policy retries).execute command e = (.ok status, e')) :
    ∃ parent' ca', e'.tree.get? p = some parent' ∧ e'.tree.get? command.ca = some ca' ∧
      s.Established policy.timing (requested.inter held) parent ca parent' ca' ∧
      e'.tree.nextId = e.tree.nextId ∧
      ∀ x, x ≠ p → x ≠ command.ca → e'.tree.get? x = e.tree.get? x := by
  obtain ⟨j, -, hperformed⟩ := execute_standard_performed h
  rw [hdetails] at hperformed
  have hupdated := hperformed.of_update
  have hentitled := Services.entitlement?_of hp hparent hcertified hrequested
  obtain ⟨parent', hparent', -⟩ := hupdated.sameLinks.symm.get? hparent
  obtain ⟨ca', hca', -⟩ := hupdated.sameLinks.symm.get? hca
  have hestablished := hupdated.established hca hentitled hparent' hca' hwf hkeys hown hheld
    htiming hsome hparent
  refine ⟨parent', ca', hparent', hca', hestablished, hupdated.nextId, fun x hxp hx => ?_⟩
  apply hupdated.get?_other hx
  rw [CaTree.parent?_of_get? hca', hupdated.parent hca hca', hp]
  intro heq
  exact hxp (Option.some.inj heq).symm

end Dispatcher

namespace Chain

theorem execute_update_establishes_in_chain :
    (Dispatcher.standard renewing {} 0).execute ⟨3, .background, .updateAllIncoming⟩ engine =
      (.ok { hadEffect := true }, renewed) ∧
    ∃ parent' ca', renewed.tree.get? 2 = some parent' ∧ renewed.tree.get? 3 = some ca' ∧
      renewing.Established {} (asns.inter asns) production upper parent' ca' ∧
      renewed.tree.nextId = tree.nextId ∧
      ∀ x, x ≠ 2 → x ≠ 3 → renewed.tree.get? x = tree.get? x :=
  ⟨execute_renewing, Dispatcher.execute_update_establishes wellFormed_tree distinctKeys_tree
    contained_tree.ownOnly linked_tree.held rfl rfl rfl rfl rfl rfl rfl (by decide +kernel)
    execute_renewing⟩

end Chain

end ResourcePki
