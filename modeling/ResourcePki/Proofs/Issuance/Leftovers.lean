import ResourcePki.Proofs.Issuance.Places
import ResourcePki.Proofs.Issuance.Shares
import ResourcePki.Proofs.Reconciliation.Passes

/-! What an update leaves of the certificates of a CA. It goes through the keys that the CA uses; a
certificate for any other key, one that was revoked or dropped, stays as it is unless the CA loses
all that it holds. -/

namespace ResourcePki

open Certification

namespace CertificateAuthority

/-- A valid certificate that a parent issued to a child for a key that the child does not use. -/
structure IsLeftover (parent child : CertificateAuthority) (o : OutgoingCertificate) : Prop where
  valid : o ∈ parent.valid
  subject : o.subject = .child child.id
  unused : o.certificate.subjectKey ∉ child.subjectKeys

/-- All valid certificates that the CA issued to a child are for one set of resources. -/
def IssuesOnly (parent : CertificateAuthority) (child : CaId) (resources : ResourceSet) : Prop :=
  ∀ o ∈ parent.valid, o.subject = .child child → o.resources.equivalent resources = true

/-- Leftovers are a share of what the parent issued. -/
theorem isLeftover_iff {parent child : CertificateAuthority} {o : OutgoingCertificate} :
    parent.IsLeftover child o ↔
      o ∈ (parent.share (.besides child.id child.subjectKeys)).valid := by
  rw [valid_share, List.mem_filter]
  simp only [OutgoingCertificate.isChosen, CertificateChoice.besides, Bool.and_eq_true,
    decide_eq_true_eq]
  exact ⟨fun h => ⟨h.valid, h.subject, h.unused⟩, fun h => ⟨h.1, h.2.1, h.2.2⟩⟩

end CertificateAuthority

namespace Services

variable {s : Services} {timing : IssuanceTiming} {t t' : CaTree} {id p : CaId} {b : Bool}
  {ca parent ca' parent' : CertificateAuthority} {resources : ResourceSet}

section entitled

variable (h : s.Updated timing t id b t') (hca : t.get? id = some ca)
  (hentitled : s.entitlement? t ca = some (p, resources)) (hp : t'.get? p = some parent')
  (hid : t'.get? id = some ca')

include h hca hentitled hp hid

theorem Updated.isLeftover_iff (hparent : t.get? p = some parent)
    (hsome : resources.isEmpty = false) (o : OutgoingCertificate) :
    parent'.IsLeftover ca' o ↔ parent.IsLeftover ca o := by
  obtain ⟨parent₁, keys, signings, c, hparent₁, hkeys, halign, rfl, rfl⟩ :=
    h.aligned_of hca hentitled hp hid
  obtain rfl := Option.some.inj (hparent.symm.trans hparent₁)
  have htrunk := (Frame.steps (align_steps halign)).trunk
  have hid' : c.child.id = ca.id :=
    CertificateAuthority.of_trunk CertificateAuthority.id_trunk htrunk
  have hsubjectKeys : c.child.subjectKeys = ca.subjectKeys :=
    CertificateAuthority.of_trunk CertificateAuthority.subjectKeys_trunk htrunk
  have hshare := align_share (.besides ca.id ca.subjectKeys) (s.terms timing id resources)
    ⟨keys, ca, signings⟩ (by
      rintro key (hempty | hkey)
      · exact absurd (hsome.symm.trans hempty) Bool.false_ne_true
      · simp [CertificateChoice.besides, hkey])
  rw [halign] at hshare
  have hsame : (parent.withKeys c.parentKeys).share (.besides ca.id ca.subjectKeys) =
      parent.share (.besides ca.id ca.subjectKeys) :=
    CertificateAuthority.modifyKeys_withKeys hkeys hshare
  rw [CertificateAuthority.isLeftover_iff, CertificateAuthority.isLeftover_iff, hid', hsubjectKeys,
    hsame]

variable (hwf : t.WellFormed)

include hwf

/-- The certificates for keys in use are brought in line, if each of them has one at most. -/
theorem Updated.equivalent_of_used (hsingle : t.Single) (hsome : resources.isEmpty = false)
    {o : OutgoingCertificate} (ho : o ∈ parent'.valid) (hsubject : o.subject = .child ca'.id)
    (hused : o.certificate.subjectKey ∈ ca'.subjectKeys) :
    o.resources.equivalent resources = true := by
  have hserved := h.served hca hentitled hp hid (hwf.ids id ca hca) hsome
  obtain ⟨o', ho', hresources⟩ := hserved _ hused
  have honly := (h.single (hwf.ids id) hsingle).validFor_eq hp ho'
  have hmem := CertificateAuthority.mem_validFor_of_valid ho hsubject
  rw [honly, List.mem_singleton] at hmem
  rw [hmem, ResourceSet.equivalent_iff, hresources]

/-- So all certificates of the CA are in line, just if it lost all of them or if those for keys that
it does not use were in line before. -/
theorem Updated.issuesOnly_iff (hsingle : t.Single) (hparent : t.get? p = some parent) :
    parent'.IssuesOnly ca.id resources ↔ resources.isEmpty = true ∨
      ∀ o, parent.IsLeftover ca o → o.resources.equivalent resources = true := by
  have hcaid : ca'.id = ca.id := by
    obtain ⟨ca₁, hca₁, -, htrunk, -⟩ := h.get? (hwf.ids id) hid
    obtain rfl := Option.some.inj (hca.symm.trans hca₁)
    exact CertificateAuthority.of_trunk CertificateAuthority.id_trunk (htrunk rfl)
  cases hempty : resources.isEmpty with
  | true =>
    obtain ⟨-, hnone⟩ := h.withdrawn hca hentitled hp hid hempty
    have hall : parent'.IssuesOnly ca.id resources := by
      intro o ho hsubject
      have hmem := CertificateAuthority.mem_validFor_of_valid ho hsubject
      rw [← hcaid, hnone] at hmem
      cases hmem
    simp [hall]
  | false =>
    have hleftover := h.isLeftover_iff hca hentitled hp hid hparent hempty
    constructor
    · intro hall
      refine .inr fun o ho => ?_
      have ho' := (hleftover o).mpr ho
      exact hall o ho'.valid ho.subject
    · rintro (hfalse | hbefore) o ho hsubject
      · cases hfalse
      · rw [← hcaid] at hsubject
        by_cases hused : o.certificate.subjectKey ∈ ca'.subjectKeys
        · exact h.equivalent_of_used hca hentitled hp hid hwf hsingle hempty ho hsubject hused
        · exact hbefore o ((hleftover o).mp ⟨ho, hsubject, hused⟩)

end entitled

end Services

namespace Dispatcher

variable {s : Services} {policy : IssuancePolicy} {retries : Nat} {command : CaCommand}

theorem execute_update_issuesOnly_iff {e e' : Engine Journal} {status : CommandStatus} {p : CaId}
    {ca parent : CertificateAuthority} {held requested : ResourceSet} (hwf : e.tree.WellFormed)
    (hsingle : e.tree.Single) (hdetails : command.details = .updateAllIncoming)
    (hca : e.tree.get? command.ca = some ca) (hp : ca.parent = some p)
    (hparent : e.tree.get? p = some parent) (hcertified : parent.certified = some held)
    (hrequested : (ca.certifiable s.lookup).1 = some requested)
    (h : (standard s policy retries).execute command e = (.ok status, e')) :
    ∃ parent', e'.tree.get? p = some parent' ∧
      (parent'.IssuesOnly ca.id (requested.inter held) ↔ (requested.inter held).isEmpty = true ∨
        ∀ o, parent.IsLeftover ca o → o.resources.equivalent (requested.inter held) = true) := by
  obtain ⟨j, -, hperformed⟩ := execute_standard_performed h
  rw [hdetails] at hperformed
  have hupdated := hperformed.of_update
  have hentitled := Services.entitlement?_of hp hparent hcertified hrequested
  obtain ⟨parent', hparent', -⟩ := hupdated.sameLinks.symm.get? hparent
  obtain ⟨ca', hca', -⟩ := hupdated.sameLinks.symm.get? hca
  exact ⟨parent', hparent',
    hupdated.issuesOnly_iff hca hentitled hparent' hca' hwf hsingle hparent⟩

end Dispatcher

namespace Siblings

theorem single_tree (outgoing : List OutgoingCertificate) (key key' : String)
    (h : outgoing.length ≤ 1) : (tree outgoing key key').Single := by
  intro id ca hca d k
  have hlength : ca.outgoing.length ≤ 1 := by
    rcases get?_tree hca with ⟨-, rfl⟩ | ⟨-, rfl⟩ | ⟨-, rfl⟩ | ⟨-, rfl⟩
    · exact Nat.le_refl 1
    · simpa [production, CertificateAuthority.outgoing_eq, CertificateAuthority.pairs,
        CertificateAuthority.keys?, CaKind.keys?] using h
    · exact Nat.zero_le 1
    · exact Nat.zero_le 1
  rw [CertificateAuthority.validFor, CertificateAuthority.valid_eq]
  exact Nat.le_trans (List.length_filter_le ..) (Nat.le_trans (List.length_filter_le ..) hlength)

/-- A member that never changed its keys has nothing left over. -/
theorem execute_update_issuesOnly_in_siblings :
    (distinct.tree.WellFormed ∧ distinct.tree.Single ∧
      (Dispatcher.standard (services silent) {} 0).execute (update 3) distinct =
        (.ok { hadEffect := true }, after silent (update 3) distinct)) ∧
    ∃ parent', (after silent (update 3) distinct).tree.get? 2 = some parent' ∧
      parent'.IssuesOnly 3 (Chain.asns.inter Chain.asns) := by
  have hrun : (Dispatcher.standard (services silent) {} 0).execute (update 3) distinct =
      (.ok { hadEffect := true }, after silent (update 3) distinct) := by
    refine Prod.ext ?_ rfl
    rw [Dispatcher.standard_eq]
    decide +kernel
  have hwf : distinct.tree.WellFormed := wellFormed_tree [] "K" "J"
  have hsingle : distinct.tree.Single := single_tree [] "K" "J" (Nat.zero_le 1)
  obtain ⟨parent', hparent', hiff⟩ := Dispatcher.execute_update_issuesOnly_iff hwf hsingle rfl rfl
    rfl rfl rfl rfl hrun
  refine ⟨⟨hwf, hsingle, hrun⟩, parent', hparent', hiff.mpr (.inr fun o ho => ?_)⟩
  exact nomatch ho.valid

/-- The certificate for a key that the member does not list any more. -/
def dropped : OutgoingCertificate := Chain.issue (3, Chain.certificate "CN=upper" "O" Chain.asns)

def half : ResourceSet := { asn := .ofBlock ⟨64496, 64503, by decide⟩ }

/-- By now the registry has half of the resources only. -/
def halved : Services := { services silent with lookup := fun _ => .ok (some half) }

def afterHalving : Engine Journal :=
  ((Dispatcher.standard halved {} 0).execute (update 3) (start [dropped] "K" "J")).2

/-- The member gets a certificate for the half that is left to it, but the one for the key that it
dropped stays valid for the whole. -/
theorem execute_update_leaves_dropped : ¬ ∀ (s : Services) (policy : IssuancePolicy)
    (retries : Nat) (command : CaCommand) (e e' : Engine Journal) (status : CommandStatus)
    (p : CaId) (ca parent parent' : CertificateAuthority) (held requested : ResourceSet),
    e.tree.WellFormed → e.tree.Single → command.details = .updateAllIncoming →
    e.tree.get? command.ca = some ca → ca.parent = some p → e.tree.get? p = some parent →
    parent.certified = some held → (ca.certifiable s.lookup).1 = some requested →
    (Dispatcher.standard s policy retries).execute command e = (.ok status, e') →
    e'.tree.get? p = some parent' → parent'.IssuesOnly ca.id (requested.inter held) := by
  intro h
  have hrun : (Dispatcher.standard halved {} 0).execute (update 3) (start [dropped] "K" "J") =
      (.ok { hadEffect := true }, afterHalving) := by
    refine Prod.ext ?_ rfl
    rw [Dispatcher.standard_eq]
    decide +kernel
  have hstays : (afterHalving.tree.get? 2).any (fun ca => dropped ∈ ca.valid) = true := by
    rw [afterHalving, Dispatcher.standard_eq]
    decide +kernel
  obtain ⟨parent', hparent', hdropped⟩ := (Option.any_eq_true _ _).mp hstays
  have honly := h halved {} 0 (update 3) _ _ _ 2 (member 3 "CN=upper" "K") (production [dropped])
    parent' Chain.asns half (wellFormed_tree [dropped] "K" "J")
    (single_tree [dropped] "K" "J" (Nat.le_refl 1)) rfl rfl rfl rfl rfl rfl hrun hparent'
  have hother : dropped.resources.equivalent (half.inter Chain.asns) = false := by
    decide +kernel
  rw [honly dropped (of_decide_eq_true hdropped) rfl] at hother
  cases hother

end Siblings

end ResourcePki
