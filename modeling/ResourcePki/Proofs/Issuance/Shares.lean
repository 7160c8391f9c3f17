import ResourcePki.Proofs.Issuance.Courses

/-! A third view of an issuer: its share in what it issued to a choice of subjects and keys. An
issuance to anybody else leaves the share as it is, with the status and the place of every
certificate in it; so an update of a CA is seen in the shares of that CA only. -/

namespace ResourcePki

open OutgoingCertificate

/-- A choice of certificates by their subject and the key that they certify. -/
abbrev CertificateChoice := Subject → String → Bool

/-- What is issued to one child. -/
def CertificateChoice.only (child : CaId) : CertificateChoice :=
  fun subject _ => subject = .child child

/-- What is issued to anybody but one child. -/
def CertificateChoice.others (child : CaId) : CertificateChoice :=
  fun subject _ => subject ≠ .child child

/-- What is issued to one child for keys out of a list. -/
def CertificateChoice.besides (child : CaId) (keys : List String) : CertificateChoice :=
  fun subject key => subject = .child child && key ∉ keys

variable {choice : CertificateChoice}

def OutgoingCertificate.isChosen (choice : CertificateChoice) (c : OutgoingCertificate) : Bool :=
  choice c.subject c.certificate.subjectKey

theorem OutgoingCertificate.isChosen_revoke (c : OutgoingCertificate) (now : Time) :
    (c.revoke now).isChosen choice = c.isChosen choice := by
  unfold isChosen
  rw [subject_revoke, certificate_revoke]

namespace KeyPair

def share (choice : CertificateChoice) (k : KeyPair) : KeyPair :=
  { k with outgoing := k.outgoing.filter (·.isChosen choice) }

theorem share_addOutgoing_of_not {c : OutgoingCertificate} (h : c.isChosen choice = false)
    (k : KeyPair) : (k.addOutgoing c).share choice = k.share choice := by
  simp [share, addOutgoing, h]

theorem share_addOutgoing_of {c : OutgoingCertificate} (h : c.isChosen choice = true)
    (k : KeyPair) : (k.addOutgoing c).share choice = (k.share choice).addOutgoing c := by
  simp [share, addOutgoing, h]

theorem share_revokeFor (choice : CertificateChoice) (k : KeyPair) (subject : Subject)
    (key : Option String) (now : Time) :
    (k.revokeFor subject key now).share choice = (k.share choice).revokeFor subject key now := by
  have hchosen : ∀ c : OutgoingCertificate,
      (if concerns subject key c then c.revoke now else c).isChosen choice = c.isChosen choice := by
    intro c
    split
    · exact c.isChosen_revoke now
    · rfl
  simp only [share, revokeFor, List.filter_map, Function.comp_def, hchosen]

end KeyPair

namespace KeyRing

variable {r r' : KeyRing}

/-- A ring with a choice of what was issued with it, and without the number that comes next. -/
def share (choice : CertificateChoice) (r : KeyRing) : KeyRing :=
  { r with pairs := r.pairs.map (·.share choice), nextSerial := 0 }

theorem outgoing_share (choice : CertificateChoice) (r : KeyRing) :
    (r.share choice).outgoing = r.outgoing.filter (·.isChosen choice) := by
  rw [outgoing, outgoing, List.filter_flatMap, share, List.flatMap_map]
  rfl

theorem valid_share (choice : CertificateChoice) (r : KeyRing) :
    (r.share choice).valid = r.valid.filter (·.isChosen choice) := by
  rw [valid_eq, outgoing_share, valid_eq, List.filter_filter, List.filter_filter]
  simp only [Bool.and_comm]

theorem share_revokeChild (choice : CertificateChoice) (r : KeyRing) (child : CaId)
    (key : Option String) (now : Time) :
    (r.revokeChild child key now).share choice = (r.share choice).revokeChild child key now := by
  simp only [share, revokeChild, List.map_map, Function.comp_def, KeyPair.share_revokeFor]

/-- Revoking is not seen in a share without the certificates that are revoked. -/
theorem share_revokeChild_of_not {child : CaId} {key : Option String}
    (h : ∀ k, key.all (k = ·) = true → choice (.child child) k = false) (r : KeyRing) (now : Time) :
    (r.revokeChild child key now).share choice = r.share choice := by
  rw [share_revokeChild]
  apply revokeChild_of_countChild
  rw [countChild_eq_zero_iff]
  intro c hc
  rw [outgoing_share, List.mem_filter] at hc
  apply Bool.eq_false_iff.mpr
  intro hconcerns
  simp only [KeyPair.concerns, Bool.and_eq_true, decide_eq_true_eq] at hconcerns
  obtain ⟨⟨hsubject, hkey⟩, -⟩ := hconcerns
  have hnot : c.isChosen choice = false := by
    rw [isChosen, hsubject]
    exact h _ hkey
  rw [hnot] at hc
  exact Bool.false_ne_true hc.2

theorem share_addOutgoing_of_not {c : OutgoingCertificate} (h : c.isChosen choice = false)
    (r : KeyRing) (ski : String) :
    (r.modify ski (·.addOutgoing c)).share choice = r.share choice := by
  unfold share modify
  rw [map_modifyFirst (f := (·.addOutgoing c)) (KeyPair.share_addOutgoing_of_not h)]

theorem isChosen_of_place {q : ChildRequest} {serial : Nat} {der : Bytes} {o : OutgoingCertificate}
    (h : r.place q (q.template serial) der = .ok o) :
    o.isChosen choice = choice (.child q.child.id) q.subjectKey := by
  obtain ⟨hcertificate, hsubject, -⟩ := place_ok h
  rw [isChosen, hsubject, hcertificate]
  rfl

/-- An issuance is not seen in a share that does not have its subject. -/
theorem Answered.share {q : ChildRequest} {signer : Signer} {now : Time}
    {signings signings' : List Signing} {answer : Except Error IncomingCertificate}
    (h : Answered r q signer now signings answer r' signings')
    (hnot : choice (.child q.child.id) q.subjectKey = false) :
    r'.share choice = r.share choice := by
  cases h with
  | unable => rfl
  | refused => rfl
  | @issued key der o uri hkey hsigned hplace huri =>
    have hout : o.isChosen choice = false := (isChosen_of_place hplace).trans hnot
    have hsubjectKey : o.certificate.subjectKey = q.subjectKey := by
      rw [(place_ok hplace).1]
      rfl
    rw [replaceChild, share_addOutgoing_of_not hout, share_revokeChild_of_not]
    · rfl
    · intro k hk
      have hk' : k = q.subjectKey := by simpa [hsubjectKey] using hk
      rw [hk', hnot]

end KeyRing

namespace Certification

variable {terms : CertificationTerms}

theorem id_issue_child (terms : CertificationTerms) (c : Certification) (ski : String) :
    (c.issue terms ski).2.child.id = c.child.id := by
  obtain ⟨answer, -, hchild | ⟨inc, hchild⟩⟩ := issue_answered terms c ski
  · rw [hchild]
  · rw [hchild, CertificateAuthority.id_modifyKeys]

theorem issue_share (c : Certification) {ski : String}
    (hnot : choice (.child c.child.id) ski = false) :
    (c.issue terms ski).2.parentKeys.share choice = c.parentKeys.share choice := by
  obtain ⟨answer, hanswered, -⟩ := issue_answered terms c ski
  exact hanswered.share hnot

/-- What is brought in line, or left half done, concerns the child only, and of its keys only those
in use unless all is withdrawn. -/
theorem align_share (choice : CertificateChoice) (terms : CertificationTerms) (c : Certification)
    (hnot : ∀ key, terms.resources.isEmpty = true ∨ key ∈ c.child.subjectKeys →
      choice (.child c.child.id) key = false) :
    (align terms c).2.parentKeys.share choice = c.parentKeys.share choice := by
  unfold align
  split
  · rename_i hempty
    apply KeyRing.share_revokeChild_of_not
    intro key _
    exact hnot key (.inl hempty)
  · refine (certify_keep terms c.child.subjectKeys c
      (P := fun c' => c'.child.id = c.child.id ∧
        c'.parentKeys.share choice = c.parentKeys.share choice) ?_ ⟨rfl, rfl⟩).2
    rintro c' ski hski ⟨hid, hshare⟩
    have hnot' : choice (.child c'.child.id) ski = false := by rw [hid, hnot ski (.inr hski)]
    exact ⟨(id_issue_child terms c' ski).trans hid, (issue_share c' hnot').trans hshare⟩

end Certification

namespace CertificateAuthority

variable {ca : CertificateAuthority}

/-- A CA with a choice of what it issued. -/
def share (choice : CertificateChoice) (ca : CertificateAuthority) : CertificateAuthority :=
  ca.modifyKeys (·.share choice)

theorem keys?_share (choice : CertificateChoice) (ca : CertificateAuthority) :
    (ca.share choice).keys? = ca.keys?.map (·.share choice) := keys?_modifyKeys ca _

theorem valid_share (choice : CertificateChoice) (ca : CertificateAuthority) :
    (ca.share choice).valid = ca.valid.filter (·.isChosen choice) := by
  cases hkeys : ca.keys? with
  | none =>
    have hvalid : ca.valid = [] := by rw [valid, hkeys]; rfl
    rw [share, modifyKeys_of_none hkeys, hvalid]
    rfl
  | some r =>
    have hkeys' : (ca.share choice).keys? = some (r.share choice) := by
      rw [keys?_share, hkeys, Option.map_some]
    rw [valid_of_keys hkeys', valid_of_keys hkeys, KeyRing.valid_share]

theorem certified_share (choice : CertificateChoice) (ca : CertificateAuthority) :
    (ca.share choice).certified = ca.certified := by
  rw [certified, keys?_share, certified]
  cases ca.keys? with
  | none => rfl
  | some r =>
    exact KeyRing.certified_of_map (f := (·.share choice)) rfl (fun _ => rfl) fun _ => rfl

end CertificateAuthority

/-- An update of a CA changes nothing of other CAs but what they issued to it. -/
theorem Services.Updated.share {s : Services} {timing : IssuanceTiming} {t t' : CaTree}
    {id x : CaId} {b : Bool} {ca ca' : CertificateAuthority} (h : s.Updated timing t id b t')
    (hself : ∀ ca, t.get? id = some ca → ca.id = id)
    (hnot : ∀ key, choice (.child id) key = false) (hx : x ≠ id) (hca : t.get? x = some ca)
    (hca' : t'.get? x = some ca') : ca'.share choice = ca.share choice := by
  cases h with
  | skipped =>
    obtain rfl := Option.some.inj (hca.symm.trans hca')
    rfl
  | @aligned child parent p keys resources signings b c hchild _ _ hparent hkeys halign =>
    rw [CaTree.get?_set_ne (Ne.symm hx), CaTree.get?_set] at hca'
    split at hca'
    · rename_i hp
      obtain rfl := Option.some.inj (hca.symm.trans (hp ▸ hparent))
      obtain rfl := Option.some.inj hca'
      have hshare := Certification.align_share choice (s.terms timing id resources)
        ⟨keys, child, signings⟩ fun key _ => by rw [hself child hchild, hnot]
      rw [halign] at hshare
      exact CertificateAuthority.modifyKeys_withKeys hkeys hshare
    · obtain rfl := Option.some.inj (hca.symm.trans hca')
      rfl

end ResourcePki
