import ResourcePki.Certificate.Incoming
import ResourcePki.Certificate.Outgoing

/-! Certificates on record: which of them are valid, which are in the repository or on their way
there, and what revoking one leaves as it was. -/

namespace ResourcePki

theorem PublicationStatus.isPublished_withdraw (s : PublicationStatus) :
    s.withdraw.isPublished = false := by
  cases s <;> rfl

theorem PublicationStatus.isPublished_confirm (s : PublicationStatus) :
    s.confirm.isPublished = s.isPublished := by
  cases s <;> rfl

namespace OutgoingCertificate

variable {c : OutgoingCertificate} {now : Time}

theorem isValid_iff : c.isValid = true ↔ c.status = .current := by
  unfold isValid isRevoked isExpired
  cases c.status <;> decide

theorem isValid_revoke : (c.revoke now).isValid = false := by
  unfold revoke
  split
  · rfl
  · rename_i h
    exact Bool.eq_false_iff.mpr h

theorem certificate_revoke : (c.revoke now).certificate = c.certificate := by
  unfold revoke
  split <;> rfl

theorem subject_revoke : (c.revoke now).subject = c.subject := by
  unfold revoke
  split <;> rfl

theorem publicationUri_revoke : (c.revoke now).publicationUri = c.publicationUri := by
  unfold revoke
  split <;> rfl

/-- Two records of one certificate, at different points of its life. -/
structure SameRecord (c d : OutgoingCertificate) : Prop where
  certificate : d.certificate = c.certificate
  subject : d.subject = c.subject
  publicationUri : d.publicationUri = c.publicationUri

theorem SameRecord.refl (c : OutgoingCertificate) : SameRecord c c := ⟨rfl, rfl, rfl⟩

theorem SameRecord.trans {c d e : OutgoingCertificate} (h : SameRecord c d) (h' : SameRecord d e) :
    SameRecord c e :=
  ⟨h'.certificate.trans h.certificate, h'.subject.trans h.subject,
    h'.publicationUri.trans h.publicationUri⟩

theorem sameRecord_revoke : SameRecord c (c.revoke now) :=
  ⟨certificate_revoke, subject_revoke, publicationUri_revoke⟩

/-- What a parent records of a certificate that a child holds. -/
structure Records (o : OutgoingCertificate) (inc : IncomingCertificate) : Prop where
  certificate : inc.certificate = o.certificate
  publicationUri : o.publicationUri = some inc.publicationUri

/-- Whether a certificate was issued to a child for one of its keys. -/
def isFor (child : CaId) (key : String) (c : OutgoingCertificate) : Bool :=
  c.subject = .child child && c.certificate.subjectKey = key

theorem isFor_iff {child : CaId} {key : String} :
    c.isFor child key = true ↔ c.subject = .child child ∧ c.certificate.subjectKey = key := by
  simp only [isFor, Bool.and_eq_true, decide_eq_true_eq]

/-- What is published on its own is current, and goes to the place that its object names. -/
theorem publish_ok {certificate : SignedCertificate} {subject : Subject} {filename : String}
    {directory : RsyncUri} (h : publish certificate subject filename directory = .ok c) :
    ∃ object uri, object.status = .toBePublished ∧ object.uri = .ok uri ∧ c =
      { certificate, subject, status := .current, embedded := false, object := some object,
        publicationUri := some uri } := by
  unfold publish at h
  dsimp only at h
  generalize hobject : PublishedObject.mk filename directory _ _ _ = object at h
  cases huri : object.uri with
  | error err =>
    rw [huri] at h
    cases h
  | ok uri =>
    rw [huri] at h
    exact ⟨object, uri, hobject ▸ rfl, huri, (Except.ok.inj h).symm⟩

/-! Whether the object of a certificate is in the repository or on its way there -/

theorem isPublishable_withdraw (c : OutgoingCertificate) : c.withdraw.isPublishable = false := by
  unfold withdraw isPublishable
  cases c.object with
  | none => rfl
  | some object => exact object.status.isPublished_withdraw

theorem isPublishable_markPublished (c : OutgoingCertificate) :
    c.markPublished.isPublishable = c.isPublishable := by
  unfold markPublished isPublishable
  cases c.object with
  | none => rfl
  | some object => exact object.status.isPublished_confirm

theorem isPublishable_revoke (h : c.isPublishable = false) :
    (c.revoke now).isPublishable = false := by
  unfold revoke
  split
  · exact c.isPublishable_withdraw
  · exact h

theorem isPublishable_revoke_of_valid (h : c.isValid = true) :
    (c.revoke now).isPublishable = false := by
  rw [revoke, if_pos h]
  exact c.isPublishable_withdraw

end OutgoingCertificate

end ResourcePki
