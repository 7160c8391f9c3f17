import ResourcePki.Proofs.Issuance.Plain

/-! What an update of a CA goes by: the CA, and the part of the keys of its parent that concerns it.
Two runs that agree on these come to the same result, agree on them afterwards, and use up equally
many serial numbers, whatever else the parent issued and whichever numbers come next. -/

namespace ResourcePki

/-- Whether something is signed goes by the key and the request, neither by the serial number nor
by what was asked before. An error counts as far as `tell` tells it from others. -/
def Signer.SignsAlike {ε : Type} (tell : Error → ε) (sign : Signer) : Prop :=
  ∀ signings signings' key template n,
    ((sign signings key { template with serial := n }).map fun _ => ()).mapError tell =
      ((sign signings' key template).map fun _ => ()).mapError tell

theorem mapError_bind {α β γ δ : Type} (x : Except α β) (f : β → Except α γ) (g : α → δ) :
    (x.bind f).mapError g = (x.mapError g).bind fun b => (f b).mapError g := by
  cases x <;> rfl

theorem mapError_map {α β γ δ : Type} (x : Except α β) (f : β → γ) (g : α → δ) :
    (x.map f).mapError g = (x.mapError g).map f := by
  cases x <;> rfl

variable {ε : Type} {tell : Error → ε} {choice : CertificateChoice} {m n : Nat}

namespace KeyRing

open OutgoingCertificate

variable {r r' : KeyRing} {q : ChildRequest} {signer : Signer} {key : String} {now : Time}

theorem draft_plain (r : KeyRing) (q : ChildRequest) (signer : Signer) (signings : List Signing)
    (key : String) : (r.draft q signer signings key).map (·.plain) =
      ((signer signings key (q.template r.nextSerial)).map fun _ => ()).bind fun _ =>
        publish { q.template 0 with der := [] } (.child q.child.id) s!"{q.subjectKey}.cer"
          r.directory := by
  unfold draft
  cases signer signings key (q.template r.nextSerial) with
  | error err => rfl
  | ok der => exact publish_plain _ _ _ _

theorem draft_alike (hsign : signer.SignsAlike tell) (hdirectory : r.directory = r'.directory)
    (q : ChildRequest) (key : String) (signings signings' : List Signing) :
    ((r.draft q signer signings key).map (·.plain)).mapError tell =
      ((r'.draft q signer signings' key).map (·.plain)).mapError tell := by
  have hask := hsign signings signings key (q.template 0) r.nextSerial
  have hask' := hsign signings' signings key (q.template 0) r'.nextSerial
  have hsame := hask.trans hask'.symm
  change ((signer signings key (q.template r.nextSerial)).map _).mapError tell =
    ((signer signings' key (q.template r'.nextSerial)).map _).mapError tell at hsame
  rw [draft_plain, draft_plain, mapError_bind, mapError_bind, hsame, hdirectory]

/-- Two rings agree on a part, and the numbers that come next differ by what they differed by. -/
structure Alike (choice : CertificateChoice) (m n : Nat) (r r' : KeyRing) : Prop where
  part : r.part choice = r'.part choice
  serial : r.nextSerial + m = r'.nextSerial + n

namespace Alike

theorem signingKey? (h : Alike choice m n r r') : r.signingKey? = r'.signingKey? := by
  rw [← signingKey?_part choice, h.part, signingKey?_part]

theorem next (h : Alike choice m n r r') :
    Alike choice m n { r with nextSerial := r.nextSerial + 1 }
      { r' with nextSerial := r'.nextSerial + 1 } where
  part := h.part
  serial := by
    have hserial := h.serial
    dsimp only
    omega

theorem revokeChild (h : Alike choice m n r r') (child : CaId) (key : Option String) (now : Time) :
    Alike choice m n (r.revokeChild child key now) (r'.revokeChild child key now) where
  part := by rw [part_revokeChild, part_revokeChild, h.part]
  serial := h.serial

theorem replaceChild {o o' : OutgoingCertificate} (h : Alike choice m n r r')
    (hchosen : o.isChosen choice = true) (ho : o.plain = o'.plain) (key : String) (child : CaId)
    (now : Time) :
    Alike choice m n (r.replaceChild key o child now) (r'.replaceChild key o' child now) where
  part := by
    have hchosen' : o'.isChosen choice = true := by
      rw [← hchosen]
      exact (congrArg (·.isChosen choice) ho).symm
    rw [part_replaceChild hchosen, part_replaceChild hchosen', h.part, ho]
  serial := h.serial

/-- A request is answered alike by both, for a child that the part is about. -/
theorem issueChild (hsign : signer.SignsAlike tell)
    (hchoice : choice (.child q.child.id) q.subjectKey = true) (h : Alike choice m n r r')
    (now : Time) (signings signings' : List Signing) :
    ((r.issueChild q signer now signings).1.map (·.plain)).mapError tell =
        ((r'.issueChild q signer now signings').1.map (·.plain)).mapError tell ∧
      Alike choice m n (r.issueChild q signer now signings).2.1
        (r'.issueChild q signer now signings').2.1 := by
  cases hkey : r.signingKey? with
  | none =>
    have hkey' : r'.signingKey? = none := by rw [← h.signingKey?, hkey]
    unfold KeyRing.issueChild
    rw [hkey, hkey']
    exact ⟨rfl, h⟩
  | some key =>
    have hkey' : r'.signingKey? = some key := by rw [← h.signingKey?, hkey]
    have hdirectory : r.directory = r'.directory := congrArg (·.directory) h.part
    have hdraft := draft_alike hsign hdirectory q key signings signings'
    obtain ⟨_, -, ⟨err, he, hrun⟩ | ⟨o, uri, ho, huri, hrun⟩⟩ :=
      issueChild_draft hkey q signer now signings <;>
    obtain ⟨_, -, ⟨err', he', hrun'⟩ | ⟨o', uri', ho', huri', hrun'⟩⟩ :=
      issueChild_draft hkey' q signer now signings'
    · rw [he, he'] at hdraft
      rw [hrun, hrun']
      exact ⟨congrArg Except.error (Except.error.inj hdraft), h.next⟩
    · rw [he, ho'] at hdraft
      cases hdraft
    · rw [ho, he'] at hdraft
      cases hdraft
    · rw [ho, ho'] at hdraft
      have hplain : o.plain = o'.plain := Except.ok.inj hdraft
      have hchosen : o.isChosen choice = true := by
        obtain ⟨der, -, hplace⟩ := draft_ok ho
        rw [isChosen_of_place hplace, hchoice]
      have hcertificate : o.certificate.plain = o'.certificate.plain :=
        congrArg (·.certificate) hplain
      have huri₂ : uri = uri' := by
        have huris : o.publicationUri = o'.publicationUri := congrArg (·.publicationUri) hplain
        rw [huri, huri'] at huris
        exact Option.some.inj huris
      rw [hrun, hrun', huri₂]
      refine ⟨?_, h.next.replaceChild hchosen hplain key q.child.id now⟩
      simp [Except.map, Except.mapError, IncomingCertificate.plain, hcertificate]

end Alike

end KeyRing

namespace Certification

variable {terms : CertificationTerms} {c d : Certification}

theorem lacksIncoming_plain (c : Certification) (ski : String) :
    { c with child := c.child.plain }.lacksIncoming ski = c.lacksIncoming ski := by
  unfold lacksIncoming
  rw [CertificateAuthority.keys?_plain]
  cases c.child.keys? with
  | none => rfl
  | some r =>
    simp only [Option.map_some, Option.bind_some, KeyRing.find?_plain, Option.any_map]
    cases r.find? ski with
    | none => rfl
    | some k => simp [KeyPair.plain]

theorem any_incoming_plain (ca : CertificateAuthority) :
    (ca.plain.keys?.any (·.pairs.any (·.incoming.isSome))) =
      ca.keys?.any (·.pairs.any (·.incoming.isSome)) := by
  rw [CertificateAuthority.keys?_plain]
  cases ca.keys? with
  | none => rfl
  | some r => simp [KeyRing.plain, KeyPair.plain, Function.comp_def]

/-- Two runs agree on the child and on a part of what its parent issued. -/
structure Alike (choice : CertificateChoice) (m n : Nat) (c d : Certification) : Prop where
  child : c.child.plain = d.child.plain
  parentKeys : c.parentKeys.Alike choice m n d.parentKeys

namespace Alike

theorem identity (h : Alike choice m n c d) : c.child.identity = d.child.identity := by
  rw [← c.child.identity_plain, h.child, d.child.identity_plain]

theorem subjectKeys (h : Alike choice m n c d) : c.child.subjectKeys = d.child.subjectKeys := by
  rw [← c.child.subjectKeys_plain, h.child, d.child.subjectKeys_plain]

theorem needsCertificate (hchoice : ∀ key, choice (.child terms.child) key = true)
    (h : Alike choice m n c d) (ski : String) :
    c.needsCertificate terms ski = d.needsCertificate terms ski := by
  have hserves : ∀ cert : OutgoingCertificate, serves terms cert.plain = serves terms cert :=
    fun _ => rfl
  have hvalid : (c.parentKeys.validChild terms.child ski).any (serves terms) =
      (d.parentKeys.validChild terms.child ski).any (serves terms) := by
    rw [← KeyRing.any_validChild_part (hchoice ski) hserves c.parentKeys, h.parentKeys.part,
      KeyRing.any_validChild_part (hchoice ski) hserves]
  have hlacks : c.lacksIncoming ski = d.lacksIncoming ski := by
    rw [← c.lacksIncoming_plain, h.child]
    exact d.lacksIncoming_plain ski
  rw [Certification.needsCertificate, hvalid, hlacks, Certification.needsCertificate]

theorem isHeld (hchoice : ∀ key, choice (.child c.child.id) key = true)
    (h : Alike choice m n c d) : c.isHeld = d.isHeld := by
  have hid : c.child.id = d.child.id := congrArg (·.id) h.identity
  have hcount : 0 < c.parentKeys.countChild c.child.id none ↔
      0 < d.parentKeys.countChild d.child.id none := by
    rw [Nat.pos_iff_ne_zero, Nat.pos_iff_ne_zero, ← hid, ne_eq, ne_eq,
      ← KeyRing.countChild_part hchoice, h.parentKeys.part, KeyRing.countChild_part hchoice]
  rw [Certification.isHeld, ← any_incoming_plain, h.child, any_incoming_plain,
    decide_eq_decide.mpr hcount, Certification.isHeld]

theorem withdraw (h : Alike choice m n c d) (now : Time) :
    Alike choice m n (c.withdraw now) (d.withdraw now) where
  child := by
    have hclear := CertificateAuthority.plain_modifyKeys KeyRing.plain_clearIncoming
    change (c.child.modifyKeys _).plain = (d.child.modifyKeys _).plain
    rw [hclear, hclear, h.child]
  parentKeys := by
    have hid : c.child.id = d.child.id := congrArg (·.id) h.identity
    unfold Certification.withdraw
    rw [← hid]
    exact h.parentKeys.revokeChild c.child.id none now

theorem deliver {inc inc' : IncomingCertificate} (h : Alike choice m n c d)
    (hinc : inc.plain = inc'.plain) (ski : String) :
    Alike choice m n (c.deliver ski inc) (d.deliver ski inc') where
  child := by
    have hreceive : ∀ (ca : CertificateAuthority) (i : IncomingCertificate),
        (ca.modifyKeys (·.modify ski (·.receive i))).plain =
          ca.plain.modifyKeys (·.modify ski (·.receive i.plain)) :=
      fun ca i => ca.plain_modifyKeys fun r => r.plain_receive ski i
    change (c.child.modifyKeys _).plain = (d.child.modifyKeys _).plain
    rw [hreceive, hreceive, h.child, hinc]
  parentKeys := h.parentKeys

theorem issue (hsign : terms.sign.SignsAlike tell)
    (hchoice : ∀ key, choice (.child c.child.id) key = true) (h : Alike choice m n c d)
    (ski : String) :
    (c.issue terms ski).1.mapError tell = (d.issue terms ski).1.mapError tell ∧
      Alike choice m n (c.issue terms ski).2 (d.issue terms ski).2 := by
  obtain ⟨hanswer, hkeys⟩ := h.parentKeys.issueChild
    (q := ⟨c.child.identity, ski, terms.resources, terms.validity⟩) hsign (hchoice ski) terms.now
    c.signings d.signings
  unfold Certification.issue
  rw [← h.identity]
  generalize c.parentKeys.issueChild _ _ _ _ = issued at hanswer hkeys ⊢
  generalize d.parentKeys.issueChild _ _ _ _ = issued' at hanswer hkeys ⊢
  obtain ⟨answer, keys, signings⟩ := issued
  obtain ⟨answer', keys', signings'⟩ := issued'
  cases answer with
  | error err =>
    cases answer' with
    | error err' => exact ⟨congrArg Except.error (Except.error.inj hanswer), h.child, hkeys⟩
    | ok inc' => cases hanswer
  | ok inc =>
    cases answer' with
    | error err' => cases hanswer
    | ok inc' =>
      have hstored : Alike choice m n { c with parentKeys := keys, signings := signings }
          { d with parentKeys := keys', signings := signings' } := ⟨h.child, hkeys⟩
      exact ⟨rfl, hstored.deliver (Except.ok.inj hanswer) ski⟩

theorem certify (hsign : terms.sign.SignsAlike tell)
    (hchoice : ∀ key, choice (.child terms.child) key = true) (hid : c.child.id = terms.child)
    (h : Alike choice m n c d) (keys : List String) :
    (c.certify terms keys).1.mapError tell = (d.certify terms keys).1.mapError tell ∧
      Alike choice m n (c.certify terms keys).2 (d.certify terms keys).2 := by
  induction keys generalizing c d with
  | nil => exact ⟨rfl, h⟩
  | cons ski rest ih =>
    unfold Certification.certify
    rw [← h.needsCertificate hchoice ski]
    split
    · obtain ⟨hissue, hissued⟩ := h.issue hsign (hid ▸ hchoice) ski
      have hid' := (id_issue_child terms c ski).trans hid
      generalize c.issue terms ski = issued at hissue hissued hid' ⊢
      generalize d.issue terms ski = issued' at hissue hissued ⊢
      obtain ⟨r, c₁⟩ := issued
      obtain ⟨r', d₁⟩ := issued'
      cases r with
      | error err =>
        cases r' with
        | error err' => exact ⟨congrArg Except.error (Except.error.inj hissue), hissued⟩
        | ok u => cases hissue
      | ok u =>
        cases r' with
        | error err' => cases hissue
        | ok u' =>
          obtain ⟨hrest, hdone⟩ := ih hid' hissued
          refine ⟨?_, hdone⟩
          dsimp only
          rw [mapError_map, mapError_map, hrest]
    · exact ih hid h

/-- Bringing certificates in line comes to the same for the child, whatever else its parent
issued. -/
theorem align (hsign : terms.sign.SignsAlike tell)
    (hchoice : ∀ key, choice (.child terms.child) key = true) (hid : c.child.id = terms.child)
    (h : Alike choice m n c d) :
    (c.align terms).1.mapError tell = (d.align terms).1.mapError tell ∧
      Alike choice m n (c.align terms).2 (d.align terms).2 := by
  unfold Certification.align
  split
  · have hheld := h.isHeld (hid ▸ hchoice)
    exact ⟨congrArg Except.ok hheld, h.withdraw terms.now⟩
  · rw [← h.subjectKeys]
    exact h.certify hsign hchoice hid _

end Alike

end Certification

end ResourcePki
