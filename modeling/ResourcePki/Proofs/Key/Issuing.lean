import ResourcePki.Proofs.Key.Ring

/-! What it comes to when a ring issues a certificate to a child: the certificate is the only valid
one for the key of the child, and whatever concerns other keys or other children stays. -/

namespace ResourcePki

namespace KeyRing

open OutgoingCertificate

variable {r r' : KeyRing} {q : ChildRequest} {o : OutgoingCertificate} {inc : IncomingCertificate}

/-- The ring `r'` is `r` after it answered the request with the certificate `o`, which the child
receives as `inc`. -/
structure Issued (q : ChildRequest) (r r' : KeyRing) (o : OutgoingCertificate)
    (inc : IncomingCertificate) : Prop where
  template : o.certificate.toCertificateTemplate = q.template r.nextSerial
  subject : o.subject = .child q.child.id
  isValid : o.isValid = true
  records : o.Records inc
  inherited : inc.inherited = ∅
  face : r'.face = r.face
  validFor_self : r'.validFor q.child.id q.subjectKey = [o]
  validFor_other : ∀ child key, ¬ (child = q.child.id ∧ key = q.subjectKey) →
    r'.validFor child key = r.validFor child key
  recorded : ∀ c ∈ r.outgoing, ∃ d ∈ r'.outgoing, SameRecord c d
  origin : ∀ c ∈ r'.valid, c = o ∨ c ∈ r.valid

theorem concerns_some (child : CaId) (key : String) (c : OutgoingCertificate) :
    KeyPair.concerns (.child child) (some key) c = (c.isFor child key && c.isValid) := rfl

theorem validFor_revokeChild (r : KeyRing) (child : CaId) (key : String) (now : Time)
    (d : CaId) (k : String) : (r.revokeChild child (some key) now).validFor d k =
      if d = child ∧ k = key then [] else r.validFor d k := by
  unfold validFor
  rw [valid_revokeChild, List.filter_filter]
  split
  · rename_i h
    obtain ⟨rfl, rfl⟩ := h
    refine List.filter_eq_nil_iff.mpr fun c hc => ?_
    have hvalid : c.isValid = true := by
      rw [valid_eq] at hc
      exact (List.mem_filter.mp hc).2
    rw [concerns_some, hvalid, Bool.and_true, Bool.and_not_self]
    exact Bool.false_ne_true
  · rename_i h
    refine List.filter_congr fun c _ => ?_
    cases hfor : c.isFor d k with
    | false => rfl
    -- A certificate that is for one key of one child is for no other.
    | true =>
      obtain ⟨hd, hk⟩ := isFor_iff.mp hfor
      have hother : c.isFor child key = false := by
        refine Bool.eq_false_iff.mpr fun hc => h ?_
        obtain ⟨hchild, hkey⟩ := isFor_iff.mp hc
        exact ⟨Subject.child.inj (hd.symm.trans hchild), hk.symm.trans hkey⟩
      rw [concerns_some, hother]
      rfl

theorem skis_eq_shells (r : KeyRing) : r.skis = r.shells.map (·.ski) := by
  rw [shells, List.map_map]
  rfl

theorem skis_revokeChild (r : KeyRing) (child : CaId) (key : Option String) (now : Time) :
    (r.revokeChild child key now).skis = r.skis := by
  rw [skis_eq_shells, shells_revokeChild, ← skis_eq_shells]

theorem face_revokeChild (r : KeyRing) (child : CaId) (key : Option String) (now : Time) :
    (r.revokeChild child key now).face = r.face := by
  rw [face, shells_revokeChild]
  rfl

theorem face_replaceChild (r : KeyRing) (key : String) (c : OutgoingCertificate) (child : CaId)
    (now : Time) : (r.replaceChild key c child now).face = r.face := by
  have hshells : (r.replaceChild key c child now).shells = r.shells := by
    rw [replaceChild, shells_addOutgoing, shells_revokeChild]
  rw [face, hshells]
  rfl

/-- A certificate that is put in place of the one before has its place alone. -/
theorem issued_replaceChild {key : String} {now : Time} (hkey : key ∈ r.skis)
    (htemplate : o.certificate.toCertificateTemplate = q.template r.nextSerial)
    (hsubject : o.subject = .child q.child.id) (hcurrent : o.status = .current)
    (hrecords : o.Records inc) (hinherited : inc.inherited = ∅) :
    Issued q r ({ r with nextSerial := r.nextSerial + 1 }.replaceChild key o q.child.id now)
      o inc := by
  have hsubjectKey : o.certificate.subjectKey = q.subjectKey :=
    congrArg CertificateTemplate.subjectKey htemplate
  have hvalid : o.isValid = true := isValid_iff.mpr hcurrent
  have hself : o.isFor q.child.id q.subjectKey = true := isFor_iff.mpr ⟨hsubject, hsubjectKey⟩
  let next : KeyRing := { r with nextSerial := r.nextSerial + 1 }
  -- Revoking makes room first: `before` has no valid certificate for the key of the child.
  let before := next.revokeChild q.child.id (some o.certificate.subjectKey) now
  have hbefore : key ∈ before.skis := by
    rw [skis_revokeChild]
    exact hkey
  refine ⟨htemplate, hsubject, hvalid, hrecords, hinherited, ?_, ?_, ?_, ?_, ?_⟩
  · rw [face_replaceChild]
    rfl
  · refine validFor_addOutgoing_self hbefore hself hvalid ?_
    rw [validFor_revokeChild, if_pos ⟨rfl, hsubjectKey.symm⟩]
  · intro child k hne
    have hnot : o.isFor child k = false := by
      refine Bool.eq_false_iff.mpr fun hfor => hne ?_
      obtain ⟨hc, hk⟩ := isFor_iff.mp hfor
      exact ⟨Subject.child.inj (hc.symm.trans hsubject), hk.symm.trans hsubjectKey⟩
    rw [replaceChild, validFor_addOutgoing_of_not_isFor hnot, validFor_revokeChild,
      if_neg (by rwa [hsubjectKey])]
    rfl
  · intro c hc
    obtain ⟨d, hd, hsame⟩ : ∃ d ∈ (next.revokeChild q.child.id
        (some o.certificate.subjectKey) now).outgoing, SameRecord c d := sameRecord_revokeChild hc
    have hperm := outgoing_addOutgoing_perm (c := o) hbefore
    exact ⟨d, hperm.mem_iff.mpr (List.mem_cons_of_mem _ hd), hsame⟩
  · intro c hc
    rw [valid_eq, List.mem_filter] at hc
    obtain ⟨hc, hcv⟩ := hc
    rcases List.mem_cons.mp ((outgoing_addOutgoing_perm (c := o) hbefore).mem_iff.mp hc) with h | h
    · exact .inl h
    · refine .inr ?_
      have hmem : c ∈ before.valid := by
        rw [valid_eq, List.mem_filter]
        exact ⟨h, hcv⟩
      rw [valid_revokeChild] at hmem
      exact (List.mem_filter.mp hmem).1

theorem signingKey?_mem {key : String} (h : r.signingKey? = some key) : key ∈ r.skis := by
  obtain ⟨k, hk, rfl⟩ := Option.map_eq_some_iff.mp h
  exact List.mem_map_of_mem (List.mem_of_find?_eq_some (Option.mem_filter_iff.mp hk).1)

theorem find?_isSome_of_mem {key : String} (h : key ∈ r.skis) : (r.find? key).isSome = true := by
  obtain ⟨k, hk, hski⟩ := List.mem_map.mp h
  rw [find?, List.find?_isSome]
  exact ⟨k, hk, by simp [hski]⟩

/-- Revoking takes no key away, so the one that signed is found again. -/
theorem exists_find?_revokeChild {key : String} (h : r.signingKey? = some key) (child : CaId)
    (subjectKey : Option String) (now : Time) :
    ∃ k, ({ r with nextSerial := r.nextSerial + 1 }.revokeChild child subjectKey now).find? key =
      some k := by
  apply Option.isSome_iff_exists.mp
  apply find?_isSome_of_mem
  rw [skis_revokeChild]
  exact signingKey?_mem h

/-- A certificate always gets a name and a directory. -/
theorem place_eq (r : KeyRing) (q : ChildRequest) (template : CertificateTemplate) (der : Bytes) :
    r.place q template der = publish { template with der } (.child q.child.id)
      s!"{q.subjectKey}.cer" r.directory := rfl

theorem place_ok {template : CertificateTemplate} {der : Bytes} {c : OutgoingCertificate}
    (h : r.place q template der = .ok c) :
    c.certificate = { template with der } ∧ c.subject = .child q.child.id ∧
      c.status = .current := by
  obtain ⟨object, uri, -, -, rfl⟩ := publish_ok h
  exact ⟨rfl, rfl, rfl⟩

variable {signer : Signer} {now : Time} {signings signings' : List Signing}

/-- What a request for a certificate comes to: nothing without a signing key; else the signer is
asked with that key and the next serial number, which is used up whether it signs or not. -/
inductive Answered (r : KeyRing) (q : ChildRequest) (signer : Signer) (now : Time)
    (signings : List Signing) :
    Except Error IncomingCertificate → KeyRing → List Signing → Prop
  | unable {err : Error} (hkey : r.signingKey? = none) :
      Answered r q signer now signings (.error err) r signings
  | refused {key : String} {outcome : Except Error Bytes} {err : Error}
      (hkey : r.signingKey? = some key)
      (hsigned : signer signings key (q.template r.nextSerial) = outcome) :
      Answered r q signer now signings (.error err) { r with nextSerial := r.nextSerial + 1 }
        (⟨key, q.template r.nextSerial, outcome⟩ :: signings)
  | issued {key : String} {der : Bytes} {o : OutgoingCertificate} {uri : RsyncUri}
      (hkey : r.signingKey? = some key)
      (hsigned : signer signings key (q.template r.nextSerial) = .ok der)
      (hplace : r.place q (q.template r.nextSerial) der = .ok o)
      (huri : o.publicationUri = some uri) :
      Answered r q signer now signings
        (.ok { certificate := o.certificate, publicationUri := uri, inherited := ∅ })
        ({ r with nextSerial := r.nextSerial + 1 }.replaceChild key o q.child.id now)
        (⟨key, q.template r.nextSerial, .ok der⟩ :: signings)

/-- The certificate for a request, before it is stored. -/
def draft (r : KeyRing) (q : ChildRequest) (signer : Signer) (signings : List Signing)
    (key : String) : Except Error OutgoingCertificate := do
  let der ← signer signings key (q.template r.nextSerial)
  r.place q (q.template r.nextSerial) der

theorem draft_ok {key : String} (h : r.draft q signer signings key = .ok o) :
    ∃ der, signer signings key (q.template r.nextSerial) = .ok der ∧
      r.place q (q.template r.nextSerial) der = .ok o := by
  unfold draft at h
  cases hsigned : signer signings key (q.template r.nextSerial) with
  | error err =>
    rw [hsigned] at h
    cases h
  | ok der =>
    rw [hsigned] at h
    exact ⟨der, rfl, h⟩

/-- With a key to sign with, a certificate that comes to be is stored. If none comes to be, only a
serial number is used up. -/
theorem issueChild_draft {key : String} (hkey : r.signingKey? = some key) (q : ChildRequest)
    (signer : Signer) (now : Time) (signings : List Signing) :
    ∃ signings', signings' =
        ⟨key, q.template r.nextSerial, signer signings key (q.template r.nextSerial)⟩ :: signings ∧
      ((∃ err, r.draft q signer signings key = .error err ∧
        r.issueChild q signer now signings =
          (.error err, { r with nextSerial := r.nextSerial + 1 }, signings')) ∨
      ∃ o uri, r.draft q signer signings key = .ok o ∧ o.publicationUri = some uri ∧
        r.issueChild q signer now signings =
          (.ok { certificate := o.certificate, publicationUri := uri, inherited := ∅ },
            { r with nextSerial := r.nextSerial + 1 }.replaceChild key o q.child.id now,
            signings')) := by
  refine ⟨_, rfl, ?_⟩
  unfold issueChild draft
  rw [hkey]
  dsimp only
  cases signer signings key (q.template r.nextSerial) with
  | error err => exact .inl ⟨err, rfl, rfl⟩
  | ok der =>
    dsimp only
    cases hplace : r.place q (q.template r.nextSerial) der with
    | error err => exact .inl ⟨err, hplace, rfl⟩
    | ok o =>
      obtain ⟨uri, huri⟩ : ∃ uri, o.publicationUri = some uri := by
        obtain ⟨object, uri, -, -, rfl⟩ := publish_ok hplace
        exact ⟨uri, rfl⟩
      obtain ⟨k, hk⟩ := exists_find?_revokeChild hkey q.child.id (some q.subjectKey) now
      refine .inr ⟨o, uri, hplace, huri, ?_⟩
      dsimp only
      rw [huri]
      dsimp only
      rw [hk]

theorem issueChild_answered (r : KeyRing) (q : ChildRequest) (signer : Signer) (now : Time)
    (signings : List Signing) :
    Answered r q signer now signings (r.issueChild q signer now signings).1
      (r.issueChild q signer now signings).2.1 (r.issueChild q signer now signings).2.2 := by
  cases hkey : r.signingKey? with
  | none =>
    unfold issueChild
    rw [hkey]
    exact .unable hkey
  | some key =>
    obtain ⟨_, rfl, ⟨err, -, hrun⟩ | ⟨o, uri, hdraft, huri, hrun⟩⟩ :=
      issueChild_draft hkey q signer now signings
    · rw [hrun]
      exact .refused hkey rfl
    · obtain ⟨der, hsigned, hplace⟩ := draft_ok hdraft
      rw [hrun, hsigned]
      exact .issued hkey hsigned hplace huri

theorem issueChild_ok (h : r.issueChild q signer now signings = (.ok inc, r', signings')) :
    ∃ o, Issued q r r' o inc := by
  have hanswered := r.issueChild_answered q signer now signings
  rw [h] at hanswered
  cases hanswered with
  | @issued key der o uri hkey _ hplace huri =>
    obtain ⟨hcertificate, hsubject, hcurrent⟩ := place_ok hplace
    refine ⟨o, issued_replaceChild (signingKey?_mem hkey) ?_ hsubject hcurrent ⟨rfl, huri⟩ rfl⟩
    rw [hcertificate]

theorem nextSerial_issueChild
    (h : r.issueChild q signer now signings = (.ok inc, r', signings')) :
    r'.nextSerial = r.nextSerial + 1 := by
  have hanswered := r.issueChild_answered q signer now signings
  rw [h] at hanswered
  cases hanswered with
  | issued => rfl

theorem issueChild_signings (r : KeyRing) (q : ChildRequest) (signer : Signer) (now : Time)
    (signings : List Signing) : signings <:+ (r.issueChild q signer now signings).2.2 := by
  have hanswered := r.issueChild_answered q signer now signings
  generalize r.issueChild q signer now signings = result at hanswered ⊢
  obtain ⟨answer, r', signings'⟩ := result
  cases hanswered with
  | unable => exact List.suffix_rfl
  | refused => exact List.suffix_cons _ signings
  | issued => exact List.suffix_cons _ signings

end KeyRing

end ResourcePki
