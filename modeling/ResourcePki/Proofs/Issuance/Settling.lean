import ResourcePki.Proofs.Issuance.Alignment

/-! Certificates that are in line stay untouched, and success in bringing them in line leaves them
so. `Served` says this of one key, for any property `Q` of the certificate that it has. -/

namespace ResourcePki.Certification

open OutgoingCertificate

variable {terms : CertificationTerms} {c c' : Certification} {Q : OutgoingCertificate → Prop}

/-- A key has a valid certificate with the property, and the child holds one for it. -/
structure Served (Q : OutgoingCertificate → Prop) (c : Certification) (ski : String) : Prop where
  issued : ∃ o, c.parentKeys.validChild c.child.id ski = some o ∧ Q o
  delivered : c.lacksIncoming ski = false

theorem needsCertificate_eq_false_iff {ski : String} (hid : c.child.id = terms.child) :
    c.needsCertificate terms ski = false ↔ Served (serves terms · = true) c ski := by
  unfold needsCertificate
  rw [Bool.or_eq_false_iff, Bool.not_eq_false', Option.any_eq_true, ← hid]
  exact ⟨fun h => ⟨h.1, h.2⟩, fun h => ⟨h.issued, h.delivered⟩⟩

section issue

variable {ski : String} {o : OutgoingCertificate} {inc : IncomingCertificate}

theorem lacksIncoming_receive_self (c : Certification) (ski : String) (inc : IncomingCertificate)
    (parentKeys : KeyRing) (signings : List Signing) :
    lacksIncoming ⟨parentKeys, c.child.modifyKeys (·.modify ski (·.receive inc)), signings⟩ ski =
      false := by
  unfold lacksIncoming
  dsimp only
  rw [CertificateAuthority.keys?_modifyKeys]
  cases c.child.keys? with
  | none => rfl
  | some r =>
    rw [Option.map_some, Option.bind_some, r.find?_modify_self fun k => k.ski_receive inc]
    cases r.find? ski with
    | none => rfl
    | some k =>
      rw [Option.map_some, Option.any_some, k.incoming_receive]
      rfl

theorem lacksIncoming_receive_ne (c : Certification) {ski ski' : String} (hne : ski ≠ ski')
    (inc : IncomingCertificate) (parentKeys : KeyRing) (signings : List Signing) :
    lacksIncoming ⟨parentKeys, c.child.modifyKeys (·.modify ski (·.receive inc)), signings⟩ ski' =
      c.lacksIncoming ski' := by
  unfold lacksIncoming
  dsimp only
  rw [CertificateAuthority.keys?_modifyKeys]
  cases c.child.keys? with
  | none => rfl
  | some r =>
    rw [Option.map_some, Option.bind_some, r.find?_modify_ne (fun k => k.ski_receive inc) hne]
    rfl

variable (hissued : KeyRing.Issued ⟨c.child.identity, ski, terms.resources, terms.validity⟩
    c.parentKeys c'.parentKeys o inc)
  (hchild : c'.child = c.child.modifyKeys (·.modify ski (·.receive inc)))

include hchild

theorem id_issue : c'.child.id = c.child.id := by
  rw [hchild, CertificateAuthority.id_modifyKeys]

include hissued

theorem served_issue_self (ho : Q o) : Served Q c' ski := by
  refine ⟨⟨o, ?_, ho⟩, ?_⟩
  · have hself : c'.parentKeys.validFor c.child.id ski = [o] := hissued.validFor_self
    rw [id_issue hchild, KeyRing.validChild_eq, hself, List.head?_cons]
  · obtain ⟨parentKeys, child, signings⟩ := c'
    subst hchild
    exact c.lacksIncoming_receive_self ski inc parentKeys signings

theorem Served.issue {ski' : String} (h : Served Q c ski') (ho : Q o) : Served Q c' ski' := by
  by_cases hski : ski = ski'
  · exact hski ▸ served_issue_self hissued hchild ho
  · refine ⟨?_, ?_⟩
    · rw [id_issue hchild, KeyRing.validChild_eq,
        hissued.validFor_other _ _ fun h => hski h.2.symm, ← KeyRing.validChild_eq]
      exact h.issued
    · obtain ⟨parentKeys, child, signings⟩ := c'
      subst hchild
      rw [c.lacksIncoming_receive_ne hski inc parentKeys signings]
      exact h.delivered

end issue

/-- After success every key that was gone through is served, and so is every key that was before. -/
theorem certify_served (hserves : ∀ o, serves terms o = true → Q o)
    (hfresh : ∀ o : OutgoingCertificate, o.resources = terms.resources →
      o.certificate.validity = terms.validity → Q o)
    {keys : List String} {b : Bool} (hid : c.child.id = terms.child)
    (h : certify terms keys c = (.ok b, c')) :
    (∀ ski, Served Q c ski → Served Q c' ski) ∧ ∀ ski ∈ keys, Served Q c' ski := by
  induction keys generalizing c b with
  | nil =>
    obtain ⟨-, rfl⟩ := Prod.mk.inj h
    exact ⟨fun _ hc => hc, fun ski hski => nomatch hski⟩
  | cons ski rest ih =>
    obtain ⟨hneeds, hcertify⟩ | ⟨-, c₁, b₁, hissue, hcertify⟩ := certify_cons_ok h
    -- This key is left alone, and stays served while the others get theirs.
    · obtain ⟨hkeep, hrest⟩ := ih hid hcertify
      have hserved := (needsCertificate_eq_false_iff hid).mp hneeds
      obtain ⟨o, ho, hq⟩ := hserved.issued
      refine ⟨hkeep, List.forall_mem_cons.mpr ⟨?_, hrest⟩⟩
      exact hkeep ski ⟨⟨o, ho, hserves o hq⟩, hserved.delivered⟩
    · obtain ⟨o, inc, hissued, hchild⟩ := issue_ok hissue
      have ho : Q o := hfresh o (congrArg CertificateTemplate.resources hissued.template)
        (congrArg CertificateTemplate.validity hissued.template)
      obtain ⟨hkeep, hrest⟩ := ih ((id_issue hchild).trans hid) hcertify
      refine ⟨fun ski' hski' => hkeep ski' (hski'.issue hissued hchild ho), ?_⟩
      refine List.forall_mem_cons.mpr ⟨?_, hrest⟩
      exact hkeep ski (served_issue_self hissued hchild ho)

theorem certify_of_not_needs {keys : List String}
    (h : ∀ ski ∈ keys, c.needsCertificate terms ski = false) :
    certify terms keys c = (.ok false, c) := by
  induction keys with
  | nil => rfl
  | cons ski rest ih =>
    obtain ⟨hski, hrest⟩ := List.forall_mem_cons.mp h
    rw [certify, hski, if_neg Bool.false_ne_true, ih hrest]

theorem certify_false {keys : List String} (h : certify terms keys c = (.ok false, c')) :
    c' = c := by
  induction keys with
  | nil =>
    obtain ⟨-, rfl⟩ := Prod.mk.inj h
    rfl
  | cons ski rest ih =>
    obtain ⟨-, hcertify⟩ | ⟨hb, -⟩ := certify_cons_ok h
    · exact ih hcertify
    · cases hb

/-! Withdrawing -/

theorem isHeld_eq_false_iff : c.isHeld = false ↔
    c.parentKeys.countChild c.child.id none = 0 ∧ ∀ k ∈ c.child.pairs, k.incoming = none := by
  unfold isHeld CertificateAuthority.pairs
  rw [Bool.or_eq_false_iff, decide_eq_false_iff_not, Nat.pos_iff_ne_zero, not_not]
  refine and_congr_right fun _ => ?_
  cases c.child.keys? with
  | none => simp
  | some r => simp

theorem withdraw_of_not_isHeld {now : Time} (h : c.isHeld = false) : c.withdraw now = c := by
  obtain ⟨hcount, hincoming⟩ := isHeld_eq_false_iff.mp h
  have hchild : c.child.modifyKeys (·.clearIncoming) = c.child := by
    refine (CertificateAuthority.modifyKeys_congr fun r hr => ?_).trans c.child.modifyKeys_id
    refine KeyRing.clearIncoming_of_none fun k hk => hincoming k ?_
    rw [CertificateAuthority.pairs, hr]
    exact hk
  unfold withdraw
  rw [KeyRing.revokeChild_of_countChild hcount, hchild]

theorem isHeld_withdraw (now : Time) (c : Certification) : (c.withdraw now).isHeld = false := by
  refine isHeld_eq_false_iff.mpr ⟨?_, fun k hk => mem_pairs_clearIncoming hk⟩
  have hid : (c.withdraw now).child.id = c.child.id := CertificateAuthority.id_modifyKeys _ _
  rw [hid]
  exact c.parentKeys.countChild_revokeChild c.child.id now

/-! In line -/

/-- Nothing is left to do for the child: it has the certificates that it is to have, or none. -/
def InLine (terms : CertificationTerms) (c : Certification) : Prop :=
  if terms.resources.isEmpty then c.isHeld = false
  else ∀ ski ∈ c.child.subjectKeys, c.needsCertificate terms ski = false

theorem align_of_inLine (h : InLine terms c) : align terms c = (.ok false, c) := by
  unfold InLine at h
  unfold align
  split
  · rename_i hempty
    rw [if_pos hempty] at h
    rw [h, withdraw_of_not_isHeld h]
  · rename_i hsome
    rw [if_neg hsome] at h
    exact certify_of_not_needs h

theorem align_false (h : align terms c = (.ok false, c')) : c' = c := by
  unfold align at h
  split at h
  · obtain ⟨hheld, rfl⟩ := Prod.mk.inj h
    exact withdraw_of_not_isHeld (Except.ok.inj hheld)
  · exact certify_false h

theorem align_served (hserves : ∀ o, serves terms o = true → Q o)
    (hfresh : ∀ o : OutgoingCertificate, o.resources = terms.resources →
      o.certificate.validity = terms.validity → Q o)
    {b : Bool} (hid : c.child.id = terms.child) (hsome : terms.resources.isEmpty = false)
    (h : align terms c = (.ok b, c')) : ∀ ski ∈ c'.child.subjectKeys, Served Q c' ski := by
  have hframe := Frame.steps (align_steps h)
  rw [CertificateAuthority.of_trunk CertificateAuthority.subjectKeys_trunk hframe.trunk]
  unfold align at h
  rw [if_neg (by rw [hsome]; exact Bool.false_ne_true)] at h
  exact (certify_served hserves hfresh hid h).2

theorem inLine_align (hterms : ¬ terms.validity.notAfter < terms.renewBefore) {b : Bool}
    (hid : c.child.id = terms.child) (h : align terms c = (.ok b, c')) : InLine terms c' := by
  have hframe := Frame.steps (align_steps h)
  have hid' : c'.child.id = terms.child :=
    (CertificateAuthority.of_trunk CertificateAuthority.id_trunk hframe.trunk).trans hid
  unfold InLine
  split
  · rename_i hempty
    unfold align at h
    rw [if_pos hempty] at h
    obtain ⟨-, rfl⟩ := Prod.mk.inj h
    exact isHeld_withdraw terms.now c
  · rename_i hsome
    intro ski hski
    refine (needsCertificate_eq_false_iff hid').mpr ?_
    refine align_served (fun _ h => h) (fun o hresources hvalidity => ?_) hid
      (Bool.eq_false_iff.mpr hsome) h ski hski
    -- A new certificate is not due for renewal yet.
    have hnotAfter : ¬ o.notAfter < terms.renewBefore := by
      rw [notAfter, hvalidity]
      exact hterms
    rw [serves, hresources, ResourceSet.equivalent_iff.mpr rfl, decide_eq_false hnotAfter]
    rfl

theorem lacksIncoming_eq (c : Certification) (ski : String) : c.lacksIncoming ski =
    (c.child.pairs.find? (·.ski = ski)).any (·.incoming.isNone) := by
  unfold lacksIncoming CertificateAuthority.pairs
  cases c.child.keys? <;> rfl

theorem any_find?_face (ski : String) (ca : CertificateAuthority) :
    (ca.face.pairs.find? (·.ski = ski)).any (·.incoming.isNone) =
      (ca.pairs.find? (·.ski = ski)).any (·.incoming.isNone) := by
  rw [CertificateAuthority.pairs_face, List.find?_map]
  change (Option.map _ (ca.pairs.find? (·.ski = ski))).any _ = _
  cases ca.pairs.find? (·.ski = ski) <;> rfl

theorem InLine.congr {keys keys' : KeyRing} {child child' : CertificateAuthority}
    {signings signings' : List Signing} (hid : child.id = terms.child)
    (hkeys : ∀ key, keys'.validFor child.id key = keys.validFor child.id key)
    (hface : child'.face = child.face) (h : InLine terms ⟨keys, child, signings⟩) :
    InLine terms ⟨keys', child', signings'⟩ := by
  have hid' : child'.id = child.id :=
    CertificateAuthority.of_face CertificateAuthority.id_face hface
  unfold InLine at h ⊢
  split at h
  · rename_i hempty
    rw [if_pos hempty]
    obtain ⟨hcount, hincoming⟩ := isHeld_eq_false_iff.mp h
    refine isHeld_eq_false_iff.mpr ⟨?_, fun k' hk' => ?_⟩
    · rw [KeyRing.countChild_none_eq_zero_iff] at hcount ⊢
      intro key
      rw [hid', hkeys]
      exact hcount key
    · obtain ⟨k, hk, hshell⟩ := CertificateAuthority.exists_shell_of_face hface hk'
      rw [← show k.incoming = k'.incoming from congrArg (·.incoming) hshell]
      exact hincoming k hk
  · rename_i hsome
    rw [if_neg hsome]
    intro ski hski
    -- What is asked of a key is on the face of the child and among the certificates for it.
    rw [CertificateAuthority.of_face CertificateAuthority.subjectKeys_face hface] at hski
    obtain ⟨hissued, hdelivered⟩ := (needsCertificate_eq_false_iff hid).mp (h ski hski)
    refine (needsCertificate_eq_false_iff (hid'.trans hid)).mpr ⟨?_, ?_⟩
    · rw [KeyRing.validChild_eq, hid', hkeys, ← KeyRing.validChild_eq]
      exact hissued
    · rw [lacksIncoming_eq] at hdelivered ⊢
      have hsame := CertificateAuthority.of_face
        (g := fun ca => (ca.pairs.find? (·.ski = ski)).any (·.incoming.isNone))
        (any_find?_face ski) hface
      exact hsame.trans hdelivered

end ResourcePki.Certification
