import ResourcePki.Proofs.Issuance.Certification
import Mathlib.Logic.Relation

/-! What success in bringing certificates in line says of a parent and a child. `Frame` is what it
leaves alone; `Single`, `Held` and `Recorded` tie the certificates that the parent recorded to
those that the child holds; `InLine` says that nothing is left to do. -/

namespace ResourcePki.Certification

open OutgoingCertificate

variable {terms : CertificationTerms} {c c' c'' : Certification}

/-! What every step leaves alone -/

/-- A step changes what the parent issued to this child, and what the child holds. -/
structure Frame (c c' : Certification) : Prop where
  face : c'.parentKeys.face = c.parentKeys.face
  trunk : c'.child.trunk = c.child.trunk
  other : ∀ d, d ≠ c.child.id → ∀ key,
    c'.parentKeys.validFor d key = c.parentKeys.validFor d key
  recorded : ∀ o ∈ c.parentKeys.outgoing, ∃ o' ∈ c'.parentKeys.outgoing, SameRecord o o'
  origin : ∀ o ∈ c'.parentKeys.valid, o ∈ c.parentKeys.valid ∨
    (o.subject = .child c.child.id ∧ o.certificate.subjectKey ∈ c.child.subjectKeys)

theorem Frame.refl (c : Certification) : Frame c c :=
  ⟨rfl, rfl, fun _ _ _ => rfl, fun o ho => ⟨o, ho, .refl o⟩, fun _ ho => .inl ho⟩

theorem Frame.trans (h : Frame c c') (h' : Frame c' c'') : Frame c c'' := by
  have hid : c'.child.id = c.child.id := CertificateAuthority.of_trunk (g := (·.id))
    CertificateAuthority.id_trunk h.trunk
  have hkeys : c'.child.subjectKeys = c.child.subjectKeys := CertificateAuthority.of_trunk
    CertificateAuthority.subjectKeys_trunk h.trunk
  refine ⟨h'.face.trans h.face, h'.trunk.trans h.trunk, ?_, ?_, ?_⟩
  · intro d hd key
    exact (h'.other d (hid ▸ hd) key).trans (h.other d hd key)
  · intro o ho
    obtain ⟨o', ho', hsame⟩ := h.recorded o ho
    obtain ⟨o'', ho'', hsame'⟩ := h'.recorded o' ho'
    exact ⟨o'', ho'', hsame.trans hsame'⟩
  · intro o ho
    rcases h'.origin o ho with h₁ | h₁
    · exact h.origin o h₁
    · exact .inr (by rwa [hid, hkeys] at h₁)

theorem Frame.step (h : Step terms c c') : Frame c c' := by
  cases h with
  | @issue _ ski o inc hski hissued hchild =>
    refine ⟨hissued.face, ?_, ?_, hissued.recorded, ?_⟩
    · rw [hchild]
      exact CertificateAuthority.trunk_modifyKeys fun r => r.trunk_receive ski inc
    · intro d hd key
      exact hissued.validFor_other d key fun h => hd h.1
    · intro o' ho'
      rcases hissued.origin o' ho' with rfl | h
      · refine .inr ⟨hissued.subject, ?_⟩
        rw [show o'.certificate.subjectKey = ski from
          congrArg CertificateTemplate.subjectKey hissued.template]
        exact hski
      · exact .inl h
  | withdraw =>
    refine ⟨?_, ?_, ?_, ?_, ?_⟩
    · exact c.parentKeys.face_revokeChild c.child.id none terms.now
    · exact CertificateAuthority.trunk_modifyKeys KeyRing.trunk_clearIncoming
    · intro d hd key
      exact (KeyRing.validFor_revokeChild_none ..).trans (if_neg hd)
    · intro o ho
      exact KeyRing.sameRecord_revokeChild ho
    · intro o ho
      refine .inl ?_
      have hmem : o ∈ (c.parentKeys.revokeChild c.child.id none terms.now).valid := ho
      rw [KeyRing.valid_revokeChild] at hmem
      exact (List.mem_filter.mp hmem).1

/-! What ties the records of the parent to those of the child -/

/-- For no key has the child two valid certificates. -/
def Single (c : Certification) : Prop :=
  ∀ key, (c.parentKeys.validFor c.child.id key).length ≤ 1

/-- The child holds every valid certificate for a key that it uses. -/
def Held (c : Certification) : Prop :=
  ∀ k ∈ c.child.pairs, k.isRevoked = false → ∀ o ∈ c.parentKeys.validFor c.child.id k.ski,
    ∃ inc, k.incoming = some inc ∧ o.Records inc

/-- The parent has a record of every certificate that the child holds for a key that it uses. -/
def Recorded (c : Certification) : Prop :=
  ∀ k ∈ c.child.pairs, k.isRevoked = false → ∀ inc, k.incoming = some inc →
    ∃ o ∈ c.parentKeys.outgoing, o.subject = .child c.child.id ∧
      o.certificate.subjectKey = k.ski ∧ o.certificate = inc.certificate

/-- The child holds nothing but what is on its certificates. -/
def OwnOnly (c : Certification) : Prop :=
  ∀ k ∈ c.child.pairs, ∀ inc, k.incoming = some inc → inc.inherited = ∅

theorem mem_pairs_receive {ca : CertificateAuthority} {ski : String} {inc : IncomingCertificate}
    (hskis : ca.skis.Nodup) {k' : KeyPair}
    (h : k' ∈ (ca.modifyKeys (·.modify ski (·.receive inc))).pairs) :
    (k' ∈ ca.pairs ∧ k'.ski ≠ ski) ∨ ∃ k ∈ ca.pairs, k.ski = ski ∧ k' = k.receive inc := by
  rw [CertificateAuthority.pairs_modifyKeys] at h
  unfold CertificateAuthority.skis CertificateAuthority.pairs at hskis
  unfold CertificateAuthority.pairs
  cases hkeys : ca.keys? with
  | none =>
    rw [hkeys] at h
    cases h
  | some r =>
    rw [hkeys] at h hskis
    change k' ∈ (r.modify ski (·.receive inc)).pairs at h
    rw [KeyRing.pairs_receive hskis] at h
    obtain ⟨k, hk, rfl⟩ := List.mem_map.mp h
    split
    · rename_i heq
      exact .inr ⟨k, hk, heq, rfl⟩
    · rename_i hne
      exact .inl ⟨hk, hne⟩

theorem mem_pairs_clearIncoming {ca : CertificateAuthority} {k' : KeyPair}
    (h : k' ∈ (ca.modifyKeys (·.clearIncoming)).pairs) : k'.incoming = none := by
  rw [CertificateAuthority.pairs_modifyKeys] at h
  cases hkeys : ca.keys? with
  | none =>
    rw [hkeys] at h
    cases h
  | some r =>
    rw [hkeys] at h
    obtain ⟨k, -, rfl⟩ := List.mem_map.mp h
    rfl

theorem Single.step (h : Single c) (hs : Step terms c c') : Single c' := by
  intro key
  have hid : c'.child.id = c.child.id := CertificateAuthority.of_trunk (g := (·.id))
    CertificateAuthority.id_trunk (Frame.step hs).trunk
  rw [hid]
  cases hs with
  | @issue _ ski o inc hski hissued hchild =>
    have hself : c'.parentKeys.validFor c.child.id ski = [o] := hissued.validFor_self
    by_cases hkey : key = ski
    · rw [hkey, hself]
      exact Nat.le_refl _
    · rw [hissued.validFor_other _ key fun h => hkey h.2]
      exact h key
  | withdraw =>
    change ((c.parentKeys.revokeChild c.child.id none terms.now).validFor c.child.id key).length ≤ 1
    rw [KeyRing.validFor_revokeChild_none, if_pos rfl]
    exact Nat.zero_le _

theorem Held.step (hskis : c.child.skis.Nodup) (h : Held c) (hs : Step terms c c') : Held c' := by
  intro k' hk' hrevoked o' ho'
  have hid : c'.child.id = c.child.id := CertificateAuthority.of_trunk (g := (·.id))
    CertificateAuthority.id_trunk (Frame.step hs).trunk
  rw [hid] at ho'
  cases hs with
  | @issue _ ski o inc hski hissued hchild =>
    rw [hchild] at hk'
    -- A key that got no certificate now has the records it had; the one that did has the new one.
    rcases mem_pairs_receive hskis hk' with ⟨hk, hne⟩ | ⟨k, -, heq, rfl⟩
    · rw [hissued.validFor_other _ _ fun h => hne h.2] at ho'
      exact h k' hk hrevoked o' ho'
    · have hself : c'.parentKeys.validFor c.child.id ski = [o] := hissued.validFor_self
      rw [k.ski_receive, heq, hself, List.mem_singleton] at ho'
      exact ⟨inc, k.incoming_receive inc, ho' ▸ hissued.records⟩
  | withdraw =>
    change o' ∈ (c.parentKeys.revokeChild c.child.id none terms.now).validFor _ _ at ho'
    rw [KeyRing.validFor_revokeChild_none, if_pos rfl] at ho'
    cases ho'

theorem Recorded.step (hskis : c.child.skis.Nodup) (h : Recorded c) (hs : Step terms c c') :
    Recorded c' := by
  intro k' hk' hrevoked inc' hinc'
  have hframe := Frame.step hs
  have hid : c'.child.id = c.child.id := CertificateAuthority.of_trunk (g := (·.id))
    CertificateAuthority.id_trunk hframe.trunk
  rw [hid]
  cases hs with
  | @issue _ ski o inc hski hissued hchild =>
    rw [hchild] at hk'
    rcases mem_pairs_receive hskis hk' with ⟨hk, hne⟩ | ⟨k, -, heq, rfl⟩
    -- The record of an older certificate may have been revoked, but it is still there.
    · obtain ⟨o', ho', hsubject, hkey, hcertificate⟩ := h k' hk hrevoked inc' hinc'
      obtain ⟨o'', ho'', hsame⟩ := hframe.recorded o' ho'
      exact ⟨o'', ho'', hsame.subject.trans hsubject, hsame.certificate ▸ hkey,
        hsame.certificate.trans hcertificate⟩
    · have hmem : o ∈ c'.parentKeys.validFor c.child.id ski :=
        hissued.validFor_self ▸ List.mem_singleton_self o
      obtain ⟨hout, -, hsubject, hkey⟩ := KeyRing.mem_validFor.mp hmem
      rw [k.incoming_receive, Option.some.injEq] at hinc'
      refine ⟨o, hout, hsubject, ?_, ?_⟩
      · rw [hkey, k.ski_receive, heq]
      · rw [← hinc', hissued.records.certificate]
  | withdraw =>
    rw [mem_pairs_clearIncoming hk'] at hinc'
    cases hinc'

theorem OwnOnly.step (hskis : c.child.skis.Nodup) (h : OwnOnly c) (hs : Step terms c c') :
    OwnOnly c' := by
  intro k' hk' inc' hinc'
  cases hs with
  | @issue _ ski o inc hski hissued hchild =>
    rw [hchild] at hk'
    rcases mem_pairs_receive hskis hk' with ⟨hk, -⟩ | ⟨k, -, -, rfl⟩
    · exact h k' hk inc' hinc'
    · rw [k.incoming_receive, Option.some.injEq] at hinc'
      exact hinc' ▸ hissued.inherited
  | withdraw =>
    rw [mem_pairs_clearIncoming hk'] at hinc'
    cases hinc'

/-! Runs -/

abbrev Steps (terms : CertificationTerms) : Certification → Certification → Prop :=
  Relation.ReflTransGen (Step terms)

theorem Frame.steps (h : Steps terms c c') : Frame c c' := by
  induction h with
  | refl => exact .refl c
  | tail _ hstep ih => exact ih.trans (.step hstep)

theorem Frame.skis (h : Frame c c') : c'.child.skis = c.child.skis :=
  CertificateAuthority.of_trunk CertificateAuthority.skis_trunk h.trunk

theorem Single.steps (h : Single c) (hs : Steps terms c c') : Single c' := by
  induction hs with
  | refl => exact h
  | tail _ hstep ih => exact ih.step hstep

/-- What a step keeps is kept by any number of them, as long as the child tells its keys apart. -/
theorem Steps.keep {I : Certification → Prop}
    (hI : ∀ {c c'}, c.child.skis.Nodup → I c → Step terms c c' → I c')
    (hs : Steps terms c c') (hskis : c.child.skis.Nodup) (h : I c) : I c' := by
  induction hs with
  | refl => exact h
  | tail hs hstep ih => exact hI ((Frame.steps hs).skis ▸ hskis) ih hstep

theorem certify_steps {keys : List String} {b : Bool} (hkeys : keys ⊆ c.child.subjectKeys)
    (h : certify terms keys c = (.ok b, c')) : Steps terms c c' := by
  induction keys generalizing c b with
  | nil =>
    obtain ⟨-, rfl⟩ := Prod.mk.inj h
    exact .refl
  | cons ski rest ih =>
    obtain ⟨hski, hrest⟩ := List.cons_subset.mp hkeys
    obtain ⟨-, hcertify⟩ | ⟨-, c₁, b₁, hissue, hcertify⟩ := certify_cons_ok h
    · exact ih hrest hcertify
    · obtain ⟨o, inc, hissued, hchild⟩ := issue_ok hissue
      have hstep : Step terms c c₁ := .issue hski hissued hchild
      -- Receiving a certificate does not change which keys are in use.
      have hsame : c₁.child.subjectKeys = c.child.subjectKeys :=
        CertificateAuthority.of_trunk CertificateAuthority.subjectKeys_trunk
          (Frame.step hstep).trunk
      exact .head hstep (ih (hsame ▸ hrest) hcertify)

theorem align_steps {b : Bool} (h : align terms c = (.ok b, c')) : Steps terms c c' := by
  unfold align at h
  split at h
  · obtain ⟨-, rfl⟩ := Prod.mk.inj h
    exact .single (.withdraw c)
  · exact certify_steps (List.Subset.refl _) h

end ResourcePki.Certification
