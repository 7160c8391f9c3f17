import ResourcePki.Proofs.Key.Editing
import ResourcePki.Proofs.Issuance.Performing

/-! The course of a system: commands with services of their own, among them confirmations of the
publication side. Whatever happens, each CA is edited step by step (`Edits`), and a CA that comes
to the tree begins with one key that waits for its certificate. -/

namespace ResourcePki

namespace CertificateAuthority

variable {ca ca' : CertificateAuthority}

/-- One edit of a CA. -/
inductive Edit : CertificateAuthority → CertificateAuthority → Prop
  | keys {ca : CertificateAuthority} {r r' : KeyRing} (hkeys : ca.keys? = some r)
      (h : r.Edit r') : Edit ca (ca.withKeys r')
  | request {ca : CertificateAuthority} {keys : KeyRing} {pending : Option TrustAnchorRequest}
      {signingKey : String} {request : TrustAnchorRequest}
      (hkind : ca.kind = .allResources keys pending) (hkey : ca.usableKey keys = .ok signingKey)
      (hrequest : ∃ id now children,
        request = .ofChildren id now ca.name signingKey .all children) :
      Edit ca { ca with kind := .allResources keys (some request) }
  | repositories {ca : CertificateAuthority} {publicKeys : List String}
      {publishers : SortedMap PublisherHandle PublisherRepository}
      (publishers' : SortedMap PublisherHandle PublisherRepository)
      (hkind : ca.kind = .nonHosted publicKeys publishers) :
      Edit ca { ca with kind := .nonHosted publicKeys publishers' }
  | addChild (ca : CertificateAuthority) (child : CaId) : Edit ca (ca.addChild child)

abbrev Edits : CertificateAuthority → CertificateAuthority → Prop := Relation.ReflTransGen Edit

/-- An edit of a CA leaves its ring alone, or is one edit of the ring. -/
theorem Edit.ring (h : ca.Edit ca') : ca'.keys? = ca.keys? ∨
    ∃ r r', ca.keys? = some r ∧ ca'.keys? = some r' ∧ r.Edit r' := by
  cases h with
  | keys hkeys h => exact .inr ⟨_, _, hkeys, keys?_withKeys hkeys _, h⟩
  | request hkind hkey hrequest =>
    rw [keys?, keys?, hkind]
    exact .inl rfl
  | repositories publishers' hkind =>
    rw [keys?, keys?, hkind]
    exact .inl rfl
  | addChild child => exact .inl rfl

theorem edits_withKeys {r r' : KeyRing} (hkeys : ca.keys? = some r) (h : r.Edits r') :
    ca.Edits (ca.withKeys r') := by
  induction h with
  | refl => rw [withKeys_self hkeys]
  | @tail r₁ r₂ _ hedit ih =>
    have hnext : (ca.withKeys r₁).Edit ((ca.withKeys r₁).withKeys r₂) :=
      .keys (keys?_withKeys hkeys r₁) hedit
    rw [withKeys_withKeys] at hnext
    exact ih.tail hnext

theorem edits_modifyKeys {f : KeyRing → KeyRing} (h : ∀ r, ca.keys? = some r → r.Edits (f r)) :
    ca.Edits (ca.modifyKeys f) := by
  cases hkeys : ca.keys? with
  | none => rw [modifyKeys_of_none hkeys]
  | some r =>
    rw [modifyKeys_of_some hkeys]
    exact edits_withKeys hkeys (h r hkeys)

theorem subjectKeys_of_keys {r : KeyRing} (h : ca.keys? = some r) :
    ca.subjectKeys = r.activeSkis := by
  obtain ⟨id, name, parent, children, kind⟩ := ca
  cases kind <;> cases h <;> rfl

theorem edits_prepareRequest {children : List CaIdentity} {source : KeySource} {id : Uuid}
    {now : Time} {answers : List (Except Error String)}
    (h : (ca.prepareRequest children source id now answers).1 = .ok ca') : ca.Edits ca' := by
  obtain ⟨keys, keys', pending, signingKey, request, hkind, hkeys', husable, hrequest, rfl⟩ :=
    prepareRequest_ok h
  have hkeys : ca.keys? = some keys := by
    rw [keys?, hkind]
    rfl
  have hadded : ca.Edits (ca.withKeys keys') := by
    refine edits_withKeys hkeys ?_
    obtain rfl | ⟨hempty, ski, -, rfl⟩ := hkeys'
    · exact .refl
    · exact .single (.add ski hempty)
  have hkind' : (ca.withKeys keys').kind = .allResources keys' pending := by
    rw [withKeys, hkind]
    rfl
  have hedit : (ca.withKeys keys').Edit
      { ca.withKeys keys' with kind := .allResources keys' (some request) } :=
    .request hkind' husable ⟨id, now, children, hrequest⟩
  exact hadded.tail hedit

theorem edits_revokeKey {ski : String} (h : ca.revokeKey ski = .ok ca') : ca.Edits ca' := by
  obtain ⟨keys, hkeys, rfl⟩ := revokeKey_ok h
  exact edits_withKeys hkeys (.single (.revoke keys ski))

theorem edits_addPublisher {handle : PublisherHandle} {repository : PublisherRepository}
    {limit : Nat} (h : ca.addPublisher handle repository limit = .ok ca') : ca.Edits ca' := by
  obtain ⟨publicKeys, publishers, hkind, -, -, rfl⟩ := addPublisher_eq_ok_iff.mp h
  exact .single (.repositories _ hkind)

theorem edits_removePublisher {handle : PublisherHandle}
    (h : ca.removePublisher handle = .ok ca') : ca.Edits ca' := by
  obtain ⟨publicKeys, publishers, hkind, -, rfl⟩ := removePublisher_eq_ok_iff.mp h
  exact .single (.repositories _ hkind)

end CertificateAuthority

namespace Certification

variable {terms : CertificationTerms} {c : Certification}

/-- What comes of one issuance: an answer of the parent, which the child takes if it is one. -/
theorem issue_answered (terms : CertificationTerms) (c : Certification) (ski : String) :
    ∃ answer, c.parentKeys.Answered ⟨c.child.identity, ski, terms.resources, terms.validity⟩
        terms.sign terms.now c.signings answer (c.issue terms ski).2.parentKeys
        (c.issue terms ski).2.signings ∧
      ((c.issue terms ski).2.child = c.child ∨ ∃ inc, (c.issue terms ski).2.child =
        c.child.modifyKeys (·.modify ski (·.receive inc))) := by
  have hanswered := c.parentKeys.issueChild_answered
    ⟨c.child.identity, ski, terms.resources, terms.validity⟩ terms.sign terms.now c.signings
  unfold issue
  generalize c.parentKeys.issueChild _ _ _ _ = issued at hanswered ⊢
  obtain ⟨answer, parentKeys, signings⟩ := issued
  cases answer with
  | ok inc => exact ⟨_, hanswered, .inr ⟨inc, rfl⟩⟩
  | error err => exact ⟨_, hanswered, .inl rfl⟩

/-- An issuance leaves alone which keys of the child are in use. -/
theorem subjectKeys_issue (terms : CertificationTerms) (c : Certification) (ski : String) :
    (c.issue terms ski).2.child.subjectKeys = c.child.subjectKeys := by
  obtain ⟨answer, -, hchild | ⟨inc, hchild⟩⟩ := issue_answered terms c ski
  · rw [hchild]
  · rw [hchild]
    exact CertificateAuthority.of_trunk CertificateAuthority.subjectKeys_trunk
      (CertificateAuthority.trunk_modifyKeys fun r => r.trunk_receive ski inc)

theorem issue_edits (terms : CertificationTerms) {ski : String} (hski : ski ∈ c.child.subjectKeys) :
    c.parentKeys.Edits (c.issue terms ski).2.parentKeys ∧
      c.child.Edits (c.issue terms ski).2.child := by
  obtain ⟨answer, hanswered, hchild | ⟨inc, hchild⟩⟩ := issue_answered terms c ski
  · rw [hchild]
    exact ⟨hanswered.edits, .refl⟩
  · rw [hchild]
    refine ⟨hanswered.edits, CertificateAuthority.edits_modifyKeys fun r hkeys => ?_⟩
    rw [CertificateAuthority.subjectKeys_of_keys hkeys] at hski
    exact .single (.receive inc hski)

/-- Bringing certificates in line edits the ring of the parent and the child, also if it fails. -/
theorem align_edits (terms : CertificationTerms) (c : Certification) :
    c.parentKeys.Edits (align terms c).2.parentKeys ∧ c.child.Edits (align terms c).2.child := by
  unfold align
  split
  · refine ⟨.single (.revokeChild _ c.child.id none terms.now), ?_⟩
    exact CertificateAuthority.edits_modifyKeys fun r _ => .single (.clearIncoming r)
  · obtain ⟨-, hafter⟩ := certify_keep terms c.child.subjectKeys c
      (P := fun c' => c'.child.subjectKeys = c.child.subjectKeys ∧
        c.parentKeys.Edits c'.parentKeys ∧ c.child.Edits c'.child)
      (fun c' ski hski ⟨hsame, hparent, hchild⟩ => by
        obtain ⟨hparent', hchild'⟩ := issue_edits terms (hsame ▸ hski)
        exact ⟨(subjectKeys_issue terms c' ski).trans hsame, hparent.trans hparent',
          hchild.trans hchild'⟩)
      ⟨rfl, .refl, .refl⟩
    exact hafter

end Certification

/-- A CA as it begins: with one key, which waits for its certificate. -/
def CertificateAuthority.IsNew (ca : CertificateAuthority) : Prop :=
  ∃ ski directory, ca.kind =
    .hosted { pairs := [KeyPair.requestCertificate { ski }], directory }

namespace CaTree

variable {t u v : CaTree}

/-- All CAs of `t` are still in `u`, and those of `u` that are not from `t` began as new ones. -/
structure Edited (t u : CaTree) : Prop where
  kept : ∀ x ca, t.get? x = some ca → ∃ ca', u.get? x = some ca' ∧ ca.Edits ca'
  origin : ∀ x ca', u.get? x = some ca' →
    ∃ ca, (t.get? x = some ca ∨ ca.IsNew) ∧ ca.Edits ca'

theorem Edited.refl (t : CaTree) : Edited t t :=
  ⟨fun _ ca hca => ⟨ca, hca, .refl⟩, fun _ ca hca => ⟨ca, .inl hca, .refl⟩⟩

theorem Edited.trans (h : Edited t u) (h' : Edited u v) : Edited t v where
  kept x ca hca := by
    obtain ⟨ca₁, hca₁, hedits⟩ := h.kept x ca hca
    obtain ⟨ca₂, hca₂, hedits'⟩ := h'.kept x ca₁ hca₁
    exact ⟨ca₂, hca₂, hedits.trans hedits'⟩
  origin x ca₂ hca₂ := by
    obtain ⟨ca₁, hca₁ | hnew, hedits'⟩ := h'.origin x ca₂ hca₂
    · obtain ⟨ca, hca, hedits⟩ := h.origin x ca₁ hca₁
      exact ⟨ca, hca, hedits.trans hedits'⟩
    · exact ⟨ca₁, .inr hnew, hedits'⟩

theorem Edited.set {id : CaId} {ca ca' : CertificateAuthority} (hca : t.get? id = some ca)
    (h : ca.Edits ca') : Edited t (t.set id ca') where
  kept x c hc := by
    by_cases hid : id = x
    · subst hid
      obtain rfl := Option.some.inj (hca.symm.trans hc)
      exact ⟨ca', get?_set_self, h⟩
    · exact ⟨c, (get?_set_ne hid).trans hc, .refl⟩
  origin x c hc := by
    by_cases hid : id = x
    · subst hid
      rw [get?_set_self] at hc
      obtain rfl := Option.some.inj hc
      exact ⟨ca, .inl hca, h⟩
    · rw [get?_set_ne hid] at hc
      exact ⟨c, .inl hc, .refl⟩

theorem Edited.insert {ca : CertificateAuthority} (hins : t.insert ca = .ok u) (hnew : ca.IsNew) :
    Edited t u where
  kept x c hc := by
    obtain ⟨hfree, -, -, -, hlinks⟩ := insert_ok hins
    have hne : x ≠ ca.id := by
      rintro rfl
      rw [hfree] at hc
      cases hc
    obtain ⟨-, hsame⟩ | ⟨p, parent, -, -, hparent, hget, hsame⟩ := hlinks
    · exact ⟨c, (hsame x hne).trans hc, .refl⟩
    · by_cases hp : x = p
      · subst hp
        obtain rfl := Option.some.inj (hparent.symm.trans hc)
        exact ⟨_, hget, .single (.addChild parent ca.id)⟩
      · exact ⟨c, (hsame x hne hp).trans hc, .refl⟩
  origin x c' hc' := by
    obtain ⟨-, rfl⟩ | ⟨c, hc, -, rfl | ⟨-, rfl⟩⟩ := get?_insert hins hc'
    · exact ⟨_, .inr hnew, .refl⟩
    · exact ⟨_, .inl hc, .refl⟩
    · exact ⟨c, .inl hc, .single (.addChild c ca.id)⟩

theorem edited_updated {s : Services} {timing : IssuanceTiming} {id : CaId} {b : Bool}
    (h : s.Updated timing t id b u) : Edited t u := by
  cases h with
  | skipped => exact .refl t
  | @aligned ca parent p keys resources signings b c hca _ hne hparent hkeys halign =>
    obtain ⟨hring, hchild⟩ := Certification.align_edits (s.terms timing id resources)
      ⟨keys, ca, signings⟩
    rw [halign] at hring hchild
    refine (Edited.set hparent (CertificateAuthority.edits_withKeys hkeys hring)).trans ?_
    exact .set ((get?_set_ne hne).trans hca) hchild

theorem edited_changes {s : Services} {limit : Nat} {j : Journal} {details : CommandDetails}
    {ca ca' : CertificateAuthority} {b : Bool} (h : s.Changes limit j t details ca b ca') :
    ca.Edits ca' := by
  cases h with
  | request h => exact CertificateAuthority.edits_prepareRequest h
  | revoke h => exact CertificateAuthority.edits_revokeKey h
  | unmanaged now hkeys => exact .refl
  | @expire _ keys now hkeys =>
    exact CertificateAuthority.edits_withKeys hkeys (.single (.lapse keys now))
  | registered h => exact .refl
  | register h => exact CertificateAuthority.edits_addPublisher h
  | remove h => exact CertificateAuthority.edits_removePublisher h

theorem edited_performed {s : Services} {policy : IssuancePolicy} {j : Journal} {id : CaId}
    {details : CommandDetails} {b : Bool} (h : s.Performed policy j t id details b u) :
    Edited t u := by
  cases h with
  | present => exact .refl t
  | created hnone hanswer hins hupdated =>
    exact (Edited.insert hins ⟨_, _, rfl⟩).trans (edited_updated hupdated)
  | updated hupdated _ => exact edited_updated hupdated
  | changed hca h => exact .set hca (edited_changes h)

/-- The publication side confirms what it did with one object of a CA; the key that has it is given
by its position. -/
def confirm (t : CaTree) (id : CaId) (key : Nat) (place : ObjectPlace) : CaTree :=
  match t.get? id with
  | some ca => t.set id (ca.modifyKeys (·.confirm key place))
  | none => t

theorem edited_confirm (t : CaTree) (id : CaId) (key : Nat) (place : ObjectPlace) :
    Edited t (t.confirm id key place) := by
  unfold confirm
  split
  · rename_i ca hca
    exact .set hca (CertificateAuthority.edits_modifyKeys fun r _ => .single (.confirm r key place))
  · exact .refl t

end CaTree

theorem edited_execute {s : Services} {policy : IssuancePolicy} {retries : Nat}
    (command : CaCommand) (e : Engine Journal) :
    e.tree.Edited ((Dispatcher.standard s policy retries).execute command e).2.tree := by
  generalize hrun : (Dispatcher.standard s policy retries).execute command e = result
  obtain ⟨r, e'⟩ := result
  cases r with
  | ok status =>
    obtain ⟨j, -, hperformed⟩ := Dispatcher.execute_standard_performed hrun
    exact CaTree.edited_performed hperformed
  | error err =>
    rw [Dispatcher.execute_standard_error hrun]
    exact .refl e.tree

/-- The second system comes from the first by commands, each of which may fail, and by
confirmations of the publication side, in any order. -/
inductive Engine.Course : Engine Journal → Engine Journal → Prop
  | refl (e : Engine Journal) : Course e e
  | execute {e e' : Engine Journal} (s : Services) (policy : IssuancePolicy) (retries : Nat)
      (command : CaCommand) (h : Course e e') :
      Course e ((Dispatcher.standard s policy retries).execute command e').2
  | confirm {e e' : Engine Journal} (id : CaId) (key : Nat) (place : ObjectPlace)
      (h : Course e e') : Course e { e' with tree := e'.tree.confirm id key place }

theorem Engine.Course.edited {e e' : Engine Journal} (h : e.Course e') :
    e.tree.Edited e'.tree := by
  induction h with
  | refl => exact .refl e.tree
  | execute s policy retries command _ ih => exact ih.trans (edited_execute command _)
  | confirm id key place _ ih => exact ih.trans (CaTree.edited_confirm _ id key place)

end ResourcePki
