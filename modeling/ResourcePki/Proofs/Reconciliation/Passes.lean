import ResourcePki.Proofs.Reconciliation.Convergence
import ResourcePki.Proofs.Invariant.Check

/-! Passes over a list of CAs in which every one of them is updated: what a run comes to when its
budget lasts. A CA is changed at its own turn as a subject, and as an issuer at the turns of its
children. -/

namespace ResourcePki

open Certification

theorem KeyPair.isRevoked_of_isPublishable {k : KeyPair} (h : k.isPublishable = true) :
    k.isRevoked = false := by
  refine decide_eq_false fun hstatus => ?_
  rw [isPublishable, hstatus] at h
  cases h

namespace CertificateAuthority

theorem mem_validFor_of_valid {ca : CertificateAuthority} {o : OutgoingCertificate} {d : CaId}
    (ho : o ∈ ca.valid) (hsubject : o.subject = .child d) :
    o ∈ ca.validFor d o.certificate.subjectKey :=
  List.mem_filter.mpr ⟨ho, OutgoingCertificate.isFor_iff.mpr ⟨hsubject, rfl⟩⟩

theorem ski_mem_subjectKeys {ca : CertificateAuthority} {k : KeyPair} (hk : k ∈ ca.pairs)
    (hrevoked : k.isRevoked = false) : k.ski ∈ ca.subjectKeys := by
  obtain ⟨id, name, parent, children, kind⟩ := ca
  have hactive : ∀ r : KeyRing, k ∈ r.pairs → k.ski ∈ r.activeSkis := by
    intro r hr
    refine List.mem_map_of_mem (List.mem_filter.mpr ⟨hr, ?_⟩)
    rw [hrevoked]
    rfl
  cases kind with
  | nonHosted => cases hk
  | _ => exact hactive _ hk

theorem HoldsValid.own_eq {parent child : CertificateAuthority} (h : parent.HoldsValid child)
    {resources : ResourceSet} (hserved : ∀ key ∈ child.subjectKeys,
      ∃ o ∈ parent.validFor child.id key, o.resources = resources) :
    ∀ k ∈ child.pairs, k.isRevoked = false →
      ∃ inc, k.incoming = some inc ∧ inc.own = resources := by
  intro k hk hrevoked
  obtain ⟨o, ho, hresources⟩ := hserved k.ski (ski_mem_subjectKeys hk hrevoked)
  obtain ⟨inc, hinc, hrecords⟩ := h k hk hrevoked o ho
  refine ⟨inc, hinc, ?_⟩
  rw [IncomingCertificate.own, hrecords.certificate]
  exact hresources

theorem SeenAlike.trans {ca ca' ca'' : CertificateAuthority} {d : CaId} (h : ca.SeenAlike d ca')
    (h' : ca'.SeenAlike d ca'') : ca.SeenAlike d ca'' where
  validFor key := (h'.validFor key).trans (h.validFor key)
  recorded o ho := by
    obtain ⟨o', ho', hsame⟩ := h.recorded o ho
    obtain ⟨o'', ho'', hsame'⟩ := h'.recorded o' ho'
    exact ⟨o'', ho'', hsame.trans hsame'⟩

end CertificateAuthority

namespace CaTree

/-- Every valid certificate is that of a child, for a key which the child still uses. -/
def InUse (t : CaTree) : Prop :=
  ∀ p parent, t.get? p = some parent → ∀ o ∈ parent.valid, ∃ d child, o.subject = .child d ∧
    t.get? d = some child ∧ child.parent = some p ∧ o.certificate.subjectKey ∈ child.subjectKeys

/-- Nothing is inherited from further up. -/
def OwnOnly (t : CaTree) : Prop := ∀ id ca, t.get? id = some ca → ca.OwnOnly

/-- A coherent tree in which every valid certificate is accounted for. -/
structure Orderly (t : CaTree) : Prop extends t.Coherent where
  inUse : t.InUse
  ownOnly : t.OwnOnly

end CaTree

namespace Services

variable {s : Services} {timing : IssuanceTiming} {t t' : CaTree} {id : CaId} {b : Bool}

/-- New certificates are those of the CA that is updated, for its own keys. -/
theorem Updated.origin (h : s.Updated timing t id b t') {p : CaId}
    {parent' : CertificateAuthority} (hp : t'.get? p = some parent') {o : OutgoingCertificate}
    (ho : o ∈ parent'.valid) : (∃ parent, t.get? p = some parent ∧ o ∈ parent.valid) ∨
      ∃ ca, t.get? id = some ca ∧ ca.parent = some p ∧ o.subject = .child ca.id ∧
        o.certificate.subjectKey ∈ ca.subjectKeys := by
  cases h with
  | skipped => exact .inl ⟨parent', hp, ho⟩
  | @aligned ca parent q keys resources signings b c hca hentitled hne hparent hkeys halign =>
    have hframe := Frame.steps (align_steps halign)
    rw [CaTree.get?_set, CaTree.get?_set] at hp
    split at hp
    · rename_i hid
      obtain rfl := Option.some.inj hp
      rw [CertificateAuthority.of_trunk CertificateAuthority.valid_trunk hframe.trunk] at ho
      exact .inl ⟨ca, hid ▸ hca, ho⟩
    · split at hp
      · rename_i hq
        obtain rfl := Option.some.inj hp
        rw [CertificateAuthority.valid_of_keys
          (CertificateAuthority.keys?_withKeys hkeys c.parentKeys)] at ho
        -- Only the parent of the updated CA issues.
        rcases hframe.origin o ho with hbefore | hnew
        · rw [← CertificateAuthority.valid_of_keys hkeys] at hbefore
          exact .inl ⟨parent, hq ▸ hparent, hbefore⟩
        · exact .inr ⟨ca, hca, hq ▸ (entitlement?_eq_some hentitled).1, hnew⟩
      · exact .inl ⟨parent', hp, ho⟩

theorem Updated.inUse (hwf : t.WellFormed) (h : s.Updated timing t id b t') (hinUse : t.InUse) :
    t'.InUse := by
  intro p parent' hp o ho
  have hchild : ∃ d child, o.subject = .child d ∧ t.get? d = some child ∧
      child.parent = some p ∧ o.certificate.subjectKey ∈ child.subjectKeys := by
    obtain ⟨parent, hparent, hbefore⟩ | ⟨ca, hca, hlink, hsubject, hkey⟩ := h.origin hp ho
    · exact hinUse p parent hparent o hbefore
    · exact ⟨id, ca, hwf.ids id ca hca ▸ hsubject, hca, hlink, hkey⟩
  obtain ⟨d, child, hsubject, hd, hlink, hkey⟩ := hchild
  obtain ⟨child', hd', -⟩ := h.sameLinks.symm.get? hd
  refine ⟨d, child', hsubject, hd', (h.parent hd hd').trans hlink, ?_⟩
  rwa [h.eq_of_views CertificateAuthority.subjectKeys_face CertificateAuthority.subjectKeys_trunk
    (hwf.ids _) hd hd']

theorem Updated.ownOnly (hwf : t.WellFormed) (hkeys : t.DistinctKeys)
    (h : s.Updated timing t id b t') (hown : t.OwnOnly) : t'.OwnOnly := by
  intro x ca' hx
  obtain ⟨ca, hca, hface, -, -⟩ := h.get? (hwf.ids _) hx
  by_cases hid : x = id
  · subst hid
    cases h with
    | skipped => exact hown x ca' hx
    | @aligned child parent p keys resources signings b c hchild _ _ _ _ halign =>
      rw [CaTree.get?_set_self] at hx
      obtain rfl := Option.some.inj hx
      have hbefore : Certification.OwnOnly ⟨keys, child, signings⟩ := hown x child hchild
      exact (align_steps halign).keep (fun h => OwnOnly.step h) (hkeys x child hchild) hbefore
  · exact (hown x ca hca).of_face (hface hid)

theorem Updated.eq_of_none (h : s.Updated timing t id b t') {ca : CertificateAuthority}
    (hca : t.get? id = some ca) (hnone : s.entitlement? t ca = none) : t' = t := by
  cases h with
  | skipped => rfl
  | aligned hca₁ hentitled =>
    obtain rfl := Option.some.inj (hca.symm.trans hca₁)
    cases hnone.symm.trans hentitled

section entitled

variable (h : s.Updated timing t id b t') {ca : CertificateAuthority} (hca : t.get? id = some ca)
  {p : CaId} {resources : ResourceSet} (hentitled : s.entitlement? t ca = some (p, resources))
  {parent' ca' : CertificateAuthority} (hp : t'.get? p = some parent') (hid : t'.get? id = some ca')

include h hca hentitled hp hid

theorem Updated.aligned_of : ∃ parent keys signings c, t.get? p = some parent ∧
    parent.keys? = some keys ∧
    align (s.terms timing id resources) ⟨keys, ca, signings⟩ = (.ok b, c) ∧
    parent' = parent.withKeys c.parentKeys ∧ ca' = c.child := by
  cases h with
  | skipped hca₁ hnone =>
    obtain rfl := Option.some.inj (hca.symm.trans hca₁)
    cases hentitled.symm.trans hnone
  | @aligned ca₁ parent q keys resources' signings b c hca₁ hentitled₁ hne hparent hkeys halign =>
    obtain rfl := Option.some.inj (hca.symm.trans hca₁)
    obtain ⟨rfl, rfl⟩ := Prod.mk.inj (Option.some.inj (hentitled.symm.trans hentitled₁))
    rw [CaTree.get?_set_self] at hid
    rw [CaTree.get?_set_ne (Ne.symm hne), CaTree.get?_set_self] at hp
    exact ⟨parent, keys, signings, c, hparent, hkeys, halign, (Option.some.inj hp).symm,
      (Option.some.inj hid).symm⟩

/-- A CA that is entitled to nothing has nothing after its update. -/
theorem Updated.withdrawn (hempty : resources.isEmpty = true) :
    (∀ k ∈ ca'.pairs, k.incoming = none) ∧ ∀ key, parent'.validFor ca'.id key = [] := by
  obtain ⟨parent, keys, signings, c, hparent, hkeys, halign, rfl, rfl⟩ :=
    h.aligned_of hca hentitled hp hid
  have hterms : (s.terms timing id resources).resources.isEmpty = true := hempty
  rw [align, if_pos hterms] at halign
  obtain ⟨-, rfl⟩ := Prod.mk.inj halign
  obtain ⟨hcount, hincoming⟩ := isHeld_eq_false_iff.mp
    (isHeld_withdraw (s.terms timing id resources).now ⟨keys, ca, signings⟩)
  refine ⟨hincoming, fun key => ?_⟩
  rw [CertificateAuthority.validFor_of_keys (CertificateAuthority.keys?_withKeys hkeys _)]
  exact KeyRing.countChild_none_eq_zero_iff.mp hcount key

/-- Any other has a valid certificate for what it is entitled to, for each of its keys. -/
theorem Updated.served (hcaid : ca.id = id) (hsome : resources.isEmpty = false) :
    ∀ key ∈ ca'.subjectKeys, ∃ o ∈ parent'.validFor ca'.id key, o.resources = resources := by
  obtain ⟨parent, keys, signings, c, hparent, hkeys, halign, rfl, rfl⟩ :=
    h.aligned_of hca hentitled hp hid
  have hafter := align_served (Q := fun o => o.resources = resources)
    (fun o ho => ResourceSet.equivalent_iff.mp (Bool.and_eq_true_iff.mp ho).1)
    (fun o ho _ => ho) hcaid hsome halign
  intro key hkey
  obtain ⟨o, ho, hresources⟩ := (hafter key hkey).issued
  rw [KeyRing.validChild_eq, ← CertificateAuthority.validFor_of_keys
    (CertificateAuthority.keys?_withKeys hkeys c.parentKeys)] at ho
  exact ⟨o, List.mem_of_head? ho, hresources⟩

end entitled

end Services

theorem CaTree.Orderly.updated {s : Services} {timing : IssuanceTiming} {t t' : CaTree} {id : CaId}
    {b : Bool} (h : t.Orderly) (hu : s.Updated timing t id b t') : t'.Orderly where
  toCoherent := h.toCoherent.updated hu
  inUse := hu.inUse h.wellFormed h.inUse
  ownOnly := hu.ownOnly h.wellFormed h.distinctKeys h.ownOnly

namespace Services

/-- Updates of all CAs of a list, one after the other. -/
inductive Passed (s : Services) (timing : IssuanceTiming) : List CaId → CaTree → CaTree → Prop
  | nil (t : CaTree) : Passed s timing [] t t
  | cons {id : CaId} {rest : List CaId} {t t₁ t' : CaTree} {b : Bool}
      (hu : s.Updated timing t id b t₁) (h : Passed s timing rest t₁ t') :
      Passed s timing (id :: rest) t t'

variable {s : Services} {timing : IssuanceTiming} {t t' : CaTree} {ids : List CaId}

theorem Swept.le {limit n n' : Nat} (h : s.Swept timing limit ids n t n' t') : n ≤ n' := by
  induction h with
  | nil => exact Nat.le_refl _
  | skip _ _ ih => exact ih
  | update _ _ _ ih =>
    refine Nat.le_trans ?_ ih
    split <;> omega

theorem Swept.passed {limit n n' : Nat} (h : s.Swept timing limit ids n t n' t')
    (hn' : n' < limit) : s.Passed timing ids t t' := by
  induction h with
  | nil n t => exact .nil t
  | skip hn h _ => exact absurd (Nat.lt_of_le_of_lt (Nat.le_trans hn h.le) hn') (Nat.lt_irrefl _)
  | update _ hu _ ih => exact .cons hu (ih hn')

namespace Passed

theorem sameLinks (h : s.Passed timing ids t t') : CaTree.SameLinks t t' := by
  induction h with
  | nil t => exact .refl t
  | cons hu _ ih => exact hu.sameLinks.trans ih

theorem orderly (h : s.Passed timing ids t t') (ht : t.Orderly) : t'.Orderly := by
  induction h with
  | nil => exact ht
  | cons hu _ ih => exact ih (ht.updated hu)

theorem turn {l r : List CaId} {id : CaId} (h : s.Passed timing (l ++ id :: r) t t') :
    ∃ t₁ t₂ b, s.Passed timing l t t₁ ∧ s.Updated timing t₁ id b t₂ ∧ s.Passed timing r t₂ t' := by
  induction l generalizing t with
  | nil =>
    cases h with
    | cons hu h => exact ⟨t, _, _, .nil t, hu, h⟩
  | cons x l ih =>
    cases h with
    | cons hu h =>
      obtain ⟨t₁, t₂, b, hl, hid, hr⟩ := ih h
      exact ⟨t₁, t₂, b, .cons hu hl, hid, hr⟩

/-- Where no CA is listed twice or after a child of its own, every CA has its turn once, and its
parent has none after it. -/
theorem turn_of_mem (h : s.Passed timing ids t t')
    (hids : ids.Pairwise fun x y => x ≠ y ∧ t.parent? x ≠ some y) {id : CaId} (hid : id ∈ ids) :
    ∃ l r t₁ t₂ b, s.Passed timing l t t₁ ∧ s.Updated timing t₁ id b t₂ ∧
      s.Passed timing r t₂ t' ∧ id ∉ l ∧ id ∉ r ∧ ∀ p, t.parent? id = some p → p ∉ r := by
  obtain ⟨l, r, rfl⟩ := List.append_of_mem hid
  obtain ⟨-, hright, hleft⟩ := List.pairwise_append.mp hids
  have hafter := (List.pairwise_cons.mp hright).1
  obtain ⟨t₁, t₂, b, hl, hu, hr⟩ := h.turn
  refine ⟨l, r, t₁, t₂, b, hl, hu, hr, fun hmem => ?_, fun hmem => ?_, fun p hp hmem => ?_⟩
  · exact (hleft id hmem id (List.mem_cons_self ..)).1 rfl
  · exact (hafter id hmem).1 rfl
  · exact (hafter p hmem).2 hp

/-- A CA keeps its face unless it had its turn; others see it as before unless they had theirs. -/
theorem get? (h : s.Passed timing ids t t') (hwf : t.WellFormed) {x : CaId}
    {ca' : CertificateAuthority} (hx : t'.get? x = some ca') :
    ∃ ca, t.get? x = some ca ∧ (x ∉ ids → ca'.face = ca.face) ∧
      ∀ d, d ∉ ids → ca.SeenAlike d ca' := by
  induction h with
  | nil => exact ⟨ca', hx, fun _ => rfl, fun d _ => .refl ca' d⟩
  | @cons id rest t t₁ t' b hu _ ih =>
    obtain ⟨ca₁, hca₁, hface₁, hseen₁⟩ := ih (hwf.of_sameLinks hu.sameLinks) hx
    obtain ⟨ca, hca, hface, -, hseen⟩ := hu.get? (hwf.ids _) hca₁
    refine ⟨ca, hca, fun hnot => ?_, fun d hnot => ?_⟩
    · obtain ⟨hid, hrest⟩ := List.ne_and_not_mem_of_not_mem_cons hnot
      exact (hface₁ hrest).trans (hface hid)
    · obtain ⟨hid, hrest⟩ := List.ne_and_not_mem_of_not_mem_cons hnot
      exact (hseen d hid).trans (hseen₁ d hrest)

end Passed

end Services

end ResourcePki
