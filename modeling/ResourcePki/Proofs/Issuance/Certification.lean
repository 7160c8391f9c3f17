import ResourcePki.Proofs.Authority.Views

/-! Bringing the certificates of a child in line. Every success is a sequence of single steps, so
what one step keeps is kept by all of it; at its end nothing is left to do. -/

namespace ResourcePki

open OutgoingCertificate

namespace KeyRing

variable {r : KeyRing}

theorem pairs_receive {ski : String} {inc : IncomingCertificate} (h : r.skis.Nodup) :
    (r.modify ski (·.receive inc)).pairs =
      r.pairs.map fun k => if k.ski = ski then k.receive inc else k := modifyFirst_eq_map h

theorem find?_modify_self (r : KeyRing) {ski : String} {f : KeyPair → KeyPair}
    (hf : ∀ k, (f k).ski = k.ski) : (r.modify ski f).find? ski = (r.find? ski).map f := by
  unfold find? modify
  induction r.pairs with
  | nil => rfl
  | cons k rest ih =>
    unfold modifyFirst
    by_cases hk : k.ski = ski
    · rw [if_pos hk, List.find?_cons_of_pos (by simp [hf, hk]),
        List.find?_cons_of_pos (by simp [hk]), Option.map_some]
    · rw [if_neg hk, List.find?_cons_of_neg (by simp [hk]), List.find?_cons_of_neg (by simp [hk])]
      exact ih

theorem find?_modify_ne (r : KeyRing) {ski ski' : String} {f : KeyPair → KeyPair}
    (hf : ∀ k, (f k).ski = k.ski) (hne : ski ≠ ski') :
    (r.modify ski f).find? ski' = r.find? ski' := by
  unfold find? modify
  induction r.pairs with
  | nil => rfl
  | cons k rest ih =>
    unfold modifyFirst
    by_cases hk : k.ski = ski
    · have hk' : k.ski ≠ ski' := hk ▸ hne
      rw [if_pos hk, List.find?_cons_of_neg (by simp [hf, hk']),
        List.find?_cons_of_neg (by simp [hk'])]
    · rw [if_neg hk, List.find?_cons, List.find?_cons]
      dsimp only at ih
      rw [ih]

theorem foldl_add_eq_zero_iff {α : Type} (f : α → Nat) (l : List α) (n : Nat) :
    l.foldl (fun n a => n + f a) n = 0 ↔ n = 0 ∧ ∀ a ∈ l, f a = 0 := by
  induction l generalizing n with
  | nil => simp
  | cons a rest ih =>
    rw [List.foldl_cons, ih, Nat.add_eq_zero_iff, List.forall_mem_cons, and_assoc]

theorem countChild_eq_zero_iff {child : CaId} {key : Option String} :
    r.countChild child key = 0 ↔
      ∀ c ∈ r.outgoing, KeyPair.concerns (.child child) key c = false := by
  rw [countChild, foldl_add_eq_zero_iff, eq_self, true_and]
  simp only [KeyPair.countFor, List.countP_eq_zero, outgoing, List.mem_flatMap,
    Bool.not_eq_true, forall_exists_index, and_imp]
  exact ⟨fun h c k hk hc => h k hk c hc, fun h k hk c hc => h c k hk hc⟩

theorem concerns_none {child : CaId} {c : OutgoingCertificate} :
    KeyPair.concerns (.child child) none c = true ↔
      c.subject = .child child ∧ c.isValid = true := by
  simp [KeyPair.concerns]

theorem countChild_none_eq_zero_iff {child : CaId} :
    r.countChild child none = 0 ↔ ∀ key, r.validFor child key = [] := by
  rw [countChild_eq_zero_iff]
  constructor
  · intro h key
    refine List.eq_nil_iff_forall_not_mem.mpr fun c hc => ?_
    obtain ⟨hout, hvalid, hsubject, -⟩ := mem_validFor.mp hc
    have hconcerns := h c hout
    rw [concerns_none.mpr ⟨hsubject, hvalid⟩] at hconcerns
    cases hconcerns
  · intro h c hc
    refine Bool.eq_false_iff.mpr fun hconcerns => ?_
    obtain ⟨hsubject, hvalid⟩ := concerns_none.mp hconcerns
    have hmem : c ∈ r.validFor child c.certificate.subjectKey :=
      mem_validFor.mpr ⟨hc, hvalid, hsubject, rfl⟩
    rw [h] at hmem
    cases hmem

theorem revokeChild_of_countChild {child : CaId} {key : Option String} {now : Time}
    (h : r.countChild child key = 0) : r.revokeChild child key now = r := by
  rw [countChild_eq_zero_iff] at h
  have hpairs : r.pairs.map (·.revokeFor (.child child) key now) = r.pairs := by
    refine (List.map_congr_left fun k hk => ?_).trans (List.map_id' r.pairs)
    have houtgoing : k.outgoing.map (fun c =>
        if KeyPair.concerns (.child child) key c then c.revoke now else c) = k.outgoing := by
      refine (List.map_congr_left fun c hc => ?_).trans (List.map_id' k.outgoing)
      rw [h c (List.mem_flatMap.mpr ⟨k, hk, hc⟩)]
      rfl
    rw [KeyPair.revokeFor, houtgoing]
  unfold revokeChild
  rw [hpairs]

theorem countChild_revokeChild (r : KeyRing) (child : CaId) (now : Time) :
    (r.revokeChild child none now).countChild child none = 0 := by
  refine countChild_eq_zero_iff.mpr fun c hc => Bool.eq_false_iff.mpr fun hconcerns => ?_
  have hmem : c ∈ (r.revokeChild child none now).valid := by
    rw [valid_eq]
    exact List.mem_filter.mpr ⟨hc, (concerns_none.mp hconcerns).2⟩
  rw [valid_revokeChild, List.mem_filter, hconcerns] at hmem
  exact absurd hmem.2 Bool.false_ne_true

theorem validFor_revokeChild_none (r : KeyRing) (child : CaId) (now : Time) (d : CaId)
    (key : String) :
    (r.revokeChild child none now).validFor d key = if d = child then [] else r.validFor d key := by
  unfold validFor
  rw [valid_revokeChild, List.filter_filter]
  split
  · rename_i h
    subst h
    refine List.filter_eq_nil_iff.mpr fun c hc => ?_
    rw [valid_eq] at hc
    have hvalid := (List.mem_filter.mp hc).2
    cases hfor : c.isFor d key with
    | false => exact Bool.false_ne_true
    | true => simp [concerns_none.mpr ⟨(isFor_iff.mp hfor).1, hvalid⟩]
  · rename_i h
    refine List.filter_congr fun c _ => ?_
    cases hfor : c.isFor d key with
    | false => rfl
    | true =>
      have hother : KeyPair.concerns (.child child) none c = false := by
        refine Bool.eq_false_iff.mpr fun hc => h ?_
        exact Subject.child.inj ((isFor_iff.mp hfor).1.symm.trans (concerns_none.mp hc).1)
      rw [hother]
      rfl

theorem clearIncoming_of_none (h : ∀ k ∈ r.pairs, k.incoming = none) : r.clearIncoming = r := by
  have hpairs : r.pairs.map (·.clearIncoming) = r.pairs := by
    refine (List.map_congr_left fun k hk => ?_).trans (List.map_id' r.pairs)
    rw [KeyPair.clearIncoming, ← h k hk]
  unfold clearIncoming
  rw [hpairs]

end KeyRing

namespace Certification

variable {terms : CertificationTerms} {c c' c'' : Certification}

/-- One step of bringing certificates in line. -/
inductive Step (terms : CertificationTerms) : Certification → Certification → Prop
  | issue {c c' : Certification} {ski : String} {o : OutgoingCertificate}
      {inc : IncomingCertificate} (hski : ski ∈ c.child.subjectKeys)
      (hissued : KeyRing.Issued ⟨c.child.identity, ski, terms.resources, terms.validity⟩
        c.parentKeys c'.parentKeys o inc)
      (hchild : c'.child = c.child.modifyKeys (·.modify ski (·.receive inc))) : Step terms c c'
  | withdraw (c : Certification) : Step terms c (c.withdraw terms.now)

/-- The answer of the parent is handed to the child. -/
theorem issue_delivered {ski : String} {u : Unit} (h : c.issue terms ski = (.ok u, c')) :
    ∃ inc parentKeys signings,
      c.parentKeys.issueChild ⟨c.child.identity, ski, terms.resources, terms.validity⟩
        terms.sign terms.now c.signings = (.ok inc, parentKeys, signings) ∧
      c' = { c with parentKeys, signings }.deliver ski inc := by
  unfold issue at h
  generalize c.parentKeys.issueChild _ _ _ _ = issued at h ⊢
  obtain ⟨result, parentKeys, signings⟩ := issued
  cases result with
  | error err => cases h
  | ok inc => exact ⟨inc, parentKeys, signings, rfl, (Prod.mk.inj h).2.symm⟩

theorem issue_ok {ski : String} {u : Unit} (h : c.issue terms ski = (.ok u, c')) :
    ∃ o inc, KeyRing.Issued ⟨c.child.identity, ski, terms.resources, terms.validity⟩
        c.parentKeys c'.parentKeys o inc ∧
      c'.child = c.child.modifyKeys (·.modify ski (·.receive inc)) := by
  obtain ⟨inc, parentKeys, signings, hissue, rfl⟩ := issue_delivered h
  obtain ⟨o, hissued⟩ := KeyRing.issueChild_ok hissue
  exact ⟨o, inc, hissued, rfl⟩

/-- The first key is served already, or the first certificate is issued and an effect reported. -/
theorem certify_cons_ok {ski : String} {rest : List String} {b : Bool}
    (h : certify terms (ski :: rest) c = (.ok b, c')) :
    c.needsCertificate terms ski = false ∧ certify terms rest c = (.ok b, c') ∨
      b = true ∧ ∃ c₁ b₁, c.issue terms ski = (.ok (), c₁) ∧
        certify terms rest c₁ = (.ok b₁, c') := by
  unfold certify at h
  split at h
  · generalize c.issue terms ski = issued at h ⊢
    obtain ⟨result, c₁⟩ := issued
    cases result with
    | error err => cases h
    | ok u =>
      dsimp only at h
      generalize hcertify : certify terms rest c₁ = certified at h
      obtain ⟨r, c₂⟩ := certified
      cases r with
      | error err => cases h
      | ok b₁ =>
        obtain ⟨hb, rfl⟩ := Prod.mk.inj h
        exact .inr ⟨(Except.ok.inj hb).symm, c₁, b₁, rfl, hcertify⟩
  · rename_i hneeds
    exact .inl ⟨Bool.eq_false_iff.mpr hneeds, h⟩

theorem issue_signings (terms : CertificationTerms) (c : Certification) (ski : String) :
    c.signings <:+ (c.issue terms ski).2.signings := by
  have hissue := c.parentKeys.issueChild_signings
    ⟨c.child.identity, ski, terms.resources, terms.validity⟩ terms.sign terms.now c.signings
  unfold issue
  generalize c.parentKeys.issueChild _ _ _ _ = issued at hissue ⊢
  obtain ⟨result, parentKeys, signings⟩ := issued
  cases result <;> exact hissue

/-- What every issuance keeps, whether it fails or not, is kept by any number of them. -/
theorem certify_keep (terms : CertificationTerms) (keys : List String) (c : Certification)
    {P : Certification → Prop} (hissue : ∀ c ski, ski ∈ keys → P c → P (c.issue terms ski).2)
    (h : P c) : P (certify terms keys c).2 := by
  induction keys generalizing c with
  | nil => exact h
  | cons ski rest ih =>
    have hrest := fun c ski hski => hissue c ski (List.mem_cons_of_mem _ hski)
    unfold certify
    split
    · have hfirst := hissue c ski (List.mem_cons_self ..) h
      generalize c.issue terms ski = issued at hfirst ⊢
      obtain ⟨result, c'⟩ := issued
      cases result with
      | error err => exact hfirst
      | ok u => exact ih _ hrest hfirst
    · exact ih c hrest h

theorem certify_signings (terms : CertificationTerms) (keys : List String) (c : Certification) :
    c.signings <:+ (certify terms keys c).2.signings :=
  certify_keep terms keys c (P := fun c' => c.signings <:+ c'.signings)
    (fun c' ski _ h => h.trans (issue_signings terms c' ski)) List.suffix_rfl

theorem align_signings (terms : CertificationTerms) (c : Certification) :
    c.signings <:+ (align terms c).2.signings := by
  unfold align
  split
  · exact List.suffix_rfl
  · exact certify_signings terms _ c

end Certification

end ResourcePki
