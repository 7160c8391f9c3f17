import ResourcePki.Proofs.Issuance.Retiring

/-! Checking a CA after one of its keys was revoked. The key publishes nothing any more, but what
it issued stays valid; so the CA passes the checks again just as long as it has another key that
publishes, which is certified for the same as the keys before. -/

namespace ResourcePki

open OutgoingCertificate

namespace OutgoingCertificate

variable {o o' : OutgoingCertificate}

theorem SameRecord.resources (h : SameRecord o o') : o'.resources = o.resources :=
  congrArg (·.resources) h.certificate

theorem SameRecord.includes (h : SameRecord o o') (scope : IssuedScope) :
    scope.includes o' = scope.includes o := by
  cases scope with
  | child => rw [IssuedScope.includes, IssuedScope.includes, h.subject]
  | nonChild => rw [IssuedScope.includes, IssuedScope.includes, h.subject]
  | all => rfl

end OutgoingCertificate

namespace KeyRing

variable {r : KeyRing} {ski : String}

/-- Whether a certificate is valid has nothing to do with its object in the repository. -/
theorem valid_revoke (r : KeyRing) (ski : String) :
    List.Forall₂ SameRecord r.valid (r.modify ski (·.revoke)).valid := by
  have hkey : ∀ k : KeyPair, List.Forall₂ SameRecord k.valid k.revoke.valid := by
    intro k
    rw [KeyPair.valid, KeyPair.valid, KeyPair.revoke, List.filter_map]
    exact forall₂_map (fun o => ⟨rfl, rfl, rfl⟩) _
  have hsame : ∀ k : KeyPair, List.Forall₂ SameRecord k.valid k.valid := fun k =>
    List.forall₂_same.mpr fun o _ => .refl o
  exact List.rel_flatMap (forall₂_modifyFirst_self hkey hsame ski r.pairs) fun _ _ h => h

theorem publishable_revoke {k : KeyPair} (h : k ∈ (r.modify ski (·.revoke)).publishable) :
    k ∈ r.publishable := by
  obtain ⟨hk, hpublishable⟩ := List.mem_filter.mp h
  rcases mem_modifyFirst hk with hk | ⟨k₀, -, rfl⟩
  · exact List.mem_filter.mpr ⟨hk, hpublishable⟩
  · cases hpublishable

end KeyRing

/-- The CA `ca'` has issued what `ca` has, and publishes with some of the same keys. -/
structure CertificateAuthority.Narrows (ca ca' : CertificateAuthority) : Prop where
  valid : List.Forall₂ SameRecord ca.valid ca'.valid
  publishable : ∀ k ∈ ca'.publishable, k ∈ ca.publishable
  checkNeeded : ca'.keys?.map (·.checkNeeded) = ca.keys?.map (·.checkNeeded)

theorem CertificateAuthority.narrows_revokeKey {ca ca' : CertificateAuthority} {ski : String}
    (h : ca.revokeKey ski = .ok ca') : ca.Narrows ca' := by
  obtain ⟨keys, hkeys, rfl⟩ := revokeKey_ok h
  have hkeys' := keys?_withKeys hkeys (keys.modify ski (·.revoke))
  refine ⟨?_, fun k hk => ?_, ?_⟩
  · rw [valid_of_keys hkeys, valid_of_keys hkeys']
    exact keys.valid_revoke ski
  · rw [publishable, hkeys'] at hk
    rw [publishable, hkeys]
    exact KeyRing.publishable_revoke hk
  · rw [hkeys, hkeys']
    rfl

namespace InvariantModel

variable {m : InvariantModel} {ca ca' : CertificateAuthority} {held : ResourceSet}

theorem heldSets_eq_nil_iff : m.heldSets ca = [] ↔ ca.publishable = [] := by
  rw [heldSets, List.filterMap_eq_nil_iff]
  refine ⟨fun h => List.eq_nil_iff_forall_not_mem.mpr fun k hk => ?_, fun h k hk => ?_⟩
  · have hnone := h k hk
    rw [CertificateAuthority.publishable_eq, List.mem_filter] at hk
    obtain ⟨inc, hinc⟩ := (KeyPair.isPublishable_iff.mp hk.2).2
    rw [hinc] at hnone
    cases hnone
  · rw [h] at hk
    cases hk

/-- The keys that still publish agree on what all of them agreed on before. -/
theorem incoming_of_narrows (h : ca.Narrows ca') (hheld : m.incoming ca = .ok held) :
    (ca'.publishable = [] ∧ m.incoming ca' = .ok ∅) ∨
      (ca'.publishable ≠ [] ∧ m.incoming ca' = .ok held) := by
  have hall : ∀ x ∈ m.heldSets ca', x = held := by
    intro x hx
    obtain ⟨k, hk, hx⟩ := List.mem_filterMap.mp hx
    exact (incoming_ok_iff.mp hheld).1 x (List.mem_filterMap.mpr ⟨k, h.publishable k hk, hx⟩)
  rw [ne_eq, ← heldSets_eq_nil_iff (m := m)]
  by_cases hnil : m.heldSets ca' = []
  · refine .inl ⟨hnil, incoming_ok_iff.mpr ⟨fun x hx => ?_, fun _ => rfl⟩⟩
    rw [hnil] at hx
    cases hx
  · exact .inr ⟨hnil, incoming_ok_iff.mpr ⟨hall, fun h => absurd h hnil⟩⟩

/-- What a narrowed CA has to hold is what the CA issued before. -/
theorem check_of_incoming (h : ca.Narrows ca') {keys : KeyRing} (hkeys : ca.keys? = some keys)
    (hheld : m.incoming ca' = .ok held) : m.check ca' = .ok () ↔
      ∀ scope ∈ m.scopes keys, ∀ o ∈ ca.valid,
        scope.includes o = true → held.contains o.resources = true := by
  have hneeded := h.checkNeeded
  rw [hkeys] at hneeded
  obtain ⟨keys', hkeys', heq⟩ := Option.map_eq_some_iff.mp hneeded
  have hscopes : m.scopes keys' = m.scopes keys := by
    cases m with
    | hosted => rw [scopes, scopes, heq]
    | managed => rfl
  obtain ⟨hlater, hearlier⟩ := exists_of_forall₂ h.valid
  rw [check_ok_iff, ← hscopes]
  constructor
  · intro hall scope hscope o ho hincluded
    obtain ⟨held', hheld', hcontained⟩ := hall keys' hkeys'
    obtain rfl := Except.ok.inj (hheld.symm.trans hheld')
    obtain ⟨o', ho', hsame⟩ := hlater o ho
    rw [← hsame.resources]
    exact hcontained scope hscope o' ho' ((hsame.includes scope).trans hincluded)
  · intro hcontained keys'' hkeys''
    obtain rfl := Option.some.inj (hkeys'.symm.trans hkeys'')
    refine ⟨held, hheld, fun scope hscope o' ho' hincluded => ?_⟩
    obtain ⟨o, ho, hsame⟩ := hearlier o' ho'
    rw [hsame.resources]
    exact hcontained scope hscope o ho ((hsame.includes scope).symm.trans hincluded)

/-- With fewer keys to publish, a CA passes a check as before, unless no key is left that could hold
what the CA issued. -/
theorem check_narrows_iff (h : ca.Narrows ca') {keys : KeyRing} (hkeys : ca.keys? = some keys)
    (hcheck : m.check ca = .ok ()) : m.check ca' = .ok () ↔ ca'.publishable ≠ [] ∨
      ∀ scope ∈ m.scopes keys, ∀ o ∈ ca.valid, scope.includes o = true → o.resources = ∅ := by
  obtain ⟨held, hheld, hcontained⟩ := check_ok_iff.mp hcheck keys hkeys
  obtain ⟨hnone, hheld'⟩ | ⟨hsome, hheld'⟩ := incoming_of_narrows h hheld
  · rw [check_of_incoming h hkeys hheld', or_iff_right (not_not.mpr hnone)]
    simp only [ResourceSet.empty_contains_iff]
  · exact iff_of_true ((check_of_incoming h hkeys hheld').mpr hcontained) (.inl hsome)

end InvariantModel

namespace Dispatcher

variable {s : Services} {policy : IssuancePolicy} {retries : Nat} {id : CaId} {actor : Actor}
  {ski : String} {e e' : Engine Journal} {status : CommandStatus}

/-- What a revoked key issued stays valid. So the CA that passed the checks passes them again just
when it still has a key that publishes, or had issued nothing that needs to be held. -/
theorem execute_revoke_contained_iff {ca : CertificateAuthority} (hca : e.tree.get? id = some ca)
    (hchecked : ∀ m : InvariantModel, m.check ca = .ok ())
    (h : (standard s policy retries).execute ⟨id, actor, .processRevokedKey ski⟩ e =
      (.ok status, e')) :
    ∃ ca', ca.revokeKey ski = .ok ca' ∧ e'.tree = e.tree.set id ca' ∧
      List.Forall₂ SameRecord ca.valid ca'.valid ∧
      ((∀ m : InvariantModel, m.check ca' = .ok ()) ↔
        ca'.publishable ≠ [] ∨ ∀ o ∈ ca.valid, o.resources = ∅) := by
  obtain ⟨j, -, hperformed⟩ := execute_standard_performed h
  generalize status.hadEffect = b, e'.tree = t' at hperformed ⊢
  cases hperformed with
  | @changed _ ca' _ _ hca₁ hchanges =>
    obtain rfl := Option.some.inj (hca.symm.trans hca₁)
    cases hchanges with
    | revoke hrevoke =>
      have hnarrows := CertificateAuthority.narrows_revokeKey hrevoke
      obtain ⟨keys, hkeys, -⟩ := CertificateAuthority.revokeKey_ok hrevoke
      have hiff := fun m => InvariantModel.check_narrows_iff hnarrows hkeys (hchecked m)
      refine ⟨ca', hrevoke, rfl, hnarrows.valid, fun hcheck => ?_, fun hcovered m => ?_⟩
      · refine ((hiff .managed).mp (hcheck .managed)).imp_right fun hempty o ho => ?_
        exact hempty .all (List.mem_singleton_self _) o ho rfl
      · exact (hiff m).mpr (hcovered.imp_right fun hempty _ _ o ho _ => hempty o ho)

end Dispatcher

namespace Chain

theorem checked_twofold : ∀ m : InvariantModel, m.check twofoldRoot = .ok () := by
  intro m
  cases m <;> decide +kernel

/-- The root loses one of its two keys, and is left with the other. -/
theorem execute_revoke_contained_in_chain :
    (twofold.tree.get? 1 = some twofoldRoot ∧
      (∀ m : InvariantModel, m.check twofoldRoot = .ok ()) ∧
      (Dispatcher.standard renewing {} 0).execute ⟨1, .background, .processRevokedKey "R"⟩ twofold =
        (.ok { hadEffect := true }, halved)) ∧
    ∃ ca', halved.tree = twofold.tree.set 1 ca' ∧ ∀ m : InvariantModel, m.check ca' = .ok () := by
  have hrun : (Dispatcher.standard renewing {} 0).execute
      ⟨1, .background, .processRevokedKey "R"⟩ twofold = (.ok { hadEffect := true }, halved) := by
    refine Prod.ext ?_ rfl
    rw [Dispatcher.standard_eq]
    decide +kernel
  have hroot : twofold.tree.get? 1 = some twofoldRoot := by decide +kernel
  obtain ⟨ca', hrevoke, htree, -, hcheck⟩ :=
    Dispatcher.execute_revoke_contained_iff hroot checked_twofold hrun
  obtain rfl : halvedRoot = ca' := by
    have hhalved : twofoldRoot.revokeKey "R" = .ok halvedRoot := by decide +kernel
    exact Except.ok.inj (hhalved.symm.trans hrevoke)
  exact ⟨⟨hroot, checked_twofold, hrun⟩, halvedRoot, htree, hcheck.mpr (.inl (by decide +kernel))⟩

/-- The root has lost its only key. -/
def bereft : Engine Journal :=
  ((Dispatcher.standard services {} 0).execute ⟨1, .background, .processRevokedKey "R"⟩ engine).2

def bereftRoot : CertificateAuthority := root.modifyKeys (·.modify "R" (·.revoke))

/-- The certificate of the production CA stays valid, and the root has no other key to hold what is
on it: a revoked key can leave a CA with more issued than it holds. -/
theorem execute_revoke_not_contained : ¬ ∀ (s : Services) (policy : IssuancePolicy) (retries : Nat)
    (e e' : Engine Journal) (id : CaId) (actor : Actor) (ski : String) (status : CommandStatus)
    (ca ca' : CertificateAuthority), e.tree.get? id = some ca →
    (∀ m : InvariantModel, m.check ca = .ok ()) →
    (Dispatcher.standard s policy retries).execute ⟨id, actor, .processRevokedKey ski⟩ e =
      (.ok status, e') → e'.tree.get? id = some ca' →
    ∀ m : InvariantModel, m.check ca' = .ok () := by
  intro h
  have hrun : (Dispatcher.standard services {} 0).execute
      ⟨1, .background, .processRevokedKey "R"⟩ engine = (.ok { hadEffect := true }, bereft) := by
    refine Prod.ext ?_ rfl
    rw [Dispatcher.standard_eq]
    decide +kernel
  have hroot : bereft.tree.get? 1 = some bereftRoot := by
    rw [bereft, Dispatcher.standard_eq]
    decide +kernel
  have hcheck := h services {} 0 engine bereft 1 .background "R" _ root bereftRoot rfl
    (contained_tree.checked 1 root rfl) hrun hroot .managed
  have hfails : InvariantModel.managed.check bereftRoot ≠ .ok () := by decide +kernel
  exact hfails hcheck

end Chain

end ResourcePki
