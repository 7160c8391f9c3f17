import ResourcePki.Proofs.Issuance.Linked
import ResourcePki.Proofs.Key.Lapsing

/-! What each command makes of the tree when it succeeds. An update is an `Updated`; an activation
adds a CA and updates it; all other commands only let what is there age. -/

namespace ResourcePki

open OutgoingCertificate ResourcePki.Action

/-! Rings whose certificates age -/

theorem OutgoingCertificate.ages_withdraw (o : OutgoingCertificate) : Ages o o.withdraw :=
  ⟨⟨rfl, rfl, rfl⟩, id⟩

theorem OutgoingCertificate.ages_lapse (o : OutgoingCertificate) (now : Time) :
    Ages o (o.lapse now) := by
  cases h : o.isOverdue now with
  | true =>
    rw [lapse, h, if_pos rfl]
    exact ⟨⟨rfl, rfl, rfl⟩, fun hvalid => absurd hvalid Bool.false_ne_true⟩
  | false =>
    rw [lapse_of_not_isOverdue h]
    exact .refl o

namespace KeyRing

theorem forall₂_lapse (r : KeyRing) (now : Time) :
    List.Forall₂ Ages r.outgoing (r.lapse now).outgoing := by
  rw [outgoing_lapse, List.forall₂_map_right_iff]
  exact List.forall₂_same.mpr fun o _ => o.ages_lapse now

theorem forall₂_revoke (ski : String) (l : List KeyPair) :
    List.Forall₂ Ages (l.flatMap (·.outgoing))
      ((modifyFirst ski (·.revoke) l).flatMap (·.outgoing)) := by
  have hsame : ∀ l : List OutgoingCertificate, List.Forall₂ Ages l l := fun l =>
    List.forall₂_same.mpr fun o _ => .refl o
  induction l with
  | nil => exact .nil
  | cons k rest ih =>
    unfold modifyFirst
    split
    · rw [List.flatMap_cons, List.flatMap_cons]
      refine List.rel_append ?_ (hsame _)
      change List.Forall₂ Ages k.outgoing (k.outgoing.map (·.withdraw))
      rw [List.forall₂_map_right_iff]
      exact List.forall₂_same.mpr fun o _ => o.ages_withdraw
    · rw [List.flatMap_cons, List.flatMap_cons]
      exact List.rel_append (hsame _) ih

theorem mem_modifyFirst {ski : String} {f : KeyPair → KeyPair} {l : List KeyPair} {k' : KeyPair}
    (h : k' ∈ modifyFirst ski f l) : k' ∈ l ∨ ∃ k ∈ l, k' = f k := by
  induction l with
  | nil => cases h
  | cons k rest ih =>
    unfold modifyFirst at h
    split at h
    · rcases List.mem_cons.mp h with rfl | h
      · exact .inr ⟨k, List.mem_cons_self .., rfl⟩
      · exact .inl (List.mem_cons_of_mem _ h)
    · rcases List.mem_cons.mp h with rfl | h
      · exact .inl (List.mem_cons_self ..)
      · rcases ih h with hk | ⟨k₀, hk₀, rfl⟩
        · exact .inl (List.mem_cons_of_mem _ hk)
        · exact .inr ⟨k₀, List.mem_cons_of_mem _ hk₀, rfl⟩

end KeyRing

namespace CertificateAuthority

variable {ca ca' : CertificateAuthority} {fresh : String → Prop}

theorem Aged.of_pairs (hlinks : ca'.links = ca.links) (hpairs : ca'.pairs = ca.pairs) :
    Aged fresh ca ca' where
  links := hlinks
  issued := by
    rw [outgoing_eq, outgoing_eq, hpairs]
    exact List.forall₂_same.mpr fun o _ => .refl o
  held k hk hrevoked := .inl ⟨k, hpairs ▸ hk, hrevoked, rfl, rfl⟩
  skis h := by
    rw [CertificateAuthority.skis, hpairs]
    exact h

theorem aged_lapse {r : KeyRing} (now : Time) (hkeys : ca.keys? = some r) :
    Aged fresh ca (ca.withKeys (r.lapse now)) := by
  have hshells := r.shells_lapse now
  have hkeys' := keys?_withKeys hkeys (r.lapse now)
  have hpairs : ca.pairs = r.pairs := by
    rw [pairs, hkeys]
    rfl
  have hpairs' : (ca.withKeys (r.lapse now)).pairs = (r.lapse now).pairs := by
    rw [pairs, hkeys']
    rfl
  refine ⟨?_, ?_, fun k' hk' hrevoked => .inl ?_, fun hskis => ?_⟩
  · rw [← modifyKeys_of_some hkeys (·.lapse now), links_modifyKeys]
  · rw [outgoing_of_keys hkeys, outgoing_of_keys hkeys']
    exact r.forall₂_lapse now
  -- Expiry changes what was issued, and nothing of the keys themselves.
  · rw [hpairs'] at hk'
    have hmem : k'.shell ∈ r.shells := hshells ▸ List.mem_map_of_mem hk'
    obtain ⟨k, hk, hshell⟩ := List.mem_map.mp hmem
    have hstatus : k.status = k'.status := congrArg (·.status) hshell
    refine ⟨k, hpairs ▸ hk, ?_, congrArg (·.ski) hshell, congrArg (·.incoming) hshell⟩
    rwa [KeyPair.isRevoked, hstatus]
  · rw [skis, hpairs] at hskis
    rw [skis, hpairs']
    change (r.lapse now).skis.Nodup
    rw [KeyRing.skis_eq_shells, hshells, ← KeyRing.skis_eq_shells]
    exact hskis

theorem revokeKey_ok {ski : String} (h : ca.revokeKey ski = .ok ca') :
    ∃ keys, ca.keys? = some keys ∧ ca' = ca.withKeys (keys.modify ski (·.revoke)) := by
  obtain ⟨keys, pending, hkind, -, rfl⟩ := revokeKey_eq_ok_iff.mp h
  refine ⟨keys, ?_, ?_⟩
  · rw [keys?, hkind]
    rfl
  · rw [withKeys, hkind]
    rfl

theorem aged_revokeKey {ski : String} (h : ca.revokeKey ski = .ok ca') : Aged fresh ca ca' := by
  obtain ⟨keys, hkeys, rfl⟩ := revokeKey_ok h
  have hkeys' := keys?_withKeys hkeys (keys.modify ski (·.revoke))
  refine ⟨rfl, ?_, fun k' hk' hrevoked => .inl ?_, fun hskis => ?_⟩
  · rw [outgoing_of_keys hkeys, outgoing_of_keys hkeys']
    exact KeyRing.forall₂_revoke ski keys.pairs
  -- The revoked key is not in use any more, so nothing is asked of it.
  · rw [pairs, hkeys'] at hk'
    rw [pairs, hkeys]
    rcases KeyRing.mem_modifyFirst hk' with hk | ⟨k, -, rfl⟩
    · exact ⟨k', hk, hrevoked, rfl, rfl⟩
    · cases hrevoked
  · rw [skis, pairs, hkeys] at hskis
    rw [skis, pairs, hkeys']
    change ((KeyRing.modifyFirst ski (·.revoke) keys.pairs).map (·.ski)).Nodup
    rw [KeyRing.map_modifyFirst (f := (·.revoke)) fun _ => rfl]
    exact hskis

theorem Aged.of_publishers {publicKeys : List String}
    {publishers publishers' : SortedMap PublisherHandle PublisherRepository}
    (hkind : ca.kind = .nonHosted publicKeys publishers) :
    Aged fresh ca { ca with kind := .nonHosted publicKeys publishers' } := by
  refine .of_pairs rfl ?_
  unfold pairs keys?
  rw [hkind]
  rfl

theorem aged_addPublisher {handle : PublisherHandle} {repository : PublisherRepository}
    {limit : Nat} (h : ca.addPublisher handle repository limit = .ok ca') : Aged fresh ca ca' := by
  obtain ⟨publicKeys, publishers, hkind, -, -, rfl⟩ := addPublisher_eq_ok_iff.mp h
  exact .of_publishers hkind

theorem aged_removePublisher {handle : PublisherHandle}
    (h : ca.removePublisher handle = .ok ca') : Aged fresh ca ca' := by
  obtain ⟨publicKeys, publishers, hkind, -, rfl⟩ := removePublisher_eq_ok_iff.mp h
  exact .of_publishers hkind

/-- A request may come with a new key, whose identifier is what the source of keys answered. -/
theorem prepareRequest_ok {children : List CaIdentity} {source : KeySource} {id : Uuid}
    {now : Time} {answers : List (Except Error String)}
    (h : (ca.prepareRequest children source id now answers).1 = .ok ca') :
    ∃ keys keys' pending signingKey request, ca.kind = .allResources keys pending ∧
      (keys' = keys ∨ keys.pairs = [] ∧ ∃ ski, source answers = .ok ski ∧
        keys' = keys.add (KeyPair.requestCertificate { ski })) ∧
      ca.usableKey keys' = .ok signingKey ∧
      request = TrustAnchorRequest.ofChildren id now ca.name signingKey .all children ∧
      ca' = { ca with kind := .allResources keys' (some request) } := by
  -- Only the keys matter, not the request that is put down with them.
  have hrequest : ∀ keys', (do
      let ski ← ca.usableKey keys'
      let request := TrustAnchorRequest.ofChildren id now ca.name ski .all children
      return { ca with kind := .allResources keys' (some request) }) = Except.ok ca' →
      ∃ signingKey request, ca.usableKey keys' = .ok signingKey ∧
        request = TrustAnchorRequest.ofChildren id now ca.name signingKey .all children ∧
        ca' = { ca with kind := .allResources keys' (some request) } := by
    intro keys' hdo
    cases husable : ca.usableKey keys' with
    | error err =>
      rw [husable] at hdo
      cases hdo
    | ok ski =>
      rw [husable] at hdo
      exact ⟨ski, _, rfl, rfl, (Except.ok.inj hdo).symm⟩
  unfold prepareRequest at h
  split at h
  · rename_i keys pending hkind
    dsimp only at h
    split at h
    · rename_i hempty
      have hnil : keys.pairs = [] := List.isEmpty_iff.mp hempty
      cases hanswer : source answers with
      | error err =>
        rw [KeySource.take, hanswer] at h
        cases h
      | ok ski =>
        rw [KeySource.take, hanswer] at h
        obtain ⟨signingKey, request, hrest⟩ := hrequest _ h
        exact ⟨keys, _, pending, signingKey, request, hkind, .inr ⟨hnil, ski, rfl, rfl⟩, hrest⟩
    · obtain ⟨signingKey, request, hrest⟩ := hrequest _ h
      exact ⟨keys, keys, pending, signingKey, request, hkind, .inl rfl, hrest⟩
  · cases h

theorem aged_prepareRequest {children : List CaIdentity} {source : KeySource} {id : Uuid}
    {now : Time} {answers : List (Except Error String)}
    (hfresh : ∀ ski, source answers = .ok ski → fresh ski)
    (h : (ca.prepareRequest children source id now answers).1 = .ok ca') : Aged fresh ca ca' := by
  obtain ⟨keys, keys', pending, signingKey, request, hkind, hkeys', -, -, rfl⟩ :=
    prepareRequest_ok h
  have hkeys : ca.keys? = some keys := by
    rw [keys?, hkind]
    rfl
  rcases hkeys' with rfl | ⟨hnil, ski, hanswer, rfl⟩
  · refine .of_pairs rfl ?_
    rw [pairs, pairs, hkeys]
    rfl
  · refine ⟨rfl, ?_, fun k' hk' _ => .inr ?_, fun _ => ?_⟩
    · rw [outgoing_of_keys hkeys, outgoing_eq]
      change List.Forall₂ Ages (keys.pairs.flatMap _) ((keys.pairs ++ [_]).flatMap _)
      rw [hnil]
      exact .nil
    · change k' ∈ keys.pairs ++ [_] at hk'
      rw [hnil, List.nil_append, List.mem_singleton] at hk'
      rw [hk']
      exact ⟨hfresh ski hanswer, rfl⟩
    · change ((keys.pairs ++ [_]).map KeyPair.ski).Nodup
      rw [hnil]
      exact List.pairwise_singleton ..

end CertificateAuthority

end ResourcePki
