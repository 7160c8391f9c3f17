import ResourcePki.Proofs.Issuance.Signing
import ResourcePki.Proofs.Invariant.Certifying

/-! What becomes of revoked keys. A key that was revoked is never used again, neither to sign nor
to be certified, and what it signed stays withdrawn: this holds of every edit of the key. -/

namespace ResourcePki

open OutgoingCertificate

namespace KeyPair

variable {k k' k'' : KeyPair}

/-- Nothing that the key signed is in the repository or on its way there. -/
structure IsSilent (k : KeyPair) : Prop where
  outgoing : ∀ o ∈ k.outgoing, o.isPublishable = false
  published : ∀ o ∈ k.published, o.isPublished = false

/-- The key `k'` is what became of the revoked key `k`: it has the same certificates on record and
none of them published, and it holds at most what it held. -/
structure Rests (k k' : KeyPair) : Prop where
  ski : k'.ski = k.ski
  revoked : k'.isRevoked = true
  silent : k'.IsSilent
  incoming : k'.incoming = k.incoming ∨ k'.incoming = none
  records : k.SameRecords k'

theorem Rests.trans (h : k.Rests k') (h' : k'.Rests k'') : k.Rests k'' where
  ski := h'.ski.trans h.ski
  revoked := h'.revoked
  silent := h'.silent
  incoming := by
    rcases h'.incoming with hsame | hnone
    · rw [hsame]
      exact h.incoming
    · exact .inr hnone
  records := h.records.trans h'.records

theorem IsSilent.of_map {f : OutgoingCertificate → OutgoingCertificate}
    (hf : ∀ o, o.isPublishable = false → (f o).isPublishable = false) (h : k.IsSilent) :
    IsSilent { k with outgoing := k.outgoing.map f } where
  outgoing o' ho' := by
    obtain ⟨o, ho, rfl⟩ := List.mem_map.mp ho'
    exact hf o (h.outgoing o ho)
  published := h.published

theorem isSilent_revoke (k : KeyPair) : k.revoke.IsSilent where
  outgoing o' ho' := by
    obtain ⟨o, -, rfl⟩ := List.mem_map.mp ho'
    exact o.isPublishable_withdraw
  published o' ho' := by
    obtain ⟨o, -, rfl⟩ := List.mem_map.mp ho'
    exact o.status.isPublished_withdraw

theorem IsSilent.confirm (h : k.IsSilent) (place : ObjectPlace) : (k.confirm place).IsSilent := by
  cases place with
  | certificate i =>
    have hsame := forall₂_modify (R := fun o o' => o'.isPublishable = o.isPublishable)
      isPublishable_markPublished (fun _ => rfl) i k.outgoing
    refine ⟨fun o' ho' => ?_, h.published⟩
    obtain ⟨o, ho, ho''⟩ := (exists_of_forall₂ hsame).2 o' ho'
    exact ho''.trans (h.outgoing o ho)
  | published i =>
    have hsame := forall₂_modify (R := fun o o' => o'.isPublished = o.isPublished)
      (f := PublishedObject.markPublished) (fun o => o.status.isPublished_confirm) (fun _ => rfl) i
      k.published
    refine ⟨h.outgoing, fun o' ho' => ?_⟩
    obtain ⟨o, ho, ho''⟩ := (exists_of_forall₂ hsame).2 o' ho'
    exact ho''.trans (h.published o ho)

theorem Edit.rests (h : k.Edit k') (hrevoked : k.isRevoked = true) (hsilent : k.IsSilent) :
    k.Rests k' := by
  cases h with
  | receive inc hactive =>
    rw [hrevoked] at hactive
    cases hactive
  | clearIncoming => exact ⟨rfl, hrevoked, ⟨hsilent.outgoing, hsilent.published⟩, .inr rfl, .refl k⟩
  | addOutgoing o hcurrent =>
    rw [isRevoked, decide_eq_true_eq] at hrevoked
    rw [isCurrent, hrevoked] at hcurrent
    cases hcurrent
  | revokeFor subject key now =>
    refine ⟨rfl, hrevoked, hsilent.of_map fun o ho => ?_, .inl rfl,
      k.sameRecords_revokeFor subject key now⟩
    split
    · exact isPublishable_revoke ho
    · exact ho
  | lapse now =>
    exact ⟨rfl, hrevoked, hsilent.of_map fun _ => isPublishable_lapse, .inl rfl,
      k.sameRecords_lapse now⟩
  | revoke => exact ⟨rfl, rfl, k.isSilent_revoke, .inl rfl, k.sameRecords_revoke⟩
  | confirm place =>
    refine ⟨k.ski_confirm place, ?_, hsilent.confirm place, ?_, k.sameRecords_confirm place⟩
    · cases place <;> exact hrevoked
    · cases place <;> exact .inl rfl

/-- The only edit that makes a key a revoked one withdraws all that it signed. -/
theorem Edit.silent_of_revoked (h : k.Edit k') (hsilent : k.isRevoked = true → k.IsSilent)
    (hrevoked : k'.isRevoked = true) : k'.IsSilent := by
  by_cases hbefore : k.isRevoked = true
  · exact (h.rests hbefore (hsilent hbefore)).silent
  · cases h with
    | receive inc hactive =>
      rw [← isRevoked_trunk, k.trunk_receive, isRevoked_trunk] at hrevoked
      exact absurd hrevoked hbefore
    | revoke => exact k.isSilent_revoke
    | confirm place => cases place <;> exact absurd hrevoked hbefore
    | clearIncoming | addOutgoing | revokeFor | lapse => exact absurd hrevoked hbefore

theorem Edits.rests (h : k.Edits k') (hrevoked : k.isRevoked = true) (hsilent : k.IsSilent) :
    k.Rests k' := by
  induction h with
  | refl => exact ⟨rfl, hrevoked, hsilent, .inl rfl, .refl k⟩
  | tail _ hedit ih => exact ih.trans (hedit.rests ih.revoked ih.silent)

theorem Edits.silent_of_revoked (h : k.Edits k') (hsilent : k.isRevoked = true → k.IsSilent) :
    k'.isRevoked = true → k'.IsSilent := by
  induction h with
  | refl => exact hsilent
  | tail _ hedit ih => exact hedit.silent_of_revoked ih

end KeyPair

namespace CertificateAuthority

variable {ca ca' : CertificateAuthority} {k : KeyPair}

/-- What the CA has asked of the trust anchor and waits for. -/
def pending? (ca : CertificateAuthority) : Option TrustAnchorRequest :=
  match ca.kind with
  | .allResources _ pending => pending
  | _ => none

/-- What the CA asks of the trust anchor is not signed with the key. -/
def AsksWithout (ca : CertificateAuthority) (ski : String) : Prop :=
  ∀ request, ca.pending? = some request → ∀ q ∈ request.requests, q.signingKey ≠ ski

def RevokedSilent (ca : CertificateAuthority) : Prop :=
  ∀ k ∈ ca.pairs, k.isRevoked = true → k.IsSilent

theorem IsNew.pairs (h : ca.IsNew) : ∃ ski, ca.pairs = [KeyPair.requestCertificate { ski }] := by
  obtain ⟨ski, directory, hkind⟩ := h
  refine ⟨ski, ?_⟩
  rw [CertificateAuthority.pairs, keys?, hkind]
  rfl

theorem IsNew.nodup_skis (h : ca.IsNew) : ca.skis.Nodup := by
  obtain ⟨ski, hpairs⟩ := h.pairs
  rw [skis, hpairs]
  exact List.pairwise_singleton ..

theorem IsNew.revokedSilent (h : ca.IsNew) : ca.RevokedSilent := by
  obtain ⟨ski, hpairs⟩ := h.pairs
  intro k hk hrevoked
  rw [hpairs] at hk
  obtain rfl := List.mem_singleton.mp hk
  cases hrevoked

theorem pairs_of_keys {r : KeyRing} (h : ca.keys? = some r) : ca.pairs = r.pairs := by
  rw [pairs, h]
  rfl

theorem Edit.keywise (h : ca.Edit ca') (hskis : ca.skis.Nodup) :
    ca'.skis.Nodup ∧ ((ca.pairs = [] ∧ ∃ ski, ca'.pairs = [KeyPair.requestCertificate { ski }]) ∨
      List.Forall₂ KeyPair.Edits ca.pairs ca'.pairs) := by
  obtain hsame | ⟨r, r', hr, hr', hring⟩ := h.ring
  · have hpairs : ca'.pairs = ca.pairs := by
      rw [pairs, hsame]
      rfl
    rw [skis, hpairs]
    exact ⟨hskis, .inr (List.forall₂_same.mpr fun _ _ => .refl)⟩
  · rw [skis, pairs_of_keys hr] at hskis
    rw [skis, pairs_of_keys hr, pairs_of_keys hr']
    exact ⟨hring.nodup_skis hskis, hring.keywise hskis⟩

theorem RevokedSilent.edits (hsilent : ca.RevokedSilent) (hskis : ca.skis.Nodup)
    (h : ca.Edits ca') : ca'.skis.Nodup ∧ ca'.RevokedSilent := by
  induction h with
  | refl => exact ⟨hskis, hsilent⟩
  | tail _ hedit ih =>
    obtain ⟨hskis', hkeys⟩ := hedit.keywise ih.1
    refine ⟨hskis', fun k' hk' => ?_⟩
    obtain ⟨-, ski, hnew⟩ | hkeys := hkeys
    · rw [hnew] at hk'
      obtain rfl := List.mem_singleton.mp hk'
      exact fun hrevoked => (nomatch hrevoked)
    · obtain ⟨k, hk, hedits⟩ := (exists_of_forall₂ hkeys).2 k' hk'
      exact hedits.silent_of_revoked (ih.2 k hk)

/-- Only keys in use sign what a CA asks of the trust anchor. -/
theorem Edit.pending (h : ca.Edit ca') : ca'.pending? = ca.pending? ∨
    ∃ r request signingKey, ca.keys? = some r ∧ signingKey ∈ r.activeSkis ∧
      ca'.pending? = some request ∧ ∀ q ∈ request.requests, q.signingKey = signingKey := by
  cases h with
  | keys hkeys h =>
    refine .inl ?_
    rw [pending?, pending?, withKeys]
    cases ca.kind <;> rfl
  | @request keys pending signingKey request hkind hkey hrequest =>
    obtain ⟨id, now, children, rfl⟩ := hrequest
    refine .inr ⟨keys, _, signingKey, by rw [keys?, hkind]; rfl, ?_, rfl, fun q hq => ?_⟩
    · unfold usableKey at hkey
      split at hkey
      · rename_i ski rest hactive
        obtain rfl := Except.ok.inj hkey
        rw [hactive]
        exact List.mem_cons_self ..
      · cases hkey
    · obtain ⟨child, -, rfl⟩ := List.mem_map.mp hq
      rfl
  | repositories publishers' hkind =>
    rw [pending?, pending?, hkind]
    exact .inl rfl
  | addChild child => exact .inl rfl

theorem not_mem_subjectKeys (hskis : ca.skis.Nodup) (hk : k ∈ ca.pairs)
    (hrevoked : k.isRevoked = true) : k.ski ∉ ca.subjectKeys := by
  intro hmem
  cases hkeys : ca.keys? with
  | none =>
    rw [pairs, hkeys] at hk
    cases hk
  | some r =>
    rw [subjectKeys_of_keys hkeys] at hmem
    rw [skis, pairs_of_keys hkeys] at hskis
    rw [pairs_of_keys hkeys] at hk
    rw [KeyRing.isRevoked_of_active hskis hk hmem] at hrevoked
    cases hrevoked

theorem Edits.rests (h : ca.Edits ca') (hskis : ca.skis.Nodup) (hk : k ∈ ca.pairs)
    (hrevoked : k.isRevoked = true) (hsilent : k.IsSilent) :
    ca'.skis.Nodup ∧ (∃ k' ∈ ca'.pairs, k.Rests k') ∧
      (ca'.pending? = ca.pending? ∨ ca'.AsksWithout k.ski) := by
  induction h with
  | refl => exact ⟨hskis, ⟨k, hk, KeyPair.Edits.rests .refl hrevoked hsilent⟩, .inl rfl⟩
  | @tail ca₁ ca₂ _ hedit ih =>
    obtain ⟨hskis₁, ⟨k₁, hk₁, hrests⟩, hpending⟩ := ih
    obtain ⟨hskis₂, hkeys⟩ := hedit.keywise hskis₁
    refine ⟨hskis₂, ?_, ?_⟩
    · obtain ⟨hnil, -⟩ | hkeys := hkeys
      · rw [hnil] at hk₁
        cases hk₁
      · obtain ⟨k₂, hk₂, hedits⟩ := (exists_of_forall₂ hkeys).1 k₁ hk₁
        exact ⟨k₂, hk₂, hrests.trans (hedits.rests hrests.revoked hrests.silent)⟩
    · obtain hsame | ⟨r, request, signingKey, hr, hactive, hrequest, hall⟩ := hedit.pending
      · rw [AsksWithout, hsame]
        exact hpending
      · refine .inr fun request' hrequest' q hq heq => ?_
        obtain rfl := Option.some.inj (hrequest.symm.trans hrequest')
        refine not_mem_subjectKeys hskis₁ hk₁ hrests.revoked ?_
        rw [subjectKeys_of_keys hr, hrests.ski, ← heq, hall q hq]
        exact hactive

end CertificateAuthority

def CaTree.RevokedSilent (t : CaTree) : Prop :=
  ∀ id ca, t.get? id = some ca → ca.RevokedSilent

/-- Whatever command comes next, nothing is signed with a key of a CA, or for it as its key. -/
def Engine.Spares (e : Engine Journal) (id : CaId) (ski : String) : Prop :=
  ∀ (s : Services) (policy : IssuancePolicy) (retries : Nat) (command : CaCommand),
    Signing.Added (fun g => (command.issuer? e.tree = some id → g.key ≠ ski) ∧
        (command.ca = id → g.template.subjectKey ≠ ski)) e.memory.signings
      ((Dispatcher.standard s policy retries).execute command e).2.memory.signings

theorem Engine.spares_of_revoked {e : Engine Journal} {id : CaId} {ca : CertificateAuthority}
    {k : KeyPair} (hca : e.tree.get? id = some ca) (hskis : ca.skis.Nodup) (hk : k ∈ ca.pairs)
    (hrevoked : k.isRevoked = true) : e.Spares id k.ski := by
  intro s policy retries command
  have hnot := CertificateAuthority.not_mem_subjectKeys hskis hk hrevoked
  refine (Dispatcher.execute_standard_added s policy retries command e).imp fun g hg => ⟨?_, ?_⟩
  · rintro hissuer heq
    obtain ⟨p, hp, issuer, r, hget, hr, hkey⟩ := hg.issuer
    obtain rfl := Option.some.inj (hissuer.symm.trans hp)
    obtain rfl := Option.some.inj (hca.symm.trans hget)
    obtain ⟨signing, hsigning, hski, hcurrent, -⟩ := KeyRing.exists_signingKey hkey
    refine hnot ?_
    rw [CertificateAuthority.subjectKeys_of_keys hr, ← heq, ← hski]
    refine List.mem_map_of_mem (List.mem_filter.mpr ⟨hsigning, ?_⟩)
    rw [KeyPair.isCurrent, decide_eq_true_eq] at hcurrent
    rw [KeyPair.isRevoked, hcurrent]
    rfl
  · rintro rfl heq
    exact hnot (heq ▸ hg.subject ca hca)

/-- A key that was revoked takes no part any more, whatever commands and confirmations come. -/
theorem revoked_key_rests {start e e' : Engine Journal} (hstart : start.Course e)
    (hrun : e.Course e') (hkeys : start.tree.DistinctKeys) (hsilent : start.tree.RevokedSilent)
    {id : CaId} {ca : CertificateAuthority} {k : KeyPair} (hca : e.tree.get? id = some ca)
    (hk : k ∈ ca.pairs) (hrevoked : k.isRevoked = true) :
    ∃ ca', e'.tree.get? id = some ca' ∧ ca'.skis.Nodup ∧ (∃ k' ∈ ca'.pairs, k.Rests k') ∧
      (ca'.pending? = ca.pending? ∨ ca'.AsksWithout k.ski) ∧ e'.Spares id k.ski := by
  have hbefore : ca.skis.Nodup ∧ ca.RevokedSilent := by
    obtain ⟨ca₀, hca₀ | hnew, hedits⟩ := hstart.edited.origin id ca hca
    · exact (hsilent id ca₀ hca₀).edits (hkeys id ca₀ hca₀) hedits
    · exact CertificateAuthority.RevokedSilent.edits hnew.revokedSilent hnew.nodup_skis hedits
  obtain ⟨hskis, hsilent'⟩ := hbefore
  obtain ⟨ca', hca', hedits⟩ := hrun.edited.kept id ca hca
  obtain ⟨hskis', ⟨k', hk', hrests⟩, hpending⟩ :=
    hedits.rests hskis hk hrevoked (hsilent' k hk hrevoked)
  refine ⟨ca', hca', hskis', ⟨k', hk', hrests⟩, hpending, ?_⟩
  exact hrests.ski ▸ Engine.spares_of_revoked hca' hskis' hk' hrests.revoked

namespace Chain

def manifest : PublishedObject where
  filename := "R.mft"
  directory := directory
  content := []
  validity := ⟨⟨0⟩, Time.addWeeks ⟨0⟩ 52⟩
  status := .published

/-- The root with an object in the repository, and with another key. -/
def twofoldRoot : CertificateAuthority := root.modifyKeys fun r =>
  { r with pairs := r.pairs.map (·.addPublished manifest) ++
      [{ ski := "S", status := .current,
         incoming := some ⟨certificate rootName "S" .all, directory, ∅⟩ }] }

def twofold : Engine Journal := { tree := tree.set 1 twofoldRoot, memory := {} }

/-- The first key of the root has been revoked. -/
def halved : Engine Journal :=
  ((Dispatcher.standard renewing {} 0).execute ⟨1, .background, .processRevokedKey "R"⟩ twofold).2

def halvedRoot : CertificateAuthority := twofoldRoot.modifyKeys (·.modify "R" (·.revoke))

/-- The object of the revoked key is out of the repository, and the production CA has a new
certificate. -/
def renewedBelow : Engine Journal :=
  ((Dispatcher.standard renewing {} 0).execute ⟨2, .background, .updateAllIncoming⟩
    { halved with tree := halved.tree.confirm 1 0 (.published 0) }).2

theorem course_halved : twofold.Course halved := .execute renewing {} 0 _ (.refl twofold)

theorem course_renewedBelow : halved.Course renewedBelow :=
  .execute renewing {} 0 _ (.confirm 1 0 (.published 0) (.refl halved))

theorem distinctKeys_twofold : twofold.tree.DistinctKeys := by
  intro id ca hca
  rw [twofold, CaTree.get?_set] at hca
  split at hca
  · obtain rfl := Option.some.inj hca
    decide
  · exact distinctKeys_tree id ca hca

theorem revokedSilent_twofold : twofold.tree.RevokedSilent := by
  have hcurrent : ∀ e ∈ twofold.tree.cas.entries, ∀ k ∈ e.2.pairs, k.isRevoked = false := by
    decide +kernel
  intro id ca hca k hk hrevoked
  rw [hcurrent (id, ca) (SortedMap.get?_eq_some_iff.mp hca) k hk] at hrevoked
  cases hrevoked

theorem revoked_key_rests_in_chain :
    ((twofold.Course halved ∧ halved.Course renewedBelow) ∧ twofold.tree.DistinctKeys ∧
      twofold.tree.RevokedSilent ∧ halved.tree.get? 1 = some halvedRoot ∧
      ∃ k ∈ halvedRoot.pairs, k.isRevoked = true ∧ k.ski = "R") ∧
    (∃ ca' k', renewedBelow.tree.get? 1 = some ca' ∧ k' ∈ ca'.pairs ∧ k'.ski = "R" ∧
      k'.isRevoked = true ∧ k'.IsSilent) ∧
    renewedBelow.memory.signings.map (·.key) = ["S"] ∧ renewedBelow.Spares 1 "R" := by
  have hroot : halved.tree.get? 1 = some halvedRoot := by
    rw [halved, Dispatcher.standard_eq]
    decide +kernel
  have hsignings : renewedBelow.memory.signings.map (·.key) = ["S"] := by
    rw [renewedBelow, halved, Dispatcher.standard_eq]
    decide +kernel
  obtain ⟨k, hk, hrevoked, hski⟩ :
      ∃ k ∈ halvedRoot.pairs, k.isRevoked = true ∧ k.ski = "R" := by decide +kernel
  obtain ⟨ca', hca', -, ⟨k', hk', hrests⟩, -, hspares⟩ := revoked_key_rests course_halved
    course_renewedBelow distinctKeys_twofold revokedSilent_twofold hroot hk hrevoked
  exact ⟨⟨⟨course_halved, course_renewedBelow⟩, distinctKeys_twofold, revokedSilent_twofold, hroot,
    k, hk, hrevoked, hski⟩, ⟨ca', k', hca', hk', hrests.ski.trans hski, hrests.revoked,
    hrests.silent⟩, hsignings, hski ▸ hspares⟩

end Chain

end ResourcePki
