import ResourcePki.Proofs.Issuance.Repeating
import ResourcePki.Proofs.Issuance.Retiring

/-! What a CA asks of the trust anchor names a key by its identifier, and is put down to wait. No
command but one makes a waiting request useless: the revocation of the very key, which leaves the
request where it is. -/

namespace ResourcePki

theorem KeyRing.activeSkis_confirm (r : KeyRing) (key : Nat) (place : ObjectPlace) :
    (r.confirm key place).activeSkis = r.activeSkis := by
  have hsame : List.Forall₂ (fun k k' => k'.isRevoked = k.isRevoked ∧ k'.ski = k.ski) r.pairs
      (r.confirm key place).pairs :=
    forall₂_modify (fun k => ⟨by cases place <;> rfl, k.ski_confirm place⟩) (fun _ => ⟨rfl, rfl⟩)
      key r.pairs
  unfold activeSkis
  generalize (r.confirm key place).pairs = pairs' at hsame ⊢
  generalize r.pairs = pairs at hsame ⊢
  induction hsame with
  | nil => rfl
  | cons hk _ ih =>
    rw [List.filter_cons, List.filter_cons, hk.1]
    split
    · rw [List.map_cons, List.map_cons, hk.2, ih]
    · exact ih

theorem KeyRing.mem_modifyFirst_of_ne {ski : String} {f : KeyPair → KeyPair} {l : List KeyPair}
    {k : KeyPair} (hk : k ∈ l) (hne : k.ski ≠ ski) : k ∈ modifyFirst ski f l := by
  induction l with
  | nil => cases hk
  | cons k' rest ih =>
    unfold modifyFirst
    split
    · rename_i hski
      rcases List.mem_cons.mp hk with rfl | hk
      · exact absurd hski hne
      · exact List.mem_cons_of_mem _ hk
    · rcases List.mem_cons.mp hk with rfl | hk
      · exact List.mem_cons_self ..
      · exact List.mem_cons_of_mem _ (ih hk)

namespace CertificateAuthority

variable {ca ca' : CertificateAuthority} {ski : String}

/-- The CA has a key with the identifier that is not revoked. -/
def HasKey (ca : CertificateAuthority) (ski : String) : Prop :=
  ∃ k ∈ ca.pairs, k.ski = ski ∧ k.isRevoked = false

/-- Whatever the CA asks of the trust anchor is to be signed with a key that it can use. -/
def RequestUsable (ca : CertificateAuthority) : Prop :=
  ∀ request, ca.pending? = some request → ∀ q ∈ request.requests, ca.HasKey q.signingKey

instance : Decidable (ca.HasKey ski) :=
  inferInstanceAs (Decidable (∃ k ∈ ca.pairs, k.ski = ski ∧ k.isRevoked = false))

instance : Decidable (ca.AsksWithout ski) :=
  inferInstanceAs (Decidable (∀ request ∈ ca.pending?, ∀ q ∈ request.requests, q.signingKey ≠ ski))

instance : Decidable ca.RequestUsable :=
  inferInstanceAs
    (Decidable (∀ request ∈ ca.pending?, ∀ q ∈ request.requests, ca.HasKey q.signingKey))

theorem exists_keys_of_pending {request : TrustAnchorRequest} (h : ca.pending? = some request) :
    ∃ r, ca.keys? = some r := by
  unfold pending? at h
  unfold keys?
  cases hkind : ca.kind with
  | allResources keys pending => exact ⟨keys, rfl⟩
  | _ =>
    rw [hkind] at h
    cases h

theorem hasKey_iff {r : KeyRing} (h : ca.keys? = some r) :
    ca.HasKey ski ↔ ski ∈ ca.subjectKeys := by
  rw [HasKey, pairs_of_keys h, subjectKeys_of_keys h, KeyRing.activeSkis, List.mem_map]
  constructor
  · rintro ⟨k, hk, hski, hactive⟩
    exact ⟨k, List.mem_filter.mpr ⟨hk, by rw [hactive]; rfl⟩, hski⟩
  · rintro ⟨k, hk, hski⟩
    obtain ⟨hmem, hactive⟩ := List.mem_filter.mp hk
    exact ⟨k, hmem, hski, by simpa using hactive⟩

theorem requestUsable_of_none (h : ca.pending? = none) : ca.RequestUsable := by
  intro request hrequest
  cases h.symm.trans hrequest

theorem requestUsable_of_publishers {publishers : SortedMap PublisherHandle PublisherRepository}
    (h : ca.publishers? = some publishers) : ca.RequestUsable := by
  refine requestUsable_of_none ?_
  unfold publishers? at h
  unfold pending?
  split at h
  · rename_i hkind
    rw [hkind]
  · cases h

theorem RequestUsable.of_same (h : ca.RequestUsable) (hpending : ca'.pending? = ca.pending?)
    (hkeys : ca'.subjectKeys = ca.subjectKeys) : ca'.RequestUsable := by
  intro request hrequest q hq
  obtain ⟨r', hr'⟩ := exists_keys_of_pending hrequest
  rw [hpending] at hrequest
  obtain ⟨r, hr⟩ := exists_keys_of_pending hrequest
  rw [hasKey_iff hr', hkeys, ← hasKey_iff hr]
  exact h request hrequest q hq

theorem pending_modifyKeys (ca : CertificateAuthority) (f : KeyRing → KeyRing) :
    (ca.modifyKeys f).pending? = ca.pending? := by
  obtain ⟨id, name, parent, children, kind⟩ := ca
  cases kind <;> rfl

theorem RequestUsable.of_face (h : ca.RequestUsable) (hface : ca'.face = ca.face) :
    ca'.RequestUsable :=
  h.of_same (CertificateAuthority.of_face (pending_modifyKeys · _) hface)
    (CertificateAuthority.of_face subjectKeys_face hface)

theorem RequestUsable.of_trunk (h : ca.RequestUsable) (htrunk : ca'.trunk = ca.trunk) :
    ca'.RequestUsable :=
  h.of_same (CertificateAuthority.of_trunk (pending_modifyKeys · _) htrunk)
    (CertificateAuthority.of_trunk subjectKeys_trunk htrunk)

theorem RequestUsable.confirm (h : ca.RequestUsable) (key : Nat) (place : ObjectPlace) :
    (ca.modifyKeys (·.confirm key place)).RequestUsable := by
  exact h.of_same (pending_modifyKeys ca _) (subjectKeys_modifyKeys ca _ fun r _ =>
    r.activeSkis_confirm key place)

theorem requestUsable_prepareRequest {children : List CaIdentity} {source : KeySource} {id : Uuid}
    {now : Time} {answers : List (Except Error String)}
    (h : (ca.prepareRequest children source id now answers).1 = .ok ca') : ca'.RequestUsable := by
  obtain ⟨keys, keys', pending, signingKey, request, hkind, -, husable, rfl, rfl⟩ :=
    prepareRequest_ok h
  intro request hrequest q hq
  obtain rfl := Option.some.inj hrequest
  obtain ⟨child, -, rfl⟩ := List.mem_map.mp hq
  refine (hasKey_iff (r := keys') rfl).mpr ?_
  change signingKey ∈ keys'.activeSkis
  unfold usableKey at husable
  split at husable
  · rename_i ski rest hactive
    obtain rfl := Except.ok.inj husable
    rw [hactive]
    exact List.mem_cons_self ..
  · cases husable

/-- A revocation makes a waiting request useless just when it takes the last key that is named. -/
theorem requestUsable_revokeKey_iff (h : ca.RequestUsable) (hrevoke : ca.revokeKey ski = .ok ca') :
    ca'.RequestUsable ↔ ca.AsksWithout ski ∨ ca'.HasKey ski := by
  obtain ⟨keys, hkeys, rfl⟩ := revokeKey_ok hrevoke
  have hpending : (ca.withKeys (keys.modify ski (·.revoke))).pending? = ca.pending? := by
    rw [← modifyKeys_of_some hkeys (·.modify ski (·.revoke)), pending_modifyKeys]
  have hpairs : (ca.withKeys (keys.modify ski (·.revoke))).pairs =
      KeyRing.modifyFirst ski (·.revoke) ca.pairs := by
    rw [pairs_of_keys (keys?_withKeys hkeys _), pairs_of_keys hkeys]
    rfl
  constructor
  · intro husable
    by_contra hneither
    obtain ⟨hasks, hnone⟩ := not_or.mp hneither
    refine hasks fun request hrequest q hq hski => hnone ?_
    exact hski ▸ husable request (hpending.trans hrequest) q hq
  · intro hone request hrequest q hq
    rw [hpending] at hrequest
    by_cases hski : q.signingKey = ski
    · rcases hone with hasks | hkey
      · exact absurd hski (hasks request hrequest q hq)
      · exact hski ▸ hkey
    · obtain ⟨k, hk, hk', hactive⟩ := h request hrequest q hq
      refine ⟨k, ?_, hk', hactive⟩
      rw [hpairs]
      exact KeyRing.mem_modifyFirst_of_ne hk (hk' ▸ hski)

end CertificateAuthority

namespace CaTree

variable {t u : CaTree}

/-- No CA of the tree waits for a request that is of no use. -/
def RequestsUsable (t : CaTree) : Prop := ∀ id ca, t.get? id = some ca → ca.RequestUsable

theorem RequestsUsable.of_entries (h : ∀ e ∈ t.cas.entries, e.2.pending? = none) :
    t.RequestsUsable := fun id ca hca =>
  CertificateAuthority.requestUsable_of_none (h (id, ca) (SortedMap.get?_eq_some_iff.mp hca))

theorem requestsUsable_set_iff {id : CaId} {ca : CertificateAuthority} (h : t.RequestsUsable) :
    (t.set id ca).RequestsUsable ↔ ca.RequestUsable := by
  refine ⟨fun hset => hset id ca get?_set_self, fun hca x c hc => ?_⟩
  rw [get?_set] at hc
  split at hc
  · exact Option.some.inj hc ▸ hca
  · exact h x c hc

theorem RequestsUsable.set {id : CaId} {ca : CertificateAuthority} (h : t.RequestsUsable)
    (hca : ca.RequestUsable) : (t.set id ca).RequestsUsable :=
  (requestsUsable_set_iff h).mpr hca

theorem RequestsUsable.insert {ca : CertificateAuthority} (h : t.RequestsUsable)
    (hins : t.insert ca = .ok u) (hca : ca.RequestUsable) : u.RequestsUsable := by
  intro x c hc
  obtain ⟨-, rfl⟩ | ⟨c₀, hc₀, -, rfl | ⟨-, rfl⟩⟩ := get?_insert hins hc
  · exact hca
  · exact h x c hc₀
  · exact h x c₀ hc₀

theorem RequestsUsable.updated {s : Services} {timing : IssuanceTiming} {id : CaId} {b : Bool}
    (h : t.RequestsUsable) (hupdated : s.Updated timing t id b u) : u.RequestsUsable := by
  cases hupdated with
  | skipped => exact h
  | @aligned ca parent p keys resources signings b c hca hentitled hne hparent hkeys halign =>
    have hframe := Certification.Frame.steps (Certification.align_steps halign)
    have hissuer : (parent.withKeys c.parentKeys).RequestUsable :=
      (h p parent hparent).of_face (CertificateAuthority.face_withKeys hkeys hframe.face)
    have hsubject : c.child.RequestUsable := (h id ca hca).of_trunk hframe.trunk
    exact (h.set hissuer).set hsubject

theorem RequestsUsable.confirm (h : t.RequestsUsable) (id : CaId) (key : Nat)
    (place : ObjectPlace) : (t.confirm id key place).RequestsUsable := by
  unfold CaTree.confirm
  split
  · rename_i ca hca
    exact h.set ((h id ca hca).confirm key place)
  · exact h

end CaTree

/-- The command revokes a key that a waiting request of its CA names, and no other key that can be
used has the identifier. -/
def CaCommand.Strands (c : CaCommand) (t : CaTree) : Prop :=
  ∃ ski ca ca', c.details = .processRevokedKey ski ∧ t.get? c.ca = some ca ∧
    ca.revokeKey ski = .ok ca' ∧ ¬ ca.AsksWithout ski ∧ ¬ ca'.HasKey ski

section commands

variable {s : Services} {policy : IssuancePolicy} {j : Journal} {t t' : CaTree} {c : CaCommand}
  {ca ca' : CertificateAuthority} {b : Bool}

theorem CaCommand.not_strands (h : ∀ ski, c.details ≠ .processRevokedKey ski) : ¬ c.Strands t := by
  rintro ⟨ski, -, -, hdetails, -⟩
  exact h ski hdetails

theorem CaCommand.strands_iff {ski : String} (hdetails : c.details = .processRevokedKey ski)
    (hca : t.get? c.ca = some ca) (hrevoke : ca.revokeKey ski = .ok ca') :
    c.Strands t ↔ ¬ ca.AsksWithout ski ∧ ¬ ca'.HasKey ski := by
  refine ⟨?_, fun h => ⟨ski, ca, ca', hdetails, hca, hrevoke, h⟩⟩
  rintro ⟨ski₁, ca₁, ca₁', hdetails₁, hca₁, hrevoke₁, h⟩
  obtain rfl := CommandDetails.processRevokedKey.inj (hdetails.symm.trans hdetails₁)
  obtain rfl := Option.some.inj (hca.symm.trans hca₁)
  obtain rfl := Except.ok.inj (hrevoke.symm.trans hrevoke₁)
  exact h

theorem Services.Changes.requestUsable {limit : Nat} {details : CommandDetails}
    (h : s.Changes limit j t details ca b ca') (hother : ∀ ski, details ≠ .processRevokedKey ski)
    (husable : ca.RequestUsable) : ca'.RequestUsable := by
  cases h with
  | revoke => exact absurd rfl (hother _)
  | request hprepare => exact CertificateAuthority.requestUsable_prepareRequest hprepare
  | unmanaged | registered => exact husable
  | @expire ca keys now hkeys =>
    refine husable.of_face (CertificateAuthority.face_withKeys hkeys ?_)
    rw [KeyRing.face, KeyRing.shells_lapse]
    rfl
  | register hadd =>
    obtain ⟨publishers, -, -, -, hafter⟩ := CertificateAuthority.addPublisher_ok hadd
    exact CertificateAuthority.requestUsable_of_publishers hafter
  | remove hremove =>
    obtain ⟨publishers, -, -, hafter⟩ := CertificateAuthority.removePublisher_ok hremove
    exact CertificateAuthority.requestUsable_of_publishers hafter

theorem Services.Performed.requestsUsable {id : CaId} {details : CommandDetails}
    (h : s.Performed policy j t id details b t')
    (hother : ∀ ski, details ≠ .processRevokedKey ski) (husable : t.RequestsUsable) :
    t'.RequestsUsable := by
  cases h with
  | present => exact husable
  | created hnone hanswer hins hupdated =>
    have hnew := husable.insert hins (CertificateAuthority.requestUsable_of_none rfl)
    exact hnew.updated hupdated
  | updated hupdated hparent => exact husable.updated hupdated
  | changed hca h => exact husable.set (h.requestUsable hother (husable id _ hca))

theorem Services.Performed.requestsUsable_iff (h : s.Performed policy j t c.ca c.details b t')
    (husable : t.RequestsUsable) : t'.RequestsUsable ↔ ¬ c.Strands t := by
  by_cases hrevokes : ∃ ski, c.details = .processRevokedKey ski
  · obtain ⟨ski, hdetails⟩ := hrevokes
    rw [hdetails] at h
    cases h with
    | changed hca h =>
      cases h with
      | revoke hrevoke =>
        rw [CaTree.requestsUsable_set_iff husable, CaCommand.strands_iff hdetails hca hrevoke,
          not_and_or, not_not, not_not]
        exact CertificateAuthority.requestUsable_revokeKey_iff (husable _ _ hca) hrevoke
  · have hother := not_exists.mp hrevokes
    exact iff_of_true (h.requestsUsable hother husable) (CaCommand.not_strands hother)

end commands

/-- Of all commands, only such a revocation makes a waiting request useless, and it always does. -/
theorem Dispatcher.execute_requestsUsable_iff {s : Services} {policy : IssuancePolicy}
    {retries : Nat} {c : CaCommand} {e : Engine Journal} (husable : e.tree.RequestsUsable) :
    ((standard s policy retries).execute c e).2.tree.RequestsUsable ↔ ¬ c.Strands e.tree := by
  obtain ⟨⟨answer, e'⟩, hexecute⟩ : ∃ p, (standard s policy retries).execute c e = p := ⟨_, rfl⟩
  rw [hexecute]
  cases answer with
  | ok status =>
    obtain ⟨j, -, hperformed⟩ := execute_standard_performed hexecute
    exact hperformed.requestsUsable_iff husable
  | error err =>
    rw [execute_standard_error hexecute]
    refine iff_of_true husable ?_
    -- A revocation that can be done does not fail.
    rintro ⟨ski, ca, ca', hdetails, hca, hrevoke, -⟩
    obtain ⟨id, actor, details⟩ := c
    obtain rfl : details = .processRevokedKey ski := hdetails
    obtain ⟨e'', hexecute', -⟩ := execute_of_noting (s := s) rfl hca hrevoke
    cases hexecute.symm.trans hexecute'

/-- A run in which no command strands a request. -/
inductive Engine.Careful (start : Engine Journal) : Engine Journal → Prop
  | refl : Careful start start
  | execute {e : Engine Journal} (s : Services) (policy : IssuancePolicy) (retries : Nat)
      (command : CaCommand) (h : Careful start e) (hspares : ¬ command.Strands e.tree) :
      Careful start ((Dispatcher.standard s policy retries).execute command e).2
  | confirm {e : Engine Journal} (id : CaId) (key : Nat) (place : ObjectPlace)
      (h : Careful start e) : Careful start { e with tree := e.tree.confirm id key place }

/-- What a CA asks of the trust anchor stays of use for as long as the key is not revoked, and not
any longer. -/
theorem requests_usable_until_stranded {start e : Engine Journal} (hrun : start.Careful e)
    (hstart : start.tree.RequestsUsable) : e.tree.RequestsUsable ∧
      ∀ (s : Services) (policy : IssuancePolicy) (retries : Nat) (command : CaCommand),
        ((Dispatcher.standard s policy retries).execute command e).2.tree.RequestsUsable ↔
          ¬ command.Strands e.tree := by
  have husable : e.tree.RequestsUsable := by
    induction hrun with
    | refl => exact hstart
    | execute s policy retries command _ hspares ih =>
      exact (Dispatcher.execute_requestsUsable_iff ih).mpr hspares
    | confirm id key place _ ih => exact ih.confirm id key place
  exact ⟨husable, fun s policy retries command => Dispatcher.execute_requestsUsable_iff husable⟩

namespace Chain

def request : CaCommand := ⟨1, .background, .generateTrustAnchorRequest⟩

def revocation (ski : String) : CaCommand := ⟨1, .background, .processRevokedKey ski⟩

/-- The root asks for certificates, to be signed with its first key. -/
def asking : Engine Journal := ((Dispatcher.standard renewing {} 0).execute request twofold).2

/-- Then it loses the second key. -/
def narrowed : Engine Journal :=
  ((Dispatcher.standard renewing {} 0).execute (revocation "S") asking).2

def narrowedRoot : CertificateAuthority := (narrowed.tree.get? 1).getD twofoldRoot

theorem requestsUsable_twofold : twofold.tree.RequestsUsable := .of_entries (by decide +kernel)

theorem careful_narrowed : twofold.Careful narrowed := by
  refine .execute renewing {} 0 _
    (.execute renewing {} 0 _ .refl (CaCommand.not_strands nofun)) ?_
  have hasks : ∀ ca ∈ asking.tree.get? 1, ca.AsksWithout "S" := by
    rw [asking, Dispatcher.standard_eq]
    decide +kernel
  rintro ⟨ski, ca, ca', hdetails, hca, -, hnot, -⟩
  obtain rfl := CommandDetails.processRevokedKey.inj hdetails
  exact hnot (hasks ca hca)

theorem strands_narrowed : (revocation "R").Strands narrowed.tree := by
  have hroot : narrowed.tree.get? 1 = some narrowedRoot := by
    rw [narrowedRoot, narrowed, asking, Dispatcher.standard_eq]
    decide +kernel
  have hrevoke : narrowedRoot.revokeKey "R" =
      .ok (narrowedRoot.modifyKeys (·.modify "R" (·.revoke))) := by
    rw [narrowedRoot, narrowed, asking, Dispatcher.standard_eq]
    decide +kernel
  refine (CaCommand.strands_iff rfl hroot hrevoke).mpr ?_
  rw [narrowedRoot, narrowed, asking, Dispatcher.standard_eq]
  decide +kernel

theorem requests_usable_until_stranded_in_chain :
    (twofold.Careful narrowed ∧ twofold.tree.RequestsUsable) ∧
      (narrowedRoot.pending?.map (·.requests.map (·.signingKey)) = some ["R"] ∧
        narrowed.tree.RequestsUsable) ∧
      (revocation "R").Strands narrowed.tree ∧
      ¬ ((Dispatcher.standard renewing {} 0).execute (revocation "R")
        narrowed).2.tree.RequestsUsable := by
  have hpending : narrowedRoot.pending?.map (·.requests.map (·.signingKey)) = some ["R"] := by
    rw [narrowedRoot, narrowed, asking, Dispatcher.standard_eq]
    decide +kernel
  obtain ⟨husable, hnext⟩ := requests_usable_until_stranded careful_narrowed requestsUsable_twofold
  refine ⟨⟨careful_narrowed, requestsUsable_twofold⟩, ⟨hpending, husable⟩, strands_narrowed, ?_⟩
  exact fun hafter => (hnext renewing {} 0 _).mp hafter strands_narrowed

/-- The root asks, and is told that its only key was revoked. -/
def stranded : Engine Journal :=
  ((Dispatcher.standard renewing {} 0).execute (revocation "R")
    ((Dispatcher.standard renewing {} 0).execute request engine).2).2

theorem request_left_stranded :
    (engine.tree.RequestsUsable ∧ engine.Course stranded) ∧ ¬ stranded.tree.RequestsUsable := by
  have hroot : ∃ ca ∈ stranded.tree.get? 1, ¬ ca.RequestUsable := by
    rw [stranded, Dispatcher.standard_eq]
    decide +kernel
  obtain ⟨root, hroot, hnot⟩ := hroot
  exact ⟨⟨.of_entries (by decide +kernel),
    .execute renewing {} 0 _ (.execute renewing {} 0 _ (.refl engine))⟩,
    fun husable => hnot (husable 1 root hroot)⟩

end Chain

end ResourcePki
