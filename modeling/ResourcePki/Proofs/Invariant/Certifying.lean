import ResourcePki.Proofs.Reconciliation.Containment

/-! Creating a CA or updating its certificates makes nobody issue more than it holds. What is new is
cut down to what the issuer is certified for, and all other CAs keep what they hold. The CA itself
may be left with less than it issued; it is not, if its new resources contain those it had. -/

namespace ResourcePki

open Certification ResourcePki.Action

/-- The key awaits its certificate, is used, or was used until a newer one took over. -/
def KeyPair.IsLive (k : KeyPair) : Prop :=
  k.status = .pending ∨ k.status = .current ∨ k.status = .old

theorem KeyPair.isPublishable_iff {k : KeyPair} :
    k.isPublishable = true ↔ k.IsLive ∧ ∃ inc, k.incoming = some inc := by
  simp only [isPublishable, IsLive, Bool.and_eq_true, Bool.or_eq_true, decide_eq_true_eq, or_assoc,
    Option.isSome_iff_exists]

theorem KeyPair.IsLive.not_revoked {k : KeyPair} (h : k.IsLive) : k.isRevoked = false := by
  unfold isRevoked
  rcases h with h | h | h <;> rw [h] <;> rfl

theorem KeyPair.IsLive.receive {k : KeyPair} (h : k.IsLive) (inc : IncomingCertificate) :
    (k.receive inc).IsLive := by
  have hstatus : (k.receive inc).status = .current ∨ (k.receive inc).status = k.status := by
    unfold KeyPair.receive activate
    split
    · exact .inl rfl
    · exact .inr rfl
  rcases hstatus with hcurrent | hsame
  · exact .inr (.inl hcurrent)
  · rwa [IsLive, hsame]

namespace CertificateAuthority

variable {ca ca' : CertificateAuthority}

theorem Covers.of_face {r : ResourceSet} (hface : ca'.face = ca.face) (h : ca.Covers r) :
    ca'.Covers r := by
  intro f n hholds
  obtain ⟨k, hk, inc, hinc, hmem⟩ := h f n hholds
  obtain ⟨k', hk', hincoming⟩ := exists_publishable_of_face hface.symm hk
  exact ⟨k', hk', inc, hincoming.trans hinc, hmem⟩

/-- A CA with one key that issued nothing passes every check. -/
theorem check_of_unused {ski : String} (hskis : ca.skis = [ski]) (hvalid : ca.valid = [])
    (m : InvariantModel) : m.check ca = .ok () := by
  obtain ⟨k, hpairs, -⟩ := List.map_eq_singleton_iff.mp hskis
  have hheld : ∀ r ∈ m.heldSets ca, k.incoming.map m.held = some r := by
    intro r hr
    obtain ⟨k', hk', hr⟩ := List.mem_filterMap.mp hr
    rw [publishable_eq, hpairs] at hk'
    obtain rfl := List.mem_singleton.mp (List.mem_filter.mp hk').1
    exact hr
  obtain ⟨held, hok⟩ := InvariantModel.exists_incoming fun x hx y hy =>
    Option.some.inj ((hheld x hx).symm.trans (hheld y hy))
  refine InvariantModel.check_ok_iff.mpr fun keys _ => ⟨held, hok, fun _ _ o ho => ?_⟩
  rw [hvalid] at ho
  cases ho

/-- A CA without certificates that issued nothing of substance passes every check. -/
theorem check_of_uncertified (hown : ca.OwnOnly) (hnone : ∀ k ∈ ca.pairs, k.incoming = none)
    (hissued : ∀ o ∈ ca.valid, ∀ f n, ¬ o.resources.Holds f n) (m : InvariantModel) :
    m.check ca = .ok () := by
  refine check_of_covers hown ⟨∅, fun k hk inc hinc => ?_⟩ fun o ho f n hholds =>
    absurd hholds (hissued o ho f n)
  rw [publishable_eq, List.mem_filter] at hk
  rw [hnone k hk.1] at hinc
  cases hinc

/-- A CA whose keys are certified for what it issued passes every check if one of them is live. -/
theorem check_of_live (hown : ca.OwnOnly) {r : ResourceSet}
    (hset : ∀ k ∈ ca.pairs, k.isRevoked = false → ∃ inc, k.incoming = some inc ∧ inc.own = r)
    (hissued : ∀ o ∈ ca.valid, ∀ f n, o.resources.Holds f n →
      r.Holds f n ∧ ∃ k ∈ ca.pairs, k.IsLive) (m : InvariantModel) : m.check ca = .ok () := by
  refine check_of_covers hown ⟨r, fun k hk inc hinc => ?_⟩ fun o ho f n hholds => ?_
  · rw [publishable_eq, List.mem_filter] at hk
    obtain ⟨inc', hinc', hownEq⟩ := hset k hk.1 (KeyPair.isRevoked_of_isPublishable hk.2)
    obtain rfl := Option.some.inj (hinc'.symm.trans hinc)
    exact hownEq
  · obtain ⟨hnew, k, hk, hlive⟩ := hissued o ho f n hholds
    obtain ⟨inc, hinc, hownEq⟩ := hset k hk hlive.not_revoked
    refine ⟨k, ?_, inc, hinc, hownEq ▸ hnew⟩
    rw [publishable_eq, List.mem_filter]
    exact ⟨hk, KeyPair.isPublishable_iff.mpr ⟨hlive, inc, hinc⟩⟩

end CertificateAuthority

namespace Certification

variable {terms : CertificationTerms} {c c' : Certification}

/-- New certificates are for the resources and the time that the terms say. -/
theorem granted_step (h : Step terms c c') : ∀ o ∈ c'.parentKeys.valid,
    o ∈ c.parentKeys.valid ∨
      (o.resources = terms.resources ∧ o.certificate.validity = terms.validity) := by
  intro o ho
  cases h with
  | issue _ hissued _ =>
    rcases hissued.origin o ho with rfl | hbefore
    · have hresources := congrArg CertificateTemplate.resources hissued.template
      have hvalidity := congrArg CertificateTemplate.validity hissued.template
      exact .inr ⟨hresources, hvalidity⟩
    · exact .inl hbefore
  | withdraw =>
    change o ∈ (c.parentKeys.revokeChild c.child.id none terms.now).valid at ho
    rw [KeyRing.valid_revokeChild] at ho
    exact .inl (List.mem_filter.mp ho).1

theorem granted_steps (h : Steps terms c c') : ∀ o ∈ c'.parentKeys.valid,
    o ∈ c.parentKeys.valid ∨
      (o.resources = terms.resources ∧ o.certificate.validity = terms.validity) := by
  induction h with
  | refl => exact fun o ho => .inl ho
  | tail _ hstep ih =>
    intro o ho
    rcases granted_step hstep o ho with hbefore | hnew
    · exact ih o hbefore
    · exact .inr hnew

/-- Keys that are live stay so, whatever certificates they get or lose. -/
theorem live_step {ski : String} (hskis : c.child.skis.Nodup)
    (h : ∃ k ∈ c.child.pairs, k.ski = ski ∧ k.IsLive) (hs : Step terms c c') :
    ∃ k ∈ c'.child.pairs, k.ski = ski ∧ k.IsLive := by
  obtain ⟨k, hk, hski, hlive⟩ := h
  unfold CertificateAuthority.skis at hskis
  cases hkeys : c.child.keys? with
  | none =>
    rw [CertificateAuthority.pairs, hkeys] at hk
    cases hk
  | some r =>
    rw [CertificateAuthority.pairs, hkeys] at hk hskis
    change k ∈ r.pairs at hk
    cases hs with
    | @issue _ ski' o inc _ _ hchild =>
      rw [hchild, CertificateAuthority.pairs_modifyKeys, hkeys]
      change ∃ k ∈ (r.modify ski' (·.receive inc)).pairs, k.ski = ski ∧ k.IsLive
      rw [KeyRing.pairs_receive hskis]
      refine ⟨_, List.mem_map_of_mem hk, ?_⟩
      split
      · exact ⟨(k.ski_receive inc).trans hski, hlive.receive inc⟩
      · exact ⟨hski, hlive⟩
    | withdraw =>
      change ∃ k ∈ (c.child.modifyKeys (·.clearIncoming)).pairs, k.ski = ski ∧ k.IsLive
      rw [CertificateAuthority.pairs_modifyKeys, hkeys]
      exact ⟨k.clearIncoming, List.mem_map_of_mem hk, hski, hlive⟩

end Certification

namespace CaTree

/-- Every CA passes the check of the model that looks at all that was issued. -/
def Managed (t : CaTree) : Prop :=
  ∀ id ca, t.get? id = some ca → InvariantModel.managed.check ca = .ok ()

variable {t u : CaTree} {ca : CertificateAuthority}

theorem OwnOnly.insert (h : t.OwnOnly) (hins : t.insert ca = .ok u) (hnew : ca.OwnOnly) :
    u.OwnOnly := by
  intro x ca' hx
  obtain ⟨rfl, rfl⟩ | ⟨c, hc, -, rfl | ⟨-, rfl⟩⟩ := get?_insert hins hx
  · exact hnew
  · exact h x _ hc
  · exact h x c hc

/-- That the parent is told of a new child makes no difference to its check. -/
theorem Managed.insert (h : t.Managed) (hins : t.insert ca = .ok u)
    (hnew : InvariantModel.managed.check ca = .ok ()) : u.Managed := by
  intro x ca' hx
  obtain ⟨rfl, rfl⟩ | ⟨c, hc, -, rfl | ⟨-, rfl⟩⟩ := get?_insert hins hx
  · exact hnew
  · exact h x _ hc
  · exact h x c hc

end CaTree

namespace Services

variable {s : Services} {timing : IssuanceTiming} {t t' : CaTree} {id : CaId} {b : Bool}

/-- The parent of an updated CA stays covered: it is certified for all that it issues. -/
theorem Updated.check_other (hown : t.OwnOnly) (hchecked : t.Managed)
    (h : s.Updated timing t id b t') {x : CaId} {ca' : CertificateAuthority} (hx : x ≠ id)
    (hca' : t'.get? x = some ca') : InvariantModel.managed.check ca' = .ok () := by
  cases h with
  | skipped => exact hchecked x ca' hca'
  | @aligned ca parent p keys resources signings b c hca hentitled hne hparent hkeys halign =>
    rw [CaTree.get?_set_ne (Ne.symm hx), CaTree.get?_set] at hca'
    split at hca'
    · obtain rfl := Option.some.inj hca'
      have hface : (parent.withKeys c.parentKeys).face = parent.face :=
        CertificateAuthority.face_withKeys hkeys (Frame.steps (align_steps halign)).face
      have hparentOwn := hown p parent hparent
      obtain ⟨hagrees, hcovers⟩ :=
        (CertificateAuthority.managed_check_iff hparentOwn).mp (hchecked p parent hparent)
      refine (CertificateAuthority.managed_check_iff (hparentOwn.of_face hface)).mpr
        ⟨hagrees.of_face hface, fun o ho => .of_face hface ?_⟩
      rw [CertificateAuthority.valid_of_keys
        (CertificateAuthority.keys?_withKeys hkeys c.parentKeys)] at ho
      rcases granted_steps (align_steps halign) o ho with hbefore | ⟨hnew, -⟩
      · exact hcovers o ((CertificateAuthority.valid_of_keys hkeys).symm ▸ hbefore)
      · obtain ⟨-, parent₁, held, requested, hparent₁, hheld, -, hresources⟩ :=
          entitlement?_eq_some hentitled
        obtain rfl := Option.some.inj (hparent.symm.trans hparent₁)
        have hterms : o.resources = requested.inter held := hnew.trans hresources
        rw [hterms]
        exact CertificateAuthority.covers_of_certified hparentOwn hheld inf_le_right
    · exact hchecked x ca' hca'

theorem Updated.exists_live (hskis : t.DistinctKeys) (h : s.Updated timing t id b t')
    {ca ca' : CertificateAuthority} (hca : t.get? id = some ca) (hca' : t'.get? id = some ca')
    {k : KeyPair} (hk : k ∈ ca.pairs) (hlive : k.IsLive) : ∃ k' ∈ ca'.pairs, k'.IsLive := by
  cases h with
  | skipped =>
    obtain rfl := Option.some.inj (hca.symm.trans hca')
    exact ⟨k, hk, hlive⟩
  | @aligned ca₁ parent p keys resources signings b c hca₁ _ _ _ _ halign =>
    obtain rfl := Option.some.inj (hca.symm.trans hca₁)
    rw [CaTree.get?_set_self] at hca'
    obtain rfl := Option.some.inj hca'
    have hbefore : ∃ k₁ ∈ (Certification.mk keys ca signings).child.pairs,
        k₁.ski = k.ski ∧ k₁.IsLive := ⟨k, hk, rfl, hlive⟩
    obtain ⟨k', hk', -, hlive'⟩ :=
      (align_steps halign).keep (fun h => live_step h) (hskis id ca hca) hbefore
    exact ⟨k', hk', hlive'⟩

/-- What an updated CA issued is among what it held before, and it has a live key if there is any. -/
theorem Updated.issued_within (hwf : t.WellFormed) (hown : t.OwnOnly) (hchecked : t.Managed)
    (hskis : t.DistinctKeys) (h : s.Updated timing t id b t') {ca ca' : CertificateAuthority}
    (hca : t.get? id = some ca) (hca' : t'.get? id = some ca') {held : ResourceSet}
    (hincoming : InvariantModel.managed.incoming ca = .ok held) : ∀ o ∈ ca'.valid, ∀ f n,
      o.resources.Holds f n → held.Holds f n ∧ ∃ k ∈ ca'.pairs, k.IsLive := by
  have hcaOwn := hown id ca hca
  have hcovers := ((CertificateAuthority.managed_check_iff hcaOwn).mp (hchecked id ca hca)).2
  have hvalid : ca'.valid = ca.valid := by
    obtain ⟨ca₁, hca₁, -, htrunk, -⟩ := h.get? (hwf.ids _) hca'
    obtain rfl := Option.some.inj (hca.symm.trans hca₁)
    exact CertificateAuthority.of_trunk CertificateAuthority.valid_trunk (htrunk rfl)
  intro o ho f n hholds
  have hcovered := hcovers o (hvalid ▸ ho)
  have hcontained := (CertificateAuthority.contains_iff_covers hcaOwn hincoming).mpr hcovered
  obtain ⟨k, hk, -⟩ := hcovered f n hholds
  rw [CertificateAuthority.publishable_eq, List.mem_filter] at hk
  exact ⟨ResourceSet.contains_iff.mp hcontained f n hholds,
    h.exists_live hskis hca hca' hk.1 (KeyPair.isPublishable_iff.mp hk.2).1⟩

/-- The updated CA stays covered as long as it gets what its keys held before. -/
theorem Updated.check_self (hwf : t.WellFormed) (hkeys : t.DistinctKeys) (hown : t.OwnOnly)
    (hheld : t.Along CertificateAuthority.HoldsValid) (hchecked : t.Managed)
    (h : s.Updated timing t id b t') {ca ca' : CertificateAuthority} (hca : t.get? id = some ca)
    (hca' : t'.get? id = some ca')
    (hcontains : ∀ held p resources, InvariantModel.managed.incoming ca = .ok held →
      s.entitlement? t ca = some (p, resources) → resources.contains held = true) :
    InvariantModel.managed.check ca' = .ok () := by
  cases hentitled : s.entitlement? t ca with
  | none =>
    obtain rfl := h.eq_of_none hca hentitled
    exact hchecked id ca' hca'
  | some entitled =>
    obtain ⟨p, resources⟩ := entitled
    obtain ⟨hlink, parent, -, -, hparent, -⟩ := entitlement?_eq_some hentitled
    obtain ⟨parent', hparent', -⟩ := h.sameLinks.symm.get? hparent
    have hcaOwn := hown id ca hca
    have hagrees := CertificateAuthority.agrees_of_check hcaOwn (hchecked id ca hca)
    obtain ⟨held, hincoming⟩ := hagrees.incoming_ok hcaOwn .managed
    have hlarger := ResourceSet.contains_iff.mp (hcontains held p resources hincoming hentitled)
    have hwithin := h.issued_within hwf hown hchecked hkeys hca hca' hincoming
    have hissued : ∀ o ∈ ca'.valid, ∀ f n, o.resources.Holds f n →
        resources.Holds f n ∧ ∃ k ∈ ca'.pairs, k.IsLive := fun o ho f n hholds =>
      (hwithin o ho f n hholds).imp_left (hlarger f n)
    have hafter := h.ownOnly hwf hkeys hown id ca' hca'
    cases hempty : resources.isEmpty with
    | true =>
      have hnone := (h.withdrawn hca hentitled hparent' hca' hempty).1
      exact CertificateAuthority.check_of_uncertified hafter hnone (fun o ho f n hholds =>
        ResourceSet.not_holds_of_isEmpty hempty (hissued o ho f n hholds).1) .managed
    | false =>
      have hlink' : ca'.parent = some p := (h.parent hca hca').trans hlink
      have hholdsValid : parent'.HoldsValid ca' :=
        h.along CertificateAuthority.HoldsValid.congr CertificateAuthority.HoldsValid.steps hwf
          hkeys hheld p parent' id ca' hparent' hca' hlink'
      have hset := hholdsValid.own_eq
        (h.served hca hentitled hparent' hca' (hwf.ids id ca hca) hempty)
      exact CertificateAuthority.check_of_live hafter hset hissued .managed

end Services

namespace Dispatcher

variable {s : Services} {policy : IssuancePolicy} {retries : Nat} {command : CaCommand}

/-- Creating a CA or updating its certificates leaves all other CAs covered for what they issued,
and the CA itself too, unless something that it held is not among its new resources. -/
theorem execute_never_overclaims {e e' : Engine Journal} {status : CommandStatus}
    (hwf : e.tree.WellFormed) (hkeys : e.tree.DistinctKeys) (hown : e.tree.OwnOnly)
    (hheld : e.tree.Along CertificateAuthority.HoldsValid) (hchecked : e.tree.Managed)
    (htype : command.type = .activateHostedCa ∨ command.type = .updateAllIncoming)
    (h : (standard s policy retries).execute command e = (.ok status, e')) :
    (∀ id ca', id ≠ command.ca → e'.tree.get? id = some ca' →
      InvariantModel.managed.check ca' = .ok ()) ∧
    ∀ ca', e'.tree.get? command.ca = some ca' →
      (∀ ca held p resources, e.tree.get? command.ca = some ca →
        InvariantModel.managed.incoming ca = .ok held →
        s.entitlement? e.tree ca = some (p, resources) → resources.contains held = true) →
      InvariantModel.managed.check ca' = .ok () := by
  obtain ⟨j, -, hperformed⟩ := execute_standard_performed h
  obtain ⟨target, actor, details⟩ := command
  generalize status.hadEffect = b, e'.tree = t' at hperformed ⊢
  cases hperformed with
  | present =>
    exact ⟨fun id ca' _ hca' => hchecked id ca' hca', fun ca' hca' _ => hchecked target ca' hca'⟩
  | @created name parent ski directory u t' b' _ _ hins hupdated =>
    have hself : ∀ ca, u.get? target = some ca → ca.id = target :=
      hwf.ids.insert hins target
    -- The new CA holds nothing and issued nothing yet.
    have hownNew : u.OwnOnly := by
      refine CaTree.OwnOnly.insert hown hins fun k hk inc hinc => ?_
      obtain rfl := List.mem_singleton.mp hk
      cases hinc
    have hcheckedNew : u.Managed :=
      CaTree.Managed.insert hchecked hins (CertificateAuthority.check_of_unused rfl rfl .managed)
    refine ⟨fun id ca' hid hca' => hupdated.check_other hownNew hcheckedNew hid hca',
      fun ca' hca' _ => ?_⟩
    obtain ⟨ca, hca, -, htrunk, -⟩ := hupdated.get? hself hca'
    obtain rfl := Option.some.inj ((CaTree.insert_ok hins).2.2.2.1.symm.trans hca)
    have hskis : ca'.skis = [ski] := by
      rw [CertificateAuthority.of_trunk CertificateAuthority.skis_trunk (htrunk rfl)]
      rfl
    have hvalid : ca'.valid = [] := by
      rw [CertificateAuthority.of_trunk CertificateAuthority.valid_trunk (htrunk rfl)]
      rfl
    exact CertificateAuthority.check_of_unused hskis hvalid .managed
  | updated hupdated _ =>
    refine ⟨fun id ca' hid hca' => hupdated.check_other hown hchecked hid hca',
      fun ca' hca' hcontains => ?_⟩
    obtain ⟨ca, hca, -⟩ := hupdated.get? (hwf.ids target) hca'
    exact hupdated.check_self hwf hkeys hown hheld hchecked hca hca' (hcontains ca · · · hca)
  | changed _ hchanges =>
    -- Nobody is created or updated by any of these.
    cases hchanges <;> rcases htype with htype | htype <;> cases htype

end Dispatcher

namespace Chain

/-- Nearly a year later, with everything listed that is certified: certificates are issued anew. -/
def renewing : Services :=
  { services with now := Time.addWeeks ⟨0⟩ 51, lookup := fun _ => .ok (some asns) }

def renewed : Engine Journal :=
  ((Dispatcher.standard renewing {} 0).execute ⟨3, .background, .updateAllIncoming⟩ engine).2

theorem execute_renewing :
    (Dispatcher.standard renewing {} 0).execute ⟨3, .background, .updateAllIncoming⟩ engine =
      (.ok { hadEffect := true }, renewed) := by
  refine Prod.ext ?_ rfl
  rw [Dispatcher.standard_eq]
  decide +kernel

theorem execute_never_overclaims_in_chain :
    (Dispatcher.standard renewing {} 0).execute ⟨3, .background, .updateAllIncoming⟩ engine =
      (.ok { hadEffect := true }, renewed) ∧
    (∀ id ca', id ≠ 3 → renewed.tree.get? id = some ca' →
      InvariantModel.managed.check ca' = .ok ()) ∧
    ∀ ca', renewed.tree.get? 3 = some ca' → InvariantModel.managed.check ca' = .ok () := by
  have hchecked : engine.tree.Managed := fun id ca hca => contained_tree.checked id ca hca .managed
  obtain ⟨hothers, htarget⟩ := Dispatcher.execute_never_overclaims wellFormed_tree distinctKeys_tree
    contained_tree.ownOnly linked_tree.held hchecked (.inr rfl) execute_renewing
  refine ⟨execute_renewing, hothers, fun ca' hca' => htarget ca' hca' ?_⟩
  intro ca held p resources hca hheld hto
  obtain rfl : upper = ca := Option.some.inj hca
  obtain rfl : asns = held := by
    have hasns : InvariantModel.managed.incoming upper = .ok asns := by decide +kernel
    exact Except.ok.inj (hasns.symm.trans hheld)
  have hentitled : renewing.entitlement? tree upper = some (2, asns.inter asns) := by
    decide +kernel
  obtain ⟨-, rfl⟩ := Prod.mk.inj (Option.some.inj (hentitled.symm.trans hto))
  decide +kernel

end Chain

end ResourcePki
