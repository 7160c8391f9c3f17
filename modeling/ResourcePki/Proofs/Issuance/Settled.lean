import ResourcePki.Proofs.Issuance.Trying
import ResourcePki.Config.Basic

/-! CAs for which an update finds nothing to do. A successful update leaves its CA settled; updates
of other CAs leave it so, unless they change what its parent holds. -/

namespace ResourcePki

open ResourcePki.Action Certification

namespace Services

variable {s : Services} {timing : IssuanceTiming} {t t' : CaTree} {id d : CaId} {b : Bool}

/-- An update of the CA would change nothing. -/
def Settled (s : Services) (timing : IssuanceTiming) (t : CaTree) (id : CaId) : Prop :=
  ∃ ca, t.get? id = some ca ∧ ∀ p resources, s.entitlement? t ca = some (p, resources) →
    ∀ parent keys, t.get? p = some parent → parent.keys? = some keys → ∀ signings,
      InLine (s.terms timing id resources) ⟨keys, ca, signings⟩

theorem entitlement?_congr {ca ca' : CertificateAuthority} (hparent : ca'.parent = ca.parent)
    (hcertifiable : ca'.certifiable s.lookup = ca.certifiable s.lookup)
    (hheld : ∀ p, ca.parent = some p →
      (t'.get? p).bind (·.certified) = (t.get? p).bind (·.certified)) :
    s.entitlement? t' ca' = s.entitlement? t ca := by
  unfold entitlement?
  rw [hparent, hcertifiable]
  cases hp : ca.parent with
  | none => rfl
  | some p =>
    have hsame := hheld p hp
    rw [Option.bind_some, Option.bind_some]
    cases hget : t.get? p <;> cases hget' : t'.get? p <;> rw [hget, hget'] at hsame <;>
      simp only [Option.bind_none, Option.bind_some] at hsame ⊢
    · rw [hsame, Option.bind_none]
    · rw [← hsame, Option.bind_none]
    · rw [hsame]

theorem Updated.parent (h : s.Updated timing t id b t') {x : CaId} {ca ca' : CertificateAuthority}
    (hx : t.get? x = some ca) (hx' : t'.get? x = some ca') : ca'.parent = ca.parent := by
  have hsame := h.sameLinks.parent? x
  rwa [CaTree.parent?_of_get? hx, CaTree.parent?_of_get? hx'] at hsame

theorem Updated.certified (hself : ∀ ca, t.get? id = some ca → ca.id = id)
    (h : s.Updated timing t id b t') {x : CaId} (hx : x ≠ id) :
    (t'.get? x).bind (·.certified) = (t.get? x).bind (·.certified) := by
  cases hget' : t'.get? x with
  | none =>
    have hnone := h.sameLinks x
    rw [hget', Option.map_none] at hnone
    rw [Option.map_eq_none_iff.mp hnone.symm]
  | some ca' =>
    obtain ⟨ca, hca, hface, -, -⟩ := h.get? hself hget'
    rw [hca, Option.bind_some, Option.bind_some]
    exact CertificateAuthority.of_face CertificateAuthority.certified_face (hface hx)

theorem Updated.entitlement? (hself : ∀ ca, t.get? id = some ca → ca.id = id)
    (h : s.Updated timing t id b t') {x : CaId} {ca ca' : CertificateAuthority}
    (hx : t.get? x = some ca) (hx' : t'.get? x = some ca') (hparent : ca.parent ≠ some id) :
    s.entitlement? t' ca' = s.entitlement? t ca := by
  have hcertifiable := h.eq_of_views (g := fun ca => ca.certifiable s.lookup)
    (CertificateAuthority.certifiable_face s.lookup)
    (CertificateAuthority.certifiable_trunk s.lookup) hself hx hx'
  refine entitlement?_congr (h.parent hx hx') hcertifiable fun p hp => ?_
  refine h.certified hself ?_
  rintro rfl
  exact hparent hp

theorem not_due_of_verify (htiming : timing.verify = .ok ()) (now : Time) :
    ¬ (timing.newValidity now).notAfter < timing.reissueThreshold now := by
  have hweeks : timing.reissueWeeks < timing.validWeeks := by
    unfold IssuanceTiming.verify at htiming
    split at htiming
    · cases htiming
    · split at htiming
      · cases htiming
      · split at htiming
        · cases htiming
        · rename_i hle
          exact Int.not_le.mp hle
  change ¬ (now.ticks + _ < now.ticks + _)
  simp only [Time.ticksPerSecond]
  omega

/-- A successful update leaves nothing to do for the CA. -/
theorem Updated.settled (htiming : timing.verify = .ok ())
    (hself : ∀ ca, t.get? id = some ca → ca.id = id) (h : s.Updated timing t id b t') :
    s.Settled timing t' id := by
  have hupdated := h
  cases h with
  | @skipped ca hca hnone =>
    refine ⟨ca, hca, fun p resources hentitled => ?_⟩
    rw [hnone] at hentitled
    cases hentitled
  | @aligned ca parent p keys resources signings b c hca hentitled hne hparent hkeys halign =>
    -- A CA is not its own parent, so the update did not change what it may hold.
    have hnot : ca.parent ≠ some id := by
      rw [(entitlement?_eq_some hentitled).1]
      exact fun heq => hne (Option.some.inj heq)
    refine ⟨c.child, CaTree.get?_set_self, ?_⟩
    intro p' resources' hentitled' parent' keys' hparent' hkeys' signings'
    rw [hupdated.entitlement? hself hca CaTree.get?_set_self hnot, hentitled] at hentitled'
    obtain ⟨rfl, rfl⟩ := Prod.mk.inj (Option.some.inj hentitled')
    rw [CaTree.get?_set_ne (Ne.symm hne), CaTree.get?_set_self] at hparent'
    obtain rfl := Option.some.inj hparent'
    rw [CertificateAuthority.keys?_withKeys hkeys] at hkeys'
    obtain rfl := Option.some.inj hkeys'
    have hid : c.child.id = ca.id := CertificateAuthority.of_trunk (g := (·.id))
      CertificateAuthority.id_trunk (Frame.steps (align_steps halign)).trunk
    exact (inLine_align (not_due_of_verify htiming s.now) (hself ca hca) halign).congr
      (hid.trans (hself ca hca)) (fun _ => rfl) rfl

/-- A CA that is its own parent is never updated. -/
theorem Updated.apart (h : s.Updated timing t id b t') {ca' : CertificateAuthority} {p : CaId}
    {resources : ResourceSet} (hca' : t'.get? id = some ca')
    (hentitled' : s.entitlement? t' ca' = some (p, resources)) : p ≠ id := by
  have hp := (entitlement?_eq_some hentitled').1
  have hupdated := h
  cases h with
  | @skipped ca hca hnone =>
    obtain rfl := Option.some.inj (hca.symm.trans hca')
    cases hnone.symm.trans hentitled'
  | @aligned ca parent q keys resources signings b c hca hentitled hne hparent hkeys halign =>
    rw [hupdated.parent hca hca', (entitlement?_eq_some hentitled).1] at hp
    exact Option.some.inj hp ▸ hne

/-- An update keeps what is settled, unless it changes what the parent of the CA holds. -/
theorem Updated.settled_other (hwf : t.WellFormed) (h : s.Updated timing t id b t') (hne : d ≠ id)
    (hparent : t.parent? d ≠ some id) (hd : s.Settled timing t d) : s.Settled timing t' d := by
  obtain ⟨ca, hca, hinLine⟩ := hd
  obtain ⟨ca', hca', -⟩ := h.sameLinks.symm.get? hca
  refine ⟨ca', hca', fun p resources hentitled' parent' keys' hp' hkeys' signings' => ?_⟩
  rw [CaTree.parent?_of_get? hca] at hparent
  rw [h.entitlement? (hwf.ids id) hca hca' hparent] at hentitled'
  obtain ⟨hlink, parent, held, requested, hp, hheld, -⟩ := entitlement?_eq_some hentitled'
  obtain ⟨keys, hkeys⟩ := keys?_of_certified hheld
  obtain ⟨parent₁, hparent₁, -, -, hseen⟩ := h.get? (hwf.ids id) hp'
  obtain rfl := Option.some.inj (hp.symm.trans hparent₁)
  obtain ⟨ca₁, hca₁, hface, -, -⟩ := h.get? (hwf.ids id) hca'
  obtain rfl := Option.some.inj (hca.symm.trans hca₁)
  -- The parent may have issued to another child in between.
  refine (hinLine p resources hentitled' parent keys hp hkeys signings').congr
    (hwf.ids d ca hca) (fun key => ?_) (hface hne)
  rw [hwf.ids d ca hca, ← CertificateAuthority.validFor_of_keys hkeys',
    ← CertificateAuthority.validFor_of_keys hkeys]
  exact (hseen d hne).validFor key

theorem Tried.of_settled {signings signings' : List Signing} {r : Except Error Bool}
    (h : s.Tried timing t id signings r t' signings') (hsettled : s.Settled timing t id) :
    r = .ok false ∧ t' = t := by
  obtain ⟨ca, hca, hinLine⟩ := hsettled
  cases h with
  | skipped => exact ⟨rfl, rfl⟩
  | @aligned ca₁ parent p keys resources r c hca₁ hentitled hne hparent hkeys halign =>
    obtain rfl := Option.some.inj (hca.symm.trans hca₁)
    have hheld := hinLine p resources hentitled parent keys hparent hkeys signings
    rw [align_of_inLine hheld] at halign
    obtain ⟨rfl, rfl⟩ := Prod.mk.inj halign
    rw [CertificateAuthority.withKeys_self hkeys, CaTree.set_of_get? hparent,
      CaTree.set_of_get? hca]
    exact ⟨rfl, rfl⟩

theorem updateIncoming_of_settled {e : Session Journal} (h : s.Settled timing e.work.tree id)
    (hparents : ∀ ca p, e.work.tree.get? id = some ca → ca.parent = some p →
      ∃ parent, e.work.tree.get? p = some parent)
    (hapart : ∀ ca p resources, e.work.tree.get? id = some ca →
      s.entitlement? e.work.tree ca = some (p, resources) → p ≠ id) :
    ∃ e', s.updateIncoming timing id e = (.ok false, e') ∧ e'.work.tree = e.work.tree ∧
      e'.status = e.status := by
  have hsettled := h
  obtain ⟨ca, hca, -⟩ := h
  obtain ⟨r, e', hrun, hstatus, htried⟩ := updateIncoming_tried s timing hca
    (fun p hp => hparents ca p hca hp) (fun p resources => hapart ca p resources hca)
  obtain ⟨rfl, htree⟩ := htried.of_settled hsettled
  exact ⟨e', hrun, htree, hstatus⟩

end Services

end ResourcePki
