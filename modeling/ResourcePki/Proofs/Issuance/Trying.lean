import ResourcePki.Proofs.Issuance.Updating

/-! Updates that may fail. `Tried` says what comes of an update of a CA in any case: either there is
nothing to go by, or the certificates between the CA and its parent are brought in line, as far as
that goes. No other failure is possible where every CA has its parent in the tree. -/

namespace ResourcePki

open ResourcePki.Action Certification

namespace Services

variable (s : Services) (timing : IssuanceTiming)

/-- An update of a CA gives this result, makes this of the tree, and has this signed. -/
inductive Tried (t : CaTree) (id : CaId) (signings : List Signing) :
    Except Error Bool → CaTree → List Signing → Prop
  | skipped {ca : CertificateAuthority} (hca : t.get? id = some ca)
      (hnone : s.entitlement? t ca = none) : Tried t id signings (.ok false) t signings
  | aligned {ca parent : CertificateAuthority} {p : CaId} {keys : KeyRing}
      {resources : ResourceSet} {r : Except Error Bool} {c : Certification}
      (hca : t.get? id = some ca) (hentitled : s.entitlement? t ca = some (p, resources))
      (hne : p ≠ id) (hparent : t.get? p = some parent) (hkeys : parent.keys? = some keys)
      (halign : align (s.terms timing id resources) ⟨keys, ca, signings⟩ = (r, c)) :
      Tried t id signings r ((t.set p (parent.withKeys c.parentKeys)).set id c.child) c.signings

variable {s timing}

theorem Tried.updated {t u : CaTree} {id : CaId} {signings signings' : List Signing} {b : Bool}
    (h : s.Tried timing t id signings (.ok b) u signings') : s.Updated timing t id b u := by
  cases h with
  | skipped hca hnone => exact .skipped hca hnone
  | aligned hca hentitled hne hparent hkeys halign =>
    exact .aligned hca hentitled hne hparent hkeys halign

theorem updateIncoming_tried (s : Services) (timing : IssuanceTiming) {id : CaId}
    {e : Session Journal} {ca : CertificateAuthority}
    (hca : e.work.tree.get? id = some ca)
    (hparents : ∀ p, ca.parent = some p → ∃ parent, e.work.tree.get? p = some parent)
    (hapart : ∀ p resources, s.entitlement? e.work.tree ca = some (p, resources) → p ≠ id) :
    ∃ r e', s.updateIncoming timing id e = (r, e') ∧ e'.status = e.status ∧
      s.Tried timing e.work.tree id e.memory.signings r e'.work.tree e'.memory.signings := by
  unfold updateIncoming
  rw [bind_of_ok (require_of_get? hca)]
  cases hp : ca.parent with
  | none => exact ⟨_, e, rfl, rfl, .skipped hca (by rw [entitlement?, hp, Option.bind_none])⟩
  | some p =>
    obtain ⟨parent, hparent⟩ := hparents p hp
    dsimp only
    rw [bind_of_ok (require_of_get? hparent)]
    cases hheld : parent.certified with
    | none =>
      refine ⟨_, e, rfl, rfl, .skipped hca ?_⟩
      rw [entitlement?, hp, Option.bind_some, hparent, Option.bind_some, hheld, Option.bind_none]
    | some held =>
      obtain ⟨e₁, hrun, hwork, hstatus, hmemory⟩ := certifiable_apply (s := s) ca e
      dsimp only
      rw [bind_of_ok hrun, ← hwork, ← hstatus, ← hmemory]
      rw [← hwork] at hca hparent hapart
      cases hrequested : (ca.certifiable s.lookup).1 with
      | none =>
        refine ⟨_, e₁, rfl, rfl, .skipped hca ?_⟩
        rw [entitlement?, hp, Option.bind_some, hparent, Option.bind_some, hheld,
          Option.bind_some, hrequested, Option.map_none]
      | some requested =>
        obtain ⟨keys, hkeys⟩ := keys?_of_certified hheld
        have hentitled := entitlement?_of hp hparent hheld hrequested
        have hne : p ≠ id := hapart p _ hentitled
        obtain ⟨work, hpair, htree⟩ := updatePair_of_get?
          (f := alignPair (s.terms timing id (requested.inter held))) hne hparent hca
        rw [alignPair_of_keys hkeys] at hpair htree
        dsimp only
        refine ⟨_, _, hpair, rfl, ?_⟩
        dsimp only at htree ⊢
        rw [htree]
        exact .aligned hca hentitled hne hparent hkeys rfl

end Services

namespace Handler

theorem noteEffect_apply (step : Action Journal Bool) (t : Session Journal) :
    noteEffect step t = match step t with
      | (.ok b, t') => (.ok (), if b then { t' with status := t'.status.setHadEffect } else t')
      | (.error err, t') => (.error err, t') := by
  unfold noteEffect
  rw [bind_apply]
  generalize step t = result
  obtain ⟨r, t'⟩ := result
  cases r with
  | error err => rfl
  | ok b => cases b <;> rfl

end Handler

end ResourcePki
