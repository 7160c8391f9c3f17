import ResourcePki.Proofs.Reconciliation.Passes
import ResourcePki.Proofs.Issuance.Shares

/-! CAs that the registry says nothing about are left alone. Updates of others touch such a CA at
one place only: its parent keeps what it issued to all its children in the same lists, and
`issuedTo` is the share of the CA in them. -/

namespace ResourcePki

namespace KeyPair

/-- What was issued to a CA with the key, in order. -/
def issuedTo (d : CaId) (k : KeyPair) : List OutgoingCertificate :=
  k.outgoing.filter (·.subject = .child d)

end KeyPair

namespace KeyRing

variable {r r' : KeyRing} {d : CaId}

/-- What was issued to a CA, key by key. -/
def issuedTo (d : CaId) (r : KeyRing) : List (String × List OutgoingCertificate) :=
  r.pairs.map fun k => (k.ski, k.issuedTo d)

theorem issuedTo_trunk (d : CaId) (r : KeyRing) : r.trunk.issuedTo d = r.issuedTo d := by
  rw [issuedTo, trunk, List.map_map]
  rfl

theorem issuedTo_of_share (h : r'.share (.only d) = r.share (.only d)) :
    r'.issuedTo d = r.issuedTo d := by
  have hshare : ∀ r : KeyRing,
      (r.share (.only d)).pairs.map (fun k => (k.ski, k.outgoing)) = r.issuedTo d := by
    intro r
    rw [share, List.map_map]
    rfl
  rw [← hshare, h, hshare]

end KeyRing

namespace Certification

/-- Bringing the certificates of one child in line leaves those of all others as they are. -/
theorem issuedTo_align (terms : CertificationTerms) (c : Certification) {d : CaId}
    (hne : d ≠ c.child.id) : (align terms c).2.parentKeys.issuedTo d = c.parentKeys.issuedTo d := by
  apply KeyRing.issuedTo_of_share
  apply align_share
  intro key _
  simp [CertificateChoice.only, Ne.symm hne]

end Certification

namespace CertificateAuthority

def issuedTo (d : CaId) (ca : CertificateAuthority) : List (String × List OutgoingCertificate) :=
  (ca.keys?.map (·.issuedTo d)).getD []

theorem issuedTo_of_keys {ca : CertificateAuthority} {r : KeyRing} (h : ca.keys? = some r)
    (d : CaId) : ca.issuedTo d = r.issuedTo d := by
  rw [issuedTo, h]
  rfl

theorem issuedTo_trunk (d : CaId) (ca : CertificateAuthority) :
    ca.trunk.issuedTo d = ca.issuedTo d := by
  rw [issuedTo, trunk, keys?_modifyKeys, Option.map_map]
  simp only [Function.comp_def, KeyRing.issuedTo_trunk]
  rfl

/-- There is nothing that a CA may be certified for, be it that the registry has no entry for it or
that it cannot be asked. -/
theorem certifiable_of_unlisted {ca : CertificateAuthority} {lookup : ResourceLookup}
    (hkind : ca.type ≠ .allResources)
    (hlookup : lookup ca.identity = .ok none ∨ ∃ err, lookup ca.identity = .error err) :
    (ca.certifiable lookup).1 = none := by
  unfold certifiable
  cases hca : ca.kind with
  | allResources => exact absurd (by rw [type, hca]; rfl) hkind
  | _ => obtain h | ⟨err, h⟩ := hlookup <;> rw [h]

end CertificateAuthority

namespace CaTree

/-- What the CA `x` holds and what was issued to it are in `u` as they were in `t`. -/
structure Spares (x : CaId) (t u : CaTree) : Prop where
  links : SameLinks t u
  held : (u.get? x).map (·.face) = (t.get? x).map (·.face)
  issued : ∀ y, (u.get? y).map (·.issuedTo x) = (t.get? y).map (·.issuedTo x)

theorem Spares.refl (x : CaId) (t : CaTree) : Spares x t t := ⟨.refl t, rfl, fun _ => rfl⟩

theorem Spares.trans {x : CaId} {t u v : CaTree} (h : Spares x t u) (h' : Spares x u v) :
    Spares x t v where
  links := h.links.trans h'.links
  held := h'.held.trans h.held
  issued y := (h'.issued y).trans (h.issued y)

end CaTree

namespace Services

variable {s : Services} {timing : IssuanceTiming} {t t' : CaTree} {id x : CaId} {b : Bool}

theorem Updated.issuedTo (hself : ∀ ca, t.get? id = some ca → ca.id = id)
    (h : s.Updated timing t id b t') (hx : x ≠ id) (y : CaId) :
    (t'.get? y).map (·.issuedTo x) = (t.get? y).map (·.issuedTo x) := by
  cases h with
  | skipped => rfl
  | @aligned ca parent p keys resources signings b c hca _ hne hparent hkeys halign =>
    have hissued := Certification.issuedTo_align (s.terms timing id resources) ⟨keys, ca, signings⟩
      (d := x) (hself ca hca ▸ hx)
    rw [halign] at hissued
    rw [CaTree.get?_set, CaTree.get?_set]
    split
    -- The CA that is updated is an issuer too, but its own lists are not touched.
    · rename_i hid
      have htrunk := (Certification.Frame.steps (Certification.align_steps halign)).trunk
      rw [← hid, hca, Option.map_some, Option.map_some, CertificateAuthority.of_trunk
        (CertificateAuthority.issuedTo_trunk x) htrunk]
    · split
      · rename_i hp
        rw [← hp, hparent, Option.map_some, Option.map_some,
          CertificateAuthority.issuedTo_of_keys (CertificateAuthority.keys?_withKeys hkeys _),
          CertificateAuthority.issuedTo_of_keys hkeys, hissued]
      · rfl

/-- No update of any CA touches one for which there is nothing to certify. -/
theorem Updated.spares (hwf : t.WellFormed) {ca : CertificateAuthority} (hca : t.get? x = some ca)
    (hnone : (ca.certifiable s.lookup).1 = none) (h : s.Updated timing t id b t') :
    t.Spares x t' := by
  by_cases hid : x = id
  · subst hid
    have hentitled : s.entitlement? t ca = none := by
      cases hto : s.entitlement? t ca with
      | none => rfl
      | some _ =>
        obtain ⟨-, -, -, requested, -, -, hrequested, -⟩ := entitlement?_eq_some hto
        rw [hnone] at hrequested
        cases hrequested
    rw [h.eq_of_none hca hentitled]
    exact .refl x t
  · refine ⟨h.sameLinks, ?_, h.issuedTo (hwf.ids id) hid⟩
    obtain ⟨ca', hca', -⟩ := h.sameLinks.symm.get? hca
    obtain ⟨ca₀, hca₀, hface, -⟩ := h.get? (hwf.ids id) hca'
    rw [hca', hca₀, Option.map_some, Option.map_some, hface hid]

end Services

/-! What every update of a CA keeps of the tree is kept by the whole job. -/

section keep

variable {ε : Type} {execute : CommandService ε} {P : CaTree → Prop}

theorem UpdateRound.settle_tree (child : CaIdentity) (budget : UpdateBudget) (e : Engine ε)
    (result : Except Error CommandStatus) : (settle child budget e result).2.2.tree = e.tree := by
  cases result with
  | error err => rfl
  | ok status =>
    unfold settle
    dsimp only
    split
    · cases budget.spend? <;> rfl
    · rfl

theorem UpdateRound.advance_keep
    (hexecute : ∀ id e, P e.tree → P (execute (.update id) e).2.tree) {r : UpdateRound ε}
    (h : P r.engine.tree) (i : Nat) : P (advance execute r i).engine.tree := by
  unfold advance
  split
  · exact h
  · dsimp only
    split
    · exact h
    · exact hexecute _ _ h
    · rw [settle_tree]
      exact h
    · exact h

theorem UpdateRound.run_keep
    (hexecute : ∀ id e, P e.tree → P (execute (.update id) e).2.tree) (schedule : List Nat)
    {r : UpdateRound ε} (h : P r.engine.tree) : P (run execute schedule r).engine.tree := by
  induction schedule generalizing r with
  | nil => exact h
  | cons i rest ih => exact ih (advance_keep hexecute h i)

theorem UpdateJob.tree_production? (job : UpdateJob ε) (e : Engine ε) :
    (job.production? e).2.tree = e.tree := by
  unfold production?
  split
  · rfl
  · cases e.tree.findByName? job.productionCa <;> rfl

theorem UpdateJob.updateChildren_keep (job : UpdateJob ε)
    (hexecute : ∀ id e, P e.tree → P (job.execute (.update id) e).2.tree)
    (children : List CaIdentity) {e : Engine ε} (h : P e.tree) :
    P (job.updateChildren children e).2.tree := by
  have hround := UpdateRound.run_keep hexecute (job.schedule children.length)
    (r := .start children job.limit e) h
  unfold updateChildren
  dsimp only
  split <;> exact hround

theorem UpdateJob.run_keep (job : UpdateJob ε)
    (hexecute : ∀ id e, P e.tree → P (job.execute (.update id) e).2.tree) {e : Engine ε}
    (h : P e.tree) : P (job.run e).2.tree := by
  have hproduction := job.tree_production? e
  unfold run
  split
  · exact h
  · split
    · rename_i heq
      rw [heq] at hproduction
      exact hproduction ▸ h
    · rename_i production e₁ heq
      rw [heq] at hproduction
      have hfirst := hexecute production.id e₁ (hproduction ▸ h)
      split
      · rename_i heq'
        rw [heq'] at hfirst
        exact hfirst
      · rename_i heq'
        rw [heq'] at hfirst
        split
        · exact hfirst
        · exact job.updateChildren_keep hexecute _ hfirst

end keep

namespace Server

variable {s : Server} {x : CaId} {ca : CertificateAuthority}

theorem execute_spares {t : CaTree} (hwf : t.WellFormed) (hca : t.get? x = some ca)
    (hnone : (ca.certifiable s.services.lookup).1 = none) (id : CaId) (e : Engine Journal)
    (h : t.Spares x e.tree) : t.Spares x (s.execute (.update id) e).2.tree := by
  generalize hrun : s.execute (.update id) e = result
  obtain ⟨r, e'⟩ := result
  cases r with
  | error err =>
    rw [execute_eq] at hrun
    rw [Dispatcher.execute_standard_error hrun]
    exact h
  | ok status =>
    obtain ⟨ca', hca', -⟩ := h.links.symm.get? hca
    have hheld := h.held
    rw [hca, hca', Option.map_some, Option.map_some] at hheld
    -- It is unlisted as before: what it was looked up by is part of its face.
    have hnone' : (ca'.certifiable s.services.lookup).1 = none := by
      rw [CertificateAuthority.of_face (g := (·.certifiable s.services.lookup))
        (CertificateAuthority.certifiable_face _) (Option.some.inj hheld), hnone]
    exact h.trans ((execute_update_ok hrun).spares (hwf.of_sameLinks h.links) hca' hnone')

/-- However a run of the update job goes, a CA that the registry says nothing about has in the end
the keys and certificates that it had, and every CA has the records of what it issued to it. -/
theorem run_unlisted (s : Server) (registry : Except Error Unit) (schedule : Nat → List Nat)
    (e : Engine Journal) (hwf : e.tree.WellFormed) (hca : e.tree.get? x = some ca)
    (hkind : ca.type ≠ .allResources)
    (hlookup : s.services.lookup ca.identity = .ok none ∨
      ∃ err, s.services.lookup ca.identity = .error err) :
    (∃ ca', ({ s.updateJob registry with schedule }.run e).2.tree.get? x = some ca' ∧
      ca'.face = ca.face) ∧
    ∀ y issuer, e.tree.get? y = some issuer →
      ∃ issuer', ({ s.updateJob registry with schedule }.run e).2.tree.get? y = some issuer' ∧
        issuer'.issuedTo x = issuer.issuedTo x := by
  have hnone := CertificateAuthority.certifiable_of_unlisted hkind hlookup
  have hspares : e.tree.Spares x ({ s.updateJob registry with schedule }.run e).2.tree :=
    UpdateJob.run_keep _ (execute_spares hwf hca hnone) (.refl x e.tree)
  have hheld := hspares.held
  refine ⟨?_, fun y issuer hissuer => ?_⟩
  · rw [hca, Option.map_some] at hheld
    exact Option.map_eq_some_iff.mp hheld
  · have hissued := hspares.issued y
    rw [hissuer, Option.map_some] at hissued
    exact Option.map_eq_some_iff.mp hissued

end Server

namespace Chain

/-- The registry cannot be asked for the lower one of the two members. -/
def deaf : Server :=
  { server 2 with services := { services with
      lookup := fun ca =>
        if ca.id = 4 then .error (.resourceLookup "timed out") else services.lookup ca } }

/-- The upper member loses its certificate, and keeps what it issued to the lower one. -/
theorem run_unlisted_in_chain :
    (tree.WellFormed ∧ tree.get? 4 = some lower ∧ lower.type ≠ .allResources ∧
      deaf.services.lookup lower.identity = .error (.resourceLookup "timed out")) ∧
    ((deaf.updateJob (.ok ())).run engine).1 = .ok { updated := 1, considered := 2 } ∧
    (∃ ca', ((deaf.updateJob (.ok ())).run engine).2.tree.get? 4 = some ca' ∧
      ca'.face = lower.face) ∧
    ∃ upper', ((deaf.updateJob (.ok ())).run engine).2.tree.get? 3 = some upper' ∧
      upper'.issuedTo 4 = [("U", [issue (4, lowerCertificate)])] := by
  have hreport : ((deaf.updateJob (.ok ())).run engine).1 =
      .ok { updated := 1, considered := 2 } := by
    rw [deaf.updateJob_eq]
    decide +kernel
  have hkind : lower.type ≠ .allResources := by decide
  have hlookup : deaf.services.lookup lower.identity = .error (.resourceLookup "timed out") := rfl
  obtain ⟨hheld, hissued⟩ := deaf.run_unlisted (.ok ()) oneByOne engine wellFormed_tree
    (x := 4) rfl hkind (.inr ⟨_, hlookup⟩)
  exact ⟨⟨wellFormed_tree, rfl, hkind, hlookup⟩, hreport, hheld, hissued 3 upper rfl⟩

end Chain

end ResourcePki
