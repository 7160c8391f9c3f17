import ResourcePki.Proofs.Issuance.Linked
import ResourcePki.Proofs.Issuance.Histories
import ResourcePki.Proofs.Reconciliation.Running

/-! With a fixed registry and clock the update job comes to an end. A run leaves settled what it
updates and what was settled before; CAs that are settled cost nothing, so every run gets at least
as much further down the list of descendants as its budget allows. -/

namespace ResourcePki

open CertificateAuthority Certification

namespace Services

variable {s : Services} {timing : IssuanceTiming} {limit : Nat}

theorem Updated.of_settled {t t' : CaTree} {id : CaId} {b : Bool}
    (h : s.Updated timing t id b t') (hs : s.Settled timing t id) : b = false ∧ t' = t := by
  have hb : b = false := by
    obtain ⟨ca, hca, hinLine⟩ := hs
    cases h with
    | skipped => rfl
    | @aligned ca₁ parent p keys resources signings b c hca₁ hentitled _ hparent hkeys halign =>
      obtain rfl := Option.some.inj (hca.symm.trans hca₁)
      have hline := hinLine p resources hentitled parent keys hparent hkeys signings
      rw [align_of_inLine hline] at halign
      exact (Except.ok.inj (Prod.mk.inj halign).1).symm
  subst hb
  exact ⟨rfl, h.eq_of_false⟩

/-- What is settled stays so while CAs are updated that are neither it nor its parent. -/
theorem Swept.settled_apart {ids : List CaId} {n n' : Nat} {t t' : CaTree}
    (h : s.Swept timing limit ids n t n' t') (hwf : t.WellFormed) {d : CaId}
    (hapart : ∀ y ∈ ids, d ≠ y ∧ t.parent? d ≠ some y) (hd : s.Settled timing t d) :
    s.Settled timing t' d := by
  induction h with
  | nil => exact hd
  | skip _ _ ih => exact ih hwf (fun y hy => hapart y (List.mem_cons_of_mem _ hy)) hd
  | update _ hu _ ih =>
    obtain ⟨⟨hne, hparent⟩, hrest⟩ := List.forall_mem_cons.mp hapart
    rw [← hu.sameLinks.parent?] at hrest
    exact ih (hwf.of_sameLinks hu.sameLinks) hrest (hu.settled_other hwf hne hparent hd)

/-- A sweep over CAs of which none comes after a child of its own. Of the list, the first ones that
were settled before it are so after it, and as many more as the rest of the budget is good for. -/
theorem Swept.settled (htiming : timing.verify = .ok ()) {ids : List CaId} {n n' : Nat}
    {t t' : CaTree} (h : s.Swept timing limit ids n t n' t') (hwf : t.WellFormed)
    (hids : ids.Pairwise fun x y => x ≠ y ∧ t.parent? x ≠ some y) {k : Nat}
    (hk : ∀ x ∈ ids.take k, s.Settled timing t x) :
    ∀ x ∈ ids.take (k + (limit - n)), s.Settled timing t' x := by
  induction h generalizing k with
  | nil =>
    intro x hx
    rw [List.take_nil] at hx
    cases hx
  -- The budget is used up: nothing changes any more.
  | @skip id rest n n' t t' hn h ih =>
    obtain ⟨hfirst, hrest⟩ := List.pairwise_cons.mp hids
    rw [Nat.sub_eq_zero_of_le hn, Nat.add_zero]
    cases k with
    | zero => exact fun x hx => nomatch hx
    | succ k =>
      rw [List.take_succ_cons] at hk ⊢
      obtain ⟨hid, hk⟩ := List.forall_mem_cons.mp hk
      have hprefix := ih hwf hrest hk
      rw [Nat.sub_eq_zero_of_le hn, Nat.add_zero] at hprefix
      exact List.forall_mem_cons.mpr ⟨h.settled_apart hwf hfirst hid, hprefix⟩
  -- Those after `id` in the list are neither `id` nor above it, so they cannot unsettle it.
  | @update id rest n n' t t₁ t' b hn hu h ih =>
    have hwf₁ := hwf.of_sameLinks hu.sameLinks
    simp only [← hu.sameLinks.parent?] at hids
    obtain ⟨hfirst, hrest⟩ := List.pairwise_cons.mp hids
    have hid : s.Settled timing t' id :=
      h.settled_apart hwf₁ hfirst (hu.settled htiming (hwf.ids _))
    cases k with
    | zero =>
      have hprefix := ih (k := 0) hwf₁ hrest (fun x hx => (nomatch hx))
      obtain ⟨m, hm⟩ := Nat.exists_eq_add_of_lt hn
      have hleft : 0 + (limit - n) = m + 1 := by omega
      rw [hleft, List.take_succ_cons]
      refine List.forall_mem_cons.mpr ⟨hid, fun x hx => hprefix x ?_⟩
      refine List.take_subset_take_left rest ?_ hx
      split <;> omega
    | succ k =>
      rw [List.take_succ_cons] at hk
      obtain ⟨hbefore, hk⟩ := List.forall_mem_cons.mp hk
      -- A settled CA costs nothing, so the whole budget is left for the others.
      obtain ⟨rfl, rfl⟩ := hu.of_settled hbefore
      rw [Nat.succ_add, List.take_succ_cons]
      exact List.forall_mem_cons.mpr ⟨hid, ih hwf hrest hk⟩

end Services

namespace CaTree

/-- What the update job relies on: well-formed links, and certificates that a child holds whenever
it has them, one for each key. -/
structure Coherent (t : CaTree) : Prop where
  wellFormed : t.WellFormed
  distinctKeys : t.DistinctKeys
  single : t.Single
  held : t.Along HoldsValid

variable {s : Services} {timing : IssuanceTiming} {t t' : CaTree}

theorem Coherent.updated {id : CaId} {b : Bool} (h : t.Coherent)
    (hu : s.Updated timing t id b t') : t'.Coherent where
  wellFormed := h.wellFormed.of_sameLinks hu.sameLinks
  distinctKeys := hu.distinctKeys (h.wellFormed.ids _) h.distinctKeys
  single := hu.single (h.wellFormed.ids _) h.single
  held := hu.along HoldsValid.congr HoldsValid.steps h.wellFormed h.distinctKeys h.held

theorem Coherent.swept {limit n n' : Nat} {ids : List CaId} (h : t.Coherent)
    (hs : s.Swept timing limit ids n t n' t') : t'.Coherent := by
  induction hs with
  | nil => exact h
  | skip _ _ ih => exact ih h
  | update _ hu _ ih => exact ih (h.updated hu)

end CaTree

namespace Server

variable {s : Server} {e : Engine Journal} {production : CertificateAuthority}

theorem runs_settled (h : e.tree.Coherent) (hready : s.Ready e.tree production)
    (htiming : s.config.timing.verify = .ok ()) {n : Nat}
    (hruns : ∀ i < n, ∃ report, ((s.updateJob (.ok ())).run ((s.updateJob (.ok ())).runs i e)).1 =
      .ok report ∧ report.failed = 0) :
    ((s.updateJob (.ok ())).runs n e).tree.Coherent ∧
    CaTree.SameLinks e.tree ((s.updateJob (.ok ())).runs n e).tree ∧
    (0 < n → s.services.Settled s.config.timing ((s.updateJob (.ok ())).runs n e).tree
        production.id ∧
      ∀ x ∈ (e.tree.descendants production.id).take (n * s.config.updateLimit),
        s.services.Settled s.config.timing ((s.updateJob (.ok ())).runs n e).tree x) := by
  induction n with
  | zero => exact ⟨h, .refl _, fun hn => absurd hn (Nat.lt_irrefl 0)⟩
  | succ n ih =>
    obtain ⟨hcoherent, hlinks, hsettled⟩ := ih fun i hi => hruns i (Nat.lt_succ_of_lt hi)
    obtain ⟨report, hreport, hfailed⟩ := hruns n (Nat.lt_succ_self n)
    rw [UpdateJob.runs]
    generalize (s.updateJob (.ok ())).runs n e = e₁ at hcoherent hlinks hsettled hreport ⊢
    have hwf := hcoherent.wellFormed
    obtain ⟨production', hready', hidentity⟩ := hready.of_sameLinks h.wellFormed hlinks
    have hid : production'.id = production.id := congrArg CaIdentity.id hidentity
    obtain ⟨b, t₁, hu, hs⟩ := run_ok hwf hready' (Prod.ext hreport rfl) hfailed
    rw [hid] at hu hs
    rw [hlinks.descendants] at hs
    have hcoherent₁ := hcoherent.updated hu
    refine ⟨hcoherent₁.swept hs, hlinks.trans (hu.sameLinks.trans hs.sameLinks), fun _ => ?_⟩
    have hlinks₁ := hlinks.trans hu.sameLinks
    have hpairwise : (production.id :: e.tree.descendants production.id).Pairwise
        fun x y => x ≠ y ∧ t₁.parent? x ≠ some y := by
      have hpairwise := hcoherent₁.wellFormed.pairwise_subtree production.id
      rwa [hlinks₁.descendants] at hpairwise
    obtain ⟨hfirst, hrest⟩ := List.pairwise_cons.mp hpairwise
    -- The first run may change the production CA; in later ones it is settled already.
    have hprefix : ∀ x ∈ (e.tree.descendants production.id).take (n * s.config.updateLimit),
        s.services.Settled s.config.timing t₁ x := by
      cases n with
      | zero =>
        rw [Nat.zero_mul, List.take_zero]
        exact fun x hx => (nomatch hx)
      | succ n =>
        obtain ⟨hproduction, hbefore⟩ := hsettled (Nat.succ_pos n)
        rw [(hu.of_settled hproduction).2]
        exact hbefore
    have hproduction := hs.settled_apart hcoherent₁.wellFormed hfirst
      (hu.settled htiming (hwf.ids _))
    refine ⟨hproduction, ?_⟩
    rw [Nat.succ_mul]
    exact hs.settled htiming hcoherent₁.wellFormed hrest hprefix

end Server

namespace Services

/-- The certificates of a CA are what the registry and the certificate of the parent make of it: one
valid certificate for every key, which the CA holds if it manages the key here, or nothing. -/
def Conforms (s : Services) (timing : IssuanceTiming) (t : CaTree) (id : CaId) : Prop :=
  ∀ ca p parent requested held, t.get? id = some ca → ca.parent = some p →
    t.get? p = some parent → (ca.certifiable s.lookup).1 = some requested →
    parent.certified = some held →
    if (requested.inter held).isEmpty then
      (∀ key, parent.validFor id key = []) ∧ ∀ k ∈ ca.pairs, k.incoming = none
    else
      ∀ key ∈ ca.subjectKeys, ∃ o, parent.validFor id key = [o] ∧
        o.resources.equivalent (requested.inter held) = true ∧
        ¬ o.notAfter < timing.reissueThreshold s.now ∧
        ∀ k ∈ ca.pairs, k.ski = key → k.isRevoked = false →
          ∃ inc, k.incoming = some inc ∧ o.Records inc

variable {s : Services} {timing : IssuanceTiming} {t : CaTree} {id : CaId}

theorem Settled.conforms (h : t.Coherent) (hs : s.Settled timing t id) :
    s.Conforms timing t id := by
  intro ca p parent requested held hca hp hparent hrequested hheld
  obtain ⟨ca₁, hca₁, hinLine⟩ := hs
  obtain rfl := Option.some.inj (hca.symm.trans hca₁)
  obtain ⟨keys, hkeys⟩ := keys?_of_certified hheld
  have hid : ca.id = id := h.wellFormed.ids id ca hca
  have hentitled := entitlement?_of hp hparent hheld hrequested
  have hline := hinLine p _ hentitled parent keys hparent hkeys []
  unfold InLine at hline
  split
  · rename_i hempty
    rw [if_pos (show (s.terms timing id (requested.inter held)).resources.isEmpty = true from
      hempty)] at hline
    obtain ⟨hcount, hincoming⟩ := isHeld_eq_false_iff.mp hline
    refine ⟨fun key => ?_, hincoming⟩
    rw [validFor_of_keys hkeys, ← hid]
    exact KeyRing.countChild_none_eq_zero_iff.mp hcount key
  · rename_i hsome
    rw [if_neg (show ¬ (s.terms timing id (requested.inter held)).resources.isEmpty = true from
      hsome)] at hline
    intro key hkey
    obtain ⟨o, ho, hserves⟩ := ((needsCertificate_eq_false_iff hid).mp (hline key hkey)).issued
    rw [KeyRing.validChild_eq, hid, ← validFor_of_keys hkeys] at ho
    have hsingle : parent.validFor id key = [o] :=
      h.single.validFor_eq hparent (List.mem_of_head? ho)
    rw [serves, Bool.and_eq_true, Bool.not_eq_true', decide_eq_false_iff_not] at hserves
    refine ⟨o, hsingle, hserves.1, hserves.2, fun k hk hski hrevoked => ?_⟩
    refine h.held p parent id ca hparent hca hp k hk hrevoked o ?_
    rw [hid, hski, hsingle]
    exact List.mem_singleton_self o

end Services

namespace Server

variable {s : Server} {e : Engine Journal} {production : CertificateAuthority}

theorem runs_of_settled (hwf : e.tree.WellFormed) (hready : s.Ready e.tree production)
    (hlimit : 1 ≤ s.config.updateLimit)
    (hproduction : s.services.Settled s.config.timing e.tree production.id)
    (hsettled : ∀ id ∈ e.tree.descendants production.id,
      s.services.Settled s.config.timing e.tree id) (n : Nat) :
    ((s.updateJob (.ok ())).runs n e).tree = e.tree ∧
      ((s.updateJob (.ok ())).run ((s.updateJob (.ok ())).runs n e)).1 =
        .ok { considered := (e.tree.descendants production.id).length } := by
  induction n with
  | zero => exact ⟨rfl, (run_of_settled hwf hready hlimit hproduction hsettled).1⟩
  | succ n ih =>
    obtain ⟨htree, -⟩ := ih
    have hstep : ∀ e₁ : Engine Journal, e₁.tree = e.tree →
        ((s.updateJob (.ok ())).run e₁).2.tree = e.tree ∧ ((s.updateJob (.ok ())).run e₁).1 =
          .ok { considered := (e.tree.descendants production.id).length } := by
      intro e₁ he₁
      rw [← he₁] at hwf hready hproduction hsettled ⊢
      exact (run_of_settled hwf hready hlimit hproduction hsettled).symm
    have hnext := (hstep _ htree).1
    exact ⟨hnext, (hstep _ hnext).2⟩

theorem runs_add (job : UpdateJob Journal) (m n : Nat) (e : Engine Journal) :
    job.runs (m + n) e = job.runs n (job.runs m e) := by
  induction n with
  | zero => rfl
  | succ n ih => rw [← Nat.add_assoc, UpdateJob.runs, UpdateJob.runs, ih]

theorem le_ceil_mul {limit : Nat} (hlimit : 1 ≤ limit) (n : Nat) :
    n ≤ (n + limit - 1) / limit * limit := by
  have hdivision := Nat.div_add_mod (n + limit - 1) limit
  have hmod := Nat.mod_lt (n + limit - 1) hlimit
  rw [Nat.mul_comm] at hdivision
  omega

/-- The update job brings the tree in line with a fixed registry in as many runs as its budget
takes to go over all descendants of the production CA once; every further run finds nothing to
do. -/
theorem reconciliation_converges (hwf : e.tree.WellFormed) (hkeys : e.tree.DistinctKeys)
    (hsingle : e.tree.Single) (hheld : e.tree.Along HoldsValid)
    (hready : s.Ready e.tree production) (htiming : s.config.timing.verify = .ok ())
    (hlimit : 1 ≤ s.config.updateLimit) {n : Nat}
    (hn : n = max 1 (((e.tree.descendants production.id).length + s.config.updateLimit - 1) /
      s.config.updateLimit))
    (hruns : ∀ i < n, ∃ report, ((s.updateJob (.ok ())).run ((s.updateJob (.ok ())).runs i e)).1 =
      .ok report ∧ report.failed = 0) :
    (∀ id depth, e.tree.up depth id = some production.id →
      s.services.Conforms s.config.timing ((s.updateJob (.ok ())).runs n e).tree id) ∧
    ∀ m, n ≤ m →
      ((s.updateJob (.ok ())).run ((s.updateJob (.ok ())).runs m e)).1 =
        .ok { considered := (e.tree.descendants production.id).length } ∧
      ((s.updateJob (.ok ())).runs m e).tree = ((s.updateJob (.ok ())).runs n e).tree := by
  obtain ⟨hcoherent, hlinks, hsettled⟩ :=
    runs_settled ⟨hwf, hkeys, hsingle, hheld⟩ hready htiming hruns
  obtain ⟨hproduction, hprefix⟩ := hsettled (hn ▸ Nat.le_max_left ..)
  have hall : (e.tree.descendants production.id).length ≤ n * s.config.updateLimit := by
    refine Nat.le_trans (le_ceil_mul hlimit _) (Nat.mul_le_mul_right _ ?_)
    exact hn ▸ Nat.le_max_right ..
  -- The budgets of `n` runs together reach the end of the list.
  rw [List.take_of_length_le hall] at hprefix
  generalize hafter : (s.updateJob (.ok ())).runs n e = e₁ at hcoherent hlinks hproduction hprefix ⊢
  obtain ⟨production', hready', hidentity⟩ := hready.of_sameLinks hwf hlinks
  have hid : production'.id = production.id := congrArg CaIdentity.id hidentity
  have hsubtree := List.forall_mem_cons.mpr ⟨hproduction, hprefix⟩
  refine ⟨fun id depth hdepth => Services.Settled.conforms hcoherent ?_, fun m hm => ?_⟩
  · exact hsubtree id (hwf.mem_subtree.mpr ⟨depth, hdepth⟩)
  · obtain ⟨d, rfl⟩ := Nat.exists_eq_add_of_le hm
    rw [runs_add, hafter]
    have hfurther := runs_of_settled hcoherent.wellFormed hready' hlimit (hid ▸ hproduction)
      (by rwa [hlinks.descendants, hid]) d
    rw [hlinks.descendants, hid] at hfurther
    exact hfurther.symm

end Server

namespace Chain

/-- A server for the chain, given how many updates a run may count. -/
def server (limit : Nat) : Server where
  config := { logLevel := .info, logType := .stderr, updateLimit := limit }
  services := services
  repositories := .planned (fun _ => none) fun _ => none
  isIdentity := fun _ _ => true

theorem ready_tree (limit : Nat) : (server limit).Ready tree production := by
  have hroot : (tree.findByName? rootName).isSome = true := by decide +kernel
  have hproduction : tree.findByName? production.name = some production := by decide +kernel
  exact ⟨hroot, hproduction⟩

/-- The first run withdraws a certificate, and the second one finds nothing to do. -/
theorem runs_chain : ∀ i < 2, ∃ report,
    (((server 1).updateJob (.ok ())).run (((server 1).updateJob (.ok ())).runs i engine)).1 =
      .ok report ∧ report.failed = 0 := by
  rw [(server 1).updateJob_eq]
  intro i hi
  obtain rfl | rfl : i = 0 ∨ i = 1 := by omega
  · exact ⟨{ updated := 1, considered := 2 }, by decide +kernel, rfl⟩
  · exact ⟨{ considered := 2 }, by decide +kernel, rfl⟩

theorem length_descendants : (tree.descendants production.id).length = 2 := by decide +kernel

/-- With one update each, two runs bring the chain in line. -/
theorem reconciliation_converges_in_chain :
    (∀ id depth, tree.up depth id = some production.id →
      services.Conforms {} (((server 1).updateJob (.ok ())).runs 2 engine).tree id) ∧
    ∀ m, 2 ≤ m →
      (((server 1).updateJob (.ok ())).run (((server 1).updateJob (.ok ())).runs m engine)).1 =
        .ok { considered := 2 } ∧
      (((server 1).updateJob (.ok ())).runs m engine).tree =
        (((server 1).updateJob (.ok ())).runs 2 engine).tree := by
  have hready : (server 1).Ready engine.tree production := ready_tree 1
  have hlimit : 1 ≤ (server 1).config.updateLimit := Nat.le_refl 1
  have hn : 2 = max 1 (((engine.tree.descendants production.id).length +
      (server 1).config.updateLimit - 1) / (server 1).config.updateLimit) := by decide +kernel
  have hconverges := Server.reconciliation_converges wellFormed_tree distinctKeys_tree single_tree
    linked_tree.held hready rfl hlimit hn runs_chain
  rwa [show engine.tree.descendants production.id = tree.descendants production.id from rfl,
    length_descendants] at hconverges

end Chain

end ResourcePki
