import ResourcePki.Proofs.Reconciliation.Sweep

/-! Runs of the update job of a server, as changes of the tree: the production CA is updated, then
a sweep goes over its descendants. In a tree where all of these are settled a run does nothing. -/

namespace ResourcePki

namespace CaTree

variable {t : CaTree}

theorem map_id_identities (hwf : t.WellFormed) {ids : List CaId}
    (h : ∀ id ∈ ids, ∃ ca, t.get? id = some ca) :
    (ids.filterMap fun id => (t.get? id).map (·.identity)).map (·.id) = ids := by
  induction ids with
  | nil => rfl
  | cons id rest ih =>
    obtain ⟨⟨ca, hca⟩, hrest⟩ := List.forall_mem_cons.mp h
    rw [List.filterMap_cons, hca, Option.map_some, List.map_cons, ih hrest]
    exact congrArg (· :: rest) (hwf.ids id ca hca)

theorem descendantsOf_of_findByName? (hwf : t.WellFormed) {name : CaName}
    {ca : CertificateAuthority} (h : t.findByName? name = some ca) :
    ∃ children, t.descendantsOf name = .ok children ∧
      children.map (·.id) = t.descendants ca.id := by
  refine ⟨_, by rw [descendantsOf, h], ?_⟩
  exact map_id_identities hwf fun id hid => hwf.exists_of_mem_descendants hid

end CaTree

namespace UpdateJob

variable {ε : Type}

def runs (job : UpdateJob ε) : Nat → Engine ε → Engine ε
  | 0, e => e
  | n + 1, e => (job.run (job.runs n e)).2

theorem run_of_ok {job : UpdateJob ε} {e e' : Engine ε} {production : CaIdentity}
    {status : CommandStatus} {children : List CaIdentity} (hregistry : job.registry = .ok ())
    (hproduction : job.production? e = (some production, e))
    (hexecute : job.execute (.update production.id) e = (.ok status, e'))
    (hchildren : e'.tree.descendantsOf production.name = .ok children) :
    job.run e = (.ok (job.updateChildren children e').1, (job.updateChildren children e').2) := by
  unfold run
  rw [hregistry, hproduction]
  dsimp only
  rw [hexecute]
  dsimp only
  rw [hchildren]

theorem run_of_error {job : UpdateJob ε} {e e' : Engine ε} {production : CaIdentity} {err : Error}
    (hregistry : job.registry = .ok ())
    (hproduction : job.production? e = (some production, e))
    (hexecute : job.execute (.update production.id) e = (.error err, e')) :
    job.run e = (.error err, e') := by
  unfold run
  rw [hregistry, hproduction]
  dsimp only
  rw [hexecute]

theorem count_eq_zero {round : UpdateRound ε} (h : (report round).failed = 0) :
    ∀ task ∈ round.tasks, ∀ outcome, task.state = .done outcome → outcome ≠ .failed := by
  intro task htask outcome hstate hfailed
  have hnot := List.countP_eq_zero.mp h task htask
  rw [hstate, hfailed] at hnot
  exact hnot rfl

end UpdateJob

namespace Server

open UpdateRound

variable {s : Server} {e e' : Engine Journal} {report : UpdateReport}
  {root production : CertificateAuthority} {schedule : Nat → List Nat} {order : List Nat}

/-- The update job, with a schedule of its own. -/
def updateJobBy (s : Server) (schedule : Nat → List Nat) : UpdateJob Journal :=
  { s.updateJob (.ok ()) with schedule }

/-- The CAs that a run starts from are there. -/
structure Ready (s : Server) (t : CaTree) (production : CertificateAuthority) : Prop where
  root : (t.findByName? s.config.allResourcesCa).isSome = true
  production : t.findByName? s.config.productionCa = some production

theorem Ready.production? (h : s.Ready e.tree production) :
    (s.updateJobBy schedule).production? e = (some production.identity, e) := by
  have hroot : (e.tree.findByName? (s.updateJobBy schedule).allResourcesCa).isNone = false := by
    rw [Option.isNone_eq_false_iff]
    exact h.root
  have hproduction : e.tree.findByName? (s.updateJobBy schedule).productionCa = some production :=
    h.production
  rw [UpdateJob.production?, hroot, if_neg Bool.false_ne_true, hproduction]

theorem Ready.of_sameLinks {t u : CaTree} (h : s.Ready t production) (hwf : t.WellFormed)
    (hs : CaTree.SameLinks t u) :
    ∃ production', s.Ready u production' ∧ production'.identity = production.identity := by
  have hfind := hs.findByName? hwf s.config.productionCa
  rw [h.production, Option.map_some] at hfind
  obtain ⟨production', hproduction', hidentity⟩ := Option.map_eq_some_iff.mp hfind
  refine ⟨production', ⟨?_, hproduction'⟩, hidentity⟩
  have hroot := congrArg Option.isSome (hs.findByName? hwf s.config.allResourcesCa)
  rw [Option.isSome_map, Option.isSome_map] at hroot
  exact hroot.trans h.root

theorem Ready.descendantsOf {t u : CaTree} (h : s.Ready t production) (hwf : t.WellFormed)
    (hs : CaTree.SameLinks t u) :
    ∃ children, u.descendantsOf production.name = .ok children ∧
      children.map (·.id) = t.descendants production.id := by
  obtain ⟨production', hready', hidentity⟩ := h.of_sameLinks hwf hs
  have hname : production.name = s.config.productionCa :=
    (CaTree.findByName?_eq_some h.production).2
  obtain ⟨children, hchildren, hids⟩ :=
    CaTree.descendantsOf_of_findByName? (hwf.of_sameLinks hs) hready'.production
  refine ⟨children, hname ▸ hchildren, ?_⟩
  rw [hids, hs.descendants]
  exact congrArg (fun i : CaIdentity => t.descendants i.id) hidentity

theorem updateChildren_eq {children : List CaIdentity}
    (hschedule : schedule children.length = turns order)
    (horder : order.Perm (List.range children.length)) (e : Engine Journal) :
    ∃ tasks visited budget e', sweep s.execute (order.filterMap (children[·]?))
        { limit := s.config.updateLimit } e = (visited, budget, e') ∧ tasks.Perm visited ∧
      ((s.updateJobBy schedule).updateChildren children e).1 =
        UpdateJob.report ⟨tasks, budget, e'⟩ ∧
      ((s.updateJobBy schedule).updateChildren children e).2.tree = e'.tree := by
  obtain ⟨tasks, hround, hperm⟩ :=
    run_inOrder s.execute horder s.config.updateLimit e
  have hround' : (start children (s.updateJobBy schedule).limit e).run
      (s.updateJobBy schedule).execute ((s.updateJobBy schedule).schedule children.length) = _ :=
    (congrArg (run s.execute · (start children s.config.updateLimit e)) hschedule).trans hround
  refine ⟨tasks, _, _, _, rfl, hperm, ?_⟩
  unfold UpdateJob.updateChildren
  rw [hround']
  refine ⟨rfl, ?_⟩
  dsimp only
  split <;> rfl

theorem map_id_filterMap {children : List CaIdentity} {ids : List CaId}
    (h : children.map (·.id) = ids) :
    (order.filterMap (children[·]?)).map (·.id) = order.filterMap (ids[·]?) := by
  rw [List.map_filterMap, ← h]
  simp only [List.getElem?_map]

/-- A run without failures updates the production CA, and sweeps over what is below it. -/
theorem run_inOrder_ok (hwf : e.tree.WellFormed) (h : s.Ready e.tree production)
    (hschedule : schedule (e.tree.descendants production.id).length = turns order)
    (horder : order.Perm (List.range (e.tree.descendants production.id).length))
    (hrun : (s.updateJobBy schedule).run e = (.ok report, e')) (hfailed : report.failed = 0) :
    ∃ b t₁, s.services.Updated s.config.timing e.tree production.id b t₁ ∧
      s.services.Swept s.config.timing s.config.updateLimit
        (order.filterMap ((e.tree.descendants production.id)[·]?)) 0 t₁ report.updated e'.tree := by
  generalize hexecute : s.execute (.update production.id) e = result
  obtain ⟨r, e₁⟩ := result
  cases r with
  | error err => cases (UpdateJob.run_of_error rfl h.production? hexecute).symm.trans hrun
  | ok status =>
    have hupdated := execute_update_ok hexecute
    -- Updating the production CA leaves the links alone, and so the list of those below it.
    obtain ⟨children, hchildren, hids⟩ := h.descendantsOf hwf hupdated.sameLinks
    rw [UpdateJob.run_of_ok rfl h.production? hexecute hchildren] at hrun
    obtain ⟨hreport, hengine⟩ := Prod.mk.inj hrun
    rw [← hids, List.length_map] at hschedule horder
    obtain ⟨tasks, visited, budget, e₂, hsweep, hperm, hreport', htree⟩ :=
      s.updateChildren_eq hschedule horder e₁
    rw [hengine] at htree
    rw [Except.ok.inj hreport] at hreport'
    rw [hreport'] at hfailed ⊢
    have hnone : ∀ task ∈ (sweep s.execute (order.filterMap (children[·]?))
        { limit := s.config.updateLimit } e₁).1, ∀ outcome,
        task.state = .done outcome → outcome ≠ .failed := by
      rw [hsweep]
      exact fun task htask => UpdateJob.count_eq_zero hfailed task (hperm.mem_iff.mpr htask)
    have hswept := swept_sweep hnone
    rw [hsweep, map_id_filterMap hids, ← htree] at hswept
    exact ⟨status.hadEffect, e₁.tree, hupdated, hswept⟩

theorem run_ok (hwf : e.tree.WellFormed) (h : s.Ready e.tree production)
    (hrun : (s.updateJob (.ok ())).run e = (.ok report, e')) (hfailed : report.failed = 0) :
    ∃ b t₁, s.services.Updated s.config.timing e.tree production.id b t₁ ∧
      s.services.Swept s.config.timing s.config.updateLimit (e.tree.descendants production.id) 0 t₁
        report.updated e'.tree := by
  have hrun' : (s.updateJobBy oneByOne).run e = (.ok report, e') := hrun
  have hinOrder := run_inOrder_ok hwf h rfl (.refl _) hrun' hfailed
  rwa [filterMap_getElem?_range] at hinOrder

theorem run_inOrder_of_settled (hwf : e.tree.WellFormed) (h : s.Ready e.tree production)
    (hschedule : schedule (e.tree.descendants production.id).length = turns order)
    (horder : order.Perm (List.range (e.tree.descendants production.id).length))
    (hlimit : e.tree.descendants production.id ≠ [] → 1 ≤ s.config.updateLimit)
    (hproduction : s.services.Settled s.config.timing e.tree production.id)
    (hsettled : ∀ id ∈ e.tree.descendants production.id,
      s.services.Settled s.config.timing e.tree id) :
    ((s.updateJobBy schedule).run e).1 =
        .ok { considered := (e.tree.descendants production.id).length } ∧
      ((s.updateJobBy schedule).run e).2.tree = e.tree := by
  obtain ⟨e₁, hexecute, htree⟩ := execute_update_of_settled hwf hproduction
  obtain ⟨children, hchildren, hids⟩ := h.descendantsOf hwf (.refl e.tree)
  rw [UpdateJob.run_of_ok rfl h.production? hexecute (htree.symm ▸ hchildren)]
  rw [← hids, List.length_map] at hschedule horder
  obtain ⟨tasks, visited, budget, e₂, hsweep, hperm, hreport, htree'⟩ :=
    s.updateChildren_eq hschedule horder e₁
  have hall : (order.filterMap (children[·]?)).Perm children := by
    have hfilter := horder.filterMap (children[·]?)
    rwa [filterMap_getElem?_range] at hfilter
  have hbudget : order.filterMap (children[·]?) ≠ [] →
      UpdateBudget.isExhausted { limit := s.config.updateLimit } = false := by
    intro hne
    rw [UpdateBudget.isExhausted, decide_eq_false_iff_not, Nat.not_le]
    refine hlimit fun hnil => hne ?_
    rw [← hids, List.map_eq_nil_iff] at hnil
    exact List.perm_nil.mp (hnil ▸ hall)
  have hchild : ∀ child ∈ order.filterMap (children[·]?),
      s.services.Settled s.config.timing e₁.tree child.id := fun child hchild => by
    rw [htree]
    exact hsettled child.id (hids ▸ List.mem_map_of_mem (hall.mem_iff.mp hchild))
  obtain ⟨htasks, hbudget', hswept⟩ := sweep_of_settled (htree ▸ hwf) hbudget hchild
  rw [hsweep] at htasks hbudget' hswept
  dsimp only at htasks hbudget' hswept
  subst htasks hbudget'
  refine ⟨?_, htree'.trans (hswept.trans htree)⟩
  have hcount : ∀ outcome : ChildOutcome, outcome ≠ .unchanged →
      (⟨tasks, { limit := s.config.updateLimit }, e₂⟩ : UpdateRound Journal).count outcome = 0 := by
    intro outcome hne
    refine List.countP_eq_zero.mpr fun task htask => ?_
    rw [hperm.mem_iff] at htask
    obtain ⟨child, -, rfl⟩ := List.mem_map.mp htask
    simpa using fun heq => hne heq.symm
  rw [hreport, UpdateJob.report, hcount .failed ChildOutcome.noConfusion,
    hcount .updatedBeyondLimit ChildOutcome.noConfusion]
  dsimp only
  rw [hperm.length_eq, List.length_map, hall.length_eq, ← hids, List.length_map]

theorem run_of_settled (hwf : e.tree.WellFormed) (h : s.Ready e.tree production)
    (hlimit : 1 ≤ s.config.updateLimit)
    (hproduction : s.services.Settled s.config.timing e.tree production.id)
    (hsettled : ∀ id ∈ e.tree.descendants production.id,
      s.services.Settled s.config.timing e.tree id) :
    ((s.updateJob (.ok ())).run e).1 =
        .ok { considered := (e.tree.descendants production.id).length } ∧
      ((s.updateJob (.ok ())).run e).2.tree = e.tree := by
  change ((s.updateJobBy oneByOne).run e).1 = _ ∧ ((s.updateJobBy oneByOne).run e).2.tree = _
  exact run_inOrder_of_settled hwf h rfl (.refl _) (fun _ => hlimit) hproduction hsettled

end Server

end ResourcePki
