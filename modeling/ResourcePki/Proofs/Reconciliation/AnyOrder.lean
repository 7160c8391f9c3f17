import ResourcePki.Proofs.Reconciliation.Passes

/-! Runs that take the CAs below the production CA in an order of their own each. A CA may have its
turn before its parent, and then goes by what the parent held before; but every run settles one more
level of the tree, and what is settled down from the production CA stays so. -/

namespace ResourcePki

open UpdateRound

namespace Services

variable {s : Services} {timing : IssuanceTiming} {t t' : CaTree} {ids : List CaId}

theorem Swept.passed_of_length {limit n n' : Nat} (h : s.Swept timing limit ids n t n' t')
    (hlimit : n + ids.length ≤ limit) : s.Passed timing ids t t' := by
  induction h with
  | nil n t => exact .nil t
  | skip hn _ _ =>
    rw [List.length_cons] at hlimit
    omega
  | update _ hu _ ih =>
    rw [List.length_cons] at hlimit
    refine .cons hu (ih ?_)
    split <;> omega

/-- A pass over CAs in any order, where `A` holds of settled CAs only and of no CA without the
parent that has a turn. Then all of `A` stay settled, and so do those get whose parent is in `A`. -/
theorem Passed.settled (htiming : timing.verify = .ok ()) (h : s.Passed timing ids t t')
    (hwf : t.WellFormed) {A : CaId → Prop} (hA : ∀ x, A x → s.Settled timing t x)
    (hclosed : ∀ x, A x → ∀ p ∈ ids, t.parent? x = some p → A p) :
    (∀ x, A x → s.Settled timing t' x) ∧
      ∀ x ∈ ids, (∀ p ∈ ids, t.parent? x = some p → A p) → s.Settled timing t' x := by
  induction h generalizing A with
  | nil => exact ⟨hA, fun x hx => (nomatch hx)⟩
  | @cons id rest t t₁ t' b hu _ ih =>
    have hwf₁ := hwf.of_sameLinks hu.sameLinks
    have hparent : ∀ x, t₁.parent? x = t.parent? x := hu.sameLinks.parent?
    have hmem : ∀ {p}, p ∈ rest → p ∈ id :: rest := List.mem_cons_of_mem id
    by_cases hid : A id
    -- A settled CA has nothing to do at its turn.
    · obtain ⟨-, rfl⟩ := hu.of_settled (hA id hid)
      obtain ⟨hkeep, hnext⟩ := ih hwf hA fun x hx p hp => hclosed x hx p (hmem hp)
      refine ⟨hkeep, List.forall_mem_cons.mpr ⟨fun _ => hkeep id hid, fun x hx hup => ?_⟩⟩
      exact hnext x hx fun p hp => hup p (hmem hp)
    -- No CA of `A` is a child of one that is not in `A` yet, so none is unsettled by this turn.
    · have hA₁ : ∀ x, A x → s.Settled timing t₁ x := by
        intro x hx
        have hne : x ≠ id := fun heq => hid (heq ▸ hx)
        have hlink : t.parent? x ≠ some id := fun heq =>
          hid (hclosed x hx id (List.mem_cons_self ..) heq)
        exact hu.settled_other hwf hne hlink (hA x hx)
      by_cases hup : ∀ p ∈ rest, t.parent? id = some p → A p
      · obtain ⟨hkeep, hnext⟩ := ih hwf₁ (A := fun x => A x ∨ x = id)
          (fun x hx => hx.elim (hA₁ x) fun heq => heq ▸ hu.settled htiming (hwf.ids _)) (by
            rintro x (hx | rfl) p hp hlink
            · exact .inl (hclosed x hx p (hmem hp) (hparent x ▸ hlink))
            · exact .inl (hup p hp (hparent x ▸ hlink)))
        refine ⟨fun x hx => hkeep x (.inl hx),
          List.forall_mem_cons.mpr ⟨fun _ => hkeep id (.inr rfl), fun x hx hxup => ?_⟩⟩
        exact hnext x hx fun p hp hlink => .inl (hxup p (hmem hp) (hparent x ▸ hlink))
      · obtain ⟨hkeep, hnext⟩ := ih hwf₁ hA₁ fun x hx p hp hlink =>
          hclosed x hx p (hmem hp) (hparent x ▸ hlink)
        refine ⟨hkeep, List.forall_mem_cons.mpr ⟨fun hidup => ?_, fun x hx hxup => ?_⟩⟩
        · exact absurd (fun p hp => hidup p (hmem hp)) hup
        · exact hnext x hx fun p hp hlink => hxup p (hmem hp) (hparent x ▸ hlink)

/-- A pass over all that is below a CA settles one more level than was settled before. -/
theorem Passed.settled_levels (htiming : timing.verify = .ok ()) (h : s.Passed timing ids t t')
    (hwf : t.WellFormed) {root : CaId} (hids : ∀ x, x ∈ ids ↔ x ∈ t.descendants root) {n : Nat}
    (hn : ∀ depth ≤ n, ∀ x, t.up depth x = some root → s.Settled timing t x) :
    ∀ depth ≤ n + 1, ∀ x, t.up depth x = some root → s.Settled timing t' x := by
  have hclimb : ∀ {depth x p}, t.parent? x = some p → t.up (depth + 1) x = some root →
      t.up depth p = some root := by
    intro depth x p hp hx
    rwa [CaTree.up, hp, Option.bind_some] at hx
  obtain ⟨hkeep, hnext⟩ := h.settled htiming hwf
    (A := fun x => ∃ depth ≤ n, t.up depth x = some root)
    (by
      rintro x ⟨depth, hdepth, hx⟩
      exact hn depth hdepth x hx) (by
      rintro x ⟨depth, hdepth, hx⟩ p hp hlink
      cases depth with
      -- The parent of the root is not below it, so it has no turn.
      | zero =>
        obtain rfl := Option.some.inj hx
        obtain ⟨k, hk⟩ := hwf.mem_descendants.mp ((hids p).mp hp)
        exact absurd hk (hwf.up_parent_ne hlink)
      | succ depth => exact ⟨depth, Nat.le_of_succ_le hdepth, hclimb hlink hx⟩)
  intro depth hdepth x hx
  rcases Nat.lt_or_ge n depth with hlt | hle
  · obtain rfl : depth = n + 1 := by omega
    have hmem : x ∈ ids := (hids x).mpr (hwf.mem_descendants.mpr ⟨n, hx⟩)
    exact hnext x hmem fun p _ hlink => ⟨n, Nat.le_refl n, hclimb hlink hx⟩
  · exact hkeep x ⟨depth, hle, hx⟩

end Services

namespace Server

/-- Runs of the update job after each other, each with an order of its own. -/
def runsInOrder (s : Server) (orders : Nat → List Nat) : Nat → Engine Journal → Engine Journal
  | 0, e => e
  | n + 1, e => ((s.updateJobBy fun _ => turns (orders n)).run (s.runsInOrder orders n e)).2

variable {s : Server} {e : Engine Journal} {production : CertificateAuthority}
  {orders : Nat → List Nat}

/-- After `n` runs, but at least one, the production CA and `n` levels below it are settled. -/
theorem runsInOrder_settled (hwf : e.tree.WellFormed) (hready : s.Ready e.tree production)
    (htiming : s.config.timing.verify = .ok ())
    (hlimit : (e.tree.descendants production.id).length ≤ s.config.updateLimit) {n : Nat}
    (horders : ∀ i < n, (orders i).Perm
      (List.range (e.tree.descendants production.id).length))
    (hruns : ∀ i < n, ∃ report, ((s.updateJobBy fun _ => turns (orders i)).run
      (s.runsInOrder orders i e)).1 = .ok report ∧ report.failed = 0) :
    CaTree.SameLinks e.tree (s.runsInOrder orders n e).tree ∧
    (0 < n → ∀ depth ≤ n, ∀ id, e.tree.up depth id = some production.id →
      s.services.Settled s.config.timing (s.runsInOrder orders n e).tree id) := by
  induction n with
  | zero => exact ⟨.refl _, fun hn => absurd hn (Nat.lt_irrefl 0)⟩
  | succ n ih =>
    obtain ⟨hlinks, hsettled⟩ := ih (fun i hi => horders i (Nat.lt_succ_of_lt hi))
      fun i hi => hruns i (Nat.lt_succ_of_lt hi)
    obtain ⟨report, hreport, hfailed⟩ := hruns n (Nat.lt_succ_self n)
    have horder := horders n (Nat.lt_succ_self n)
    rw [runsInOrder]
    generalize s.runsInOrder orders n e = e₁ at hlinks hsettled hreport ⊢
    have hwf₁ := hwf.of_sameLinks hlinks
    obtain ⟨production', hready', hidentity⟩ := hready.of_sameLinks hwf hlinks
    have hid : production'.id = production.id := congrArg CaIdentity.id hidentity
    have hdescendants : e₁.tree.descendants production'.id = e.tree.descendants production.id := by
      rw [hid, hlinks.descendants]
    rw [← hdescendants] at horder hlimit
    obtain ⟨b, t₁, hu, hswept⟩ :=
      run_inOrder_ok hwf₁ hready' rfl horder (Prod.ext hreport rfl) hfailed
    have hall := horder.filterMap ((e₁.tree.descendants production'.id)[·]?)
    rw [filterMap_getElem?_range] at hall
    have hpassed := hswept.passed_of_length (by rwa [hall.length_eq, Nat.zero_add])
    rw [hid] at hu
    have hlinks₁ := hlinks.trans hu.sameLinks
    refine ⟨hlinks₁.trans hpassed.sameLinks, fun _ depth hdepth id hup => ?_⟩
    -- The first run may change the production CA; in later ones it is settled already.
    have hbefore : ∀ depth ≤ n, ∀ x, t₁.up depth x = some production.id →
        s.services.Settled s.config.timing t₁ x := by
      intro depth hdepth x hx
      rcases Nat.eq_zero_or_pos n with rfl | hn
      · obtain rfl := Nat.le_zero.mp hdepth
        obtain rfl := Option.some.inj hx
        exact hu.settled htiming (hwf₁.ids _)
      · have hroot := hsettled hn 0 (Nat.zero_le n) production.id rfl
        obtain ⟨-, rfl⟩ := hu.of_settled hroot
        exact hsettled hn depth hdepth x (hlinks.up depth x ▸ hx)
    refine hpassed.settled_levels htiming (hwf₁.of_sameLinks hu.sameLinks) (fun x => ?_) hbefore
      depth hdepth id (hlinks₁.up depth id ▸ hup)
    rw [hu.sameLinks.descendants, ← hid]
    exact hall.mem_iff

/-- Once there were as many runs as there are levels below the production CA, a further run changes
nothing, whatever the orders of all these runs are. -/
theorem reconciliation_converges_in_any_order (hwf : e.tree.WellFormed)
    (hready : s.Ready e.tree production) (htiming : s.config.timing.verify = .ok ())
    (hlimit : (e.tree.descendants production.id).length ≤ s.config.updateLimit) {levels : Nat}
    (hlevels : 1 ≤ levels)
    (hdepth : ∀ depth id, e.tree.up depth id = some production.id → depth ≤ levels)
    (horders : ∀ i < levels, (orders i).Perm
      (List.range (e.tree.descendants production.id).length))
    (hruns : ∀ i < levels, ∃ report, ((s.updateJobBy fun _ => turns (orders i)).run
      (s.runsInOrder orders i e)).1 = .ok report ∧ report.failed = 0) {order : List Nat}
    (horder : order.Perm (List.range (e.tree.descendants production.id).length)) :
    ((s.updateJobBy fun _ => turns order).run (s.runsInOrder orders levels e)).1 =
        .ok { considered := (e.tree.descendants production.id).length } ∧
      ((s.updateJobBy fun _ => turns order).run (s.runsInOrder orders levels e)).2.tree =
        (s.runsInOrder orders levels e).tree := by
  obtain ⟨hlinks, hsettled⟩ :=
    runsInOrder_settled hwf hready htiming hlimit horders hruns
  have hsettled' := hsettled hlevels
  generalize s.runsInOrder orders levels e = e₁ at hlinks hsettled' ⊢
  obtain ⟨production', hready', hidentity⟩ := hready.of_sameLinks hwf hlinks
  have hid : production'.id = production.id := congrArg CaIdentity.id hidentity
  have hdescendants : e₁.tree.descendants production'.id = e.tree.descendants production.id := by
    rw [hid, hlinks.descendants]
  have hall : ∀ x ∈ production.id :: e.tree.descendants production.id,
      s.services.Settled s.config.timing e₁.tree x := by
    intro x hx
    obtain ⟨depth, hup⟩ := hwf.mem_subtree.mp hx
    exact hsettled' depth (hdepth depth x hup) x hup
  obtain ⟨hproduction, hbelow⟩ := List.forall_mem_cons.mp hall
  rw [← hdescendants] at hlimit horder hbelow ⊢
  refine run_inOrder_of_settled (hwf.of_sameLinks hlinks) hready' rfl horder (fun hne => ?_)
    (hid ▸ hproduction) hbelow
  exact Nat.le_trans (List.length_pos_iff.mpr hne) hlimit

end Server

namespace Chain

/-- The lower member has its turn before the upper one, and later after it. -/
def orders (n : Nat) : List Nat := if n = 0 then [1, 0] else [0, 1]

theorem depth_le_two {depth : Nat} {id : CaId} (h : tree.up depth id = some production.id) :
    depth ≤ 2 := by
  have hmem : id ∈ production.id :: tree.descendants production.id :=
    wellFormed_tree.mem_subtree.mpr ⟨depth, h⟩
  have hdescendants : tree.descendants production.id = [3, 4] := by decide +kernel
  have hdepth : ∃ known ≤ 2, tree.up known id = some production.id := by
    rw [hdescendants] at hmem
    simp only [List.mem_cons, List.not_mem_nil, or_false] at hmem
    rcases hmem with rfl | rfl | rfl
    · exact ⟨0, by decide, rfl⟩
    · exact ⟨1, by decide, rfl⟩
    · exact ⟨2, by decide, rfl⟩
  obtain ⟨known, hknown, hup⟩ := hdepth
  exact wellFormed_tree.depth_unique h hup ▸ hknown

theorem updateJobBy_eq (s : Server) (schedule : Nat → List Nat) : s.updateJobBy schedule =
    { s.updateJob (.ok ()) with
      execute := Dispatcher.execute ⟨standardHandlers s.services s.config.policy, s.config.retries⟩
      schedule } := by
  rw [← Dispatcher.standard_eq]
  rfl

theorem runsInOrder_chain : ∀ i < 2, ∃ report,
    (((server 2).updateJobBy fun _ => turns (orders i)).run
      ((server 2).runsInOrder orders i engine)).1 = .ok report ∧ report.failed = 0 := by
  intro i hi
  obtain rfl | rfl : i = 0 ∨ i = 1 := by omega
  · refine ⟨{ updated := 1, considered := 2 }, ?_, rfl⟩
    rw [updateJobBy_eq]
    decide +kernel
  · refine ⟨{ considered := 2 }, ?_, rfl⟩
    rw [Server.runsInOrder, Server.runsInOrder, updateJobBy_eq, updateJobBy_eq]
    decide +kernel

theorem reconciliation_converges_in_any_order_in_chain :
    ((server 2).updateJobBy fun _ => turns [1, 0]).run ((server 2).runsInOrder orders 2 engine) =
      (.ok { considered := 2 },
        (((server 2).updateJobBy fun _ => turns [1, 0]).run
          ((server 2).runsInOrder orders 2 engine)).2) ∧
    (((server 2).updateJobBy fun _ => turns [1, 0]).run
        ((server 2).runsInOrder orders 2 engine)).2.tree =
      ((server 2).runsInOrder orders 2 engine).tree := by
  have hready : (server 2).Ready engine.tree production := ready_tree 2
  have hlength : (engine.tree.descendants production.id).length = 2 := length_descendants
  have hswap : [1, 0].Perm (List.range 2) := by decide
  have horders : ∀ i < 2, (orders i).Perm
      (List.range (engine.tree.descendants production.id).length) := by
    intro i _
    rw [hlength, orders]
    split
    · exact hswap
    · exact .refl _
  obtain ⟨hreport, htree⟩ := Server.reconciliation_converges_in_any_order wellFormed_tree hready rfl
    (Nat.le_of_eq hlength) (by decide) (fun depth id h => depth_le_two h) horders
    runsInOrder_chain (hlength ▸ hswap)
  rw [hlength] at hreport
  exact ⟨Prod.ext hreport rfl, htree⟩

end Chain

end ResourcePki
