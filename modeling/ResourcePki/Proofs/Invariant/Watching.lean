import ResourcePki.Proofs.Issuance.Histories

/-! What the checks after a command look at is all that the command can have changed. So a CA that
fails a check which it passed before is found out at once, and counted once. -/

namespace ResourcePki

open ResourcePki.Action

/-- The CAs that are checked after a command: its own, and the parent of that if the command may
have changed what the parent issued. -/
def CaCommand.Watches (command : CaCommand) (t : CaTree) (x : CaId) : Prop :=
  x = command.ca ∨ (command.type.affectsParent = true ∧ t.parent? command.ca = some x)

theorem InvariantModel.finds_of_watches {m : InvariantModel} {command : CaCommand} {t : CaTree}
    {x : CaId} {ca : CertificateAuthority} (hx : command.Watches t x) (hca : t.get? x = some ca)
    (hfails : m.check ca ≠ .ok ()) : m.finds command t = true := by
  have herror : ∃ v, m.check ca = .error v := by
    cases hcheck : m.check ca with
    | ok u => exact absurd hcheck hfails
    | error v => exact ⟨v, rfl⟩
  obtain ⟨v, hv⟩ := herror
  rw [finds, checkCommand]
  rcases hx with rfl | ⟨haffects, hparent⟩
  · simp only [hca, hv]
    rfl
  · obtain ⟨child, hchild, hlink⟩ := CaTree.parent?_eq_some hparent
    simp only [hchild, haffects, hlink, Option.bind_some, hca, hv]
    -- The child may fail as well; then its parent is not looked at, but one failure is enough.
    cases m.check child <;> rfl

section frame

variable {s : Services} {timing : IssuanceTiming} {id x : CaId}

theorem Services.Updated.get?_other {t t' : CaTree} {b : Bool} (h : s.Updated timing t id b t')
    (hx : x ≠ id) (hparent : t'.parent? id ≠ some x) : t'.get? x = t.get? x := by
  have hlink := h.sameLinks.parent? id
  cases h with
  | skipped => rfl
  | @aligned ca parent p keys resources signings b c hca hentitled hne hp hkeys halign =>
    have hcap : ca.parent = some p := (entitlement?_eq_some hentitled).1
    rw [CaTree.parent?_of_get? hca, hcap] at hlink
    have hxp : p ≠ x := fun heq => hparent (heq ▸ hlink)
    rw [CaTree.get?_set_ne (Ne.symm hx), CaTree.get?_set_ne hxp]

theorem CaTree.get?_insert_other {t u : CaTree} {ca : CertificateAuthority}
    (h : t.insert ca = .ok u) (hx : x ≠ ca.id) (hparent : ca.parent ≠ some x) :
    u.get? x = t.get? x := by
  obtain ⟨-, -, -, -, ⟨-, hsame⟩ | ⟨p, -, hp, -, -, -, hsame⟩⟩ := CaTree.insert_ok h
  · exact hsame x hx
  · exact hsame x hx fun heq => hparent (heq ▸ hp)

end frame

theorem Services.Performed.get?_other {s : Services} {policy : IssuancePolicy} {j : Journal}
    {t t' : CaTree} {x : CaId} {command : CaCommand} {b : Bool}
    (h : s.Performed policy j t command.ca command.details b t') (hx : ¬ command.Watches t' x) :
    t'.get? x = t.get? x := by
  have hid : x ≠ command.ca := fun heq => hx (.inl heq)
  obtain ⟨id, actor, details⟩ := command
  cases h with
  | present => rfl
  | @created name parent ski directory u _ _ hnone hanswer hins hupdated =>
    have hparent : t'.parent? id ≠ some x := fun heq => hx (.inr ⟨rfl, heq⟩)
    have hnew : u.parent? id = some parent := by
      rw [CaTree.parent?_of_get? (CaTree.insert_ok hins).2.2.2.1]
    have hne : some parent ≠ some x := by
      rw [← hnew, ← hupdated.sameLinks.parent? id]
      exact hparent
    rw [hupdated.get?_other hid hparent, CaTree.get?_insert_other hins hid hne]
  | updated hupdated _ => exact hupdated.get?_other hid fun heq => hx (.inr ⟨rfl, heq⟩)
  | changed hca h => exact CaTree.get?_set_ne (Ne.symm hid)

namespace Handler

variable {s : Services} {policy : IssuancePolicy}

theorem get?_handle {command : CaCommand} {u : Unit} {t : CaTree} {j : Journal}
    {t' : Session Journal} {x : CaId}
    (h : (forCommand s policy command.type).handle command (.start t j) = (.ok u, t'))
    (hx : ¬ command.Watches t'.work.tree x) : t'.work.tree.get? x = t.get? x :=
  (performed_handle rfl h).get?_other hx

theorem mem_models {m : InvariantModel} (h : Handler.invariants m ∈ standardHandlers s policy) :
    m ∈ policy.models := by
  -- What handlers do cannot be compared, but their names tell them apart.
  have hname : (Handler.invariants m).name ∈ (standardHandlers s policy).map (·.name) :=
    List.mem_map_of_mem h
  cases m with
  | hosted => exact List.mem_cons_self ..
  | managed =>
    cases hchecks : policy.checksManaged with
    | true =>
      rw [IssuancePolicy.models, hchecks]
      decide
    | false =>
      rw [standardHandlers, checkingHandlers, hchecks] at hname
      change "managed-ca-invariants" ∈ ["activate-hosted-ca",
        "update-all-incoming-resource-certificates", "all-resources-ca",
        "expire-outgoing-resource-certificates", "non-hosted-publisher", "hosted-ca-invariants"]
        at hname
      exact absurd hname (by decide)

end Handler

namespace Dispatcher

variable {s : Services} {policy : IssuancePolicy} {retries : Nat} {command : CaCommand}

/-- A command changes no CA but those that are looked at afterwards. So if any CA fails the check
of a model that it passed before, or that it comes into being with, then the handler of the model
counts one violation, however many CAs fail and attempts were made. -/
theorem execute_standard_watched {e e' : Engine Journal} {status : CommandStatus}
    (h : (standard s policy retries).execute command e = (.ok status, e')) :
    (∀ x, ¬ command.Watches e'.tree x → e'.tree.get? x = e.tree.get? x) ∧
      ∀ m, Handler.invariants m ∈ standardHandlers s policy →
        (∃ x ca', e'.tree.get? x = some ca' ∧ m.check ca' ≠ .ok () ∧
          ∀ ca, e.tree.get? x = some ca → m.check ca = .ok ()) →
        (e'.memory.metrics m).violations = (e.memory.metrics m).violations.increment := by
  obtain ⟨memory, t, -, hhandle, htree, -, hchecked⟩ := execute_standard_checked h
  have hframe : ∀ x, ¬ command.Watches e'.tree x → e'.tree.get? x = e.tree.get? x := by
    intro x hx
    rw [htree] at hx ⊢
    exact Handler.get?_handle hhandle hx
  refine ⟨hframe, fun m hm ⟨x, ca', hca', hfails, hbefore⟩ => ?_⟩
  have hwatched : command.Watches e'.tree x := by
    by_contra hx
    rw [hframe x hx] at hca'
    exact hfails (hbefore ca' hca')
  rw [hchecked m (Handler.mem_models hm), m.finds_of_watches hwatched hca' hfails]
  rfl

end Dispatcher

namespace Chain

/-- The upper member loses its certificate while what it issued stays valid: both models find it. -/
theorem execute_standard_watched_in_chain :
    (Dispatcher.standard services {} 3).execute ⟨3, .background, .updateAllIncoming⟩ engine =
      (.ok { hadEffect := true }, updated) ∧
    (∀ x, ¬ CaCommand.Watches ⟨3, .background, .updateAllIncoming⟩ updated.tree x →
      updated.tree.get? x = tree.get? x) ∧
    (updated.memory.metrics .managed).violations =
      (engine.memory.metrics .managed).violations.increment := by
  have hrun : (Dispatcher.standard services {} 3).execute ⟨3, .background, .updateAllIncoming⟩
      engine = (.ok { hadEffect := true }, updated) := by
    refine Prod.ext ?_ rfl
    rw [Dispatcher.standard_eq]
    decide +kernel
  obtain ⟨hframe, hcounts⟩ := Dispatcher.execute_standard_watched hrun
  have hregistered : Handler.invariants .managed ∈ standardHandlers services {} :=
    List.mem_append_right _ (List.mem_cons_of_mem _ (List.mem_singleton_self _))
  have hafter : updated.tree.get? 3 = some (upper.modifyKeys (·.clearIncoming)) := by
    rw [updated, Dispatcher.standard_eq]
    decide +kernel
  have hfails : InvariantModel.managed.check (upper.modifyKeys (·.clearIncoming)) ≠ .ok () := by
    decide +kernel
  have hbefore : ∀ ca, tree.get? 3 = some ca → InvariantModel.managed.check ca = .ok () := by
    rintro ca hca
    obtain rfl : upper = ca := Option.some.inj hca
    decide +kernel
  exact ⟨hrun, hframe, hcounts .managed hregistered ⟨3, _, hafter, hfails, hbefore⟩⟩

end Chain

end ResourcePki
