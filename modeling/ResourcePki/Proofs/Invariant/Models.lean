import ResourcePki.Proofs.Invariant.Verdict

/-! The two models side by side. As long as keys inherit nothing that is not on their certificates,
both models see the same holdings, and differ only in what they look at first and in what they let
pass while a new manifest is awaited. -/

namespace ResourcePki

/-- Two complaints of one kind; the first finds nothing missing that the second does not. -/
inductive InvariantViolation.Within : InvariantViolation → InvariantViolation → Prop
  | incomingMismatch (ca : CaName) (distinct : List ResourceSet) :
      Within (.incomingMismatch ca distinct) (.incomingMismatch ca distinct)
  | notContained {ca : CaName} {scope scope' : IssuedScope}
      {incoming missing missing' : ResourceSet} (h : missing'.contains missing = true) :
      Within (.notContained ca scope incoming missing) (.notContained ca scope' incoming missing')

/-- What the publishable keys of a CA inherit is on their certificates as well. -/
def CertificateAuthority.OwnsInherited (ca : CertificateAuthority) : Prop :=
  ∀ k ∈ ca.publishable, ∀ inc, k.incoming = some inc → inc.own.contains inc.inherited = true

namespace InvariantModel

variable {ca : CertificateAuthority} {keys : KeyRing} {v w : InvariantViolation}

theorem heldSets_eq (h : ca.OwnsInherited) : hosted.heldSets ca = managed.heldSets ca := by
  refine List.filterMap_congr fun k hk => ?_
  cases hinc : k.incoming with
  | none => rfl
  | some inc =>
    rw [Option.map_some, Option.map_some]
    exact congrArg some (IncomingCertificate.certified_eq_own (h k hk inc hinc)).symm

theorem incoming_eq (h : ca.OwnsInherited) : hosted.incoming ca = managed.incoming ca := by
  have hdistinct : hosted.distinctIncoming ca = managed.distinctIncoming ca :=
    congrArg (·.foldl addDistinct []) (heldSets_eq h)
  rw [incoming, incoming, hdistinct]

theorem common_eq (h : ca.OwnsInherited) : hosted.common ca = managed.common ca := by
  rw [common, common, heldSets_eq h]

/-- The hosted model asks for less while a new manifest is awaited, and else for the same. -/
theorem check_ok_hosted_iff (h : ca.OwnsInherited) (hkeys : ca.keys? = some keys) :
    hosted.check ca = .ok () ↔
      (∀ x ∈ managed.heldSets ca, ∀ y ∈ managed.heldSets ca, x.equivalent y = true) ∧
        ∀ o ∈ ca.valid, (o.subject.isChild = true ∨ keys.checkNeeded = false) →
          (managed.common ca).contains o.resources = true := by
  rw [check_ok_iff_contained hkeys, heldSets_eq h, common_eq h]
  simp only [true_and, Bool.not_eq_true]

theorem check_ok_managed_iff (hkeys : ca.keys? = some keys) : managed.check ca = .ok () ↔
    (∀ x ∈ managed.heldSets ca, ∀ y ∈ managed.heldSets ca, x.equivalent y = true) ∧
      ∀ o ∈ ca.valid, (managed.common ca).contains o.resources = true := by
  rw [check_ok_iff_contained hkeys]
  simp only [reduceCtorEq, false_and, not_false_eq_true, or_true, forall_const]

theorem all_contains_excess (held : ResourceSet) (scope : IssuedScope) :
    ((IssuedScope.all.issued ca).excess held).contains ((scope.issued ca).excess held) = true := by
  have hself := contains_issued_iff.mp (le_refl (IssuedScope.all.issued ca))
  have hissued : scope.issued ca ≤ IssuedScope.all.issued ca :=
    contains_issued_iff.mpr fun o ho _ => hself o ho rfl
  exact sdiff_le_sdiff_right hissued

theorem within_of_check_error (h : ca.OwnsInherited) (hv : hosted.check ca = .error v)
    (hw : managed.check ca = .error w) : v.Within w := by
  cases hkeys : ca.keys? with
  | none =>
    rw [check, hkeys] at hv
    cases hv
  | some keys =>
    have hsame := incoming_eq h
    obtain hincoming | ⟨hincoming, scope, hscope, -, rfl⟩ := check_error hkeys hv
    all_goals
      obtain hincoming' | ⟨hincoming', scope', hscope', -, rfl⟩ := check_error hkeys hw
      all_goals rw [hincoming, hincoming'] at hsame
    -- The models agree on whether the keys do, so both complaints are of the one or the other kind.
    · obtain rfl := Except.error.inj hsame
      obtain ⟨rfl, -⟩ := incoming_error hincoming
      exact .incomingMismatch ..
    · cases hsame
    · cases hsame
    · obtain rfl := List.mem_singleton.mp hscope'
      rw [common_eq h]
      exact .notContained (all_contains_excess ..)

/-- A CA that passes the check of managed CAs passes that of hosted ones, the other way round too
unless objects are let pass, and one that fails both fails them for the same reason. -/
theorem models_consistent (h : ca.OwnsInherited) :
    (managed.check ca = .ok () → hosted.check ca = .ok ()) ∧
      ((∀ keys, ca.keys? = some keys → keys.checkNeeded = false) →
        (hosted.check ca = .ok () ↔ managed.check ca = .ok ())) ∧
      ∀ v w, hosted.check ca = .error v → managed.check ca = .error w → v.Within w := by
  cases hkeys : ca.keys? with
  | none =>
    have hok (m : InvariantModel) : m.check ca = .ok () := by rw [check, hkeys]
    exact ⟨fun _ => hok _, fun _ => iff_of_true (hok _) (hok _),
      fun v w => within_of_check_error h⟩
  | some keys =>
    rw [check_ok_hosted_iff h hkeys, check_ok_managed_iff hkeys]
    refine ⟨?_, ?_, fun v w => within_of_check_error h⟩
    · rintro ⟨hagree, hall⟩
      exact ⟨hagree, fun o ho _ => hall o ho⟩
    · intro hneeded
      simp only [hneeded keys rfl, or_true, forall_const]

end InvariantModel

namespace Overdrawn

/-- Held the other way, the object counts as well. -/
theorem models_consistent_for_overdrawn :
    ca.OwnsInherited ∧ InvariantModel.hosted.check ca = .error complaint ∧
      InvariantModel.managed.check ca = .error (.notContained "CN=overdrawn" .all (numbers 1 20)
        ((numbers 21 24).union (numbers 30 40))) ∧
      complaint.Within (.notContained "CN=overdrawn" .all (numbers 1 20)
        ((numbers 21 24).union (numbers 30 40))) := by
  have hown : ca.OwnsInherited := by
    have hall : ∀ k ∈ ca.publishable, ∀ inc ∈ k.incoming.toList,
        inc.own.contains inc.inherited = true := by decide +kernel
    exact fun k hk inc hinc => hall k hk inc (by simp [hinc])
  have hhosted : InvariantModel.hosted.check ca = .error complaint := by decide +kernel
  have hmanaged : InvariantModel.managed.check ca = .error (.notContained "CN=overdrawn" .all
      (numbers 1 20) ((numbers 21 24).union (numbers 30 40))) := by decide +kernel
  obtain ⟨-, -, hwithin⟩ := InvariantModel.models_consistent hown
  exact ⟨hown, hhosted, hmanaged, hwithin _ _ hhosted hmanaged⟩

end Overdrawn

end ResourcePki
