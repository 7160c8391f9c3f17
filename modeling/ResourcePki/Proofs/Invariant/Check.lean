import ResourcePki.Invariant.Check
import ResourcePki.Proofs.Authority.Views
import ResourcePki.Proofs.Resources.Order

/-! What it means that a CA passes the check of a model: all its publishable keys hold one set, and
that set holds what is on every valid certificate that the model looks at. -/

namespace ResourcePki

/-- What a CA inherits makes no difference as long as it is on the certificate as well. -/
theorem IncomingCertificate.certified_eq_own {c : IncomingCertificate}
    (h : c.own.contains c.inherited = true) : c.certified = c.own :=
  (sup_eq_right (a := c.inherited) (b := c.own)).mpr h

namespace InvariantModel

variable {m : InvariantModel} {ca : CertificateAuthority}

/-- The sets that the publishable keys of a CA hold. -/
def heldSets (m : InvariantModel) (ca : CertificateAuthority) : List ResourceSet :=
  ca.publishable.filterMap fun k => k.incoming.map m.held

theorem mem_addDistinct {sets : List ResourceSet} {r x : ResourceSet} :
    x ∈ addDistinct sets r ↔ x ∈ sets ∨ x = r := by
  unfold addDistinct
  split
  · rename_i h
    obtain ⟨y, hy, heq⟩ := List.any_eq_true.mp h
    obtain rfl := ResourceSet.equivalent_iff.mp heq
    exact ⟨.inl, fun hx => hx.elim id fun hxy => hxy ▸ hy⟩
  · rw [List.mem_append, List.mem_singleton]

theorem mem_foldl_addDistinct {sets acc : List ResourceSet} {x : ResourceSet} :
    x ∈ sets.foldl addDistinct acc ↔ x ∈ acc ∨ x ∈ sets := by
  induction sets generalizing acc with
  | nil => simp
  | cons r rest ih => rw [List.foldl_cons, ih, mem_addDistinct, List.mem_cons, or_assoc]

theorem nodup_addDistinct {sets : List ResourceSet} (h : sets.Nodup) (r : ResourceSet) :
    (addDistinct sets r).Nodup := by
  unfold addDistinct
  split
  · exact h
  · rename_i hnone
    refine List.nodup_append.mpr ⟨h, List.pairwise_singleton .., fun x hx y hy heq => hnone ?_⟩
    obtain rfl := List.mem_singleton.mp hy
    exact List.any_eq_true.mpr ⟨x, hx, ResourceSet.equivalent_iff.mpr heq⟩

theorem nodup_foldl_addDistinct {sets acc : List ResourceSet} (h : acc.Nodup) :
    (sets.foldl addDistinct acc).Nodup := by
  induction sets generalizing acc with
  | nil => exact h
  | cons r rest ih => exact ih (nodup_addDistinct h r)

/-- A CA whose keys agree holds the set that they hold, or nothing without any. -/
theorem incoming_ok_iff {r : ResourceSet} : m.incoming ca = .ok r ↔
    (∀ x ∈ m.heldSets ca, x = r) ∧ (m.heldSets ca = [] → r = ∅) := by
  have hmem : ∀ {x}, x ∈ m.distinctIncoming ca ↔ x ∈ m.heldSets ca := fun {x} => by
    rw [distinctIncoming, mem_foldl_addDistinct]
    exact or_iff_right List.not_mem_nil
  have hnodup : (m.distinctIncoming ca).Nodup := nodup_foldl_addDistinct List.nodup_nil
  unfold incoming
  cases hdistinct : m.distinctIncoming ca with
  | nil =>
    have hnil : m.heldSets ca = [] := List.eq_nil_iff_forall_not_mem.mpr fun x hx => by
      rw [← hmem, hdistinct] at hx
      cases hx
    rw [hnil]
    exact ⟨fun h => ⟨fun x hx => (nomatch hx), fun _ => (Except.ok.inj h).symm⟩,
      fun h => congrArg _ (h.2 rfl).symm⟩
  | cons x rest =>
    have hx : x ∈ m.heldSets ca := by rw [← hmem, hdistinct]; exact List.mem_cons_self ..
    cases rest with
    | nil =>
      constructor
      · intro h
        obtain rfl := Except.ok.inj h
        refine ⟨fun y hy => ?_, fun hnil => by rw [hnil] at hx; cases hx⟩
        rwa [← hmem, hdistinct, List.mem_singleton] at hy
      · exact fun h => congrArg _ (h.1 x hx)
    | cons y rest =>
      have hy : y ∈ m.heldSets ca := by
        rw [← hmem, hdistinct]
        exact List.mem_cons_of_mem _ (List.mem_cons_self ..)
      rw [hdistinct] at hnodup
      refine ⟨fun h => (nomatch h), fun h => ?_⟩
      -- Two sets that are told apart cannot both be the one that all keys hold.
      have heq : x = y := (h.1 x hx).trans (h.1 y hy).symm
      exact absurd (heq ▸ List.mem_cons_self ..) (List.nodup_cons.mp hnodup).1

theorem exists_incoming (h : ∀ x ∈ m.heldSets ca, ∀ y ∈ m.heldSets ca, x = y) :
    ∃ held, m.incoming ca = .ok held := by
  by_cases hnil : m.heldSets ca = []
  · refine ⟨∅, incoming_ok_iff.mpr ⟨fun x hx => ?_, fun _ => rfl⟩⟩
    rw [hnil] at hx
    cases hx
  · obtain ⟨r, hr⟩ := List.exists_mem_of_ne_nil _ hnil
    exact ⟨r, incoming_ok_iff.mpr ⟨fun x hx => h x hx r hr, fun hnone => absurd hnone hnil⟩⟩

theorem contains_issued_iff {held : ResourceSet} {scope : IssuedScope} :
    held.contains (scope.issued ca) = true ↔
      ∀ o ∈ ca.valid, scope.includes o = true → held.contains o.resources = true := by
  simp only [IssuedScope.issued, ResourceSet.contains_unions_iff, List.forall_mem_map,
    List.mem_filter, and_imp]

theorem forM_checkContained_iff {held : ResourceSet} {scopes : List IssuedScope} :
    scopes.forM (checkContained ca held) = .ok () ↔ ∀ scope ∈ scopes, ∀ o ∈ ca.valid,
      scope.includes o = true → held.contains o.resources = true := by
  induction scopes with
  | nil => exact ⟨fun _ scope hscope => (nomatch hscope), fun _ => rfl⟩
  | cons scope rest ih =>
    rw [List.forall_mem_cons, ← ih, ← contains_issued_iff]
    change (checkContained ca held scope >>= fun _ =>
      rest.forM (checkContained ca held)) = .ok () ↔ _
    unfold checkContained
    split
    · rename_i h
      exact ⟨fun hrest => ⟨h, hrest⟩, fun hboth => hboth.2⟩
    · rename_i h
      exact ⟨fun hfail => (nomatch hfail), fun hboth => absurd hboth.1 h⟩

/-- What is complained of is the first scope that is not contained, with all that it lacks. -/
theorem forM_checkContained_error {held : ResourceSet} {scopes : List IssuedScope}
    {v : InvariantViolation} (h : scopes.forM (checkContained ca held) = .error v) :
    ∃ scope ∈ scopes, held.contains (scope.issued ca) = false ∧
      v = .notContained ca.name scope held ((scope.issued ca).excess held) := by
  induction scopes with
  | nil => cases h
  | cons scope rest ih =>
    change (checkContained ca held scope >>= fun _ =>
      rest.forM (checkContained ca held)) = .error v at h
    unfold checkContained at h
    split at h
    · obtain ⟨scope', hscope', hrest⟩ := ih h
      exact ⟨scope', List.mem_cons_of_mem _ hscope', hrest⟩
    · rename_i hcontains
      exact ⟨scope, List.mem_cons_self .., Bool.eq_false_iff.mpr hcontains,
        (Except.error.inj h).symm⟩

theorem check_ok_iff : m.check ca = .ok () ↔ ∀ keys, ca.keys? = some keys →
    ∃ held, m.incoming ca = .ok held ∧ ∀ scope ∈ m.scopes keys, ∀ o ∈ ca.valid,
      scope.includes o = true → held.contains o.resources = true := by
  unfold check
  cases hkeys : ca.keys? with
  | none => exact ⟨fun _ keys h => (nomatch h), fun _ => rfl⟩
  | some keys =>
    cases hincoming : m.incoming ca with
    | error v =>
      refine ⟨fun h => (nomatch h), fun h => ?_⟩
      obtain ⟨held, hheld, -⟩ := h keys rfl
      cases hheld
    | ok held =>
      change (m.scopes keys).forM (checkContained ca held) = .ok () ↔ _
      rw [forM_checkContained_iff]
      constructor
      · rintro h keys' hkeys'
        obtain rfl := Option.some.inj hkeys'
        exact ⟨held, rfl, h⟩
      · intro h
        obtain ⟨held', hheld', hall⟩ := h keys rfl
        obtain rfl := Except.ok.inj hheld'
        exact hall

end InvariantModel

namespace CertificateAuthority

variable {m : InvariantModel} {ca ca' : CertificateAuthority}

/-- The CA holds nothing but what is on its certificates. -/
def OwnOnly (ca : CertificateAuthority) : Prop :=
  ∀ k ∈ ca.pairs, ∀ inc, k.incoming = some inc → inc.inherited = ∅

/-- The keys that publish are certified for one set. -/
def Agrees (ca : CertificateAuthority) : Prop :=
  ∃ r, ∀ k ∈ ca.publishable, ∀ inc, k.incoming = some inc → inc.own = r

/-- All of a set is on the certificates of keys that publish. -/
def Covers (ca : CertificateAuthority) (r : ResourceSet) : Prop :=
  ∀ f n, r.Holds f n → ∃ k ∈ ca.publishable, ∃ inc, k.incoming = some inc ∧ inc.own.Holds f n

theorem publishable_eq (ca : CertificateAuthority) :
    ca.publishable = ca.pairs.filter (·.isPublishable) := by
  rw [publishable, pairs]
  cases ca.keys? <;> rfl

theorem OwnOnly.certified_eq (h : ca.OwnOnly) {k : KeyPair} (hk : k ∈ ca.pairs)
    {inc : IncomingCertificate} (hinc : k.incoming = some inc) : inc.certified = inc.own := by
  refine IncomingCertificate.certified_eq_own ?_
  rw [h k hk inc hinc]
  exact ResourceSet.contains_empty _

/-- Without inherited resources the models do not differ in what a CA holds. -/
theorem OwnOnly.mem_heldSets (h : ca.OwnOnly) {r : ResourceSet} :
    r ∈ m.heldSets ca ↔ ∃ k ∈ ca.publishable, ∃ inc, k.incoming = some inc ∧ inc.own = r := by
  rw [InvariantModel.heldSets, List.mem_filterMap]
  refine exists_congr fun k => and_congr_right fun hk => ?_
  rw [Option.map_eq_some_iff]
  refine exists_congr fun inc => and_congr_right fun hinc => ?_
  rw [publishable_eq] at hk
  cases m with
  | hosted => rfl
  | managed => rw [InvariantModel.held, h.certified_eq (List.mem_filter.mp hk).1 hinc]

theorem agrees_of_check (hown : ca.OwnOnly) (h : m.check ca = .ok ()) : ca.Agrees := by
  cases hkeys : ca.keys? with
  | none =>
    refine ⟨∅, fun k hk => ?_⟩
    rw [publishable, hkeys] at hk
    cases hk
  | some keys =>
    obtain ⟨held, hheld, -⟩ := InvariantModel.check_ok_iff.mp h keys hkeys
    refine ⟨held, fun k hk inc hinc => ?_⟩
    have hmem : inc.own ∈ m.heldSets ca := hown.mem_heldSets.mpr ⟨k, hk, inc, hinc, rfl⟩
    exact (InvariantModel.incoming_ok_iff.mp hheld).1 _ hmem

theorem Agrees.incoming_ok (h : ca.Agrees) (hown : ca.OwnOnly) (m : InvariantModel) :
    ∃ held, m.incoming ca = .ok held := by
  obtain ⟨r, hr⟩ := h
  have hall : ∀ x ∈ m.heldSets ca, x = r := by
    intro x hx
    obtain ⟨k, hk, inc, hinc, rfl⟩ := hown.mem_heldSets.mp hx
    exact hr k hk inc hinc
  exact InvariantModel.exists_incoming fun x hx y hy => (hall x hx).trans (hall y hy).symm

theorem contains_iff_covers (hown : ca.OwnOnly) {held r : ResourceSet}
    (h : m.incoming ca = .ok held) : held.contains r = true ↔ ca.Covers r := by
  obtain ⟨hall, hnil⟩ := InvariantModel.incoming_ok_iff.mp h
  rw [ResourceSet.contains_iff]
  refine forall₃_congr fun f n _ => ⟨fun hholds => ?_, ?_⟩
  -- Without certificates the CA holds nothing, and there is nothing to be covered.
  · by_cases hempty : m.heldSets ca = []
    · rw [hnil hempty] at hholds
      exact absurd hholds ResourceSet.not_holds_empty
    · obtain ⟨x, hx⟩ := List.exists_mem_of_ne_nil _ hempty
      obtain ⟨k, hk, inc, hinc, rfl⟩ := hown.mem_heldSets.mp hx
      exact ⟨k, hk, inc, hinc, (hall _ hx).symm ▸ hholds⟩
  · rintro ⟨k, hk, inc, hinc, hholds⟩
    rwa [hall _ (hown.mem_heldSets.mpr ⟨k, hk, inc, hinc, rfl⟩)] at hholds

theorem check_of_covers (hown : ca.OwnOnly) (hagrees : ca.Agrees)
    (hcovers : ∀ o ∈ ca.valid, ca.Covers o.resources) : m.check ca = .ok () := by
  refine InvariantModel.check_ok_iff.mpr fun keys _ => ?_
  obtain ⟨held, hheld⟩ := hagrees.incoming_ok hown m
  exact ⟨held, hheld, fun _ _ o ho _ => (contains_iff_covers hown hheld).mpr (hcovers o ho)⟩

/-- Where nothing is inherited, the model of managed CAs asks that keys agree and that all that was
issued is covered. -/
theorem managed_check_iff (hown : ca.OwnOnly) : InvariantModel.managed.check ca = .ok () ↔
    ca.Agrees ∧ ∀ o ∈ ca.valid, ca.Covers o.resources := by
  refine ⟨fun h => ⟨agrees_of_check hown h, fun o ho => ?_⟩, fun h => check_of_covers hown h.1 h.2⟩
  cases hkeys : ca.keys? with
  | none =>
    rw [valid, hkeys] at ho
    cases ho
  | some keys =>
    obtain ⟨held, hheld, hscopes⟩ := InvariantModel.check_ok_iff.mp h keys hkeys
    exact (contains_iff_covers hown hheld).mp (hscopes .all (List.mem_singleton_self _) o ho rfl)

/-- Where the keys agree, the two models ask the same. -/
theorem check_iff_covers (hown : ca.OwnOnly) (hagrees : ca.Agrees) :
    (∀ m : InvariantModel, m.check ca = .ok ()) ↔ ∀ o ∈ ca.valid, ca.Covers o.resources :=
  ⟨fun h => ((managed_check_iff hown).mp (h .managed)).2,
    fun h _ => check_of_covers hown hagrees h⟩

theorem exists_publishable_of_face (h : ca'.face = ca.face) {k' : KeyPair}
    (hk' : k' ∈ ca'.publishable) : ∃ k ∈ ca.publishable, k.incoming = k'.incoming := by
  rw [publishable_eq, List.mem_filter] at hk'
  obtain ⟨k, hk, -, hincoming, hstatus⟩ := exists_key_of_face h hk'.1
  refine ⟨k, ?_, hincoming⟩
  rw [publishable_eq, List.mem_filter, KeyPair.isPublishable, hincoming, hstatus]
  exact ⟨hk, hk'.2⟩

theorem OwnOnly.of_face (hface : ca'.face = ca.face) (h : ca.OwnOnly) : ca'.OwnOnly := by
  intro k' hk' inc hinc
  obtain ⟨k, hk, -, hincoming, -⟩ := exists_key_of_face hface hk'
  exact h k hk inc (hincoming.trans hinc)

theorem Agrees.of_face (hface : ca'.face = ca.face) (h : ca.Agrees) : ca'.Agrees := by
  obtain ⟨r, hr⟩ := h
  refine ⟨r, fun k' hk' inc hinc => ?_⟩
  obtain ⟨k, hk, hincoming⟩ := exists_publishable_of_face hface hk'
  exact hr k hk inc (hincoming.trans hinc)

/-- The current key of a certified CA publishes, and its certificate is what the CA holds. -/
theorem covers_of_certified (hown : ca.OwnOnly) {held r : ResourceSet}
    (h : ca.certified = some held) (hr : r ≤ held) : ca.Covers r := by
  obtain ⟨keys, hkeys, hcertified⟩ := Option.bind_eq_some_iff.mp h
  obtain ⟨k, hcurrent, hk⟩ := Option.bind_eq_some_iff.mp hcertified
  obtain ⟨inc, hinc, rfl⟩ := Option.map_eq_some_iff.mp hk
  have hmem : k ∈ ca.pairs := by
    rw [pairs, hkeys]
    exact List.mem_of_find?_eq_some hcurrent
  have hpublishable : k ∈ ca.publishable := by
    have hstatus : k.status = .current := by
      have htest : k.isCurrent = true := List.find?_some hcurrent
      exact of_decide_eq_true htest
    rw [publishable_eq, List.mem_filter, KeyPair.isPublishable, hstatus, hinc]
    exact ⟨hmem, rfl⟩
  intro f n hholds
  refine ⟨k, hpublishable, inc, hinc, ?_⟩
  rw [← hown.certified_eq hmem hinc]
  exact ResourceSet.contains_iff.mp hr f n hholds

end CertificateAuthority

end ResourcePki
