import ResourcePki.Proofs.Invariant.Check
import Mathlib.Data.List.Forall2
import Mathlib.Data.List.Nodup

/-! What a check decides, and what its complaints say. The verdict is the one that the resources
themselves give, number by number; a complaint names just what is wrong; and neither depends on the
order in which keys and certificates are stored. -/

namespace ResourcePki

/-- The key `k'` is `k`, with the certificates that it issued in another order. -/
structure KeyPair.Reorders (k k' : KeyPair) : Prop where
  shell : k'.shell = k.shell
  outgoing : k'.outgoing.Perm k.outgoing

/-- The ring `r'` has the keys of `r`, and they have issued the same, all in another order. -/
structure KeyRing.Reorders (r r' : KeyRing) : Prop where
  checkNeeded : r'.checkNeeded = r.checkNeeded
  pairs : ∃ l, List.Forall₂ KeyPair.Reorders r.pairs l ∧ r'.pairs.Perm l

namespace InvariantModel

variable {m : InvariantModel} {ca ca' : CertificateAuthority} {keys keys' : KeyRing}
  {held : ResourceSet} {v : InvariantViolation}

/-- The set that the publishable keys have in common; nothing if there are none. -/
def common (m : InvariantModel) (ca : CertificateAuthority) : ResourceSet :=
  (m.heldSets ca).headD ∅

theorem incoming_common (h : m.incoming ca = .ok held) : held = m.common ca := by
  obtain ⟨hall, hnil⟩ := incoming_ok_iff.mp h
  rw [common]
  cases hsets : m.heldSets ca with
  | nil => exact hnil hsets
  | cons x rest => exact (hall x (hsets ▸ List.mem_cons_self ..)).symm

theorem incoming_ok_iff_equivalent : m.incoming ca = .ok (m.common ca) ↔
    ∀ x ∈ m.heldSets ca, ∀ y ∈ m.heldSets ca, x.equivalent y = true := by
  rw [incoming_ok_iff, common]
  simp only [ResourceSet.equivalent_iff]
  cases hsets : m.heldSets ca with
  | nil => exact iff_of_true ⟨nofun, fun _ => rfl⟩ nofun
  | cons x rest =>
    constructor
    · rintro ⟨hall, -⟩ y hy z hz
      exact (hall y hy).trans (hall z hz).symm
    · exact fun h => ⟨fun y hy => h y hy x (List.mem_cons_self ..), nofun⟩

theorem mem_distinctIncoming {x : ResourceSet} :
    x ∈ m.distinctIncoming ca ↔ x ∈ m.heldSets ca := by
  rw [distinctIncoming, mem_foldl_addDistinct]
  exact or_iff_right List.not_mem_nil

theorem nodup_distinctIncoming : (m.distinctIncoming ca).Nodup :=
  nodup_foldl_addDistinct List.nodup_nil

theorem incoming_error (h : m.incoming ca = .error v) :
    v = .incomingMismatch ca.name (m.distinctIncoming ca) ∧
      2 ≤ (m.distinctIncoming ca).length := by
  unfold incoming at h
  cases hdistinct : m.distinctIncoming ca with
  | nil =>
    rw [hdistinct] at h
    cases h
  | cons x rest =>
    rw [hdistinct] at h
    cases rest with
    | nil => cases h
    | cons y rest => exact ⟨(Except.error.inj h).symm, Nat.le_add_left ..⟩

/-- A check fails since keys disagree, or since what they agree on does not hold some scope. -/
theorem check_error (hkeys : ca.keys? = some keys) (h : m.check ca = .error v) :
    m.incoming ca = .error v ∨ m.incoming ca = .ok (m.common ca) ∧
      ∃ scope ∈ m.scopes keys, (m.common ca).contains (scope.issued ca) = false ∧ v =
        .notContained ca.name scope (m.common ca) ((scope.issued ca).excess (m.common ca)) := by
  unfold check at h
  rw [hkeys] at h
  cases hincoming : m.incoming ca with
  | error w =>
    rw [hincoming] at h
    exact .inl (congrArg _ (Except.error.inj h))
  | ok held =>
    rw [hincoming] at h
    obtain rfl := incoming_common hincoming
    exact .inr ⟨rfl, forM_checkContained_error h⟩

/-- A certificate is looked at unless it is for an object and a new manifest is awaited. -/
theorem exists_scope_iff {o : OutgoingCertificate} :
    (∃ scope ∈ m.scopes keys, scope.includes o = true) ↔
      (o.subject.isChild = true ∨ ¬ (m = .hosted ∧ keys.checkNeeded = true)) := by
  cases m with
  | managed => simp [scopes, IssuedScope.includes]
  | hosted =>
    cases hneeded : keys.checkNeeded with
    | true => simp [scopes, hneeded, IssuedScope.includes]
    | false => simp [scopes, hneeded, IssuedScope.includes]

theorem check_ok_iff_contained (hkeys : ca.keys? = some keys) : m.check ca = .ok () ↔
    (∀ x ∈ m.heldSets ca, ∀ y ∈ m.heldSets ca, x.equivalent y = true) ∧
      ∀ o ∈ ca.valid, (o.subject.isChild = true ∨ ¬ (m = .hosted ∧ keys.checkNeeded = true)) →
        (m.common ca).contains o.resources = true := by
  rw [check_ok_iff, ← incoming_ok_iff_equivalent]
  simp only [← exists_scope_iff]
  constructor
  · intro h
    obtain ⟨held, hheld, hall⟩ := h keys hkeys
    obtain rfl := incoming_common hheld
    exact ⟨hheld, fun o ho ⟨scope, hscope, hincludes⟩ => hall scope hscope o ho hincludes⟩
  · rintro ⟨hheld, hall⟩ keys' hkeys'
    obtain rfl := Option.some.inj (hkeys.symm.trans hkeys')
    exact ⟨_, hheld, fun scope hscope o ho hincludes => hall o ho ⟨scope, hscope, hincludes⟩⟩

/-- What a complaint about a CA has to say: the different sets that its keys hold, each of them just
once; or, if they hold the same, all that it lacks of what was issued in one scope of the model. -/
def Explains (m : InvariantModel) (ca : CertificateAuthority) (keys : KeyRing) :
    InvariantViolation → Prop
  | .incomingMismatch name distinct => name = ca.name ∧ 2 ≤ distinct.length ∧
      distinct.Pairwise (fun x y => x.equivalent y = false) ∧
      (∀ x ∈ distinct, x ∈ m.heldSets ca) ∧
      ∀ x ∈ m.heldSets ca, distinct.countP (·.equivalent x) = 1
  | .notContained name scope incoming missing => name = ca.name ∧ scope ∈ m.scopes keys ∧
      incoming = m.common ca ∧ (∀ x ∈ m.heldSets ca, x.equivalent incoming = true) ∧
      missing.isEmpty = false ∧ ∀ f n, missing.Holds f n ↔
        (∃ o ∈ ca.valid, scope.includes o = true ∧ o.resources.Holds f n) ∧ ¬ incoming.Holds f n

theorem holds_issued_iff {scope : IssuedScope} {f : Family} {n : Nat} :
    (scope.issued ca).Holds f n ↔
      ∃ o ∈ ca.valid, scope.includes o = true ∧ o.resources.Holds f n := by
  simp only [IssuedScope.issued, ResourceSet.holds_unions, List.mem_map, List.mem_filter]
  constructor
  · rintro ⟨-, ⟨o, ⟨ho, hscope⟩, rfl⟩, hholds⟩
    exact ⟨o, ho, hscope, hholds⟩
  · rintro ⟨o, ho, hscope, hholds⟩
    exact ⟨_, ⟨o, ⟨ho, hscope⟩, rfl⟩, hholds⟩

theorem explains_mismatch (h : 2 ≤ (m.distinctIncoming ca).length) :
    m.Explains ca keys (.incomingMismatch ca.name (m.distinctIncoming ca)) := by
  refine ⟨rfl, h, ?_, fun x hx => mem_distinctIncoming.mp hx, fun x hx => ?_⟩
  · refine nodup_distinctIncoming.imp fun hne => Bool.eq_false_iff.mpr fun heq => hne ?_
    exact ResourceSet.equivalent_iff.mp heq
  · have hcount := List.count_eq_one_of_mem nodup_distinctIncoming (mem_distinctIncoming.mpr hx)
    refine Eq.trans (List.countP_congr fun y _ => ?_) hcount
    rw [ResourceSet.equivalent_iff, beq_iff_eq]

theorem explains_missing {scope : IssuedScope} (hscope : scope ∈ m.scopes keys)
    (hincoming : m.incoming ca = .ok (m.common ca))
    (h : (m.common ca).contains (scope.issued ca) = false) : m.Explains ca keys
      (.notContained ca.name scope (m.common ca) ((scope.issued ca).excess (m.common ca))) := by
  refine ⟨rfl, hscope, rfl, fun x hx => ?_, Bool.eq_false_iff.mpr fun hempty => ?_, fun f n => ?_⟩
  · exact ResourceSet.equivalent_iff.mpr ((incoming_ok_iff.mp hincoming).1 x hx)
  · exact Bool.eq_false_iff.mp h (ResourceSet.isEmpty_excess_iff.mp hempty)
  · rw [ResourceSet.holds_excess, holds_issued_iff]

/-- What is missing is the least that a CA would have to hold in addition. -/
theorem checkContained_union_iff {scope : IssuedScope} {added : ResourceSet} :
    checkContained ca (held.union added) scope = .ok () ↔
      added.contains ((scope.issued ca).excess held) = true := by
  rw [ResourceSet.contains_excess_iff, checkContained]
  split
  · rename_i h
    exact iff_of_true rfl h
  · rename_i h
    exact iff_of_false nofun h

theorem check_explains (hkeys : ca.keys? = some keys) (h : m.check ca = .error v) :
    m.Explains ca keys v := by
  obtain hincoming | ⟨hincoming, scope, hscope, hlacks, rfl⟩ := check_error hkeys h
  · obtain ⟨rfl, hlength⟩ := incoming_error hincoming
    exact explains_mismatch hlength
  · exact explains_missing hscope hincoming hlacks

/-! The order of keys and certificates -/

/-- Two outcomes of a check that tell the same, sets that differ possibly in another order. -/
inductive SameVerdict : Except InvariantViolation Unit → Except InvariantViolation Unit → Prop
  | same (verdict : Except InvariantViolation Unit) : SameVerdict verdict verdict
  | incomingMismatch {name : CaName} {distinct distinct' : List ResourceSet}
      (h : distinct'.Perm distinct) : SameVerdict (.error (.incomingMismatch name distinct))
        (.error (.incomingMismatch name distinct'))

end InvariantModel

namespace KeyRing.Reorders

variable {r r' : KeyRing}

theorem shells_perm (h : r.Reorders r') : r'.shells.Perm r.shells := by
  obtain ⟨l, hl, hperm⟩ := h.pairs
  refine (hperm.map _).trans ?_
  unfold shells
  generalize r.pairs = pairs at hl
  clear hperm
  induction hl with
  | nil => exact .refl _
  | cons hk _ ih =>
    rw [List.map_cons, List.map_cons, hk.shell]
    exact ih.cons _

theorem valid_perm (h : r.Reorders r') : r'.valid.Perm r.valid := by
  obtain ⟨l, hl, hperm⟩ := h.pairs
  refine (hperm.flatMap_right _).trans ?_
  unfold valid
  generalize r.pairs = pairs at hl
  clear hperm
  induction hl with
  | nil => exact .refl _
  | cons hk _ ih =>
    rw [List.flatMap_cons, List.flatMap_cons]
    exact (hk.outgoing.filter _).append ih

end KeyRing.Reorders

namespace InvariantModel

variable {m : InvariantModel} {ca ca' : CertificateAuthority} {keys keys' : KeyRing}
  {held : ResourceSet}

/-- What the keys hold has nothing to do with what was issued with them. -/
theorem heldSets_of_keys (hkeys : ca.keys? = some keys) : m.heldSets ca =
    (keys.shells.filter (·.isPublishable)).filterMap fun k => k.incoming.map m.held := by
  rw [heldSets, CertificateAuthority.publishable, hkeys, KeyRing.shells, List.filter_map,
    List.filterMap_map]
  rfl

theorem heldSets_perm (hkeys : ca.keys? = some keys) (hkeys' : ca'.keys? = some keys')
    (h : keys.Reorders keys') : (m.heldSets ca').Perm (m.heldSets ca) := by
  rw [heldSets_of_keys hkeys, heldSets_of_keys hkeys']
  exact (h.shells_perm.filter _).filterMap _

theorem incoming_ok_of_perm (hsets : (m.heldSets ca').Perm (m.heldSets ca))
    (h : m.incoming ca = .ok held) : m.incoming ca' = .ok held := by
  obtain ⟨hall, hnil⟩ := incoming_ok_iff.mp h
  refine incoming_ok_iff.mpr ⟨fun x hx => hall x (hsets.mem_iff.mp hx), fun hnil' => hnil ?_⟩
  rw [hnil'] at hsets
  exact hsets.nil_eq.symm

theorem distinctIncoming_perm (hsets : (m.heldSets ca').Perm (m.heldSets ca)) :
    (m.distinctIncoming ca').Perm (m.distinctIncoming ca) := by
  refine (List.perm_ext_iff_of_nodup nodup_distinctIncoming nodup_distinctIncoming).mpr
    fun x => ?_
  rw [mem_distinctIncoming, mem_distinctIncoming, hsets.mem_iff]

theorem issued_of_perm (hvalid : ca'.valid.Perm ca.valid) (scope : IssuedScope) :
    scope.issued ca' = scope.issued ca := by
  refine ResourceSet.ext fun f n => ?_
  simp only [holds_issued_iff, hvalid.mem_iff]

theorem check_reordered (hkeys : ca.keys? = some keys) (h : keys.Reorders keys') :
    SameVerdict (m.check ca) (m.check (ca.withKeys keys')) := by
  have hkeys' := CertificateAuthority.keys?_withKeys hkeys keys'
  have hsets : (m.heldSets (ca.withKeys keys')).Perm (m.heldSets ca) :=
    heldSets_perm hkeys hkeys' h
  have hvalid : (ca.withKeys keys').valid.Perm ca.valid := by
    rw [CertificateAuthority.valid_of_keys hkeys, CertificateAuthority.valid_of_keys hkeys']
    exact h.valid_perm
  have hscopes : m.scopes keys' = m.scopes keys := by
    cases m with
    | hosted => rw [scopes, scopes, h.checkNeeded]
    | managed => rfl
  have hcontained : checkContained (ca.withKeys keys') = checkContained ca := by
    funext held scope
    rw [checkContained, checkContained, issued_of_perm hvalid]
    rfl
  -- What remains to compare is what the keys hold: the scopes and what they lack are the same.
  unfold check
  rw [hkeys, hkeys']
  dsimp only
  rw [hscopes, hcontained]
  cases hincoming : m.incoming ca with
  | ok held =>
    rw [incoming_ok_of_perm hsets hincoming]
    exact .same _
  | error v =>
    cases hincoming' : m.incoming (ca.withKeys keys') with
    | ok held =>
      rw [incoming_ok_of_perm hsets.symm hincoming'] at hincoming
      cases hincoming
    | error v' =>
      obtain ⟨rfl, -⟩ := incoming_error hincoming
      obtain ⟨rfl, -⟩ := incoming_error hincoming'
      exact .incomingMismatch (distinctIncoming_perm hsets)

/-- A check decides whether the keys agree and hold what was issued, and tells just what is wrong,
however keys and certificates are ordered. -/
theorem check_decides_containment (m : InvariantModel) (hkeys : ca.keys? = some keys) :
    (m.check ca = .ok () ↔
      (∀ x ∈ m.heldSets ca, ∀ y ∈ m.heldSets ca, x.equivalent y = true) ∧
        ∀ o ∈ ca.valid, (o.subject.isChild = true ∨ ¬ (m = .hosted ∧ keys.checkNeeded = true)) →
          (m.common ca).contains o.resources = true) ∧
      (∀ v, m.check ca = .error v → m.Explains ca keys v) ∧
      ∀ keys', keys.Reorders keys' → SameVerdict (m.check ca) (m.check (ca.withKeys keys')) :=
  ⟨check_ok_iff_contained hkeys, fun _ => check_explains hkeys, fun _ => check_reordered hkeys⟩

end InvariantModel

namespace Overdrawn

def numbers (first last : Nat) (h : first ≤ last := by decide) : ResourceSet :=
  { asn := .ofBlock ⟨first, last, h⟩ }

def signed (resources : ResourceSet) : SignedCertificate where
  serial := 1
  subjectName := "CN=subject"
  subjectKey := "S"
  resources := resources
  validity := ⟨⟨0⟩, ⟨10⟩⟩
  der := []

def held (own inherited : ResourceSet) : IncomingCertificate :=
  ⟨signed own, ⟨"rsync://repository/module/S.cer"⟩, inherited⟩

def issued (subject : Subject) (resources : ResourceSet) : OutgoingCertificate where
  certificate := signed resources
  subject := subject
  status := .current
  embedded := true

/-- Two keys hold the same, and a child has more; so has an object of a key that was revoked. -/
def keys : KeyRing where
  pairs := [
    { ski := "NEW", status := .current, incoming := some (held (numbers 1 20) (numbers 5 10)),
      outgoing := [issued (.child 3) (numbers 10 24)] },
    { ski := "OLD", status := .old, incoming := some (held (numbers 1 20) ∅) },
    { ski := "END", status := .revoked, outgoing := [issued (.object .roa) (numbers 30 40)] }]
  directory := ⟨"rsync://repository/module/"⟩

def ca : CertificateAuthority where
  id := 2
  name := "CN=overdrawn"
  kind := .hosted keys

/-- The hosted model looks at the child first. -/
def complaint : InvariantViolation :=
  .notContained "CN=overdrawn" .child (numbers 1 20) (numbers 21 24)

theorem check_decides_overdrawn :
    ca.keys? = some keys ∧ InvariantModel.hosted.check ca = .error complaint ∧
      InvariantModel.hosted.Explains ca keys complaint := by
  have hkeys : ca.keys? = some keys := rfl
  have hcheck : InvariantModel.hosted.check ca = .error complaint := by decide +kernel
  obtain ⟨-, hexplains, -⟩ := InvariantModel.hosted.check_decides_containment hkeys
  exact ⟨hkeys, hcheck, hexplains complaint hcheck⟩

end Overdrawn

end ResourcePki
