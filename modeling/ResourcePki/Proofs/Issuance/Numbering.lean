import ResourcePki.Proofs.Issuance.Courses
import ResourcePki.Proofs.Invariant.Certifying

/-! The serial numbers that a CA gives its certificates. The counter is shared by all keys of the CA
and goes up before anything can fail, so no number is on record twice and none is still to come. -/

namespace ResourcePki

open OutgoingCertificate

/-- The next serial number of a CA, if it manages keys here. -/
def CertificateAuthority.nextSerial (ca : CertificateAuthority) : Nat :=
  ca.keys?.elim 0 (·.nextSerial)

def CaTree.nextSerial (t : CaTree) (id : CaId) : Nat := (t.get? id).elim 0 (·.nextSerial)

section counters

variable {ca : CertificateAuthority} {t : CaTree} {id : CaId}

theorem CertificateAuthority.nextSerial_of_keys {r : KeyRing} (h : ca.keys? = some r) :
    ca.nextSerial = r.nextSerial := by
  rw [nextSerial, h]
  rfl

theorem CaTree.nextSerial_of_get? (h : t.get? id = some ca) :
    t.nextSerial id = ca.nextSerial := by
  rw [nextSerial, h]
  rfl

theorem CaTree.nextSerial_set_self : (t.set id ca).nextSerial id = ca.nextSerial :=
  nextSerial_of_get? CaTree.get?_set_self

theorem CaTree.nextSerial_set_ne {id' : CaId} (h : id ≠ id') :
    (t.set id ca).nextSerial id' = t.nextSerial id' := by
  rw [nextSerial, CaTree.get?_set_ne h]
  rfl

end counters

namespace KeyRing

variable {r r' : KeyRing}

/-- The serial numbers of all certificates ever issued with the keys. -/
def serials (r : KeyRing) : List Nat := r.outgoing.map (·.certificate.serial)

/-- No two certificates on record have one serial number, and the next number is above them all. The
numbers stand for those of 64 bits, as long as `nextSerial` does not reach 2^64 - 1. -/
structure DistinctSerials (r : KeyRing) : Prop where
  nodup : r.serials.Nodup
  lt_next : ∀ n ∈ r.serials, n < r.nextSerial

theorem map_serial_of_forall₂ {l l' : List OutgoingCertificate} (h : List.Forall₂ SameRecord l l') :
    l'.map (·.certificate.serial) = l.map (·.certificate.serial) := by
  induction h with
  | nil => rfl
  | cons ho _ ih => rw [List.map_cons, List.map_cons, ho.certificate, ih]

theorem Edit.serials (h : r.Edit r') :
    (r'.serials = r.serials ∧ r.nextSerial ≤ r'.nextSerial) ∨
      (r'.serials.Perm (r.nextSerial :: r.serials) ∧ r'.nextSerial = r.nextSerial + 1) := by
  obtain ⟨hsame, hnext⟩ | ⟨o, l, hserial, hsame, hperm, hnext⟩ := h.recorded
  · exact .inl ⟨map_serial_of_forall₂ hsame, hnext⟩
  · have hmap := hperm.map (·.certificate.serial)
    rw [List.map_cons, hserial, map_serial_of_forall₂ hsame] at hmap
    exact .inr ⟨hmap, hnext⟩

theorem Edit.serials_subset (h : r.Edit r') : r.serials ⊆ r'.serials := by
  obtain ⟨hsame, -⟩ | ⟨hperm, -⟩ := h.serials
  · exact hsame ▸ List.Subset.refl _
  · exact fun n hn => hperm.mem_iff.mpr (List.mem_cons_of_mem _ hn)

theorem DistinctSerials.edit (hr : r.DistinctSerials) (h : r.Edit r') : r'.DistinctSerials := by
  obtain ⟨hsame, hnext⟩ | ⟨hperm, hnext⟩ := h.serials
  · refine ⟨hsame ▸ hr.nodup, fun n hn => ?_⟩
    exact Nat.lt_of_lt_of_le (hr.lt_next n (hsame ▸ hn)) hnext
  · refine ⟨hperm.nodup_iff.mpr (List.nodup_cons.mpr ⟨fun hn => ?_, hr.nodup⟩), fun n hn => ?_⟩
    · exact Nat.lt_irrefl _ (hr.lt_next _ hn)
    · rw [hnext, Nat.lt_succ_iff]
      rcases List.mem_cons.mp (hperm.mem_iff.mp hn) with rfl | hn
      · exact Nat.le_refl _
      · exact Nat.le_of_lt (hr.lt_next n hn)

end KeyRing

namespace CertificateAuthority

variable {ca ca' : CertificateAuthority}

def DistinctSerials (ca : CertificateAuthority) : Prop :=
  ∀ r, ca.keys? = some r → r.DistinctSerials

def serials (ca : CertificateAuthority) : List Nat := ca.outgoing.map (·.certificate.serial)

theorem serials_of_keys {r : KeyRing} (h : ca.keys? = some r) : ca.serials = r.serials := by
  rw [serials, outgoing_of_keys h]
  rfl

theorem IsNew.distinctSerials (h : ca.IsNew) : ca.DistinctSerials := by
  obtain ⟨ski, directory, hkind⟩ := h
  intro r hr
  rw [keys?, hkind] at hr
  obtain rfl := Option.some.inj hr
  exact ⟨List.nodup_nil, fun n hn => absurd hn List.not_mem_nil⟩

theorem DistinctSerials.edits (hca : ca.DistinctSerials) (h : ca.Edits ca') :
    ca'.DistinctSerials ∧ ca.serials ⊆ ca'.serials := by
  induction h with
  | refl => exact ⟨hca, List.Subset.refl _⟩
  | @tail ca₁ ca₂ _ hedit ih =>
    obtain ⟨hdistinct, hsubset⟩ := ih
    obtain hsame | ⟨r, r', hr, hr', hring⟩ := hedit.ring
    · have hserials : ca₂.serials = ca₁.serials := by rw [serials, outgoing, hsame]; rfl
      exact ⟨fun r hr => hdistinct r (hsame ▸ hr), hserials ▸ hsubset⟩
    · refine ⟨fun r₂ hr₂ => ?_, List.Subset.trans hsubset ?_⟩
      · obtain rfl := Option.some.inj (hr'.symm.trans hr₂)
        exact (hdistinct r hr).edit hring
      · rw [serials_of_keys hr, serials_of_keys hr']
        exact hring.serials_subset

end CertificateAuthority

def CaTree.DistinctSerials (t : CaTree) : Prop :=
  ∀ id ca, t.get? id = some ca → ca.DistinctSerials

theorem CaTree.DistinctSerials.of_entries {t : CaTree} (h : ∀ e ∈ t.cas.entries, ∀ r ∈ e.2.keys?,
    r.serials.Nodup ∧ ∀ n ∈ r.serials, n < r.nextSerial) : t.DistinctSerials := by
  intro id ca hca r hr
  obtain ⟨hnodup, hlt⟩ := h (id, ca) (SortedMap.get?_eq_some_iff.mp hca) r hr
  exact ⟨hnodup, hlt⟩

/-- Whatever commands succeed, fail or are tried again, no managed CA has a serial number on record
twice, or one that it has still to give out; and what was once on record stays there. In 64 bits this
holds as long as no `nextSerial` reaches 2^64 - 1. -/
theorem serials_stay_distinct {e e' : Engine Journal} (hrun : e.Course e')
    (h : e.tree.DistinctSerials) :
    e'.tree.DistinctSerials ∧ ∀ id ca, e.tree.get? id = some ca →
      ∃ ca', e'.tree.get? id = some ca' ∧ ca.serials ⊆ ca'.serials := by
  refine ⟨fun id ca' hca' => ?_, fun id ca hca => ?_⟩
  · obtain ⟨ca, hca | hnew, hedits⟩ := hrun.edited.origin id ca' hca'
    · exact ((h id ca hca).edits hedits).1
    · exact (hnew.distinctSerials.edits hedits).1
  · obtain ⟨ca', hca', hedits⟩ := hrun.edited.kept id ca hca
    exact ⟨ca', hca', ((h id ca hca).edits hedits).2⟩

namespace Chain

/-- The chain, in which every ring has used up its first serial number. -/
def counted : Engine Journal where
  tree := { tree with cas := .ofList <| tree.cas.entries.map fun e =>
    (e.1, e.2.modifyKeys ({ · with nextSerial := 2 })) }
  memory := {}

/-- As `renewing`, but the signer is out of reach. -/
def unsigned : Services := { renewing with sign := fun _ _ _ => .error (.unavailable "offline") }

/-- The upper member is to be updated: two attempts fail when the signer is asked, the next one
brings a new certificate. -/
def recounted : Engine Journal :=
  ((Dispatcher.standard renewing {} 0).execute ⟨3, .background, .updateAllIncoming⟩
    ((Dispatcher.standard unsigned {} 1).execute ⟨3, .background, .updateAllIncoming⟩ counted).2).2

theorem course_recounted : counted.Course recounted :=
  .execute renewing {} 0 _ (.execute unsigned {} 1 _ (.refl counted))

theorem distinctSerials_counted : counted.tree.DistinctSerials := .of_entries (by decide +kernel)

theorem serials_stay_distinct_in_chain :
    (counted.Course recounted ∧ counted.tree.DistinctSerials) ∧
      (recounted.tree.get? 2).map (·.serials) = some [1, 2] ∧ recounted.tree.DistinctSerials := by
  have hserials : (recounted.tree.get? 2).map (·.serials) = some [1, 2] := by
    rw [recounted, Dispatcher.standard_eq, Dispatcher.standard_eq]
    decide +kernel
  exact ⟨⟨course_recounted, distinctSerials_counted⟩, hserials,
    (serials_stay_distinct course_recounted distinctSerials_counted).1⟩

end Chain

end ResourcePki
