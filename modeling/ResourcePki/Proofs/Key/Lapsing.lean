import ResourcePki.Proofs.Key.Ring

/-! Expiry of what a ring issued. Going through the certificates one by one never fails, so it comes
to a count of those that are overdue and a function that lets them lapse. -/

namespace ResourcePki

namespace OutgoingCertificate

variable {o : OutgoingCertificate} {now : Time}

/-- The certificate is valid, but its validity ended. -/
def isOverdue (now : Time) (o : OutgoingCertificate) : Bool :=
  o.isValid && decide (o.notAfter < now)

def lapse (now : Time) (o : OutgoingCertificate) : OutgoingCertificate :=
  if o.isOverdue now then { o.withdraw with status := .expired } else o

theorem isOverdue_iff : o.isOverdue now = true ↔ o.isValid = true ∧ o.notAfter < now := by
  rw [isOverdue, Bool.and_eq_true, decide_eq_true_iff]

theorem expire_of_isOverdue (h : o.isOverdue now = true) : o.expire now = .ok (o.lapse now) := by
  obtain ⟨hvalid, hended⟩ := isOverdue_iff.mp h
  have hnot : ¬ now ≤ o.notAfter := Int.not_le.mpr hended
  have hexpired : o.isExpired = false := by
    rw [isValid, Bool.and_eq_true, Bool.not_eq_true'] at hvalid
    simpa using hvalid.2
  rw [expire, if_neg hnot, hexpired, if_neg Bool.false_ne_true, lapse, if_pos h]

theorem lapse_of_not_isOverdue (h : o.isOverdue now = false) : o.lapse now = o := by
  rw [lapse, h, if_neg Bool.false_ne_true]

theorem isOverdue_lapse (now : Time) (o : OutgoingCertificate) :
    (o.lapse now).isOverdue now = false := by
  cases h : o.isOverdue now with
  | true =>
    rw [lapse, h, if_pos rfl]
    rfl
  | false => rw [lapse_of_not_isOverdue h, h]

theorem isPublishable_lapse (h : o.isPublishable = false) :
    (o.lapse now).isPublishable = false := by
  unfold lapse
  split
  · exact o.isPublishable_withdraw
  · exact h

end OutgoingCertificate

namespace KeyPair

def lapse (now : Time) (k : KeyPair) : KeyPair :=
  { k with outgoing := k.outgoing.map (·.lapse now) }

theorem expireAll_eq (now : Time) (l : List OutgoingCertificate) :
    expireAll now l = .ok (l.countP (·.isOverdue now), l.map (·.lapse now)) := by
  induction l with
  | nil => rfl
  | cons o rest ih =>
    rw [expireAll, ih, List.countP_cons, List.map_cons]
    by_cases h : o.isOverdue now = true
    · rw [if_pos (OutgoingCertificate.isOverdue_iff.mp h),
        OutgoingCertificate.expire_of_isOverdue h, if_pos h]
      rfl
    · have hsame := OutgoingCertificate.lapse_of_not_isOverdue (Bool.eq_false_iff.mpr h)
      rw [if_neg fun hdue => h (OutgoingCertificate.isOverdue_iff.mpr hdue), if_neg h, hsame]
      rfl

end KeyPair

namespace KeyRing

variable (r : KeyRing) (now : Time)

def lapse : KeyRing := { r with pairs := r.pairs.map (·.lapse now) }

def overdue : Nat := r.outgoing.countP (·.isOverdue now)

theorem expirePairs_eq (l : List KeyPair) : expirePairs now l =
    .ok ((l.flatMap (·.outgoing)).countP (·.isOverdue now), l.map (·.lapse now)) := by
  induction l with
  | nil => rfl
  | cons k rest ih =>
    rw [expirePairs, KeyPair.expireOutgoing, KeyPair.expireAll_eq, ih, List.flatMap_cons,
      List.countP_append]
    rfl

theorem expireOutgoing_eq : r.expireOutgoing now = .ok (r.overdue now, r.lapse now) := by
  rw [expireOutgoing, expirePairs_eq]
  rfl

theorem outgoing_lapse : (r.lapse now).outgoing = r.outgoing.map (·.lapse now) := by
  change (r.pairs.map (·.lapse now)).flatMap (·.outgoing) = _
  rw [outgoing, List.flatMap_map, List.map_flatMap]
  rfl

theorem shells_lapse : (r.lapse now).shells = r.shells := by
  change (r.pairs.map (·.lapse now)).map (·.shell) = _
  rw [shells, List.map_map]
  rfl

/-- Once is enough. -/
theorem overdue_lapse : (r.lapse now).overdue now = 0 := by
  rw [overdue, outgoing_lapse]
  refine List.countP_eq_zero.mpr fun o' ho' => ?_
  obtain ⟨o, -, rfl⟩ := List.mem_map.mp ho'
  exact Bool.eq_false_iff.mp (o.isOverdue_lapse now)

theorem lapse_of_overdue (h : r.overdue now = 0) : r.lapse now = r := by
  have hnone := List.countP_eq_zero.mp h
  have hpairs : r.pairs.map (·.lapse now) = r.pairs := by
    refine (List.map_congr_left fun k hk => ?_).trans (List.map_id' r.pairs)
    have houtgoing : k.outgoing.map (·.lapse now) = k.outgoing := by
      refine (List.map_congr_left fun o ho => ?_).trans (List.map_id' k.outgoing)
      have hnot := hnone o (List.mem_flatMap.mpr ⟨k, hk, ho⟩)
      exact OutgoingCertificate.lapse_of_not_isOverdue (Bool.eq_false_iff.mpr hnot)
    rw [KeyPair.lapse, houtgoing]
  rw [lapse, hpairs]

theorem lapse_ne_of_overdue (h : 0 < r.overdue now) : r.lapse now ≠ r := by
  intro heq
  have hzero := r.overdue_lapse now
  rw [heq] at hzero
  omega

end KeyRing

end ResourcePki
