import ResourcePki.Proofs.Key.Editing

/-! What expiry does to a ring, certificate by certificate. An expired certificate does not tell when
it expired, so the times at which a ring is gone through may come in any order: what matters is the
latest of them. -/

namespace ResourcePki

namespace Time

variable {a s t : Time}

/-- The later of two times. -/
instance : Max Time := maxOfLe

theorem ticks_max (s t : Time) : (max s t).ticks = max s.ticks t.ticks := by
  change (if s ≤ t then t else s).ticks = _
  rw [Int.max_def, apply_ite ticks]
  rfl

theorem lt_max_iff : a < max s t ↔ a < s ∨ a < t := by
  rw [lt_def, lt_def, lt_def, ticks_max]
  omega

theorem max_comm (s t : Time) : max s t = max t s := by
  have hticks : (max s t).ticks = (max t s).ticks := by
    rw [ticks_max, ticks_max, Int.max_comm]
  exact congrArg mk hticks

end Time

namespace OutgoingCertificate

variable {c c' : OutgoingCertificate}

/-- What becomes of a certificate when those that ended before `now` expire. -/
structure Expires (now : Time) (c c' : OutgoingCertificate) : Prop where
  expired : c.isValid = true → c.notAfter < now →
    c' = { c.withdraw with status := .expired } ∧ c'.isPublishable = false
  kept : ¬ (c.isValid = true ∧ c.notAfter < now) → c' = c
  revocationTime : c'.revocationTime = c.revocationTime

theorem expires_lapse (now : Time) (c : OutgoingCertificate) : c.Expires now (c.lapse now) := by
  cases h : c.isOverdue now with
  | true =>
    rw [lapse, h, if_pos rfl]
    exact ⟨fun _ _ => ⟨rfl, c.isPublishable_withdraw⟩,
      fun hnot => absurd (isOverdue_iff.mp h) hnot, rfl⟩
  | false =>
    rw [lapse_of_not_isOverdue h]
    refine ⟨fun hvalid hended => ?_, fun _ => rfl, rfl⟩
    rw [isOverdue_iff.mpr ⟨hvalid, hended⟩] at h
    cases h

theorem isOverdue_max (s t : Time) (c : OutgoingCertificate) :
    c.isOverdue (max s t) = (c.isOverdue s || c.isOverdue t) := by
  simp only [isOverdue, ← Bool.and_or_distrib_left, ← Bool.decide_or, Time.lt_max_iff]

/-- What has lapsed is not overdue at any time. -/
theorem isOverdue_lapse_at (s t : Time) (c : OutgoingCertificate) :
    (c.lapse s).isOverdue t = (!c.isOverdue s && c.isOverdue t) := by
  cases h : c.isOverdue s with
  | true =>
    rw [lapse, h, if_pos rfl]
    rfl
  | false =>
    rw [lapse_of_not_isOverdue h]
    rfl

theorem lapse_lapse (s t : Time) (c : OutgoingCertificate) :
    (c.lapse s).lapse t = c.lapse (max s t) := by
  cases h : c.isOverdue s with
  | true =>
    have hdone : (c.lapse s).isOverdue t = false := by
      rw [isOverdue_lapse_at, h]
      rfl
    have hlater : c.isOverdue (max s t) = true := by
      rw [isOverdue_max, h]
      rfl
    rw [lapse_of_not_isOverdue hdone, lapse, h, lapse, hlater]
  | false =>
    have hlater : c.isOverdue (max s t) = c.isOverdue t := by
      rw [isOverdue_max, h]
      rfl
    rw [lapse_of_not_isOverdue h, lapse, lapse, hlater]

/-- Every certificate that is overdue at the later time is counted at one of the two only. -/
theorem countP_lapse (s t : Time) (l : List OutgoingCertificate) :
    l.countP (·.isOverdue s) + (l.map (·.lapse s)).countP (·.isOverdue t) =
      l.countP (·.isOverdue (max s t)) := by
  induction l with
  | nil => rfl
  | cons c rest ih =>
    rw [List.map_cons, List.countP_cons, List.countP_cons, List.countP_cons, ← ih,
      isOverdue_lapse_at, isOverdue_max]
    cases c.isOverdue s <;> cases c.isOverdue t <;> simp <;> omega

end OutgoingCertificate

/-- The key `k'` is `k` after expiry: it is as it was, but for certificates that expired. -/
structure KeyPair.Expires (now : Time) (k k' : KeyPair) : Prop where
  shell : k'.shell = k.shell
  outgoing : List.Forall₂ (OutgoingCertificate.Expires now) k.outgoing k'.outgoing

namespace KeyRing

variable (r : KeyRing) (s t : Time)

/-- The ring `r'` is `r` after expiry, in which `n` certificates expired. -/
structure Expires (now : Time) (r : KeyRing) (n : Nat) (r' : KeyRing) : Prop where
  others : { r' with pairs := r.pairs } = r
  pairs : List.Forall₂ (KeyPair.Expires now) r.pairs r'.pairs
  count : n = r.outgoing.countP fun c => c.isValid && decide (c.notAfter < now)

theorem expires_lapse (now : Time) : Expires now r (r.overdue now) (r.lapse now) where
  others := rfl
  pairs := forall₂_map (fun k => ⟨rfl, forall₂_map (·.expires_lapse now) k.outgoing⟩) r.pairs
  count := rfl

theorem lapse_lapse : (r.lapse s).lapse t = r.lapse (max s t) := by
  have hkey : ∀ k : KeyPair, (k.lapse s).lapse t = k.lapse (max s t) := fun k => by
    simp only [KeyPair.lapse, List.map_map, Function.comp_def,
      OutgoingCertificate.lapse_lapse]
  simp only [lapse, List.map_map, Function.comp_def, hkey]

theorem overdue_add_overdue : r.overdue s + (r.lapse s).overdue t = r.overdue (max s t) := by
  rw [overdue, overdue, outgoing_lapse, OutgoingCertificate.countP_lapse, overdue]

/-- Expiry never fails; it changes and counts just what was valid and ended before. Twice at two
times, in either order, comes to once at the later of them. -/
theorem expireOutgoing_exact : ∃ m n r' r'', r.expireOutgoing s = .ok (m, r') ∧
    Expires s r m r' ∧ r'.expireOutgoing t = .ok (n, r'') ∧
    r.expireOutgoing (max s t) = .ok (m + n, r'') ∧
    ∃ m' n' u, r.expireOutgoing t = .ok (m', u) ∧ u.expireOutgoing s = .ok (n', r'') ∧
      m' + n' = m + n := by
  refine ⟨r.overdue s, (r.lapse s).overdue t, r.lapse s, (r.lapse s).lapse t,
    r.expireOutgoing_eq s, r.expires_lapse s, expireOutgoing_eq _ t, ?_,
    r.overdue t, (r.lapse t).overdue s, r.lapse t, r.expireOutgoing_eq t, ?_, ?_⟩
  · rw [expireOutgoing_eq, overdue_add_overdue, lapse_lapse]
  · rw [expireOutgoing_eq, lapse_lapse, lapse_lapse, Time.max_comm]
  · rw [overdue_add_overdue, overdue_add_overdue, Time.max_comm]

end KeyRing

end ResourcePki
