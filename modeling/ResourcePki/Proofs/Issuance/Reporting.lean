import ResourcePki.Proofs.Issuance.Histories
import ResourcePki.Proofs.Publishing.Records

/-! Whether the effects that commands report are real. Every new certificate uses up a serial number
of its issuer, whatever else it replaces, and what was taken from a child cannot be taken again; so
an update that reports an effect has changed the tree. -/

namespace ResourcePki

namespace Certification

variable {terms : CertificationTerms} {c c' : Certification}

theorem nextSerial_issue {ski : String} {u : Unit} (h : c.issue terms ski = (.ok u, c')) :
    c'.parentKeys.nextSerial = c.parentKeys.nextSerial + 1 := by
  obtain ⟨inc, parentKeys, signings, hissue, rfl⟩ := issue_delivered h
  exact KeyRing.nextSerial_issueChild hissue

theorem nextSerial_certify {keys : List String} {b : Bool}
    (h : certify terms keys c = (.ok b, c')) :
    c.parentKeys.nextSerial + b.toNat ≤ c'.parentKeys.nextSerial := by
  induction keys generalizing c b with
  | nil =>
    obtain ⟨hb, rfl⟩ := Prod.mk.inj h
    obtain rfl := Except.ok.inj hb
    exact Nat.le_refl _
  | cons ski rest ih =>
    obtain ⟨-, hcertify⟩ | ⟨rfl, c₁, b₁, hissue, hcertify⟩ := certify_cons_ok h
    · exact ih hcertify
    · have hrest := ih hcertify
      rw [nextSerial_issue hissue] at hrest
      exact Nat.le_trans (Nat.le_add_right _ _) hrest

/-- Bringing certificates in line reports an effect only if it had one. -/
theorem align_true (h : align terms c = (.ok true, c')) :
    ¬ (c'.parentKeys = c.parentKeys ∧ c'.child = c.child) := by
  rintro ⟨hkeys, hchild⟩
  unfold align at h
  split at h
  · obtain ⟨hheld, rfl⟩ := Prod.mk.inj h
    have hafter := isHeld_withdraw terms.now c
    rw [isHeld, hkeys, hchild] at hafter
    have hbefore : c.isHeld = true := Except.ok.inj hheld
    rw [isHeld, hafter] at hbefore
    cases hbefore
  · have hserial := nextSerial_certify h
    rw [hkeys] at hserial
    exact absurd hserial (Nat.not_succ_le_self _)

end Certification

/-- The commands that had an effect whenever they say so; the others always say so. -/
def CommandType.reporting : List CommandType :=
  [activateHostedCa, updateAllIncoming, expireOutgoing, provisionPublisher, deletePublisher]

namespace Services

variable {s : Services} {policy : IssuancePolicy} {j : Journal} {t t' : CaTree} {id : CaId}
  {details : CommandDetails} {b : Bool}

theorem Updated.ne_of_true {timing : IssuanceTiming} (h : s.Updated timing t id true t') :
    t' ≠ t := by
  intro heq
  generalize hb : true = b at h
  cases h with
  | skipped => cases hb
  | @aligned ca parent p keys resources signings b c hca _ hne hparent hkeys halign =>
    subst hb
    -- Neither the parent nor the child would have changed, so nothing was brought in line.
    have hchild : some c.child = some ca := by
      rw [← hca, ← CaTree.get?_set_self (t := t.set p _), heq]
    have hissuer : some (parent.withKeys c.parentKeys) = some parent := by
      rw [← hparent, ← CaTree.get?_set_self (t := t), ← CaTree.get?_set_ne (Ne.symm hne), heq]
    have hkeys' := CertificateAuthority.keys?_withKeys hkeys c.parentKeys
    rw [Option.some.inj hissuer, hkeys] at hkeys'
    exact Certification.align_true halign ⟨(Option.some.inj hkeys').symm, Option.some.inj hchild⟩

theorem Changes.eq_of_false {limit : Nat} {ca ca' : CertificateAuthority}
    (h : s.Changes limit j t details ca false ca') : ca' = ca := by
  generalize hb : false = b at h
  cases h with
  | unmanaged | registered => rfl
  | @expire _ keys now hkeys =>
    have hnone : keys.overdue now = 0 := by simpa using hb
    rw [keys.lapse_of_overdue now hnone, CertificateAuthority.withKeys_self hkeys]
  | _ => cases hb

theorem Changes.ne_of_true {limit : Nat} {ca ca' : CertificateAuthority}
    (hdetails : details.type ∈ CommandType.reporting)
    (h : s.Changes limit j t details ca true ca') : ca' ≠ ca := by
  rintro heq
  generalize hb : true = b at h
  cases h with
  | request => exact absurd hdetails (by decide)
  | revoke =>
    have hnot : CommandType.processRevokedKey ∉ CommandType.reporting := by decide
    exact hnot hdetails
  | unmanaged | registered => cases hb
  | @expire _ keys now hkeys =>
    have hsome : 0 < keys.overdue now := of_decide_eq_true hb.symm
    have hkeys' := CertificateAuthority.keys?_withKeys hkeys (keys.lapse now)
    rw [heq, hkeys] at hkeys'
    exact keys.lapse_ne_of_overdue now hsome (Option.some.inj hkeys').symm
  | @register _ _ handle request response h =>
    obtain ⟨publishers, hbefore, hnew, -, hafter⟩ := CertificateAuthority.addPublisher_ok h
    have hcontains : (publishers.insert handle ⟨request, response⟩).contains handle = true :=
      SortedMap.contains_insert.mpr (.inl rfl)
    rw [heq, hbefore] at hafter
    rw [← Option.some.inj hafter, hnew] at hcontains
    cases hcontains
  | remove h =>
    obtain ⟨publishers, hbefore, hcontains, hafter⟩ := CertificateAuthority.removePublisher_ok h
    rw [heq, hbefore] at hafter
    rw [Option.some.inj hafter] at hcontains
    exact (SortedMap.contains_erase.mp hcontains).1 rfl

theorem Performed.eq_of_false (h : s.Performed policy j t id details false t') : t' = t := by
  generalize hb : false = b at h
  cases h with
  | present => rfl
  | created => cases hb
  | updated hupdated _ =>
    subst hb
    exact hupdated.eq_of_false
  | changed hca h =>
    subst hb
    rw [h.eq_of_false, CaTree.set_of_get? hca]

theorem Performed.ne_of_true (hdetails : details.type ∈ CommandType.reporting)
    (h : s.Performed policy j t id details true t') : t' ≠ t := by
  generalize hb : true = b at h
  cases h with
  | present => cases hb
  | created hnone hanswer hins hupdated =>
    -- There was nobody under the number before.
    rintro rfl
    have hnew := (CaTree.insert_ok hins).2.2.2.1
    obtain ⟨ca', hca', -⟩ := hupdated.sameLinks.symm.get? hnew
    cases hnone.symm.trans hca'
  | updated hupdated _ =>
    subst hb
    exact hupdated.ne_of_true
  | @changed ca ca' _ _ hca h =>
    subst hb
    intro heq
    have hsame : (t.set id ca').get? id = some ca' := CaTree.get?_set_self
    rw [heq, hca] at hsame
    exact h.ne_of_true hdetails (Option.some.inj hsame).symm

end Services

namespace Dispatcher

variable {s : Services} {policy : IssuancePolicy} {retries : Nat} {command : CaCommand}

/-- Whoever relies on the report of a command is told the truth: without an effect the tree is as
it was, and with one it is not. -/
theorem execute_reports_truth {e e' : Engine Journal} {status : CommandStatus}
    (h : (standard s policy retries).execute command e = (.ok status, e')) :
    (status.hadEffect = false → e'.tree = e.tree) ∧
      (command.type ∈ CommandType.reporting → status.hadEffect = true → e'.tree ≠ e.tree) := by
  obtain ⟨j, -, hperformed⟩ := execute_standard_performed h
  refine ⟨fun hnone => ?_, fun htype hsome => ?_⟩
  · rw [hnone] at hperformed
    exact hperformed.eq_of_false
  · rw [hsome] at hperformed
    exact hperformed.ne_of_true htype

end Dispatcher

namespace Chain

/-- In the chain the update of the upper member takes its certificate away. -/
theorem execute_reports_truth_in_chain :
    (Dispatcher.standard services {} 3).execute ⟨3, .background, .updateAllIncoming⟩ engine =
      (.ok { hadEffect := true }, updated) ∧ updated.tree ≠ tree := by
  obtain ⟨-, hchanged⟩ := Dispatcher.execute_reports_truth execute_updated
  exact ⟨execute_updated, hchanged (by decide) rfl⟩

end Chain

end ResourcePki
