import ResourcePki.Proofs.Certificate.Record
import Mathlib.Data.List.Induction

/-! The life of a certificate that a CA issued. Its status and the state of its object change side
by side, by calls that come in any order and at any time. Each call moves both forward or not at
all, so what holds along a whole history follows from one call. -/

namespace ResourcePki

/-- The ways in which the status of a certificate changes. -/
inductive OutgoingStatus.Moves : OutgoingStatus → OutgoingStatus → Prop
  | revoke : Moves .current .revoked
  | expire : Moves .current .expired
  | lapse : Moves .revoked .expired

/-- What may be asked of a certificate in the course of its life. -/
inductive LifeCall where
  | withdraw
  | markPublished
  | revoke (now : Time)
  | expire (now : Time)
deriving DecidableEq, Repr

namespace OutgoingCertificate

variable {c c' c'' born : OutgoingCertificate} {call : LifeCall} {answer : Except Error Unit}
  {err : Error}

/-- What a call answers, and how it leaves the certificate. -/
def perform (c : OutgoingCertificate) : LifeCall → Except Error Unit × OutgoingCertificate
  | .withdraw => (.ok (), c.withdraw)
  | .markPublished => (.ok (), c.markPublished)
  | .revoke now => (.ok (), c.revoke now)
  | .expire now =>
    match c.expire now with
    | .ok c' => (.ok (), c')
    | .error err => (.error err, c)

/-- The certificate after some calls, whatever they answered. -/
def after (c : OutgoingCertificate) (calls : List LifeCall) : OutgoingCertificate :=
  calls.foldl (fun c call => (c.perform call).2) c

/-- What a call comes to: a current certificate is revoked and one that is over expires, either of
them just once, while `withdraw` and `markPublished` have to do with the object only. -/
inductive Performed (c : OutgoingCertificate) :
    LifeCall → Except Error Unit → OutgoingCertificate → Prop
  | withdraw : Performed c .withdraw (.ok ()) c.withdraw
  | markPublished : Performed c .markPublished (.ok ()) c.markPublished
  | revoke {now : Time} (hcurrent : c.status = .current) : Performed c (.revoke now) (.ok ())
      { c.withdraw with status := .revoked, revocationTime := some now }
  | passOver {now : Time} (hover : c.status ≠ .current) : Performed c (.revoke now) (.ok ()) c
  | refuse {now : Time} (hearly : now ≤ c.notAfter) : Performed c (.expire now)
      (.error (.illegalState (.stillValid c.certificate.serial c.notAfter))) c
  | expire {now : Time} (hlate : ¬ now ≤ c.notAfter) (hstatus : c.status ≠ .expired) :
      Performed c (.expire now) (.ok ()) { c.withdraw with status := .expired }
  | keep {now : Time} (hlate : ¬ now ≤ c.notAfter) (hstatus : c.status = .expired) :
      Performed c (.expire now) (.ok ()) c

theorem performed_perform (c : OutgoingCertificate) (call : LifeCall) :
    Performed c call (c.perform call).1 (c.perform call).2 := by
  cases call with
  | withdraw => exact .withdraw
  | markPublished => exact .markPublished
  | revoke now =>
    change Performed c _ _ (c.revoke now)
    unfold OutgoingCertificate.revoke
    split
    · rename_i hvalid
      exact .revoke (isValid_iff.mp hvalid)
    · rename_i hvalid
      exact .passOver fun hcurrent => hvalid (isValid_iff.mpr hcurrent)
  | expire now =>
    dsimp only [perform]
    unfold OutgoingCertificate.expire
    by_cases hearly : now ≤ c.notAfter
    · rw [if_pos hearly]
      exact .refuse hearly
    · rw [if_neg hearly]
      by_cases hexpired : c.isExpired = true
      · rw [if_pos hexpired]
        exact .keep hearly (of_decide_eq_true hexpired)
      · rw [if_neg hexpired]
        exact .expire hearly fun hstatus => hexpired (decide_eq_true hstatus)

/-! What holds at any moment -/

/-- A certificate as it may be met at any moment of its life. -/
structure Sound (c : OutgoingCertificate) : Prop where
  current_of_publishable : c.isPublishable = true → c.status = .current
  revocationTime_of_current : c.status = .current → c.revocationTime = none
  revocationTime_of_revoked : c.status = .revoked → ∃ t, c.revocationTime = some t
  object_isSome : c.object.isSome = !c.embedded
  place : ∀ object, c.object = some object →
    ∃ uri, object.uri = .ok uri ∧ c.publicationUri = some uri

variable {certificate : SignedCertificate} {subject : Subject} {embedded : Bool}
  {filename : Option String} {directory : Option RsyncUri}

/-- A certificate is born with its place in the repository, or within another object. -/
theorem issue_ok (h : issue certificate subject embedded filename directory = .ok born) :
    (embedded = true ∧ born = embed certificate subject) ∨
      embedded = false ∧ ∃ object uri, object.uri = .ok uri ∧ born =
        { certificate, subject, status := .current, embedded := false, object := some object,
          publicationUri := some uri } := by
  unfold issue at h
  cases embedded with
  | true => exact .inl ⟨rfl, (Except.ok.inj h).symm⟩
  | false =>
    rw [if_neg Bool.false_ne_true] at h
    cases filename with
    | none => cases h
    | some filename =>
      cases directory with
      | none => cases h
      | some directory =>
        obtain ⟨object, uri, -, hborn⟩ := publish_ok h
        exact .inr ⟨rfl, object, uri, hborn⟩

theorem sound_issue (h : issue certificate subject embedded filename directory = .ok born) :
    born.Sound := by
  obtain ⟨rfl, rfl⟩ | ⟨rfl, object, uri, huri, rfl⟩ := issue_ok h
  · exact ⟨fun _ => rfl, fun _ => rfl, nofun, rfl, nofun⟩
  · refine ⟨fun _ => rfl, fun _ => rfl, nofun, rfl, fun object' hobject => ?_⟩
    obtain rfl := Option.some.inj hobject
    exact ⟨uri, huri, rfl⟩

theorem Sound.of_withdraw (h : c.Sound) {status : OutgoingStatus} {t : Option Time}
    (hcurrent : status = .current → t = none) (hrevoked : status = .revoked → ∃ u, t = some u) :
    Sound { c.withdraw with status, revocationTime := t } where
  current_of_publishable hpublishable :=
    absurd (c.isPublishable_withdraw.symm.trans hpublishable) Bool.false_ne_true
  revocationTime_of_current := hcurrent
  revocationTime_of_revoked := hrevoked
  object_isSome := Option.isSome_map.trans h.object_isSome
  place object' hobject' := by
    obtain ⟨object, hobject, rfl⟩ := Option.map_eq_some_iff.mp hobject'
    exact h.place object hobject

theorem Sound.of_markPublished (h : c.Sound) : c.markPublished.Sound where
  current_of_publishable hpublishable :=
    h.current_of_publishable (c.isPublishable_markPublished.symm.trans hpublishable)
  revocationTime_of_current := h.revocationTime_of_current
  revocationTime_of_revoked := h.revocationTime_of_revoked
  object_isSome := Option.isSome_map.trans h.object_isSome
  place object' hobject' := by
    obtain ⟨object, hobject, rfl⟩ := Option.map_eq_some_iff.mp hobject'
    exact h.place object hobject

theorem Sound.performed (h : c.Sound) (hcall : Performed c call answer c') : c'.Sound := by
  cases hcall with
  | withdraw => exact h.of_withdraw h.revocationTime_of_current h.revocationTime_of_revoked
  | markPublished => exact h.of_markPublished
  | revoke => exact h.of_withdraw nofun fun _ => ⟨_, rfl⟩
  | expire => exact h.of_withdraw nofun nofun
  | passOver | refuse | keep => exact h

/-! What holds from one moment to a later one -/

/-- The certificate `c'` is `c` at a later moment. -/
structure Forward (c c' : OutgoingCertificate) : Prop where
  status : c'.status = c.status ∨ c.status.Moves c'.status
  revocationTime : ∀ t, c.revocationTime = some t → c'.revocationTime = some t
  isPublishable : c.isPublishable = false → c'.isPublishable = false
  certificate : c'.certificate = c.certificate
  subject : c'.subject = c.subject
  embedded : c'.embedded = c.embedded

theorem Forward.refl (c : OutgoingCertificate) : c.Forward c :=
  ⟨.inl rfl, fun _ => id, id, rfl, rfl, rfl⟩

theorem Forward.trans (h : c.Forward c') (h' : c'.Forward c'') : c.Forward c'' where
  status := by
    obtain hsame | hmoves := h.status
    · rw [← hsame]
      exact h'.status
    obtain hsame' | hmoves' := h'.status
    · rw [hsame']
      exact .inr hmoves
    -- The one way to move twice is to be revoked first and to expire then.
    generalize c.status = s, c'.status = s', c''.status = s'' at hmoves hmoves'
    cases hmoves <;> cases hmoves'
    exact .inr .expire
  revocationTime t ht := h'.revocationTime t (h.revocationTime t ht)
  isPublishable hgone := h'.isPublishable (h.isPublishable hgone)
  certificate := h'.certificate.trans h.certificate
  subject := h'.subject.trans h.subject
  embedded := h'.embedded.trans h.embedded

theorem Forward.of_withdraw {status : OutgoingStatus} {t : Option Time}
    (hstatus : status = c.status ∨ c.status.Moves status)
    (htime : ∀ u, c.revocationTime = some u → t = some u) :
    c.Forward { c.withdraw with status, revocationTime := t } :=
  ⟨hstatus, htime, fun _ => c.isPublishable_withdraw, rfl, rfl, rfl⟩

theorem Sound.forward (h : c.Sound) (hcall : Performed c call answer c') : c.Forward c' := by
  cases hcall with
  | withdraw => exact .of_withdraw (.inl rfl) fun _ => id
  | markPublished =>
    exact ⟨.inl rfl, fun _ => id, fun hgone => c.isPublishable_markPublished.trans hgone,
      rfl, rfl, rfl⟩
  | revoke hcurrent =>
    refine .of_withdraw (.inr (hcurrent ▸ .revoke)) fun u hu => ?_
    rw [h.revocationTime_of_current hcurrent] at hu
    cases hu
  | expire _ hstatus =>
    refine .of_withdraw (.inr ?_) fun _ => id
    cases hc : c.status with
    | current => exact .expire
    | revoked => exact .lapse
    | expired => exact absurd hc hstatus
  | passOver | refuse | keep => exact .refl c

/-! Histories -/

theorem after_append (c : OutgoingCertificate) (calls more : List LifeCall) :
    c.after (calls ++ more) = (c.after calls).after more := List.foldl_append

theorem Sound.after (h : c.Sound) (calls : List LifeCall) :
    (c.after calls).Sound ∧ c.Forward (c.after calls) := by
  induction calls generalizing c with
  | nil => exact ⟨h, .refl c⟩
  | cons call rest ih =>
    have hcall := c.performed_perform call
    obtain ⟨hsound, hforward⟩ := ih (h.performed hcall)
    exact ⟨hsound, (h.forward hcall).trans hforward⟩

/-- A time of revocation was there before a call, or is that of the call, which revoked. -/
theorem Performed.revocationTime_origin (hcall : Performed c call answer c') {t : Time}
    (ht : c'.revocationTime = some t) :
    c.revocationTime = some t ∨ call = .revoke t ∧ c.status = .current := by
  cases hcall with
  | revoke hcurrent =>
    obtain rfl := Option.some.inj ht
    exact .inr ⟨rfl, hcurrent⟩
  | withdraw | markPublished | expire | passOver | refuse | keep => exact .inl ht

theorem exists_revoke_of_revocationTime (hnone : c.revocationTime = none) (calls : List LifeCall)
    {t : Time} (ht : (c.after calls).revocationTime = some t) :
    ∃ before rest, calls = before ++ .revoke t :: rest ∧ (c.after before).status = .current := by
  -- The last call comes off, since the time may have been set by any call before it.
  induction calls using List.reverseRecOn with
  | nil => cases hnone.symm.trans ht
  | append_singleton calls call ih =>
    rw [after_append] at ht
    obtain hearlier | ⟨rfl, hcurrent⟩ :=
      ((c.after calls).performed_perform call).revocationTime_origin ht
    · obtain ⟨before, rest, rfl, hcurrent⟩ := ih hearlier
      exact ⟨before, rest ++ [call], by rw [List.append_assoc]; rfl, hcurrent⟩
    · exact ⟨calls, [], rfl, hcurrent⟩

/-- The one call that sets the time of revocation is the one that revokes a current certificate. -/
theorem Sound.revocationTime_iff (h : c.Sound) (hnone : c.revocationTime = none)
    (calls : List LifeCall) (t : Time) : (c.after calls).revocationTime = some t ↔
      ∃ before rest, calls = before ++ .revoke t :: rest ∧ (c.after before).status = .current := by
  constructor
  · exact exists_revoke_of_revocationTime hnone calls
  · rintro ⟨before, rest, rfl, hcurrent⟩
    have hrevoked : ((c.after before).perform (.revoke t)).2.revocationTime = some t := by
      change ((c.after before).revoke t).revocationTime = some t
      rw [OutgoingCertificate.revoke, if_pos (isValid_iff.mpr hcurrent)]
    have hsound := (h.after before).1.performed ((c.after before).performed_perform (.revoke t))
    rw [after_append]
    exact (hsound.after rest).2.revocationTime t hrevoked

theorem perform_error (h : (c.perform call).1 = .error err) : (c.perform call).2 = c ∧
    ∃ now, call = .expire now ∧ now ≤ c.notAfter ∧
      err = .illegalState (.stillValid c.certificate.serial c.notAfter) := by
  have hcall := c.performed_perform call
  generalize (c.perform call).1 = answer, (c.perform call).2 = next at hcall h
  cases hcall with
  | refuse hearly => exact ⟨rfl, _, rfl, hearly, (Except.error.inj h).symm⟩
  | withdraw | markPublished | revoke | expire | passOver | keep => cases h

/-- However often and in whatever order a certificate is withdrawn, confirmed, revoked and expired,
its life goes forward only, and it was revoked at the time of the one call that revoked it. -/
theorem life_goes_forward
    (h : issue certificate subject embedded filename directory = .ok born)
    (calls more : List LifeCall) :
    (born.after calls).Sound ∧
      (born.after calls).Forward ((born.after calls).after more) ∧
      ((born.after calls).certificate = certificate ∧ (born.after calls).subject = subject ∧
        (born.after calls).embedded = embedded) ∧
      (∀ t, (born.after calls).revocationTime = some t ↔ ∃ before rest,
        calls = before ++ .revoke t :: rest ∧ (born.after before).status = .current) ∧
      ∀ call err, ((born.after calls).perform call).1 = .error err →
        ((born.after calls).perform call).2 = born.after calls ∧
          ∃ now, call = .expire now ∧ now ≤ (born.after calls).notAfter ∧ err = .illegalState
            (.stillValid certificate.serial certificate.validity.notAfter) := by
  have hborn := sound_issue h
  obtain ⟨hsound, hforward⟩ := hborn.after calls
  have hnew : (born.certificate = certificate ∧ born.subject = subject ∧
      born.embedded = embedded) ∧ born.revocationTime = none := by
    obtain ⟨rfl, rfl⟩ | ⟨rfl, object, uri, -, rfl⟩ := issue_ok h
    · exact ⟨⟨rfl, rfl, rfl⟩, rfl⟩
    · exact ⟨⟨rfl, rfl, rfl⟩, rfl⟩
  obtain ⟨⟨hcertificate, hsubject, hembedded⟩, hnone⟩ := hnew
  have hlater : (born.after calls).certificate = certificate :=
    hforward.certificate.trans hcertificate
  refine ⟨hsound, (hsound.after more).2, ⟨hlater, ?_, ?_⟩,
    hborn.revocationTime_iff hnone calls, ?_⟩
  · exact hforward.subject.trans hsubject
  · exact hforward.embedded.trans hembedded
  · intro call err hfails
    obtain ⟨hsame, now, hcall, hearly, herr⟩ := perform_error hfails
    exact ⟨hsame, now, hcall, hearly, by rw [herr, notAfter, hlater]⟩

end OutgoingCertificate

namespace Brief

def certificate : SignedCertificate where
  serial := 7
  subjectName := "CN=brief"
  subjectKey := "B"
  resources := ∅
  validity := ⟨⟨0⟩, ⟨10⟩⟩
  der := [1, 2]

def directory : RsyncUri := ⟨"rsync://repository/module/"⟩

/-- Published on its own, and valid until ten. -/
def born : OutgoingCertificate where
  certificate := certificate
  subject := .child 2
  status := .current
  embedded := false
  object := some ⟨"B.cer", directory, [1, 2], ⟨⟨0⟩, ⟨10⟩⟩, .toBePublished⟩
  publicationUri := some ⟨"rsync://repository/module/B.cer"⟩

/-- It is revoked at six, after it was asked to expire too early, and expires at eleven. -/
def calls : List LifeCall :=
  [.markPublished, .expire ⟨3⟩, .revoke ⟨6⟩, .revoke ⟨8⟩, .markPublished, .expire ⟨11⟩]

theorem life_goes_forward_to_expiry :
    OutgoingCertificate.issue certificate (.child 2) false (some "B.cer") (some directory) =
        .ok born ∧
      (born.after (calls.take 3)).status = .revoked ∧ (born.after calls).status = .expired ∧
      (born.after (calls.take 3)).Forward (born.after calls) ∧
      (born.after calls).revocationTime = some ⟨6⟩ := by
  have hissue : OutgoingCertificate.issue certificate (.child 2) false (some "B.cer")
      (some directory) = .ok born := by
    decide +kernel
  obtain ⟨-, hforward, -⟩ :=
    OutgoingCertificate.life_goes_forward hissue (calls.take 3) (calls.drop 3)
  refine ⟨hissue, rfl, rfl, hforward, ?_⟩
  exact hforward.revocationTime _ rfl

end Brief

end ResourcePki
