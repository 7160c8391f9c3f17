import ResourcePki.Proofs.Issuance.Numbering
import ResourcePki.Proofs.Issuance.Signing

/-! The serial numbers of everything that was ever signed. An attempt at a command numbers what it
has signed one by one, from the counter of the issuer on. If it succeeds, the next attempt goes on
from there. If it fails, the issuer is put back as it was with its counter, but a signature cannot
be taken back: the numbers may be given out again. -/

namespace ResourcePki

open ResourcePki.Action

section counters

variable {ca ca' : CertificateAuthority} {t u : CaTree} {id : CaId}

theorem CertificateAuthority.Edits.nextSerial_le (h : ca.Edits ca') :
    ca.nextSerial ≤ ca'.nextSerial := by
  induction h with
  | refl => exact Nat.le_refl _
  | @tail ca₁ ca₂ _ hedit ih =>
    refine Nat.le_trans ih ?_
    obtain hsame | ⟨r, r', hr, hr', hring⟩ := hedit.ring
    · have hserial : ca₂.nextSerial = ca₁.nextSerial := by rw [nextSerial, hsame, nextSerial]
      exact Nat.le_of_eq hserial.symm
    · rw [nextSerial_of_keys hr, nextSerial_of_keys hr']
      obtain ⟨-, hnext⟩ | ⟨-, hnext⟩ := hring.serials
      · exact hnext
      · exact hnext ▸ Nat.le_succ _

theorem CaTree.Edited.nextSerial_le (h : t.Edited u) (id : CaId) :
    t.nextSerial id ≤ u.nextSerial id := by
  cases hca : t.get? id with
  | none =>
    rw [CaTree.nextSerial, hca]
    exact Nat.zero_le _
  | some ca =>
    obtain ⟨ca', hca', hedits⟩ := h.kept id ca hca
    rw [CaTree.nextSerial_of_get? hca, CaTree.nextSerial_of_get? hca']
    exact hedits.nextSerial_le

theorem CertificateAuthority.DistinctSerials.lt_next (h : ca.DistinctSerials) {n : Nat}
    (hn : n ∈ ca.serials) : n < ca.nextSerial := by
  cases hkeys : ca.keys? with
  | none =>
    rw [serials, outgoing, hkeys] at hn
    cases hn
  | some r =>
    rw [serials_of_keys hkeys] at hn
    rw [nextSerial_of_keys hkeys]
    exact (h r hkeys).lt_next n hn

/-- The CA under a number has a key, in use or not. -/
def CaTree.Owns (t : CaTree) (id : CaId) (key : String) : Prop :=
  ∃ ca, t.get? id = some ca ∧ key ∈ ca.skis

theorem CaTree.SignsWith.owns {key : String} (h : t.SignsWith id key) : t.Owns id key := by
  obtain ⟨ca, r, hca, hkeys, hkey⟩ := h
  refine ⟨ca, hca, ?_⟩
  rw [CertificateAuthority.skis, CertificateAuthority.pairs, hkeys]
  exact KeyRing.signingKey?_mem hkey

theorem CertificateAuthority.Edits.skis_subset (h : ca.Edits ca') : ca.skis ⊆ ca'.skis := by
  induction h with
  | refl => exact List.Subset.refl _
  | @tail ca₁ ca₂ _ hedit ih =>
    refine List.Subset.trans ih ?_
    obtain hsame | ⟨r, r', hr, hr', hring⟩ := hedit.ring
    · have hskis : ca₂.skis = ca₁.skis := by rw [skis, pairs, hsame, skis, pairs]
      exact hskis ▸ List.Subset.refl _
    · rw [skis, pairs, hr, skis, pairs, hr']
      exact hring.skis_subset

theorem CaTree.Edited.owns (h : t.Edited u) {key : String} (howns : t.Owns id key) :
    u.Owns id key := by
  obtain ⟨ca, hca, hkey⟩ := howns
  obtain ⟨ca', hca', hedits⟩ := h.kept id ca hca
  exact ⟨ca', hca', hedits.skis_subset hkey⟩

end counters

namespace Signing

variable {n m k : Nat} {before middle after : List Signing}

/-- The signings, of which the last one comes first, are numbered one by one from `n` on. -/
def Consecutive (n : Nat) (l : List Signing) : Prop :=
  (l.map (·.template.serial)).reverse = List.range' n l.length

theorem Consecutive.bounds {l : List Signing} (h : Consecutive n l) {g : Signing} (hg : g ∈ l) :
    n ≤ g.template.serial ∧ g.template.serial < n + l.length := by
  have hmem : g.template.serial ∈ (l.map (·.template.serial)).reverse :=
    List.mem_reverse.mpr (List.mem_map_of_mem hg)
  rw [h] at hmem
  exact List.mem_range'_1.mp hmem

theorem Consecutive.descending {l : List Signing} (h : Consecutive n l) :
    l.Pairwise fun g g' => g'.template.serial < g.template.serial := by
  have hlt : (l.map (·.template.serial)).reverse.Pairwise (· < ·) := by
    rw [h]
    exact List.pairwise_lt_range'
  exact List.pairwise_map.mp (List.pairwise_reverse.mp hlt)

/-- The new signings are numbered one by one; the counter goes from `n` to `m`. -/
def Counted (n m : Nat) (before after : List Signing) : Prop :=
  ∃ new, after = new ++ before ∧ m = n + new.length ∧ Consecutive n new

theorem Counted.refl (n : Nat) (l : List Signing) : Counted n n l l := ⟨[], rfl, rfl, rfl⟩

theorem Counted.one {g : Signing} (h : g.template.serial = n) (l : List Signing) :
    Counted n (n + 1) l (g :: l) := ⟨[g], rfl, rfl, congrArg (fun i => [i]) h⟩

theorem Counted.trans (h : Counted n m before middle) (h' : Counted m k middle after) :
    Counted n k before after := by
  obtain ⟨new, rfl, rfl, hnew⟩ := h
  obtain ⟨new', rfl, rfl, hnew'⟩ := h'
  refine ⟨new' ++ new, (List.append_assoc ..).symm, ?_, ?_⟩
  · rw [List.length_append]
    omega
  · rw [Consecutive, List.map_append, List.reverse_append, hnew, hnew', List.length_append,
      Nat.add_comm new'.length, List.range'_append_1]

end Signing

open Signing

theorem KeyRing.Answered.counted {r r' : KeyRing} {q : ChildRequest} {signer : Signer} {now : Time}
    {signings signings' : List Signing} {answer : Except Error IncomingCertificate}
    (h : Answered r q signer now signings answer r' signings') :
    Counted r.nextSerial r'.nextSerial signings signings' := by
  cases h with
  | unable => exact .refl _ _
  | refused => exact .one rfl _
  | issued => exact .one rfl _

theorem Certification.align_counted (terms : CertificationTerms) (c : Certification) :
    Counted c.parentKeys.nextSerial (align terms c).2.parentKeys.nextSerial c.signings
      (align terms c).2.signings := by
  unfold align
  split
  · exact .refl _ _
  · refine (certify_keep terms c.child.subjectKeys c
      (P := fun c' => Counted c.parentKeys.nextSerial c'.parentKeys.nextSerial c.signings
        c'.signings) ?_ (.refl _ _))
    rintro c' ski - hcounted
    obtain ⟨answer, hanswered, -⟩ := issue_answered terms c' ski
    exact hcounted.trans hanswered.counted

/-- From one session to the next nothing was signed, or the issuer had some signed and counted. -/
def Session.Numbered (issuer : Option CaId) (t t' : Session Journal) : Prop :=
  t'.memory.signings = t.memory.signings ∨ ∃ p, issuer = some p ∧
    Counted (t.work.tree.nextSerial p) (t'.work.tree.nextSerial p) t.memory.signings
      t'.memory.signings

namespace Services

variable {s : Services} {timing : IssuanceTiming} {id : CaId} {t t' : Session Journal}

theorem Signed.numbered (h : s.Signed timing id t t') :
    t.Numbered (t.work.tree.parent? id) t' := by
  cases h with
  | nothing hsame => exact .inl hsame
  | @aligned p parent ca keys resources c hca hp hne hparent hkeys halign hsignings htree =>
    refine .inr ⟨p, (CaTree.parent?_of_get? hca).trans hp, ?_⟩
    rw [htree, CaTree.nextSerial_set_ne (Ne.symm hne), CaTree.nextSerial_set_self,
      CertificateAuthority.nextSerial_of_keys (CertificateAuthority.keys?_withKeys hkeys _),
      CaTree.nextSerial_of_get? hparent, CertificateAuthority.nextSerial_of_keys hkeys, hsignings,
      ← halign]
    exact Certification.align_counted ..

theorem SignedNew.numbered {parent : CaId} (h : s.SignedNew timing id parent t t') :
    t.Numbered (some parent) t' := by
  cases h with
  | nothing hsame => exact .inl hsame
  | @inserted t₀ ca hid hlink hins hsame h =>
    subst hid
    obtain ⟨-, hlink', old, hold, hnew⟩ := CaTree.insert_child hins hlink
    -- The parent of the new CA has one child more now, and counts as it did before.
    have hcounter : t₀.work.tree.nextSerial parent = t.work.tree.nextSerial parent := by
      rw [CaTree.nextSerial_of_get? hold, CaTree.nextSerial_of_get? hnew]
      rfl
    have hnumbered := h.numbered
    rw [hlink', Session.Numbered, hsame] at hnumbered
    refine hnumbered.imp_right ?_
    rintro ⟨p, hp, hcounted⟩
    obtain rfl := Option.some.inj hp
    exact ⟨parent, rfl, hcounter ▸ hcounted⟩

end Services

theorem Handler.forCommand_numbered (s : Services) (policy : IssuancePolicy) (command : CaCommand)
    (t : Session Journal) :
    t.Numbered (command.issuer? t.work.tree)
      ((forCommand s policy command.type).handle command t).2 := by
  obtain ⟨parent, hissuer, h⟩ | ⟨hissuer, h⟩ := forCommand_signed s policy command t
  · exact hissuer ▸ h.numbered
  · exact hissuer ▸ h.numbered

/-- One attempt at a command: who was to issue what it brings about, what it had signed, the last
certificate first, and whether it succeeded, so that what it did was kept. -/
structure Attempt where
  issuer : Option CaId
  signings : List Signing
  kept : Bool

namespace Dispatcher

section trail

variable (d : Dispatcher Journal) (command : CaCommand)

def attempted (e : Engine Journal) : Attempt where
  issuer := command.issuer? e.tree
  signings :=
    let signings := (d.attempt command e).2.memory.signings
    signings.take (signings.length - e.memory.signings.length)
  kept := (d.attempt command e).1.isOk

/-- The attempts that `attempts` makes. -/
def trail (done : Nat) : Nat → Engine Journal → List Attempt
  | 0, e => [d.attempted command e]
  | left + 1, e => d.attempted command e ::
    match d.attempt command e with
    | (.ok _, _) => []
    | (.error err, e) =>
      if err.isTransient then trail (done + 1) left (e.note (.retrying command (done + 1) err))
      else []

end trail

variable {s : Services} {policy : IssuancePolicy} {retries : Nat} {command : CaCommand}

theorem Handled.numbered {t t' : Session Journal} {r : Except Error Unit}
    (h : Handled command (.forCommand s policy command.type :: checkingHandlers policy) t r t') :
    t.Numbered (command.issuer? t.work.tree) t' := by
  have hnumbered := Handler.forCommand_numbered s policy command t
  cases h with
  | stop hhandle =>
    rw [hhandle] at hnumbered
    exact hnumbered
  | next hhandle hrest =>
    rw [hhandle] at hnumbered
    rw [checkingHandlers_eq] at hrest
    obtain ⟨-, hwork, -⟩ := hrest.checking policy.nodup_models
    rw [Session.Numbered, hwork, hrest.signings_checking]
    exact hnumbered

/-- What an attempt has signed, with keys of the issuer, is numbered from the counter of the issuer
on, which goes up by as much if the attempt is kept. -/
theorem attempted_counted (s : Services) (policy : IssuancePolicy) (retries : Nat)
    (command : CaCommand) (e : Engine Journal) :
    let d := standard s policy retries
    let a := d.attempted command e
    (d.attempt command e).2.memory.signings = a.signings ++ e.memory.signings ∧
      (a.signings = [] ∨ ∃ p, a.issuer = some p ∧ (∀ g ∈ a.signings, e.tree.SignsWith p g.key) ∧
        Consecutive (e.tree.nextSerial p) a.signings ∧ (a.kept = true →
          (d.attempt command e).2.tree.nextSerial p =
            e.tree.nextSerial p + a.signings.length)) := by
  intro d a
  obtain ⟨r, t, hr, hresult, htree, hmemory⟩ :=
    attempt_outcome (d := d) throughWork_standard command e
  rw [turn_standard] at hr
  have htake : ∀ {new : List Signing}, t.memory.signings = new ++ e.memory.signings →
      a.signings = new := by
    intro new hnew
    change ((d.attempt command e).2.memory.signings).take _ = new
    rw [hmemory, hnew, List.length_append, Nat.add_sub_cancel_right, List.take_left]
  rw [hmemory]
  obtain hsame | ⟨p, hp, new, hnew, hcounter, hserials⟩ := hr.numbered
  · have hsame' : t.memory.signings = [] ++ e.memory.signings := hsame
    rw [htake hsame']
    exact ⟨hsame', .inl rfl⟩
  · rw [htake hnew]
    refine ⟨hnew, .inr ⟨p, hp, fun g hg => ?_, hserials, fun hkept => ?_⟩⟩
    · obtain ⟨new', hnew', hasked⟩ := hr.added
      rw [List.append_cancel_right (hnew.symm.trans hnew')] at hg
      obtain ⟨q, hq, hsigns⟩ := (hasked g hg).issuer
      exact Option.some.inj (hq.symm.trans hp) ▸ hsigns
    have hok : (d.attempt command e).1.isOk = true := hkept
    rw [hresult] at hok
    cases r with
    | error err => cases hok
    | ok u =>
      rw [htree]
      exact hcounter

end Dispatcher

/-- What the attempts on the way from one state of the system to another have signed. -/
structure Engine.Numbers (e : Engine Journal) (trail : List Attempt) (e' : Engine Journal) :
    Prop where
  signings : e'.memory.signings = trail.reverse.flatMap (·.signings) ++ e.memory.signings
  edited : e.tree.Edited e'.tree
  descending : ∀ a ∈ trail,
    a.signings.Pairwise fun g g' => g'.template.serial < g.template.serial
  above : ∀ a ∈ trail, ∀ g ∈ a.signings, ∃ p, a.issuer = some p ∧
    e.tree.nextSerial p ≤ g.template.serial
  below : ∀ a ∈ trail, a.kept = true → ∀ g ∈ a.signings, ∀ p, a.issuer = some p →
    g.template.serial < e'.tree.nextSerial p
  owned : ∀ a ∈ trail, ∀ g ∈ a.signings, ∃ p, a.issuer = some p ∧ e'.tree.Owns p g.key
  apart : trail.Pairwise fun a b => a.kept = true → a.issuer = b.issuer →
    ∀ g ∈ a.signings, ∀ g' ∈ b.signings, g.template.serial < g'.template.serial

namespace Engine

variable {e e' e'' : Engine Journal} {l l' : List Attempt}

/-- Nothing was signed. -/
theorem Numbers.quiet (hsame : e'.memory.signings = e.memory.signings)
    (hedited : e.tree.Edited e'.tree) : e.Numbers [] e' where
  signings := hsame
  edited := hedited
  descending _ ha := absurd ha List.not_mem_nil
  above _ ha := absurd ha List.not_mem_nil
  below _ ha := absurd ha List.not_mem_nil
  owned _ ha := absurd ha List.not_mem_nil
  apart := .nil

theorem Numbers.trans (h : e.Numbers l e') (h' : e'.Numbers l' e'') :
    e.Numbers (l ++ l') e'' where
  signings := by
    rw [h'.signings, h.signings, List.reverse_append, List.flatMap_append, List.append_assoc]
  edited := h.edited.trans h'.edited
  descending a ha := (List.mem_append.mp ha).elim (h.descending a) (h'.descending a)
  above a ha g hg := by
    rcases List.mem_append.mp ha with ha | ha
    · exact h.above a ha g hg
    · obtain ⟨p, hp, hle⟩ := h'.above a ha g hg
      exact ⟨p, hp, Nat.le_trans (h.edited.nextSerial_le p) hle⟩
  below a ha hkept g hg p hp := by
    rcases List.mem_append.mp ha with ha | ha
    · exact Nat.lt_of_lt_of_le (h.below a ha hkept g hg p hp) (h'.edited.nextSerial_le p)
    · exact h'.below a ha hkept g hg p hp
  owned a ha g hg := by
    rcases List.mem_append.mp ha with ha | ha
    · obtain ⟨p, hp, howns⟩ := h.owned a ha g hg
      exact ⟨p, hp, h'.edited.owns howns⟩
    · exact h'.owned a ha g hg
  apart := by
    refine List.pairwise_append.mpr ⟨h.apart, h'.apart, ?_⟩
    -- The counter stands between what was kept before and what is signed from there on.
    intro a ha b hb hkept hissuer g hg g' hg'
    obtain ⟨p, hp, hle⟩ := h'.above b hb g' hg'
    exact Nat.lt_of_lt_of_le (h.below a ha hkept g hg p (hissuer.trans hp)) hle

theorem numbers_attempt (s : Services) (policy : IssuancePolicy) (retries : Nat)
    (command : CaCommand) (e : Engine Journal) :
    e.Numbers [(Dispatcher.standard s policy retries).attempted command e]
      ((Dispatcher.standard s policy retries).attempt command e).2 := by
  obtain ⟨hsignings, hcounted⟩ := Dispatcher.attempted_counted s policy retries command e
  -- With no attempt to follow, executing the command is this attempt.
  have hedited : e.tree.Edited ((Dispatcher.standard s policy 0).execute command e).2.tree :=
    edited_execute command e
  change e.tree.Edited ((Dispatcher.standard s policy retries).attempt command e).2.tree at hedited
  generalize (Dispatcher.standard s policy retries).attempted command e = a at *
  generalize (Dispatcher.standard s policy retries).attempt command e = result at *
  obtain hnone | ⟨p, hp, hsigns, hserials, hkept⟩ := hcounted
  · have hempty : ∀ g, g ∉ a.signings := fun g => hnone ▸ List.not_mem_nil
    refine ⟨by simpa using hsignings, hedited, ?_, ?_, ?_, ?_, List.pairwise_singleton ..⟩
    · exact List.forall_mem_singleton.mpr (hnone ▸ .nil)
    · exact List.forall_mem_singleton.mpr fun g hg => absurd hg (hempty g)
    · exact List.forall_mem_singleton.mpr fun _ g hg => absurd hg (hempty g)
    · exact List.forall_mem_singleton.mpr fun g hg => absurd hg (hempty g)
  · refine ⟨by simpa using hsignings, hedited, ?_, ?_, ?_, ?_, List.pairwise_singleton ..⟩
    · exact List.forall_mem_singleton.mpr hserials.descending
    · exact List.forall_mem_singleton.mpr fun g hg => ⟨p, hp, (hserials.bounds hg).1⟩
    · refine List.forall_mem_singleton.mpr fun h g hg q hq => ?_
      obtain rfl := Option.some.inj (hp.symm.trans hq)
      rw [hkept h]
      exact (hserials.bounds hg).2
    · exact List.forall_mem_singleton.mpr fun g hg => ⟨p, hp, hedited.owns (hsigns g hg).owns⟩

/-- A failed attempt that may pass is followed by another one, with all counters as they were. -/
theorem numbers_attempts (s : Services) (policy : IssuancePolicy) (retries : Nat)
    (command : CaCommand) (done left : Nat) (e : Engine Journal) :
    e.Numbers ((Dispatcher.standard s policy retries).trail command done left e)
      ((Dispatcher.standard s policy retries).attempts command done left e).2 := by
  induction left generalizing done e with
  | zero => exact numbers_attempt s policy retries command e
  | succ left ih =>
    have hfirst := numbers_attempt s policy retries command e
    rw [Dispatcher.trail, Dispatcher.attempts]
    generalize (Dispatcher.standard s policy retries).attempt command e = result at hfirst ⊢
    obtain ⟨r, e₁⟩ := result
    cases r with
    | ok status => exact hfirst
    | error err =>
      dsimp only
      by_cases htransient : err.isTransient = true
      · rw [if_pos htransient, if_pos htransient]
        have hnoted : e₁.Numbers [] (e₁.note (.retrying command (done + 1) err)) :=
          .quiet rfl (.refl _)
        exact hfirst.trans (hnoted.trans (ih (done + 1) _))
      · rw [if_neg htransient, if_neg htransient]
        exact hfirst

/-- The course of a system, with all attempts at its commands. -/
inductive Trail : Engine Journal → List Attempt → Engine Journal → Prop
  | refl (e : Engine Journal) : Trail e [] e
  | execute {e e' : Engine Journal} {l : List Attempt} (s : Services) (policy : IssuancePolicy)
      (retries : Nat) (command : CaCommand) (h : Trail e l e') :
      Trail e (l ++ (Dispatcher.standard s policy retries).trail command 0 retries e')
        ((Dispatcher.standard s policy retries).execute command e').2
  | confirm {e e' : Engine Journal} {l : List Attempt} (id : CaId) (key : Nat)
      (place : ObjectPlace) (h : Trail e l e') :
      Trail e l { e' with tree := e'.tree.confirm id key place }

theorem Trail.numbers (h : e.Trail l e') : e.Numbers l e' := by
  induction h with
  | refl => exact .quiet rfl (.refl _)
  | execute s policy retries command _ ih =>
    exact ih.trans (numbers_attempts s policy retries command 0 retries _)
  | @confirm e' l id key place _ ih =>
    have hquiet : e'.Numbers [] { e' with tree := e'.tree.confirm id key place } :=
      .quiet rfl (CaTree.edited_confirm _ id key place)
    have hafter := ih.trans hquiet
    rwa [List.append_nil] at hafter

end Engine

/-- Everything that was signed belongs to one of the attempts, was signed with a key of the issuer,
and an attempt never gives a serial number twice. The numbers are beyond those on record at first,
and beyond those of every earlier attempt for the same issuer that succeeded. In 64 bits they are in
this order as long as no `nextSerial` reaches 2^64 - 1, be it in an attempt that fails. -/
theorem serials_signed_once {e e' : Engine Journal} {trail : List Attempt}
    (hrun : e.Trail trail e') (h : e.tree.DistinctSerials) :
    e'.memory.signings = trail.reverse.flatMap (·.signings) ++ e.memory.signings ∧
      (∀ a ∈ trail, a.signings.Pairwise fun g g' => g'.template.serial < g.template.serial) ∧
      (∀ a ∈ trail, ∀ g ∈ a.signings, ∃ p, a.issuer = some p ∧ e'.tree.Owns p g.key ∧
        ∀ ca, e.tree.get? p = some ca → ∀ n ∈ ca.serials, n < g.template.serial) ∧
      trail.Pairwise fun a b => a.kept = true → a.issuer = b.issuer →
        ∀ g ∈ a.signings, ∀ g' ∈ b.signings, g.template.serial < g'.template.serial := by
  have hnumbers := hrun.numbers
  refine ⟨hnumbers.signings, hnumbers.descending, fun a ha g hg => ?_, hnumbers.apart⟩
  obtain ⟨p, hp, hle⟩ := hnumbers.above a ha g hg
  obtain ⟨q, hq, howns⟩ := hnumbers.owned a ha g hg
  obtain rfl := Option.some.inj (hp.symm.trans hq)
  refine ⟨p, hp, howns, fun ca hca n hn => Nat.lt_of_lt_of_le ?_ hle⟩
  rw [CaTree.nextSerial_of_get? hca]
  exact (h p ca hca).lt_next hn

namespace Chain

def update : CaCommand := ⟨3, .background, .updateAllIncoming⟩

/-- As `renewing`, and again nearly a year later. -/
def lateRenewing : Services := { renewing with now := Time.addWeeks ⟨0⟩ 102 }

/-- After `recounted`, the upper member is updated once more. -/
def countedOn : Engine Journal :=
  ((Dispatcher.standard lateRenewing {} 0).execute update recounted).2

def countedTrail : List Attempt :=
  ([] ++ (Dispatcher.standard unsigned {} 1).trail update 0 1 counted ++
    (Dispatcher.standard renewing {} 0).trail update 0 0
      ((Dispatcher.standard unsigned {} 1).execute update counted).2) ++
    (Dispatcher.standard lateRenewing {} 0).trail update 0 0 recounted

theorem trail_countedOn : counted.Trail countedTrail countedOn :=
  .execute lateRenewing {} 0 _ (.execute renewing {} 0 _ (.execute unsigned {} 1 _ (.refl counted)))

/-- Two attempts fail and one succeeds, all with the number 2; the attempt after them goes on. -/
theorem serials_signed_once_in_chain :
    (counted.Trail countedTrail countedOn ∧ counted.tree.DistinctSerials) ∧
      countedTrail.map (fun a => (a.kept, a.issuer, a.signings.map (·.template.serial))) =
        [(false, some 2, [2]), (false, some 2, [2]), (true, some 2, [2]), (true, some 2, [3])] ∧
      countedTrail.Pairwise fun a b => a.kept = true → a.issuer = b.issuer →
        ∀ g ∈ a.signings, ∀ g' ∈ b.signings, g.template.serial < g'.template.serial := by
  have htrail : countedTrail.map (fun a => (a.kept, a.issuer, a.signings.map (·.template.serial))) =
      [(false, some 2, [2]), (false, some 2, [2]), (true, some 2, [2]), (true, some 2, [3])] := by
    simp only [countedTrail, recounted, Dispatcher.standard_eq]
    decide +kernel
  obtain ⟨-, -, -, hapart⟩ := serials_signed_once trail_countedOn distinctSerials_counted
  exact ⟨⟨trail_countedOn, distinctSerials_counted⟩, htrail, hapart⟩

/-! The upper member gets a second key, for which a certificate cannot be had at once -/

def twinUpper : CertificateAuthority := upper.modifyKeys fun r =>
  { r with nextSerial := 2, pairs := r.pairs ++ [KeyPair.requestCertificate { ski := "V" }] }

def twinned : Engine Journal := { tree := counted.tree.set 3 twinUpper, memory := {} }

/-- As `renewing`, but the signer refuses the second key. -/
def refusing : Services :=
  { renewing with sign := fun _ _ template =>
      if template.subjectKey = "V" then .error (.signer "signer refuses") else .ok [] }

/-- The update fails at the second key, and is done once more when the signer has changed its
mind. -/
def signedAgain : Engine Journal :=
  ((Dispatcher.standard renewing {} 0).execute update
    ((Dispatcher.standard refusing {} 0).execute update twinned).2).2

theorem course_signedAgain : twinned.Course signedAgain :=
  .execute renewing {} 0 _ (.execute refusing {} 0 _ (.refl twinned))

theorem distinctSerials_twinned : twinned.tree.DistinctSerials := .of_entries (by decide +kernel)

/-- The first key was certified in both attempts, with one serial number. -/
theorem serial_signed_again :
    (twinned.Course signedAgain ∧ twinned.tree.DistinctSerials ∧ twinned.memory.signings = []) ∧
      (signedAgain.memory.signings.filter (·.outcome.isOk)).map
          (fun g => (g.key, g.template.subjectKey, g.template.serial)) =
        [("P", "V", 3), ("P", "U", 2), ("P", "U", 2)] ∧
      ¬ (signedAgain.memory.signings.filter (·.outcome.isOk)).Pairwise fun g g' =>
        g.key = g'.key → g.template.serial ≠ g'.template.serial := by
  refine ⟨⟨course_signedAgain, distinctSerials_twinned, rfl⟩, ?_, ?_⟩
  · rw [signedAgain, Dispatcher.standard_eq, Dispatcher.standard_eq]
    decide +kernel
  · rw [signedAgain, Dispatcher.standard_eq, Dispatcher.standard_eq]
    decide +kernel

end Chain

end ResourcePki
