import ResourcePki.Proofs.Key.Editing

/-! A certificate in place of another. What a child has for one of its keys is revoked just when the
new certificate is signed and has its place, so no request that fails takes anything away; and one
that succeeds leaves alone whatever is not for that key of that child. -/

namespace ResourcePki

open OutgoingCertificate

namespace OutgoingCertificate

variable {c c' : OutgoingCertificate}

/-- What becomes of a certificate when a child is issued a new one for a key. -/
structure GivesWay (child : CaId) (key : String) (now : Time) (c c' : OutgoingCertificate) :
    Prop where
  revoked : c.isValid = true → c.isFor child key = true →
    c' = c.revoke now ∧ c'.status = .revoked ∧ c'.isPublishable = false
  kept : ¬ (c.isValid = true ∧ c.isFor child key = true) → c' = c

theorem givesWay (child : CaId) (key : String) (now : Time) (c : OutgoingCertificate) :
    GivesWay child key now c
      (if KeyPair.concerns (.child child) (some key) c then c.revoke now else c) where
  revoked hvalid hfor := by
    have hconcerns : KeyPair.concerns (.child child) (some key) c = true := by
      rw [KeyRing.concerns_some, hvalid, hfor]
      rfl
    rw [if_pos hconcerns]
    refine ⟨rfl, ?_, isPublishable_revoke_of_valid hvalid⟩
    rw [OutgoingCertificate.revoke, if_pos hvalid]
  kept hnot := by
    rw [if_neg]
    rwa [KeyRing.concerns_some, Bool.and_eq_true, and_comm]

end OutgoingCertificate

/-- The key `k'` is `k` after a child was issued `o`: the certificates of `k` are still on record,
those that gave way are revoked, and `o` comes after them if it is the key that signed. -/
structure KeyPair.Replaces (signing : String) (child : CaId) (o : OutgoingCertificate) (now : Time)
    (k k' : KeyPair) : Prop where
  shell : k'.shell = k.shell
  outgoing : ∃ before,
    List.Forall₂ (GivesWay child o.certificate.subjectKey now) k.outgoing before ∧
    k'.outgoing = if k.ski = signing then before ++ [o] else before

namespace KeyRing

variable {r r' : KeyRing} {q : ChildRequest} {o : OutgoingCertificate} {inc : IncomingCertificate}
  {signer : Signer} {now : Time} {signings signings' : List Signing} {key : String}

/-- The ring `r'` is `r` after it issued `o`, signed with a certified current key. -/
structure Replaced (q : ChildRequest) (signer : Signer) (now : Time) (signings : List Signing)
    (r r' : KeyRing) (o : OutgoingCertificate) (inc : IncomingCertificate) : Prop extends
    Issued q r r' o inc where
  signed : ∃ k ∈ r'.pairs, k.isCurrent = true ∧ k.incoming.isSome = true ∧ o ∈ k.outgoing ∧
    signer signings k.ski (q.template r.nextSerial) = .ok o.certificate.der ∧
    List.Forall₂ (KeyPair.Replaces k.ski q.child.id o now) r.pairs r'.pairs
  isPublishable : o.isPublishable = true
  nextSerial : r'.nextSerial = r.nextSerial + 1

/-- No other key has the identifier of the one that signed, so that one is found to store `o`. -/
theorem pairs_replaceChild (hskis : r.skis.Nodup) (key : String) (o : OutgoingCertificate)
    (child : CaId) (now : Time) : (r.replaceChild key o child now).pairs = r.pairs.map fun k =>
      if k.ski = key then
        (k.revokeFor (.child child) (some o.certificate.subjectKey) now).addOutgoing o
      else k.revokeFor (.child child) (some o.certificate.subjectKey) now := by
  have hskis' : ((r.revokeChild child (some o.certificate.subjectKey) now).pairs.map
      (·.ski)).Nodup := by
    change (r.revokeChild child (some o.certificate.subjectKey) now).skis.Nodup
    rwa [skis_revokeChild]
  rw [replaceChild, modify, modifyFirst_eq_map hskis', revokeChild, List.map_map]
  rfl

theorem replaces_replaceChild (hskis : r.skis.Nodup) (key : String) (o : OutgoingCertificate)
    (child : CaId) (now : Time) : List.Forall₂ (KeyPair.Replaces key child o now) r.pairs
      (r.replaceChild key o child now).pairs := by
  rw [pairs_replaceChild hskis]
  refine forall₂_map (fun k => ⟨?_, ?_⟩) r.pairs
  · split <;> rfl
  · refine ⟨_, forall₂_map (givesWay child o.certificate.subjectKey now) k.outgoing, ?_⟩
    split <;> rfl

theorem signed_replaceChild (hskis : r.skis.Nodup) (hkey : r.signingKey? = some key)
    (o : OutgoingCertificate) (child : CaId) (now : Time) :
    ∃ k ∈ (r.replaceChild key o child now).pairs, k.ski = key ∧ k.isCurrent = true ∧
      k.incoming.isSome = true ∧ o ∈ k.outgoing := by
  obtain ⟨k, hk, hski, hcurrent, hcertified⟩ := exists_signingKey hkey
  rw [pairs_replaceChild hskis]
  refine ⟨_, List.mem_map_of_mem hk, ?_⟩
  rw [if_pos hski]
  exact ⟨hski, hcurrent, hcertified, List.mem_append_right _ (List.mem_singleton_self o)⟩

/-- Issuing replaces what a child has for one of its keys, or nothing. -/
theorem issueChild_replaces_or_keeps {answer : Except Error IncomingCertificate}
    (hskis : r.skis.Nodup)
    (h : r.issueChild q signer now signings = (answer, r', signings')) :
    (∀ inc, answer = .ok inc → ∃ o, Replaced q signer now signings r r' o inc) ∧
      ∀ err, answer = .error err → r' = r ∨ r' = { r with nextSerial := r.nextSerial + 1 } := by
  have hanswered := r.issueChild_answered q signer now signings
  rw [h] at hanswered
  cases hanswered with
  | unable => exact ⟨nofun, fun _ _ => .inl rfl⟩
  | refused => exact ⟨nofun, fun _ _ => .inr rfl⟩
  | @issued key der o uri hkey hsigned hplace huri =>
    refine ⟨fun inc hinc => ?_, nofun⟩
    obtain rfl := Except.ok.inj hinc
    obtain ⟨object, place, hstatus, -, rfl⟩ := publish_ok hplace
    let next : KeyRing := { r with nextSerial := r.nextSerial + 1 }
    obtain ⟨k, hk, rfl, hcurrent, hcertified, hstored⟩ :=
      signed_replaceChild (r := next) hskis hkey _ q.child.id now
    refine ⟨_, { issued_replaceChild (signingKey?_mem hkey) rfl rfl rfl ⟨rfl, huri⟩ rfl with
      signed := ⟨k, hk, hcurrent, hcertified, hstored, hsigned,
        replaces_replaceChild (r := next) hskis k.ski _ q.child.id now⟩
      isPublishable := ?_
      nextSerial := rfl }⟩
    rw [isPublishable, Option.any_some, PublishedObject.isPublished, hstatus]
    rfl

end KeyRing

namespace Succession

def validity : Validity := ⟨⟨0⟩, ⟨10⟩⟩

def directory : RsyncUri := ⟨"rsync://repository/module/"⟩

def certificate (key : String) : SignedCertificate where
  serial := 1
  subjectName := "CN=" ++ key
  subjectKey := key
  resources := ∅
  validity := validity
  der := []

def issued (child : CaId) (key : String) : OutgoingCertificate where
  certificate := certificate key
  subject := .child child
  status := .current
  embedded := false
  object := some { filename := key ++ ".cer", directory, content := [], validity }
  publicationUri := some ⟨"rsync://repository/module/" ++ key ++ ".cer"⟩

/-- The child has two valid certificates for its key, one of them from the key before. -/
def ring : KeyRing where
  pairs := [
    { ski := "OLD", status := .old, outgoing := [issued 2 "B"] },
    { ski := "NEW", status := .current, incoming := some ⟨certificate "NEW", directory, ∅⟩,
      outgoing := [issued 2 "B", issued 3 "C"] }]
  directory := directory
  nextSerial := 4

def request : KeyRing.ChildRequest := ⟨⟨2, "CN=B"⟩, "B", ∅, validity⟩

def answer : IncomingCertificate where
  certificate := { request.template 4 with der := [] }
  publicationUri := ⟨"rsync://repository/module/B.cer"⟩
  inherited := ∅

def signs : Signer := fun _ _ _ => .ok []

def after : KeyRing := (ring.issueChild request signs ⟨5⟩ []).2.1

/-- Both certificates of the child give way to one, and that of the other child stays. -/
theorem issueChild_replaces_in_succession :
    ring.skis.Nodup ∧ (ring.validFor 2 "B").length = 2 ∧
      (ring.issueChild request signs ⟨5⟩ []).1 = .ok answer ∧
      (∃ o, KeyRing.Replaced request signs ⟨5⟩ [] ring after o answer) ∧
      after.validFor 3 "C" = [issued 3 "C"] := by
  have hskis : ring.skis.Nodup := by decide
  have hok : (ring.issueChild request signs ⟨5⟩ []).1 = .ok answer := by decide +kernel
  have hrun : ring.issueChild request signs ⟨5⟩ [] =
      (.ok answer, after, (ring.issueChild request signs ⟨5⟩ []).2.2) := Prod.ext hok rfl
  obtain ⟨o, ho⟩ := (KeyRing.issueChild_replaces_or_keeps hskis hrun).1 answer rfl
  refine ⟨hskis, by decide +kernel, hok, ⟨o, ho⟩, ?_⟩
  rw [ho.validFor_other 3 "C" (by decide)]
  decide +kernel

end Succession

end ResourcePki
