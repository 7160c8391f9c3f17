import ResourcePki.Proofs.Issuance.Shares

/-! Certificates without what two issuances of one request differ in: the serial number, and the
bytes that were signed. Whether a certificate will do, which key signs and what is revoked does not
depend on these; so every step of an issuance is seen in the plain form of the ring as well. -/

namespace ResourcePki

def SignedCertificate.plain (c : SignedCertificate) : SignedCertificate :=
  { c with serial := 0, der := [] }

def IncomingCertificate.plain (c : IncomingCertificate) : IncomingCertificate :=
  { c with certificate := c.certificate.plain }

namespace OutgoingCertificate

/-- The object in the repository has the same bytes for its content. -/
def plain (c : OutgoingCertificate) : OutgoingCertificate :=
  { c with certificate := c.certificate.plain, object := c.object.map ({ · with content := [] }) }

theorem plain_revoke (c : OutgoingCertificate) (now : Time) :
    (c.revoke now).plain = c.plain.revoke now := by
  have hvalid : c.plain.isValid = c.isValid := rfl
  unfold revoke
  rw [hvalid]
  split
  · simp only [plain, withdraw, Option.map_map]
    rfl
  · rfl

/-- Neither the serial number nor the bytes bear on the place of a certificate. -/
theorem publish_plain (certificate : SignedCertificate) (subject : Subject) (filename : String)
    (directory : RsyncUri) :
    (publish certificate subject filename directory).map (·.plain) =
      publish certificate.plain subject filename directory := by
  unfold publish PublishedObject.uri
  dsimp only
  cases directory.join filename <;> rfl

end OutgoingCertificate

namespace KeyPair

def plain (k : KeyPair) : KeyPair :=
  { k with incoming := k.incoming.map (·.plain), outgoing := k.outgoing.map (·.plain) }

theorem plain_revokeFor (k : KeyPair) (subject : Subject) (key : Option String) (now : Time) :
    (k.revokeFor subject key now).plain = k.plain.revokeFor subject key now := by
  have hplain : ∀ c : OutgoingCertificate,
      (if concerns subject key c then c.revoke now else c).plain =
        if concerns subject key c.plain then c.plain.revoke now else c.plain := by
    intro c
    have hconcerns : concerns subject key c.plain = concerns subject key c := rfl
    rw [hconcerns]
    split
    · exact c.plain_revoke now
    · rfl
  simp only [plain, revokeFor, List.map_map, Function.comp_def, hplain]

theorem plain_addOutgoing (k : KeyPair) (c : OutgoingCertificate) :
    (k.addOutgoing c).plain = k.plain.addOutgoing c.plain := by
  simp [plain, addOutgoing]

theorem plain_receive (k : KeyPair) (c : IncomingCertificate) :
    (k.receive c).plain = k.plain.receive c.plain := by
  unfold receive activate plain
  dsimp only
  split <;> rfl

end KeyPair

namespace KeyRing

variable {choice : CertificateChoice}

def plain (r : KeyRing) : KeyRing := { r with pairs := r.pairs.map (·.plain) }

/-- The plain form of a share. -/
def part (choice : CertificateChoice) (r : KeyRing) : KeyRing := (r.share choice).plain

theorem outgoing_plain (r : KeyRing) : r.plain.outgoing = r.outgoing.map (·.plain) := by
  rw [outgoing, outgoing, List.map_flatMap, plain, List.flatMap_map]
  rfl

theorem map_modifyFirst_comm {g f h : KeyPair → KeyPair} (hg : ∀ k, (g k).ski = k.ski)
    (hf : ∀ k, g (f k) = h (g k)) (ski : String) (l : List KeyPair) :
    (modifyFirst ski f l).map g = modifyFirst ski h (l.map g) := by
  induction l with
  | nil => rfl
  | cons k rest ih =>
    rw [List.map_cons]
    unfold modifyFirst
    rw [hg]
    split
    · rw [List.map_cons, hf]
    · rw [List.map_cons, ih]

/-! What the plain form and a part still show -/

theorem find?_plain (r : KeyRing) (ski : String) :
    r.plain.find? ski = (r.find? ski).map (·.plain) := by
  unfold find? plain
  rw [List.find?_map]
  rfl

theorem activeSkis_plain (r : KeyRing) : r.plain.activeSkis = r.activeSkis :=
  activeSkis_of_map (f := (·.plain)) rfl (fun _ => rfl) fun _ => rfl

theorem signingKey?_part (choice : CertificateChoice) (r : KeyRing) :
    (r.part choice).signingKey? = r.signingKey? := by
  have hpairs : (r.part choice).pairs = r.pairs.map fun k => (k.share choice).plain := by
    rw [part, plain, share, List.map_map]
    rfl
  have hheld : ∀ k : KeyPair, (k.share choice).plain.incoming.isSome = k.incoming.isSome :=
    fun _ => Option.isSome_map
  exact signingKey?_of_map hpairs (fun _ => rfl) hheld fun _ => rfl

theorem validFor_part {child : CaId} {key : String} (h : choice (.child child) key = true)
    (r : KeyRing) :
    (r.part choice).validFor child key = (r.validFor child key).map (·.plain) := by
  have hchosen : ∀ c ∈ r.valid.filter (·.isFor child key), c.isChosen choice = true := by
    intro c hc
    obtain ⟨hsubject, hkey⟩ := OutgoingCertificate.isFor_iff.mp (List.mem_filter.mp hc).2
    rw [OutgoingCertificate.isChosen, hsubject, hkey, h]
  have hvalid : (r.part choice).valid = (r.valid.filter (·.isChosen choice)).map (·.plain) := by
    rw [valid_eq, part, outgoing_plain, List.filter_map, ← valid_share, valid_eq]
    rfl
  rw [validFor, validFor, hvalid, List.filter_map, ← List.filter_eq_self.mpr hchosen,
    List.filter_comm]
  rfl

/-- Whether a child has a certificate for its key that will do, and whether it has any at all. -/
theorem any_validChild_part {child : CaId} {key : String} {p : OutgoingCertificate → Bool}
    (h : choice (.child child) key = true) (hp : ∀ c, p c.plain = p c) (r : KeyRing) :
    ((r.part choice).validChild child key).any p = (r.validChild child key).any p := by
  rw [validChild_eq, validChild_eq, validFor_part h, List.head?_map, Option.any_map]
  simp only [hp]

theorem countChild_part {child : CaId} (h : ∀ key, choice (.child child) key = true)
    (r : KeyRing) : (r.part choice).countChild child none = 0 ↔ r.countChild child none = 0 := by
  simp only [countChild_none_eq_zero_iff, validFor_part (h _), List.map_eq_nil_iff]

/-! The steps of an issuance -/

theorem plain_receive (r : KeyRing) (ski : String) (c : IncomingCertificate) :
    (r.modify ski (·.receive c)).plain = r.plain.modify ski (·.receive c.plain) := by
  have hpairs := map_modifyFirst_comm (f := (·.receive c)) (h := (·.receive c.plain))
    (g := (·.plain)) (fun _ => rfl) (fun k => k.plain_receive c) ski r.pairs
  unfold plain modify
  dsimp only
  rw [hpairs]

theorem plain_clearIncoming (r : KeyRing) : r.clearIncoming.plain = r.plain.clearIncoming := by
  simp only [plain, clearIncoming, List.map_map]
  rfl

theorem part_revokeChild (choice : CertificateChoice) (r : KeyRing) (child : CaId)
    (key : Option String) (now : Time) :
    (r.revokeChild child key now).part choice = (r.part choice).revokeChild child key now := by
  rw [part, share_revokeChild]
  simp only [part, plain, revokeChild, List.map_map, Function.comp_def, KeyPair.plain_revokeFor]

theorem part_addOutgoing {c : OutgoingCertificate} (h : c.isChosen choice = true) (r : KeyRing)
    (ski : String) : (r.modify ski (·.addOutgoing c)).part choice =
      (r.part choice).modify ski (·.addOutgoing c.plain) := by
  have hstep : ∀ k : KeyPair, ((k.addOutgoing c).share choice).plain =
      (k.share choice).plain.addOutgoing c.plain := by
    intro k
    rw [KeyPair.share_addOutgoing_of h, KeyPair.plain_addOutgoing]
  have hpairs := map_modifyFirst_comm (f := (·.addOutgoing c)) (h := (·.addOutgoing c.plain))
    (g := fun k => (k.share choice).plain) (fun _ => rfl) hstep ski r.pairs
  unfold part plain share modify
  dsimp only
  rw [List.map_map, List.map_map]
  simp only [Function.comp_def]
  rw [hpairs]

theorem part_replaceChild {c : OutgoingCertificate} (h : c.isChosen choice = true) (r : KeyRing)
    (key : String) (child : CaId) (now : Time) : (r.replaceChild key c child now).part choice =
      (r.part choice).replaceChild key c.plain child now := by
  rw [replaceChild, part_addOutgoing h, part_revokeChild]
  rfl

end KeyRing

namespace CertificateAuthority

def plain (ca : CertificateAuthority) : CertificateAuthority := ca.modifyKeys (·.plain)

theorem identity_plain (ca : CertificateAuthority) : ca.plain.identity = ca.identity :=
  ca.identity_modifyKeys _

theorem keys?_plain (ca : CertificateAuthority) : ca.plain.keys? = ca.keys?.map (·.plain) :=
  ca.keys?_modifyKeys _

theorem subjectKeys_plain (ca : CertificateAuthority) : ca.plain.subjectKeys = ca.subjectKeys :=
  ca.subjectKeys_modifyKeys _ fun r _ => r.activeSkis_plain

theorem plain_modifyKeys {f f' : KeyRing → KeyRing} (h : ∀ r, (f r).plain = f' r.plain)
    (ca : CertificateAuthority) : (ca.modifyKeys f).plain = ca.plain.modifyKeys f' := by
  rw [plain, plain, modifyKeys_modifyKeys, modifyKeys_modifyKeys]
  exact modifyKeys_congr fun r _ => h r

end CertificateAuthority

end ResourcePki
