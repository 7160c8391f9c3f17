import ResourcePki.Proofs.Key.Issuing
import ResourcePki.Issuance.Update

/-! A CA as a subject, which holds certificates, and as an issuer. Its `face` is what is left of it
without what it issued, and its `trunk` without what it holds; either is changed by one side of an
issuance only. -/

namespace ResourcePki

namespace CertificateAuthority

variable {ca ca' : CertificateAuthority}

/-- The keys of a CA that are managed here. -/
def pairs (ca : CertificateAuthority) : List KeyPair := (ca.keys?.map (·.pairs)).getD []

/-- Every certificate that the CA ever issued. -/
def outgoing (ca : CertificateAuthority) : List OutgoingCertificate :=
  (ca.keys?.map (·.outgoing)).getD []

/-- The valid certificates that a child has for its key. -/
def validFor (ca : CertificateAuthority) (child : CaId) (key : String) :
    List OutgoingCertificate := ca.valid.filter (·.isFor child key)

def skis (ca : CertificateAuthority) : List String := ca.pairs.map (·.ski)

/-- A CA without what it issued. -/
def face (ca : CertificateAuthority) : CertificateAuthority := ca.modifyKeys (·.face)

/-- A CA without what it holds. -/
def trunk (ca : CertificateAuthority) : CertificateAuthority := ca.modifyKeys (·.trunk)

theorem keys?_withKeys {r : KeyRing} (h : ca.keys? = some r) (r' : KeyRing) :
    (ca.withKeys r').keys? = some r' := by
  obtain ⟨id, name, parent, children, kind⟩ := ca
  cases kind <;> cases h <;> rfl

theorem keys?_modifyKeys (ca : CertificateAuthority) (f : KeyRing → KeyRing) :
    (ca.modifyKeys f).keys? = ca.keys?.map f := by
  unfold modifyKeys
  cases h : ca.keys? with
  | none => exact h
  | some r => exact keys?_withKeys h (f r)

theorem withKeys_withKeys (ca : CertificateAuthority) (r r' : KeyRing) :
    (ca.withKeys r).withKeys r' = ca.withKeys r' := by
  unfold withKeys
  cases ca.kind <;> rfl

theorem withKeys_self {r : KeyRing} (h : ca.keys? = some r) : ca.withKeys r = ca := by
  obtain ⟨id, name, parent, children, kind⟩ := ca
  cases kind <;> cases h <;> rfl

theorem modifyKeys_of_some {r : KeyRing} (h : ca.keys? = some r) (f : KeyRing → KeyRing) :
    ca.modifyKeys f = ca.withKeys (f r) := by
  unfold modifyKeys
  rw [h]

theorem modifyKeys_of_none (h : ca.keys? = none) (f : KeyRing → KeyRing) :
    ca.modifyKeys f = ca := by
  unfold modifyKeys
  rw [h]

theorem modifyKeys_modifyKeys (ca : CertificateAuthority) (f g : KeyRing → KeyRing) :
    (ca.modifyKeys f).modifyKeys g = ca.modifyKeys fun r => g (f r) := by
  cases h : ca.keys? with
  | none => rw [modifyKeys_of_none h, modifyKeys_of_none h, modifyKeys_of_none h]
  | some r =>
    have hf : (ca.modifyKeys f).keys? = some (f r) := by rw [keys?_modifyKeys, h, Option.map_some]
    rw [modifyKeys_of_some hf, modifyKeys_of_some h, modifyKeys_of_some h, withKeys_withKeys]

theorem modifyKeys_withKeys {r r' : KeyRing} {f : KeyRing → KeyRing} (h : ca.keys? = some r)
    (hf : f r' = f r) : (ca.withKeys r').modifyKeys f = ca.modifyKeys f := by
  rw [modifyKeys_of_some (keys?_withKeys h r'), withKeys_withKeys, hf, modifyKeys_of_some h]

theorem modifyKeys_congr {f g : KeyRing → KeyRing} (h : ∀ r, ca.keys? = some r → f r = g r) :
    ca.modifyKeys f = ca.modifyKeys g := by
  cases hkeys : ca.keys? with
  | none => rw [modifyKeys_of_none hkeys, modifyKeys_of_none hkeys]
  | some r => rw [modifyKeys_of_some hkeys, modifyKeys_of_some hkeys, h r hkeys]

theorem modifyKeys_id (ca : CertificateAuthority) : (ca.modifyKeys fun r => r) = ca := by
  cases h : ca.keys? with
  | none => exact modifyKeys_of_none h _
  | some r => rw [modifyKeys_of_some h, withKeys_self h]

/-! What a change of the keys leaves alone -/

section modifyKeys

variable (ca : CertificateAuthority) (f : KeyRing → KeyRing)

theorem id_modifyKeys : (ca.modifyKeys f).id = ca.id := by
  unfold modifyKeys
  split <;> rfl

theorem name_modifyKeys : (ca.modifyKeys f).name = ca.name := by
  unfold modifyKeys
  split <;> rfl

theorem parent_modifyKeys : (ca.modifyKeys f).parent = ca.parent := by
  unfold modifyKeys
  split <;> rfl

theorem identity_modifyKeys : (ca.modifyKeys f).identity = ca.identity := by
  rw [identity, id_modifyKeys, name_modifyKeys]
  rfl

theorem certifiable_modifyKeys (lookup : ResourceLookup) :
    (ca.modifyKeys f).certifiable lookup = ca.certifiable lookup := by
  -- The kind of the CA stays, and what may be asked for goes by that.
  unfold certifiable
  rw [identity_modifyKeys, name_modifyKeys]
  unfold modifyKeys withKeys keys?
  cases hkind : ca.kind <;> simp [CaKind.keys?, CaKind.withKeys, hkind]

theorem pairs_modifyKeys :
    (ca.modifyKeys f).pairs = (ca.keys?.map fun r => (f r).pairs).getD [] := by
  rw [pairs, keys?_modifyKeys, Option.map_map]
  rfl

theorem subjectKeys_modifyKeys (h : ∀ r, ca.keys? = some r → (f r).activeSkis = r.activeSkis) :
    (ca.modifyKeys f).subjectKeys = ca.subjectKeys := by
  cases hkeys : ca.keys? with
  | none => rw [modifyKeys_of_none hkeys]
  | some r =>
    rw [modifyKeys_of_some hkeys]
    obtain ⟨id, name, parent, children, kind⟩ := ca
    cases kind <;> cases hkeys <;> exact h _ rfl

end modifyKeys

/-! What each view still shows -/

theorem of_face {α : Sort _} {g : CertificateAuthority → α} (hg : ∀ ca, g ca.face = g ca)
    (h : ca'.face = ca.face) : g ca' = g ca :=
  (hg ca').symm.trans ((congrArg g h).trans (hg ca))

theorem of_trunk {α : Sort _} {g : CertificateAuthority → α} (hg : ∀ ca, g ca.trunk = g ca)
    (h : ca'.trunk = ca.trunk) : g ca' = g ca :=
  (hg ca').symm.trans ((congrArg g h).trans (hg ca))

theorem id_face (ca : CertificateAuthority) : ca.face.id = ca.id := id_modifyKeys ca _

theorem parent_face (ca : CertificateAuthority) : ca.face.parent = ca.parent :=
  parent_modifyKeys ca _

theorem id_trunk (ca : CertificateAuthority) : ca.trunk.id = ca.id := id_modifyKeys ca _

theorem certifiable_face (lookup : ResourceLookup) (ca : CertificateAuthority) :
    ca.face.certifiable lookup = ca.certifiable lookup := ca.certifiable_modifyKeys _ lookup

theorem certifiable_trunk (lookup : ResourceLookup) (ca : CertificateAuthority) :
    ca.trunk.certifiable lookup = ca.certifiable lookup := ca.certifiable_modifyKeys _ lookup

theorem certified_keys_face (r : KeyRing) : r.face.certified = r.certified :=
  KeyRing.certified_of_map (f := (·.shell)) rfl (fun _ => rfl) fun _ => rfl

theorem certified_face (ca : CertificateAuthority) : ca.face.certified = ca.certified := by
  rw [certified, face, keys?_modifyKeys, certified]
  cases ca.keys? with
  | none => rfl
  | some r => exact certified_keys_face r

theorem subjectKeys_face (ca : CertificateAuthority) : ca.face.subjectKeys = ca.subjectKeys := by
  refine subjectKeys_modifyKeys ca _ fun r _ => ?_
  exact KeyRing.activeSkis_of_map (f := (·.shell)) rfl (fun _ => rfl) fun _ => rfl

theorem subjectKeys_trunk (ca : CertificateAuthority) :
    ca.trunk.subjectKeys = ca.subjectKeys := by
  refine subjectKeys_modifyKeys ca _ fun r _ => ?_
  -- What a trunk still tells of a key is whether it was revoked.
  exact KeyRing.activeSkis_of_map (f := (·.trunk)) rfl (fun k => k.isRevoked_trunk) fun _ => rfl

theorem pairs_face (ca : CertificateAuthority) : ca.face.pairs = ca.pairs.map (·.shell) := by
  rw [face, pairs_modifyKeys, pairs]
  cases ca.keys? <;> rfl

theorem pairs_trunk (ca : CertificateAuthority) : ca.trunk.pairs = ca.pairs.map (·.trunk) := by
  rw [trunk, pairs_modifyKeys, pairs]
  cases ca.keys? <;> rfl

theorem outgoing_eq (ca : CertificateAuthority) : ca.outgoing = ca.pairs.flatMap (·.outgoing) := by
  rw [outgoing, pairs]
  cases ca.keys? <;> rfl

theorem valid_eq (ca : CertificateAuthority) : ca.valid = ca.outgoing.filter (·.isValid) := by
  rw [valid, outgoing]
  cases ca.keys? with
  | none => rfl
  | some r => exact r.valid_eq

theorem outgoing_trunk (ca : CertificateAuthority) : ca.trunk.outgoing = ca.outgoing := by
  rw [outgoing_eq, pairs_trunk, List.flatMap_map, outgoing_eq]
  rfl

theorem valid_trunk (ca : CertificateAuthority) : ca.trunk.valid = ca.valid := by
  rw [valid_eq, outgoing_trunk, valid_eq]

theorem skis_face (ca : CertificateAuthority) : ca.face.skis = ca.skis := by
  rw [skis, pairs_face, List.map_map]
  rfl

theorem skis_trunk (ca : CertificateAuthority) : ca.trunk.skis = ca.skis := by
  rw [skis, pairs_trunk, List.map_map]
  rfl

theorem exists_shell_of_face (h : ca'.face = ca.face) {k' : KeyPair} (hk : k' ∈ ca'.pairs) :
    ∃ k ∈ ca.pairs, k.shell = k'.shell := by
  have hshells : ca'.pairs.map (·.shell) = ca.pairs.map (·.shell) := by
    rw [← pairs_face, h, pairs_face]
  have hmem : k'.shell ∈ ca.pairs.map (·.shell) := hshells ▸ List.mem_map_of_mem hk
  exact List.mem_map.mp hmem

theorem exists_key_of_face (h : ca'.face = ca.face) {k' : KeyPair} (hk' : k' ∈ ca'.pairs) :
    ∃ k ∈ ca.pairs, k.ski = k'.ski ∧ k.incoming = k'.incoming ∧ k.status = k'.status := by
  obtain ⟨k, hk, hshell⟩ := exists_shell_of_face h hk'
  exact ⟨k, hk, congrArg (·.ski) hshell, congrArg (·.incoming) hshell, congrArg (·.status) hshell⟩

theorem face_withKeys {r r' : KeyRing} (h : ca.keys? = some r) (hface : r'.face = r.face) :
    (ca.withKeys r').face = ca.face := modifyKeys_withKeys h hface

theorem trunk_modifyKeys {f : KeyRing → KeyRing} (h : ∀ r, (f r).trunk = r.trunk) :
    (ca.modifyKeys f).trunk = ca.trunk := by
  rw [trunk, modifyKeys_modifyKeys, trunk]
  exact modifyKeys_congr fun r _ => h r

theorem mem_validFor {child : CaId} {key : String} {c : OutgoingCertificate} :
    c ∈ ca.validFor child key ↔ c ∈ ca.outgoing ∧ c.isValid = true ∧ c.subject = .child child ∧
      c.certificate.subjectKey = key := by
  rw [validFor, valid_eq, List.mem_filter, List.mem_filter, OutgoingCertificate.isFor_iff,
    and_assoc]

theorem validFor_of_keys {r : KeyRing} (h : ca.keys? = some r) (child : CaId) (key : String) :
    ca.validFor child key = r.validFor child key := by
  rw [validFor, valid, h]
  rfl

theorem outgoing_of_keys {r : KeyRing} (h : ca.keys? = some r) : ca.outgoing = r.outgoing := by
  rw [outgoing, h]
  rfl

theorem valid_of_keys {r : KeyRing} (h : ca.keys? = some r) : ca.valid = r.valid := by
  rw [valid, h]
  rfl

end CertificateAuthority

end ResourcePki
