import ResourcePki.Authority.Basic

/-!
The dealings of the all-resources CA with the trust anchor: it asks for certificates for its
children, and is told when one of its keys has been revoked.
-/

namespace ResourcePki

/-- Creates key pairs and gives their identifiers, given what it answered before, last one first. -/
abbrev KeySource := List (Except Error String) → Except Error String

/-- A new key pair that waits for its certificate, and what the source of keys has now answered. -/
def KeySource.take (source : KeySource) (answers : List (Except Error String)) :
    Except Error KeyPair × List (Except Error String) :=
  let answer := source answers
  (answer.map fun ski => KeyPair.requestCertificate { ski }, answer :: answers)

namespace CertificateAuthority

/-- The key that signs a trust anchor request: the first that is not revoked. -/
def usableKey (ca : CertificateAuthority) (keys : KeyRing) : Except Error String :=
  match keys.activeSkis with
  | ski :: _ => .ok ski
  | [] => .error (.illegalState (.noUsableKey ca.name))

/--
Prepares the request to the trust anchor for some children. The first request of a CA creates its
key pair.
-/
def prepareRequest (ca : CertificateAuthority) (children : List CaIdentity) (source : KeySource)
    (id : Uuid) (now : Time) (answers : List (Except Error String)) :
    Except Error CertificateAuthority × List (Except Error String) :=
  match ca.kind with
  | .allResources keys _ =>
    let request (keys : KeyRing) : Except Error CertificateAuthority := do
      let ski ← ca.usableKey keys
      let request := TrustAnchorRequest.ofChildren id now ca.name ski .all children
      return { ca with kind := .allResources keys (some request) }
    if keys.pairs.isEmpty then
      match source.take answers with
      | (.ok pair, answers) => (request (keys.add pair), answers)
      | (.error e, answers) => (.error e, answers)
    else (request keys, answers)
  | _ => (.error (.caNotAllResources ca.name), answers)

/-- Ends the first key with an identifier, at the word of the trust anchor. -/
def revokeKey (ca : CertificateAuthority) (ski : String) : Except Error CertificateAuthority :=
  match ca.kind with
  | .allResources keys pending =>
    if (keys.find? ski).isSome then
      .ok { ca with kind := .allResources (keys.modify ski (·.revoke)) pending }
    else .error (.keyUnknown ski)
  | _ => .error (.caNotAllResources ca.name)

theorem revokeKey_eq_ok_iff {ca ca' : CertificateAuthority} {ski : String} :
    ca.revokeKey ski = .ok ca' ↔
      ∃ keys pending, ca.kind = .allResources keys pending ∧ (keys.find? ski).isSome = true ∧
        ca' = { ca with kind := .allResources (keys.modify ski (·.revoke)) pending } := by
  unfold revokeKey
  constructor
  · intro h
    split at h
    · rename_i keys pending hkind
      split at h
      · rename_i hfind
        exact ⟨keys, pending, hkind, hfind, (Except.ok.inj h).symm⟩
      · cases h
    · cases h
  · rintro ⟨keys, pending, hkind, hfind, rfl⟩
    rw [hkind]
    dsimp only
    rw [if_pos hfind]

end CertificateAuthority

end ResourcePki
