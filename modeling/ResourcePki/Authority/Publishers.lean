import ResourcePki.Authority.Basic

/-!
The publisher repositories of a non-hosted CA. `addPublisher_eq_ok_iff` and
`removePublisher_eq_ok_iff` say when a repository is registered or removed, and what changes.
-/

namespace ResourcePki

namespace CertificateAuthority

/-- Registers a repository under a new handle, up to a number of repositories. -/
def addPublisher (ca : CertificateAuthority) (handle : PublisherHandle)
    (repository : PublisherRepository) (limit : Nat) : Except Error CertificateAuthority :=
  match ca.kind with
  | .nonHosted publicKeys publishers =>
    if publishers.contains handle then .error (.publisherDuplicate ca.name handle)
    else if limit ≤ publishers.size then .error (.resourceLimitExceeded ca.name limit)
    else .ok { ca with kind := .nonHosted publicKeys (publishers.insert handle repository) }
  | _ => .error (.caNotNonHosted ca.name)

def removePublisher (ca : CertificateAuthority) (handle : PublisherHandle) :
    Except Error CertificateAuthority :=
  match ca.kind with
  | .nonHosted publicKeys publishers =>
    if publishers.contains handle then
      .ok { ca with kind := .nonHosted publicKeys (publishers.erase handle) }
    else .error (.publisherRepositoryUnknown ca.name handle)
  | _ => .error (.caNotNonHosted ca.name)

variable {ca ca' : CertificateAuthority} {handle : PublisherHandle}

theorem addPublisher_eq_ok_iff {repository : PublisherRepository} {limit : Nat} :
    ca.addPublisher handle repository limit = .ok ca' ↔
      ∃ publicKeys publishers, ca.kind = .nonHosted publicKeys publishers ∧
        publishers.contains handle = false ∧ publishers.size < limit ∧
        ca' = { ca with kind := .nonHosted publicKeys (publishers.insert handle repository) } := by
  unfold addPublisher
  constructor
  · intro h
    split at h
    · rename_i publicKeys publishers hkind
      split at h
      · cases h
      · rename_i hnew
        split at h
        · cases h
        · rename_i hlimit
          exact ⟨publicKeys, publishers, hkind, Bool.eq_false_iff.mpr hnew,
            Nat.lt_of_not_le hlimit, (Except.ok.inj h).symm⟩
    · cases h
  · rintro ⟨publicKeys, publishers, hkind, hnew, hlimit, rfl⟩
    rw [hkind]
    dsimp only
    rw [if_neg (Bool.eq_false_iff.mp hnew), if_neg (Nat.not_le_of_lt hlimit)]

theorem removePublisher_eq_ok_iff : ca.removePublisher handle = .ok ca' ↔
    ∃ publicKeys publishers, ca.kind = .nonHosted publicKeys publishers ∧
      publishers.contains handle = true ∧
      ca' = { ca with kind := .nonHosted publicKeys (publishers.erase handle) } := by
  unfold removePublisher
  constructor
  · intro h
    split at h
    · rename_i publicKeys publishers hkind
      split at h
      · rename_i hcontains
        exact ⟨publicKeys, publishers, hkind, hcontains, (Except.ok.inj h).symm⟩
      · cases h
    · cases h
  · rintro ⟨publicKeys, publishers, hkind, hcontains, rfl⟩
    rw [hkind]
    dsimp only
    rw [if_pos hcontains]

end CertificateAuthority

end ResourcePki
