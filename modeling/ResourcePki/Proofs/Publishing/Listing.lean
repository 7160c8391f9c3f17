import ResourcePki.Proofs.Publishing.Deleting
import ResourcePki.Proofs.Tree.Descendants

/-! What clients are shown of the publishers of a non-hosted CA: a map from handles to what the
repository service answered. Registering a publisher or giving one up changes one entry in the map
of one CA. -/

namespace ResourcePki

namespace SortedMap

variable {κ α β : Type} [Numbered κ] {m : SortedMap κ α} {f : α → β} {k : κ} {a : α}

def mapValues (f : α → β) (m : SortedMap κ α) : SortedMap κ β :=
  ⟨m.entries.map fun e => (e.1, f e.2), List.pairwise_map.mpr m.sorted⟩

theorem get?_mapValues (f : α → β) (m : SortedMap κ α) (k : κ) :
    (m.mapValues f).get? k = (m.get? k).map f := by
  change lookup k (m.entries.map fun e => (e.1, f e.2)) = (lookup k m.entries).map f
  induction m.entries with
  | nil => rfl
  | cons e rest ih =>
    rw [List.map_cons, lookup, lookup, ih]
    split <;> rfl

theorem mapValues_insert : (m.insert k a).mapValues f = (m.mapValues f).insert k (f a) := by
  refine ext fun k' => ?_
  rw [get?_mapValues, get?_insert, get?_insert, get?_mapValues]
  split <;> rfl

theorem mapValues_erase : (m.erase k).mapValues f = (m.mapValues f).erase k := by
  refine ext fun k' => ?_
  rw [get?_mapValues, get?_erase, get?_erase, get?_mapValues]
  split <;> rfl

theorem insert_of_get? (h : m.get? k = some a) : m.insert k a = m := by
  refine ext fun k' => ?_
  rw [get?_insert]
  split
  · rename_i hk
    rw [← h, Numbered.number_inj hk]
  · rfl

end SortedMap

namespace CertificateAuthority

variable {ca ca' : CertificateAuthority} {handle : PublisherHandle}

theorem links_addPublisher {repository : PublisherRepository} {limit : Nat}
    (h : ca.addPublisher handle repository limit = .ok ca') : ca'.links = ca.links := by
  obtain ⟨_, _, _, _, _, rfl⟩ := addPublisher_eq_ok_iff.mp h
  rfl

theorem links_removePublisher (h : ca.removePublisher handle = .ok ca') : ca'.links = ca.links := by
  obtain ⟨_, _, _, _, rfl⟩ := removePublisher_eq_ok_iff.mp h
  rfl

end CertificateAuthority

namespace CaTree

variable {t u : CaTree} {name : CaName} {id : CaId} {handle : PublisherHandle}
  {publishers publishers' : SortedMap PublisherHandle PublisherRepository}

/-- The publishers of a non-hosted CA, each with what the repository service answered. -/
def listing (t : CaTree) (name : CaName) :
    Except Error (SortedMap PublisherHandle RepositoryResponse) :=
  (t.nonHosted name).map fun found => found.2.mapValues (·.response)

theorem publisherResponses_eq (t : CaTree) (name : CaName) :
    t.publisherResponses name = (t.listing name).map (·.entries) := by
  unfold publisherResponses listing
  cases t.nonHosted name <;> rfl

theorem publisherResponse_eq (t : CaTree) (name : CaName) (handle : PublisherHandle) :
    t.publisherResponse name handle = (t.listing name).bind fun m =>
      (m.get? handle).elim (.error (.publisherRepositoryUnknown name handle)) .ok := by
  unfold publisherResponse listing
  cases t.nonHosted name with
  | error err => rfl
  | ok found =>
    obtain ⟨id, publishers⟩ := found
    dsimp only [bind, Except.bind, Except.map]
    rw [SortedMap.get?_mapValues]
    cases publishers.get? handle <;> rfl

theorem WellFormed.nonHosted_eq_ok (hwf : t.WellFormed) :
    t.nonHosted name = .ok (id, publishers) ↔
      ∃ ca, t.get? id = some ca ∧ ca.name = name ∧ ca.publishers? = some publishers := by
  unfold nonHosted
  constructor
  · intro h
    split at h
    · cases h
    · rename_i ca hfind
      split at h
      · cases h
      · rename_i publishers' hpublishers
        obtain ⟨rfl, rfl⟩ := Prod.mk.inj (Except.ok.inj h)
        obtain ⟨id, hget, hname⟩ := hwf.findByName?_iff.mp hfind
        exact ⟨ca, hwf.ids id ca hget ▸ hget, hname, hpublishers⟩
  · rintro ⟨ca, hget, hname, hpublishers⟩
    rw [hwf.findByName?_iff.mpr ⟨id, hget, hname⟩]
    dsimp only
    rw [hpublishers, hwf.ids id ca hget]

/-- The tree `u` is `t` with other publishers for one of its CAs. -/
inductive Republished (t : CaTree) (id : CaId)
    (publishers publishers' : SortedMap PublisherHandle PublisherRepository) : CaTree → Prop
  | set {ca ca' : CertificateAuthority} (hca : t.get? id = some ca) (hlinks : ca'.links = ca.links)
      (hbefore : ca.publishers? = some publishers) (hafter : ca'.publishers? = some publishers') :
      Republished t id publishers publishers' (t.set id ca')

theorem Republished.wellFormed (h : t.Republished id publishers publishers' u)
    (hwf : t.WellFormed) : u.WellFormed := by
  cases h with
  | set hca hlinks hbefore hafter => exact hwf.of_sameLinks (.set t hca hlinks)

theorem Republished.of_nonHosted (h : t.Republished id publishers publishers' u)
    (hwf : t.WellFormed) {found : SortedMap PublisherHandle PublisherRepository}
    (hfound : t.nonHosted name = .ok (id, found)) : publishers = found := by
  cases h with
  | set hca hlinks hbefore hafter =>
    obtain ⟨c, hc, -, hfound'⟩ := hwf.nonHosted_eq_ok.mp hfound
    obtain rfl := Option.some.inj (hca.symm.trans hc)
    exact Option.some.inj (hbefore.symm.trans hfound')

theorem Republished.nonHosted (h : t.Republished id publishers publishers' u) (hwf : t.WellFormed)
    (hfound : t.nonHosted name = .ok (id, publishers)) (x : CaName) :
    u.nonHosted x = if name = x then .ok (id, publishers') else t.nonHosted x := by
  have hwf' := h.wellFormed hwf
  cases h with
  | @set ca ca' hca hlinks hbefore hafter =>
    obtain ⟨c, hc, hname, -⟩ := hwf.nonHosted_eq_ok.mp hfound
    obtain rfl := Option.some.inj (hca.symm.trans hc)
    have hname' : ca'.name = name := (congrArg (·.name) hlinks).trans hname
    split
    · rename_i heq
      exact hwf'.nonHosted_eq_ok.mpr ⟨ca', get?_set_self, hname'.trans heq, hafter⟩
    · rename_i hne
      -- No other name leads to this CA, before or after.
      have hfind : (t.set id ca').findByName? x = t.findByName? x := by
        refine Option.ext fun c => ?_
        rw [hwf'.findByName?_iff, hwf.findByName?_iff]
        constructor
        · rintro ⟨y, hy, hx⟩
          rw [get?_set] at hy
          split at hy
          · obtain rfl := Option.some.inj hy
            exact absurd (hname'.symm.trans hx) hne
          · exact ⟨y, hy, hx⟩
        · rintro ⟨y, hy, hx⟩
          refine ⟨y, ?_, hx⟩
          rw [get?_set_ne, hy]
          rintro rfl
          obtain rfl := Option.some.inj (hca.symm.trans hy)
          exact hne (hname.symm.trans hx)
      unfold CaTree.nonHosted
      rw [hfind]

theorem Republished.listing (h : t.Republished id publishers publishers' u) (hwf : t.WellFormed)
    (hfound : t.nonHosted name = .ok (id, publishers)) (x : CaName) :
    u.listing x = if name = x then .ok (publishers'.mapValues (·.response)) else t.listing x := by
  rw [CaTree.listing, h.nonHosted hwf hfound]
  split <;> rfl

end CaTree

namespace Dispatcher

variable {s : Services} {policy : IssuancePolicy} {retries : Nat} {id : CaId} {actor : Actor}
  {handle : PublisherHandle} {e e' : Engine Journal} {status : CommandStatus}

theorem execute_provision_republished {request : PublisherRequest} {response : RepositoryResponse}
    (h : (standard s policy retries).execute
      ⟨id, actor, .provisionPublisher handle request response⟩ e = (.ok status, e')) :
    ∃ publishers, e.tree.Republished id publishers
      (publishers.insert handle ⟨request, response⟩) e'.tree := by
  obtain ⟨j, -, hperformed⟩ := execute_standard_performed h
  generalize status.hadEffect = b, e'.tree = t' at hperformed ⊢
  cases hperformed with
  | changed hca h =>
    cases h with
    | registered hsame =>
      obtain ⟨publishers, hpublishers, hget⟩ := Option.bind_eq_some_iff.mp hsame
      refine ⟨publishers, .set hca rfl hpublishers ?_⟩
      rw [SortedMap.insert_of_get? hget, hpublishers]
    | register hadd =>
      obtain ⟨publishers, hbefore, -, -, hafter⟩ := CertificateAuthority.addPublisher_ok hadd
      exact ⟨publishers, .set hca (CertificateAuthority.links_addPublisher hadd) hbefore hafter⟩

theorem execute_delete_republished
    (h : (standard s policy retries).execute ⟨id, actor, .deletePublisher handle⟩ e =
      (.ok status, e')) : ∃ publishers, publishers.contains handle = true ∧
        e.tree.Republished id publishers (publishers.erase handle) e'.tree := by
  obtain ⟨ca, ca', hca, hremove, htree⟩ := execute_delete_removed h
  obtain ⟨publishers, hbefore, hcontains, hafter⟩ := CertificateAuthority.removePublisher_ok hremove
  rw [htree]
  exact ⟨publishers, hcontains,
    .set hca (CertificateAuthority.links_removePublisher hremove) hbefore hafter⟩

end Dispatcher

end ResourcePki
