import ResourcePki.Publishing.Repositories
import ResourcePki.Proofs.Issuance.Histories

/-! The two records of publishers: what the CAs have registered, and what the repository service
has after all that it was asked. A command changes the first, a call of the service the second. -/

namespace ResourcePki

namespace SortedMap

variable {κ α : Type} [Numbered κ] {m : SortedMap κ α} {k k' : κ} {a : α}

theorem length_insertEntry_le (k : κ) (a : α) (l : List (κ × α)) :
    (insertEntry k a l).length ≤ l.length + 1 := by
  induction l with
  | nil => exact Nat.le_refl 1
  | cons e rest ih =>
    unfold insertEntry
    split
    · exact Nat.le_refl _
    · split
      · exact Nat.le_succ _
      · exact Nat.succ_le_succ ih

theorem length_eraseEntry_le (k : κ) (l : List (κ × α)) :
    (eraseEntry k l).length ≤ l.length := by
  induction l with
  | nil => exact Nat.le_refl 0
  | cons e rest ih =>
    unfold eraseEntry
    split
    · exact Nat.le_succ _
    · exact Nat.succ_le_succ ih

theorem contains_insert : (m.insert k a).contains k' = true ↔ k' = k ∨ m.contains k' = true := by
  rw [contains, get?_insert]
  split
  · rename_i heq
    simp [Numbered.number_inj heq.symm]
  · rename_i hne
    have hk : k' ≠ k := fun heq => hne (heq ▸ rfl)
    simp [contains, hk]

theorem contains_erase : (m.erase k).contains k' = true ↔ k' ≠ k ∧ m.contains k' = true := by
  rw [contains, get?_erase]
  split
  · rename_i heq
    simp [Numbered.number_inj heq.symm]
  · rename_i hne
    have hk : k' ≠ k := fun heq => hne (heq ▸ rfl)
    simp [contains, hk]

end SortedMap

namespace CertificateAuthority

variable {ca ca' : CertificateAuthority} {handle : PublisherHandle}

theorem addPublisher_ok {repository : PublisherRepository} {limit : Nat}
    (h : ca.addPublisher handle repository limit = .ok ca') :
    ∃ publishers, ca.publishers? = some publishers ∧ publishers.contains handle = false ∧
      publishers.size < limit ∧
      ca'.publishers? = some (publishers.insert handle repository) := by
  obtain ⟨publicKeys, publishers, hkind, hnew, hlimit, rfl⟩ := addPublisher_eq_ok_iff.mp h
  refine ⟨publishers, ?_, hnew, hlimit, rfl⟩
  rw [publishers?, hkind]

theorem removePublisher_ok (h : ca.removePublisher handle = .ok ca') :
    ∃ publishers, ca.publishers? = some publishers ∧ publishers.contains handle = true ∧
      ca'.publishers? = some (publishers.erase handle) := by
  obtain ⟨publicKeys, publishers, hkind, hcontains, rfl⟩ := removePublisher_eq_ok_iff.mp h
  refine ⟨publishers, ?_, hcontains, rfl⟩
  rw [publishers?, hkind]

end CertificateAuthority

namespace CaTree

/-- The publishers of a CA, which has none unless it is a non-hosted one. -/
def publishers (t : CaTree) (id : CaId) : SortedMap PublisherHandle PublisherRepository :=
  ((t.get? id).bind (·.publishers?)).getD ∅

def Registers (t : CaTree) (id : CaId) (handle : PublisherHandle) : Prop :=
  (t.publishers id).contains handle = true

variable {t u : CaTree} {id x : CaId} {ca : CertificateAuthority}
  {publishers : SortedMap PublisherHandle PublisherRepository}

theorem publishers_of_get? (hca : t.get? id = some ca) (h : ca.publishers? = some publishers) :
    t.publishers id = publishers := by
  rw [CaTree.publishers, hca, Option.bind_some, h, Option.getD_some]

theorem publishers_set (h : ca.publishers? = some publishers) :
    (t.set id ca).publishers x = if id = x then publishers else t.publishers x := by
  split
  · rename_i heq
    exact publishers_of_get? (heq ▸ get?_set_self) h
  · rename_i hne
    rw [CaTree.publishers, get?_set_ne hne, CaTree.publishers]

/-- The tree `u` is `t` with one more publisher of a CA, which did not have as many as it may. -/
structure Registered (limit : Nat) (t : CaTree) (id : CaId) (handle : PublisherHandle)
    (u : CaTree) : Prop where
  registers : ∀ x k, u.Registers x k ↔ t.Registers x k ∨ (x = id ∧ k = handle)
  size : ∀ x, (u.publishers x).size ≤ max (t.publishers x).size limit

/-- The tree `u` is `t` without one publisher of a CA. -/
structure Unregistered (t : CaTree) (id : CaId) (handle : PublisherHandle) (u : CaTree) :
    Prop where
  before : t.Registers id handle
  registers : ∀ x k, u.Registers x k ↔ t.Registers x k ∧ ¬ (x = id ∧ k = handle)
  size : ∀ x, (u.publishers x).size ≤ (t.publishers x).size

variable {ca' : CertificateAuthority} {handle k : PublisherHandle}

theorem Unregistered.subset (hu : Unregistered t id handle u) (hk : u.Registers x k) :
    t.Registers x k := ((hu.registers x k).mp hk).1

theorem Registered.set {repository : PublisherRepository} {limit : Nat}
    (hca : t.get? id = some ca) (h : ca.addPublisher handle repository limit = .ok ca') :
    Registered limit t id handle (t.set id ca') := by
  obtain ⟨publishers, hbefore, -, hlimit, hafter⟩ := CertificateAuthority.addPublisher_ok h
  have hid : t.publishers id = publishers := publishers_of_get? hca hbefore
  refine ⟨fun x k => ?_, fun x => ?_⟩
  · rw [Registers, Registers, publishers_set hafter]
    split
    · rename_i heq
      obtain rfl := heq
      rw [SortedMap.contains_insert, hid, or_comm]
      simp
    · rename_i hne
      simp [Ne.symm hne]
  · rw [publishers_set hafter]
    split
    · have hsize : (publishers.insert handle repository).size ≤ publishers.size + 1 :=
        SortedMap.length_insertEntry_le ..
      omega
    · exact Nat.le_max_left ..

theorem Unregistered.set (hca : t.get? id = some ca) (h : ca.removePublisher handle = .ok ca') :
    Unregistered t id handle (t.set id ca') := by
  obtain ⟨publishers, hbefore, hcontains, hafter⟩ := CertificateAuthority.removePublisher_ok h
  have hid : t.publishers id = publishers := publishers_of_get? hca hbefore
  refine ⟨?_, fun x k => ?_, fun x => ?_⟩
  · rw [Registers, hid, hcontains]
  · rw [Registers, Registers, publishers_set hafter]
    split
    · rename_i heq
      obtain rfl := heq
      rw [SortedMap.contains_erase, hid, and_comm]
      simp
    · rename_i hne
      simp [Ne.symm hne]
  · rw [publishers_set hafter]
    split
    · rename_i heq
      obtain rfl := heq
      rw [hid]
      exact SortedMap.length_eraseEntry_le ..
    · exact Nat.le_refl _

end CaTree

namespace Dispatcher

open ResourcePki.Action

variable {s : Services} {policy : IssuancePolicy} {retries : Nat} {id : CaId} {actor : Actor}
  {handle : PublisherHandle} {e e' : Engine Journal} {status : CommandStatus}

theorem execute_provision_ok {request : PublisherRequest} {response : RepositoryResponse}
    (hnew : ¬ e.tree.Registers id handle)
    (h : (standard s policy retries).execute
      ⟨id, actor, .provisionPublisher handle request response⟩ e = (.ok status, e')) :
    CaTree.Registered policy.publisherLimit e.tree id handle e'.tree := by
  obtain ⟨j, -, hperformed⟩ := execute_standard_performed h
  generalize status.hadEffect = b, e'.tree = t' at hperformed ⊢
  cases hperformed with
  | changed hca h =>
    cases h with
    -- Only a publisher that the CA has already could be left as it is.
    | registered hsame =>
      obtain ⟨publishers, hpublishers, hget⟩ := Option.bind_eq_some_iff.mp hsame
      have hid : e.tree.publishers id = publishers := CaTree.publishers_of_get? hca hpublishers
      refine absurd ?_ hnew
      rw [CaTree.Registers, hid, SortedMap.contains, hget, Option.isSome_some]
    | register hadd => exact .set hca hadd

theorem execute_delete_removed
    (h : (standard s policy retries).execute ⟨id, actor, .deletePublisher handle⟩ e =
      (.ok status, e')) : ∃ ca ca', e.tree.get? id = some ca ∧
        ca.removePublisher handle = .ok ca' ∧ e'.tree = e.tree.set id ca' := by
  obtain ⟨j, -, hperformed⟩ := execute_standard_performed h
  generalize status.hadEffect = b, e'.tree = t' at hperformed ⊢
  cases hperformed with
  | changed hca h =>
    cases h with
    | remove hremove => exact ⟨_, _, hca, hremove, rfl⟩

theorem execute_delete_ok
    (h : (standard s policy retries).execute ⟨id, actor, .deletePublisher handle⟩ e =
      (.ok status, e')) : CaTree.Unregistered e.tree id handle e'.tree := by
  obtain ⟨ca, ca', hca, hremove, htree⟩ := execute_delete_removed h
  rw [htree]
  exact .set hca hremove

end Dispatcher

namespace RepositoryCall

/-- The publisher that a call is about. -/
def handle : RepositoryCall → PublisherHandle
  | create handle _ _ => handle
  | delete handle _ => handle

/-- The publishers that the service has, given those that it had at first and its calls since, the
last one first; a call that failed has changed nothing. -/
def outside (known : List PublisherHandle) : List RepositoryCall → List PublisherHandle
  | [] => known
  | create handle _ (.ok _) :: calls => handle :: outside known calls
  | delete handle (.ok _) :: calls => (outside known calls).filter (· ≠ handle)
  | create _ _ (.error _) :: calls => outside known calls
  | delete _ (.error _) :: calls => outside known calls

/-- A handle that the service has never heard of. -/
def Fresh (known : List PublisherHandle) (calls : List RepositoryCall) (h : PublisherHandle) :
    Prop :=
  h ∉ known ∧ ∀ call ∈ calls, call.handle ≠ h

instance (known : List PublisherHandle) (calls : List RepositoryCall) (h : PublisherHandle) :
    Decidable (Fresh known calls h) := inferInstanceAs (Decidable (_ ∧ _))

/-- The calls about a publisher, the last one first. -/
def about (calls : List RepositoryCall) (h : PublisherHandle) : List RepositoryCall :=
  calls.filter (·.handle = h)

variable {known : List PublisherHandle} {calls : List RepositoryCall} {call : RepositoryCall}
  {handle h : PublisherHandle}

theorem mem_outside_create {request : PublisherRequest}
    {outcome : Except RepositoryFault RepositoryResponse} :
    h ∈ outside known (create handle request outcome :: calls) ↔
      (h = handle ∧ outcome.isOk = true) ∨ h ∈ outside known calls := by
  cases outcome <;> simp [outside, Except.isOk, Except.toBool]

theorem mem_outside_delete {outcome : Except RepositoryFault Unit} :
    h ∈ outside known (delete handle outcome :: calls) ↔
      h ∈ outside known calls ∧ (h = handle → outcome.isOk = false) := by
  cases outcome <;> simp [outside, Except.isOk, Except.toBool]

theorem mem_outside_other (hne : call.handle ≠ h) :
    h ∈ outside known (call :: calls) ↔ h ∈ outside known calls := by
  cases call with
  | create handle request outcome =>
    rw [mem_outside_create, or_iff_right fun heq => hne heq.1.symm]
  | delete handle outcome => rw [mem_outside_delete, and_iff_left fun heq => absurd heq.symm hne]

theorem about_cons_self (call : RepositoryCall) (calls : List RepositoryCall) :
    about (call :: calls) call.handle = call :: about calls call.handle :=
  List.filter_cons_of_pos (decide_eq_true rfl)

theorem about_cons_other (hne : call.handle ≠ h) : about (call :: calls) h = about calls h :=
  List.filter_cons_of_neg fun hcall => hne (of_decide_eq_true hcall)

/-- Whether the service has a publisher comes of the calls about it. -/
theorem mem_outside_about : h ∈ outside known (about calls h) ↔ h ∈ outside known calls := by
  induction calls with
  | nil => rfl
  | cons call calls ih =>
    by_cases hcall : call.handle = h
    · subst hcall
      rw [about_cons_self]
      cases call with
      | create handle request outcome => rw [mem_outside_create, mem_outside_create, ih]
      | delete handle outcome => rw [mem_outside_delete, mem_outside_delete, ih]
    · rw [about_cons_other hcall, ih, mem_outside_other hcall]

theorem Fresh.of_cons (hf : Fresh known (call :: calls) h) : Fresh known calls h :=
  ⟨hf.1, fun c hc => hf.2 c (List.mem_cons_of_mem _ hc)⟩

theorem not_fresh_self (call : RepositoryCall) (calls : List RepositoryCall) :
    ¬ Fresh known (call :: calls) call.handle :=
  fun hf => hf.2 call (List.mem_cons_self ..) rfl

theorem Fresh.about (hf : Fresh known calls h) : about calls h = [] :=
  List.filter_eq_nil_iff.mpr fun call hcall heq => hf.2 call hcall (of_decide_eq_true heq)

theorem Fresh.not_outside (hf : Fresh known calls h) : h ∉ outside known calls := by
  rw [← mem_outside_about, hf.about]
  exact hf.1

end RepositoryCall

end ResourcePki
