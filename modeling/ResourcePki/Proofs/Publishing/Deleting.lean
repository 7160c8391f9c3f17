import ResourcePki.Proofs.Issuance.Repeating
import ResourcePki.Proofs.Publishing.Interleaving

/-! Deletions of publishers that stop halfway. The CA gives the publisher up before the service is
asked to remove it; when the service cannot, the publisher is left with the service, and no later
deletion gets as far as asking for it again. -/

namespace ResourcePki

open RepositoryCall

theorem SortedMap.map_insertEntry {κ α β : Type} [Numbered κ] {g : α → β} {k : κ} {a b : α}
    {l : List (κ × α)} (hl : l.Pairwise fun e f => Numbered.number e.1 < Numbered.number f.1)
    (h : lookup k l = some b) (hg : g a = g b) :
    (insertEntry k a l).map (fun e => g e.2) = l.map fun e => g e.2 := by
  induction l with
  | nil => cases h
  | cons e rest ih =>
    obtain ⟨hfirst, hrest⟩ := List.pairwise_cons.mp hl
    unfold insertEntry
    unfold lookup at h
    split
    -- A key below the first one is not among those that follow either.
    · rename_i hlt
      rw [if_neg (Nat.ne_of_gt hlt), lookup_eq_none] at h
      · cases h
      · exact fun f hf => Nat.ne_of_gt (Nat.lt_trans hlt (hfirst f hf))
    · split
      · rename_i heq
        rw [if_pos heq] at h
        obtain rfl := Option.some.inj h
        rw [List.map_cons, List.map_cons, hg]
      · rename_i hne
        rw [if_neg hne] at h
        rw [List.map_cons, List.map_cons, ih hrest h]

namespace CertificateAuthority

variable {ca ca' : CertificateAuthority} {handle : PublisherHandle}

/-- How publishers of a CA find it, and whether it has any. -/
def desk (ca : CertificateAuthority) : CaIdentity × Bool := (ca.identity, ca.publishers?.isSome)

theorem desk_removePublisher (h : ca.removePublisher handle = .ok ca') : ca'.desk = ca.desk := by
  obtain ⟨publicKeys, publishers, hkind, -, rfl⟩ := removePublisher_eq_ok_iff.mp h
  unfold desk publishers?
  rw [hkind]
  rfl

theorem removePublisher_final {err : Error} (h : ca.removePublisher handle = .error err) :
    err.isTransient = false := by
  unfold removePublisher at h
  split at h
  · split at h
    · cases h
    · obtain rfl := Except.error.inj h
      rfl
  · obtain rfl := Except.error.inj h
    rfl

end CertificateAuthority

namespace CaTree

variable {t : CaTree} {name : CaName}

theorem nonHosted_final {err : Error} (h : t.nonHosted name = .error err) :
    err.isTransient = false := by
  unfold nonHosted at h
  split at h
  · obtain rfl := Except.error.inj h
    rfl
  · split at h
    · obtain rfl := Except.error.inj h
      rfl
    · cases h

theorem nonHosted_ok_iff {id : CaId} : (∃ publishers, t.nonHosted name = .ok (id, publishers)) ↔
    ∃ identity, (t.toList.map (·.desk)).find? (·.1.name = name) = some (identity, true) ∧
      identity.id = id := by
  have hfind : (t.toList.map (·.desk)).find? (·.1.name = name) =
      (t.findByName? name).map (·.desk) := by
    rw [List.find?_map]
    rfl
  rw [hfind, nonHosted]
  cases t.findByName? name with
  | none => simp
  | some ca =>
    rw [Option.map_some, CertificateAuthority.desk]
    cases hpublishers : ca.publishers? with
    | none => simp [hpublishers]
    | some publishers => simp [hpublishers, CertificateAuthority.identity]

/-- A CA that others find as before hides no other and is hidden by none. -/
theorem nonHosted_set {id x : CaId} {ca ca' : CertificateAuthority} (hca : t.get? id = some ca)
    (hdesk : ca'.desk = ca.desk) (h : ∃ publishers, t.nonHosted name = .ok (x, publishers)) :
    ∃ publishers, (t.set id ca').nonHosted name = .ok (x, publishers) := by
  have hdesks : (t.set id ca').toList.map (·.desk) = t.toList.map (·.desk) := by
    rw [toList, toList, SortedMap.values, SortedMap.values, List.map_map, List.map_map]
    exact SortedMap.map_insertEntry (g := CertificateAuthority.desk) t.cas.sorted hca hdesk
  rw [nonHosted_ok_iff] at h ⊢
  rwa [hdesks]

end CaTree

namespace Dispatcher

variable {s : Services} {policy : IssuancePolicy} {retries : Nat} {id : CaId} {actor : Actor}
  {handle : PublisherHandle} {e e' : Engine Journal}

/-- That a CA gives up a publisher fails for good, if it fails. -/
theorem execute_delete_final {err : Error}
    (h : (standard s policy retries).execute ⟨id, actor, .deletePublisher handle⟩ e =
      (.error err, e')) : err.isTransient = false := by
  let command : CaCommand := ⟨id, actor, .deletePublisher handle⟩
  generalize hhandle : (Handler.forCommand s policy command.type).handle command
    (.start e.tree e.memory) = result
  obtain ⟨r, t⟩ := result
  have hfinal : ∀ err, r = .error err → err.isTransient = false := by
    rintro err rfl
    rcases Handler.updateNoting_error hhandle with rfl | ⟨ca, hremove⟩
    · rfl
    · exact CertificateAuthority.removePublisher_final hremove
  obtain ⟨e'', hrun, -⟩ := execute_standard_of_handle hfinal hhandle
  obtain ⟨hresult, -⟩ := Prod.mk.inj (hrun.symm.trans h)
  cases r with
  | ok u => cases hresult
  | error err' => exact hfinal err (congrArg _ (Except.error.inj hresult))

end Dispatcher

namespace PublisherRepositories

variable {ε : Type} {desk : PublisherRepositories ε} {name : CaName} {handle : PublisherHandle}
  {s : PublishingState ε}

/-- What a deletion may come to. -/
inductive Deleted (desk : PublisherRepositories ε) (name : CaName) (handle : PublisherHandle)
    (s : PublishingState ε) : Except Error Unit → PublishingState ε → Prop
  | missing {err : Error} (h : s.engine.tree.nonHosted name = .error err) :
      Deleted desk name handle s (.error err) s
  | refused {id : CaId} {publishers : SortedMap PublisherHandle PublisherRepository} {err : Error}
      {engine : Engine ε} (hca : s.engine.tree.nonHosted name = .ok (id, publishers))
      (h : desk.execute ⟨id, .publishers, .deletePublisher handle⟩ s.engine =
        (.error err, engine)) : Deleted desk name handle s (.error err) { s with engine }
  | asked {id : CaId} {publishers : SortedMap PublisherHandle PublisherRepository}
      {status : CommandStatus} {engine : Engine ε} {outcome : Except RepositoryFault Unit}
      (hca : s.engine.tree.nonHosted name = .ok (id, publishers))
      (h : desk.execute ⟨id, .publishers, .deletePublisher handle⟩ s.engine = (.ok status, engine))
      (houtcome : desk.service.delete s.calls handle = outcome) :
      Deleted desk name handle s (settleDeletion name handle engine outcome).1
        { engine := (settleDeletion name handle engine outcome).2,
          calls := .delete handle outcome :: s.calls }

theorem delete_of_run {r : Except Error Unit} {s' : PublishingState ε}
    (h : desk.runDeletion name handle 2 .requested s = (.ended r, s')) :
    desk.delete name handle s = (r, s') := by
  have hresult : (desk.runDeletion name handle 2 .requested s).1.result? = some r := by
    rw [h]
    rfl
  exact Prod.ext (Option.get_of_mem _ hresult) (congrArg (·.2) h)

theorem delete_deleted (desk : PublisherRepositories ε) (name : CaName) (handle : PublisherHandle)
    (s : PublishingState ε) :
    Deleted desk name handle s (desk.delete name handle s).1 (desk.delete name handle s).2 := by
  cases hca : s.engine.tree.nonHosted name with
  | error err =>
    have hrun : desk.runDeletion name handle 2 .requested s = (.ended (.error err), s) := by
      rw [runDeletion, advanceDeletion, hca]
      exact desk.runDeletion_of_ended 1 s
    rw [delete_of_run hrun]
    exact .missing hca
  | ok found =>
    obtain ⟨id, publishers⟩ := found
    cases hexecute : desk.execute ⟨id, .publishers, .deletePublisher handle⟩ s.engine with
    | mk result engine =>
      cases result with
      | error err =>
        have hrun : desk.runDeletion name handle 2 .requested s =
            (.ended (.error err), { s with engine }) := by
          rw [runDeletion, advanceDeletion, hca]
          dsimp only
          rw [hexecute]
          exact desk.runDeletion_of_ended 1 _
        rw [delete_of_run hrun]
        exact .refused hca hexecute
      | ok status =>
        have hrun : desk.runDeletion name handle 2 .requested s =
            (.ended (settleDeletion name handle engine (desk.service.delete s.calls handle)).1,
              { engine :=
                  (settleDeletion name handle engine (desk.service.delete s.calls handle)).2,
                calls := .delete handle (desk.service.delete s.calls handle) :: s.calls }) := by
          rw [runDeletion, advanceDeletion, hca]
          dsimp only
          rw [hexecute]
          rfl
        rw [delete_of_run hrun]
        exact .asked hca hexecute rfl

theorem settleDeletion_transient {m : Engine ε} {outcome : Except RepositoryFault Unit} {e : Error}
    (h : (settleDeletion name handle m outcome).1 = .error e) (ht : e.isTransient = true) :
    ∃ text, outcome = .error (.unavailable text) ∧ e = .repositoryService (.unavailable text) := by
  unfold settleDeletion at h
  split at h
  · cases h
  · cases h
  · rename_i fault hnotFound
    obtain rfl := Except.error.inj h
    cases fault with
    | duplicate handle => cases ht
    | notFound handle => cases ht
    | unavailable text => exact ⟨text, rfl, rfl⟩

end PublisherRepositories

/-- The tree has a non-hosted CA with the name, and the CA that a deletion then asks to give up the
publisher does not have it. -/
def CaTree.Forgets (t : CaTree) (name : CaName) (handle : PublisherHandle) (owner : CaName) :
    Prop :=
  ∃ id publishers ca, t.nonHosted name = .ok (id, publishers) ∧ t.get? id = some ca ∧
    ca.removePublisher handle = .error (.publisherRepositoryUnknown owner handle)

namespace Server

variable {name owner : CaName} {handle : PublisherHandle} {s s' : PublishingState Journal}

theorem delete_of_forgets (server : Server) (h : s.engine.tree.Forgets name handle owner) :
    ∃ s', server.publishers.delete name handle s =
        (.error (.publisherRepositoryUnknown owner handle), s') ∧
      s'.engine.tree = s.engine.tree ∧ s'.calls = s.calls := by
  obtain ⟨id, publishers, ca, hfound, hca, hremove⟩ := h
  obtain ⟨e, hrun, htree⟩ : ∃ e, server.publishers.execute
      ⟨id, .publishers, .deletePublisher handle⟩ s.engine =
        (.error (.publisherRepositoryUnknown owner handle), e) ∧ e.tree = s.engine.tree :=
    Dispatcher.execute_of_refused rfl hca rfl hremove
  have hdeleted := server.publishers.delete_deleted name handle s
  generalize server.publishers.delete name handle s = result at hdeleted ⊢
  obtain ⟨r, s'⟩ := result
  cases hdeleted with
  | missing hnone => cases hfound.symm.trans hnone
  | refused hfound' hrun' =>
    obtain ⟨rfl, -⟩ := Prod.mk.inj (Except.ok.inj (hfound.symm.trans hfound'))
    obtain ⟨herr, rfl⟩ := Prod.mk.inj (hrun.symm.trans hrun')
    obtain rfl := Except.error.inj herr
    exact ⟨_, rfl, htree, rfl⟩
  | asked hfound' hrun' =>
    obtain ⟨rfl, -⟩ := Prod.mk.inj (Except.ok.inj (hfound.symm.trans hfound'))
    cases hrun.symm.trans hrun'

/-- The state after a publisher was deleted over and over, with a server of its own each time. -/
def deletions (name : CaName) (handle : PublisherHandle) (servers : List Server)
    (s : PublishingState Journal) : PublishingState Journal :=
  servers.foldl (fun s server => (server.publishers.delete name handle s).2) s

theorem deletions_of_forgets (servers : List Server)
    (h : s.engine.tree.Forgets name handle owner) :
    (deletions name handle servers s).engine.tree = s.engine.tree ∧
      (deletions name handle servers s).calls = s.calls := by
  induction servers generalizing s with
  | nil => exact ⟨rfl, rfl⟩
  | cons server rest ih =>
    obtain ⟨s', hrun, htree, hcalls⟩ := server.delete_of_forgets h
    obtain ⟨htree', hcalls'⟩ := ih (htree ▸ h : s'.engine.tree.Forgets name handle owner)
    rw [deletions, List.foldl_cons, hrun]
    exact ⟨htree'.trans htree, hcalls'.trans hcalls⟩

/-- A deletion that fails for a reason that may pass has only half happened: the CA gave up the
publisher, and the service could not remove it. -/
theorem delete_transient (server : Server) {e : Error}
    (h : server.publishers.delete name handle s = (.error e, s')) (ht : e.isTransient = true) :
    ∃ id owner text, e = .repositoryService (.unavailable text) ∧
      CaTree.Unregistered s.engine.tree id handle s'.engine.tree ∧
      s'.calls = .delete handle (.error (.unavailable text)) :: s.calls ∧
      s'.engine.tree.Forgets name handle owner := by
  have hdeleted := server.publishers.delete_deleted name handle s
  rw [h] at hdeleted
  generalize hr : Except.error e = r at hdeleted
  cases hdeleted with
  | missing hnone =>
    obtain rfl := Except.error.inj hr
    rw [CaTree.nonHosted_final hnone] at ht
    cases ht
  | refused _ hrun =>
    obtain rfl := Except.error.inj hr
    rw [Dispatcher.execute_delete_final hrun] at ht
    cases ht
  | @asked id publishers status engine outcome hfound hrun houtcome =>
    obtain ⟨text, rfl, rfl⟩ := PublisherRepositories.settleDeletion_transient hr.symm ht
    obtain ⟨ca, ca', hca, hremove, htree⟩ := Dispatcher.execute_delete_removed hrun
    have htree' : engine.tree = s.engine.tree.set id ca' := htree
    refine ⟨id, ca'.name, text, rfl, ?_, rfl, ?_⟩
    · change CaTree.Unregistered s.engine.tree id handle engine.tree
      rw [htree']
      exact .set hca hremove
    · obtain ⟨publishers', hfound'⟩ := CaTree.nonHosted_set hca
        (CertificateAuthority.desk_removePublisher hremove) ⟨publishers, hfound⟩
      change engine.tree.Forgets name handle ca'.name
      rw [htree']
      exact ⟨id, publishers', ca', hfound', CaTree.get?_set_self,
        CertificateAuthority.removePublisher_again hremove⟩

/-- Whatever the service answers after such a failure, and however often the publisher is deleted
again, no deletion is of any use: the publisher stays with the service. -/
theorem delete_never_resumed (server : Server) {e : Error}
    (h : server.publishers.delete name handle s = (.error e, s')) (ht : e.isTransient = true) :
    ∃ id owner text, e = .repositoryService (.unavailable text) ∧
      CaTree.Unregistered s.engine.tree id handle s'.engine.tree ∧
      s'.calls = .delete handle (.error (.unavailable text)) :: s.calls ∧
      ∀ (servers : List Server) (next : Server), ∃ s'',
        next.publishers.delete name handle (deletions name handle servers s') =
          (.error (.publisherRepositoryUnknown owner handle), s'') ∧
        s''.engine.tree = s'.engine.tree ∧ s''.calls = s'.calls := by
  obtain ⟨id, owner, text, herror, htree, hcalls, hforgets⟩ := server.delete_transient h ht
  refine ⟨id, owner, text, herror, htree, hcalls, fun servers next => ?_⟩
  obtain ⟨htree', hcalls'⟩ := deletions_of_forgets servers hforgets
  obtain ⟨s'', hrun, htree'', hcalls''⟩ := next.delete_of_forgets (htree'.symm ▸ hforgets)
  exact ⟨s'', hrun, htree''.trans htree', hcalls''.trans hcalls'⟩

end Server

namespace Member

/-- A server whose repository service is down when a publisher is to be removed. -/
def offline : Server :=
  { server with
    repositories := { server.repositories with delete := fun _ _ => .error (.unavailable "down") } }

/-- The service when it is up again. -/
def online : RepositoryService := { server.repositories with delete := fun _ _ => .ok () }

/-- The member has given up its publisher, and the service has it still. -/
def stranded : PublishingState Journal :=
  (offline.publishers.delete member.name (handle 100) start.state).2

theorem delete_offline : offline.publishers.delete member.name (handle 100) start.state =
    (.error (.repositoryService (.unavailable "down")), stranded) := by
  refine Prod.ext ?_ rfl
  rw [offline.publishers_eq]
  decide +kernel

theorem delete_never_resumed_of_member :
    (offline.publishers.delete member.name (handle 100) start.state =
        (.error (.repositoryService (.unavailable "down")), stranded) ∧
      (Error.repositoryService (.unavailable "down")).isTransient = true) ∧
    ∃ owner s, { offline with repositories := online : Server }.publishers.delete member.name
        (handle 100) stranded = (.error (.publisherRepositoryUnknown owner (handle 100)), s) ∧
      handle 100 ∈ outside [handle 100] s.calls := by
  obtain ⟨id, owner, text, -, -, hcalls, hretry⟩ :=
    offline.delete_never_resumed delete_offline rfl
  obtain ⟨s, hrun, -, hcalls'⟩ := hretry [] { offline with repositories := online }
  refine ⟨⟨delete_offline, rfl⟩, owner, s, hrun, ?_⟩
  rw [hcalls', hcalls, mem_outside_delete]
  exact ⟨List.mem_singleton_self _, fun _ => rfl⟩

/-- That an error may pass does not mean that the deletion can be tried again. -/
theorem delete_not_retried : ¬ ∀ (server : Server) (online : RepositoryService) (name : CaName)
    (handle : PublisherHandle) (s s' : PublishingState Journal) (e : Error)
    (known : List PublisherHandle), (∃ id, s.engine.tree.Registers id handle) →
    server.publishers.delete name handle s = (.error e, s') → e.isTransient = true →
    (∀ calls h, online.delete calls h = .ok ()) →
    ∃ s'', { server with repositories := online : Server }.publishers.delete name handle s' =
        (.ok (), s'') ∧
      (∀ id, ¬ s''.engine.tree.Registers id handle) ∧ handle ∉ outside known s''.calls := by
  intro h
  have hregisters : start.state.engine.tree.Registers 1 (handle 100) := by
    rw [CaTree.Registers]
    decide +kernel
  obtain ⟨id, owner, text, -, -, -, hforgets⟩ := offline.delete_transient delete_offline rfl
  obtain ⟨s, hrun, -⟩ := Server.delete_of_forgets { offline with repositories := online } hforgets
  obtain ⟨s', hrun', -⟩ := h offline online member.name (handle 100) start.state stranded _
    [handle 100] ⟨1, hregisters⟩ delete_offline rfl fun _ _ => rfl
  cases hrun.symm.trans hrun'

end Member

end ResourcePki
