import ResourcePki.Publishing.Repositories

/-! What a provision may come to, as the steps of which it consists succeed or fail. -/

namespace ResourcePki

theorem PublisherRequest.validate_eq_ok_iff {isIdentity : String → Bool}
    {request : PublisherRequest} :
    request.validate isIdentity = .ok () ↔ isIdentity request.idCert = true := by
  unfold validate
  split
  · rename_i hvalid
    exact iff_of_true rfl hvalid
  · rename_i hvalid
    exact iff_of_false nofun hvalid

namespace PublisherRepositories

variable {ε : Type} {desk : PublisherRepositories ε} {name : CaName} {request : PublisherRequest}
  {s : PublishingState ε}

theorem accept_ok {t : CaTree} {id : CaId} (h : desk.accept t name request = .ok id) :
    ∃ publishers, t.nonHosted name = .ok (id, publishers) ∧ publishers.size < desk.limit ∧
      desk.isIdentity request.idCert = true := by
  unfold accept at h
  cases hfound : t.nonHosted name with
  | error err =>
    rw [hfound] at h
    cases h
  | ok found =>
    obtain ⟨id', publishers⟩ := found
    rw [hfound] at h
    by_cases hlimit : desk.limit ≤ publishers.size
    · simp [hlimit, bind, Except.bind, throw, throwThe, MonadExceptOf.throw] at h
    · cases hvalid : request.validate desk.isIdentity with
      | error err => simp [hlimit, hvalid, bind, Except.bind] at h
      | ok u =>
        simp only [hlimit, hvalid, bind, Except.bind, pure, Except.pure, if_false] at h
        obtain rfl := Except.ok.inj h
        exact ⟨publishers, rfl, Nat.lt_of_not_le hlimit,
          PublisherRequest.validate_eq_ok_iff.mp hvalid⟩

/-- What a provision may come to. -/
inductive Provisioned (desk : PublisherRepositories ε) (name : CaName) (request : PublisherRequest)
    (s : PublishingState ε) : Except Error PublisherHandle → PublishingState ε → Prop
  | rejected {err : Error} (h : desk.accept s.engine.tree name request = .error err) :
      Provisioned desk name request s (.error err) s
  | failed {id : CaId} {handle : PublisherHandle} {fault : RepositoryFault}
      (haccept : desk.accept s.engine.tree name request = .ok id)
      (hhandle : desk.service.handle s.calls = handle)
      (h : desk.service.create s.calls handle request = .error fault) :
      Provisioned desk name request s (.error (.repositoryService fault))
        { s with calls := .create handle request (.error fault) :: s.calls }
  | refused {id : CaId} {handle : PublisherHandle} {response : RepositoryResponse} {err : Error}
      {engine : Engine ε} {outcome : Except RepositoryFault Unit}
      (haccept : desk.accept s.engine.tree name request = .ok id)
      (hhandle : desk.service.handle s.calls = handle)
      (hcreate : desk.service.create s.calls handle request = .ok response)
      (h : desk.execute ⟨id, .publishers, .provisionPublisher handle request response⟩ s.engine =
        (.error err, engine))
      (houtcome : desk.service.delete (.create handle request (.ok response) :: s.calls) handle =
        outcome) :
      Provisioned desk name request s (.error err)
        { engine := (cleanupEvents err outcome).foldl .note engine,
          calls := .delete handle outcome :: .create handle request (.ok response) :: s.calls }
  | registered {id : CaId} {handle : PublisherHandle} {response : RepositoryResponse}
      {status : CommandStatus} {engine : Engine ε}
      (haccept : desk.accept s.engine.tree name request = .ok id)
      (hhandle : desk.service.handle s.calls = handle)
      (hcreate : desk.service.create s.calls handle request = .ok response)
      (h : desk.execute ⟨id, .publishers, .provisionPublisher handle request response⟩ s.engine =
        (.ok status, engine)) :
      Provisioned desk name request s (.ok handle)
        { engine, calls := .create handle request (.ok response) :: s.calls }

theorem provision_of_run {r : Except Error PublisherHandle} {s' : PublishingState ε}
    (h : desk.runProvision name request 4 .requested s = (.ended r, s')) :
    desk.provision name request s = (r, s') := by
  have hresult : (desk.runProvision name request 4 .requested s).1.result? = some r := by
    rw [h]
    rfl
  exact Prod.ext (Option.get_of_mem _ hresult) (congrArg (·.2) h)

theorem provision_provisioned (desk : PublisherRepositories ε) (name : CaName)
    (request : PublisherRequest) (s : PublishingState ε) :
    Provisioned desk name request s (desk.provision name request s).1
      (desk.provision name request s).2 := by
  cases haccept : desk.accept s.engine.tree name request with
  | error err =>
    have hrun : desk.runProvision name request 4 .requested s = (.ended (.error err), s) := by
      rw [runProvision, advanceProvision, haccept]
      exact desk.runProvision_of_ended 3 s
    rw [provision_of_run hrun]
    exact .rejected haccept
  | ok id =>
    have hadmitted : desk.runProvision name request 4 .requested s =
        desk.runProvision name request 3 (.admitted id) s := by
      rw [runProvision, advanceProvision, haccept]
    obtain ⟨handle, hhandle⟩ : ∃ handle, desk.service.handle s.calls = handle := ⟨_, rfl⟩
    cases hcreate : desk.service.create s.calls handle request with
    | error fault =>
      have hrun : desk.runProvision name request 4 .requested s =
          (.ended (.error (.repositoryService fault)),
            { s with calls := .create handle request (.error fault) :: s.calls }) := by
        rw [hadmitted, runProvision, advanceProvision, hhandle, hcreate]
        exact desk.runProvision_of_ended 2 _
      rw [provision_of_run hrun]
      exact .failed haccept hhandle hcreate
    | ok response =>
      have hcreated : desk.runProvision name request 4 .requested s =
          desk.runProvision name request 2 (.created id handle response)
            { s with calls := .create handle request (.ok response) :: s.calls } := by
        rw [hadmitted, runProvision, advanceProvision, hhandle, hcreate]
      cases hexecute : desk.execute
          ⟨id, .publishers, .provisionPublisher handle request response⟩ s.engine with
      | mk result engine =>
        cases result with
        | ok status =>
          have hrun : desk.runProvision name request 4 .requested s = (.ended (.ok handle),
              { engine, calls := .create handle request (.ok response) :: s.calls }) := by
            rw [hcreated, runProvision, advanceProvision]
            dsimp only
            rw [hexecute]
            exact desk.runProvision_of_ended 1 _
          rw [provision_of_run hrun]
          exact .registered haccept hhandle hcreate hexecute
        | error err =>
          obtain ⟨outcome, houtcome⟩ : ∃ outcome, desk.service.delete
            (.create handle request (.ok response) :: s.calls) handle = outcome := ⟨_, rfl⟩
          have hrun : desk.runProvision name request 4 .requested s = (.ended (.error err),
              { engine := (cleanupEvents err outcome).foldl .note engine,
                calls := .delete handle outcome :: .create handle request (.ok response) ::
                  s.calls }) := by
            rw [hcreated, runProvision, advanceProvision]
            dsimp only
            rw [hexecute, ← houtcome]
            rfl
          rw [provision_of_run hrun]
          exact .refused haccept hhandle hcreate hexecute houtcome

end PublisherRepositories

end ResourcePki
