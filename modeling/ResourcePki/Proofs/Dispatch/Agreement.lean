import ResourcePki.Proofs.Dispatch.Outcome

/-! Handlers that only look at what others did change nothing that a caller sees, whichever of them
there are. `R` relates two memories that the services cannot tell apart: a step that respects it
takes sessions that agree to sessions that agree, and so do attempts, commands and whole runs. -/

namespace ResourcePki

variable {ε α β : Type} {R : ε → ε → Prop}

/-- The sessions have come equally far; what they have logged may differ. -/
structure Session.Agree (R : ε → ε → Prop) (t t' : Session ε) : Prop where
  work : t.work = t'.work
  status : t.status = t'.status
  memory : R t.memory t'.memory

namespace Action

def Respects (R : ε → ε → Prop) (a : Action ε α) : Prop :=
  ∀ t t', Session.Agree R t t' → (a t).1 = (a t').1 ∧ Session.Agree R (a t).2 (a t').2

theorem Respects.bind {a : Action ε α} {f : α → Action ε β} (ha : Respects R a)
    (hf : ∀ x, Respects R (f x)) : Respects R (a >>= f) := by
  intro t t' h
  obtain ⟨hresult, hagree⟩ := ha t t' h
  rw [bind_apply, bind_apply]
  generalize a t = run at hresult hagree ⊢
  generalize a t' = run' at hresult hagree ⊢
  obtain ⟨r, s⟩ := run
  obtain ⟨r', s'⟩ := run'
  obtain rfl : r = r' := hresult
  cases r with
  | ok x => exact hf x s s' hagree
  | error err => exact ⟨rfl, hagree⟩

/-- Steps that have nothing to do with the memory respect every relation of memories. -/
theorem Respects.of_frame {a : Action ε α} (hmemory : ∀ t, (a t).2.memory = t.memory)
    (hsame : ∀ work status log log' m m',
      (a ⟨work, status, log, m⟩).1 = (a ⟨work, status, log', m'⟩).1 ∧
      (a ⟨work, status, log, m⟩).2.work = (a ⟨work, status, log', m'⟩).2.work ∧
      (a ⟨work, status, log, m⟩).2.status = (a ⟨work, status, log', m'⟩).2.status) :
    Respects R a := by
  rintro ⟨work, status, log, m⟩ ⟨work', status', log', m'⟩ ⟨hwork, hstatus, hrelated⟩
  obtain rfl : work = work' := hwork
  obtain rfl : status = status' := hstatus
  obtain ⟨hresult, hwork, hstatus⟩ := hsame work status log log' m m'
  refine ⟨hresult, hwork, hstatus, ?_⟩
  rw [hmemory, hmemory]
  exact hrelated

theorem Respects.pure (x : α) : Respects R (pure x : Action ε α) :=
  .of_frame (fun _ => rfl) fun _ _ _ _ _ _ => ⟨rfl, rfl, rfl⟩

theorem Respects.throw (err : Error) : Respects R (throw err : Action ε α) :=
  .of_frame (fun _ => rfl) fun _ _ _ _ _ _ => ⟨rfl, rfl, rfl⟩

theorem Respects.ofExcept (r : Except Error α) : Respects R (ofExcept (ε := ε) r) :=
  .of_frame (fun _ => rfl) fun _ _ _ _ _ _ => ⟨rfl, rfl, rfl⟩

theorem Respects.log (event : Event) : Respects R (log (ε := ε) event) :=
  .of_frame (fun _ => rfl) fun _ _ _ _ _ _ => ⟨rfl, rfl, rfl⟩

theorem Respects.setHadEffect : Respects R (setHadEffect (ε := ε)) :=
  .of_frame (fun _ => rfl) fun _ _ _ _ _ _ => ⟨rfl, rfl, rfl⟩

theorem Respects.tree : Respects R (tree (ε := ε)) :=
  .of_frame (fun _ => rfl) fun _ _ _ _ _ _ => ⟨rfl, rfl, rfl⟩

theorem Respects.get? (id : CaId) : Respects R (get? (ε := ε) id) :=
  .of_frame (fun _ => rfl) fun _ _ _ _ _ _ => ⟨rfl, rfl, rfl⟩

theorem Respects.require (id : CaId) : Respects R (require (ε := ε) id) :=
  .of_frame (fun _ => rfl) fun _ _ _ _ _ _ => ⟨rfl, rfl, rfl⟩

theorem Respects.insert (ca : CertificateAuthority) : Respects R (insert (ε := ε) ca) :=
  .of_frame (fun _ => rfl) fun _ _ _ _ _ _ => ⟨rfl, rfl, rfl⟩

theorem Respects.update (id : CaId) (f : CertificateAuthority → Except Error CertificateAuthority) :
    Respects R (update (ε := ε) id f) :=
  .of_frame (fun _ => rfl) fun _ _ _ _ _ _ => ⟨rfl, rfl, rfl⟩

theorem Respects.attempt {f : ε → Except Error α × ε}
    (hf : ∀ m m', R m m' → (f m).1 = (f m').1 ∧ R (f m).2 (f m').2) : Respects R (attempt f) := by
  intro t t' h
  obtain ⟨hresult, hmemory⟩ := hf t.memory t'.memory h.memory
  exact ⟨hresult, h.work, h.status, hmemory⟩

theorem Respects.updateWith (id : CaId)
    {f : ε → CertificateAuthority → Except Error CertificateAuthority × ε}
    (hf : ∀ m m' ca, R m m' → (f m ca).1 = (f m' ca).1 ∧ R (f m ca).2 (f m' ca).2) :
    Respects R (updateWith id f) := by
  rintro ⟨work, status, log, m⟩ ⟨work', status', log', m'⟩ ⟨hwork, hstatus, hrelated⟩
  obtain rfl : work = work' := hwork
  obtain rfl : status = status' := hstatus
  unfold Action.updateWith UnitOfWork.update
  cases work.get? id with
  | none => exact ⟨rfl, rfl, rfl, hrelated⟩
  | some ca =>
    obtain ⟨hresult, hmemory⟩ := hf m m' ca hrelated
    dsimp only
    generalize f m ca = run at hresult hmemory ⊢
    generalize f m' ca = run' at hresult hmemory ⊢
    obtain ⟨r, k⟩ := run
    obtain ⟨r', k'⟩ := run'
    obtain rfl : r = r' := hresult
    cases r <;> exact ⟨rfl, rfl, rfl, hmemory⟩

theorem Respects.updatePair (parent child : CaId)
    {f : ε → CertificateAuthority → CertificateAuthority →
      (Except Error α × ε) × CertificateAuthority × CertificateAuthority}
    (hf : ∀ m m' p c, R m m' → (f m p c).1.1 = (f m' p c).1.1 ∧
      R (f m p c).1.2 (f m' p c).1.2 ∧ (f m p c).2 = (f m' p c).2) :
    Respects R (updatePair parent child f) := by
  rintro ⟨work, status, log, m⟩ ⟨work', status', log', m'⟩ ⟨hwork, hstatus, hrelated⟩
  obtain rfl : work = work' := hwork
  obtain rfl : status = status' := hstatus
  unfold Action.updatePair UnitOfWork.updatePair
  by_cases hne : parent = child
  · rw [if_pos hne, if_pos hne]
    exact ⟨rfl, rfl, rfl, hrelated⟩
  · rw [if_neg hne, if_neg hne]
    cases work.get? parent with
    | none => exact ⟨rfl, rfl, rfl, hrelated⟩
    | some p =>
      dsimp only
      cases (work.remember parent).get? child with
      | none => exact ⟨rfl, rfl, rfl, hrelated⟩
      | some c =>
        obtain ⟨hresult, hmemory, hpair⟩ := hf m m' p c hrelated
        dsimp only
        generalize f m p c = run at hresult hmemory hpair ⊢
        generalize f m' p c = run' at hresult hmemory hpair ⊢
        obtain ⟨⟨r, k⟩, p₁, c₁⟩ := run
        obtain ⟨⟨r', k'⟩, p₂, c₂⟩ := run'
        obtain ⟨rfl, rfl⟩ := Prod.mk.inj hpair
        exact ⟨hresult, rfl, rfl, hmemory⟩

end Action

/-- A handler that always succeeds and changes nothing but what it counts. -/
def Handler.Observes (R : ε → ε → Prop) (h : Handler ε) : Prop :=
  ∀ command t, ∃ t', h.handle command t = (.ok (), t') ∧ Session.Agree R t t'

/-- The systems are in one state but for their logs and what their handlers counted. -/
structure Engine.Agree (R : ε → ε → Prop) (e e' : Engine ε) : Prop where
  tree : e.tree = e'.tree
  memory : R e.memory e'.memory

namespace Dispatcher

open ResourcePki.Action

/-- The dispatcher does the business of some handlers, and then only observes. -/
def WithObservers (R : ε → ε → Prop) (business : List (Handler ε)) (d : Dispatcher ε) : Prop :=
  ∃ observers, d.handlers = business ++ observers ∧ ∀ h ∈ observers, h.Observes R

theorem runHandlers_append (command : CaCommand) (handlers more : List (Handler ε)) :
    runHandlers command (handlers ++ more) =
      (runHandlers command handlers >>= fun _ => runHandlers command more : Action ε Unit) := by
  induction handlers with
  | nil => rfl
  | cons h rest ih =>
    by_cases haccept : h.filter.accepts command.type = true
    · rw [List.cons_append, runHandlers_cons_of_accepts haccept,
        runHandlers_cons_of_accepts haccept, ih, bind_assoc]
    · rw [List.cons_append, runHandlers_cons_of_not_accepts haccept,
        runHandlers_cons_of_not_accepts haccept, ih]

variable {command : CaCommand}

theorem respects_runHandlers {handlers : List (Handler ε)}
    (h : ∀ g ∈ handlers, Respects R (g.handle command)) :
    Respects R (runHandlers command handlers) := by
  induction handlers with
  | nil => exact .pure ()
  | cons g rest ih =>
    have hrest := ih fun g' hg' => h g' (List.mem_cons_of_mem _ hg')
    by_cases haccept : g.filter.accepts command.type = true
    · rw [runHandlers_cons_of_accepts haccept]
      exact .bind (h g (List.mem_cons_self ..)) fun _ => hrest
    · rwa [runHandlers_cons_of_not_accepts haccept]

theorem runHandlers_observers [Std.Refl R] [IsTrans ε R] {observers : List (Handler ε)}
    (h : ∀ g ∈ observers, g.Observes R) (command : CaCommand) (t : Session ε) :
    ∃ t', runHandlers command observers t = (.ok (), t') ∧ Session.Agree R t t' := by
  induction observers generalizing t with
  | nil => exact ⟨t, rfl, rfl, rfl, refl _⟩
  | cons g rest ih =>
    have hrest := ih fun g' hg' => h g' (List.mem_cons_of_mem _ hg')
    by_cases haccept : g.filter.accepts command.type = true
    · obtain ⟨t₁, hrun, hagree⟩ := h g (List.mem_cons_self ..) command t
      obtain ⟨t₂, hrun', hagree'⟩ := hrest t₁
      refine ⟨t₂, ?_, hagree.work.trans hagree'.work, hagree.status.trans hagree'.status,
        IsTrans.trans _ _ _ hagree.memory hagree'.memory⟩
      rw [runHandlers_cons_of_accepts haccept, bind_of_ok hrun, hrun']
    · rw [runHandlers_cons_of_not_accepts haccept]
      exact hrest t

variable {business : List (Handler ε)} {d d' : Dispatcher ε} {e e' : Engine ε}

/-- One attempt comes to what the business alone makes of it. -/
theorem WithObservers.attempt [Std.Refl R] [IsTrans ε R] (hd : d.WithObservers R business)
    (command : CaCommand) (e : Engine ε) :
    ∃ t, Session.Agree R (runHandlers command business (.start e.tree e.memory)).2 t ∧
      d.attempt command e =
        match (runHandlers command business (.start e.tree e.memory)).1 with
        | .ok _ => (.ok t.status,
            { e with tree := t.work.commit, log := e.log ++ t.log, memory := t.memory })
        | .error err => (.error err,
            { e with tree := t.work.rollback, log := e.log ++ t.log, memory := t.memory }) := by
  obtain ⟨observers, hhandlers, hobserve⟩ := hd
  rw [Dispatcher.attempt, hhandlers, runHandlers_append, bind_apply,
    show (⟨.begin e.tree, {}, [], e.memory⟩ : Session ε) = .start e.tree e.memory from rfl]
  generalize runHandlers command business (.start e.tree e.memory) = run
  obtain ⟨r, t⟩ := run
  cases r with
  | error err => exact ⟨t, ⟨rfl, rfl, refl _⟩, rfl⟩
  | ok u =>
    -- The observers come last, and none of them turns the success into a failure.
    obtain ⟨t', hrun, hagree⟩ := runHandlers_observers hobserve command t
    refine ⟨t', hagree, ?_⟩
    dsimp only
    rw [hrun]

variable [Std.Refl R] [Std.Symm R] [IsTrans ε R]

theorem attempt_agree (hbusiness : ∀ h ∈ business, Respects R (h.handle command))
    (hd : d.WithObservers R business) (hd' : d'.WithObservers R business) (h : e.Agree R e') :
    (d.attempt command e).1 = (d'.attempt command e').1 ∧
      (d.attempt command e).2.Agree R (d'.attempt command e').2 := by
  obtain ⟨hresult, hagree⟩ := respects_runHandlers hbusiness (.start e.tree e.memory)
    (.start e'.tree e'.memory) ⟨congrArg UnitOfWork.begin h.tree, rfl, h.memory⟩
  obtain ⟨t, ht, hattempt⟩ := hd.attempt command e
  obtain ⟨t', ht', hattempt'⟩ := hd'.attempt command e'
  have hwork : t.work = t'.work := ht.work.symm.trans (hagree.work.trans ht'.work)
  have hstatus : t.status = t'.status := ht.status.symm.trans (hagree.status.trans ht'.status)
  have hmemory : R t.memory t'.memory := IsTrans.trans _ _ _ (Std.Symm.symm _ _ ht.memory)
    (IsTrans.trans _ _ _ hagree.memory ht'.memory)
  rw [hattempt, hattempt', ← hresult]
  cases (runHandlers command business (.start e.tree e.memory)).1 with
  | ok u => exact ⟨congrArg Except.ok hstatus, congrArg UnitOfWork.commit hwork, hmemory⟩
  | error err => exact ⟨rfl, congrArg UnitOfWork.rollback hwork, hmemory⟩

/-- Since the attempts fail for the same reasons, equally many are made. -/
theorem attempts_agree (hbusiness : ∀ h ∈ business, Respects R (h.handle command))
    (hd : d.WithObservers R business) (hd' : d'.WithObservers R business) (done left : Nat)
    (h : e.Agree R e') :
    (d.attempts command done left e).1 = (d'.attempts command done left e').1 ∧
      (d.attempts command done left e).2.Agree R (d'.attempts command done left e').2 := by
  induction left generalizing done e e' with
  | zero => exact attempt_agree hbusiness hd hd' h
  | succ left ih =>
    obtain ⟨hresult, hagree⟩ := attempt_agree hbusiness hd hd' h
    rw [attempts, attempts]
    generalize d.attempt command e = run at hresult hagree ⊢
    generalize d'.attempt command e' = run' at hresult hagree ⊢
    obtain ⟨r, e₁⟩ := run
    obtain ⟨r', e₁'⟩ := run'
    obtain rfl : r = r' := hresult
    cases r with
    | ok status => exact ⟨rfl, hagree⟩
    | error err =>
      dsimp only
      by_cases htransient : err.isTransient = true
      · rw [if_pos htransient, if_pos htransient]
        exact ih (done + 1) ⟨hagree.tree, hagree.memory⟩
      · rw [if_neg htransient, if_neg htransient]
        exact ⟨rfl, hagree⟩

theorem execute_agree (hbusiness : ∀ h ∈ business, Respects R (h.handle command))
    (hd : d.WithObservers R business) (hd' : d'.WithObservers R business)
    (hretries : d.retries = d'.retries) (h : e.Agree R e') :
    (d.execute command e).1 = (d'.execute command e').1 ∧
      (d.execute command e).2.Agree R (d'.execute command e').2 := by
  rw [execute, execute, ← hretries]
  exact attempts_agree hbusiness hd hd' 0 d.retries h

end Dispatcher

/-- What a caller sees of a command that was executed. -/
structure Answer where
  command : CaCommand
  result : Except Error CommandStatus
  /-- The tree after it. -/
  tree : CaTree

/-- Commands one after the other, whether they succeed or not; each finds a dispatcher of its own,
as the world around the system changes. -/
def Engine.run {σ : Type} (dispatcher : σ → Dispatcher ε) :
    List (σ × CaCommand) → Engine ε → List Answer × Engine ε
  | [], e => ([], e)
  | (s, command) :: rest, e =>
    let (result, e) := (dispatcher s).execute command e
    let (answers, e') := Engine.run dispatcher rest e
    (⟨command, result, e.tree⟩ :: answers, e')

theorem Engine.run_agree {σ : Type} [Std.Refl R] [Std.Symm R] [IsTrans ε R]
    (business : σ → List (Handler ε)) {dispatcher dispatcher' : σ → Dispatcher ε}
    (hbusiness : ∀ s, ∀ h ∈ business s, ∀ command, Action.Respects R (h.handle command))
    (hd : ∀ s, (dispatcher s).WithObservers R (business s))
    (hd' : ∀ s, (dispatcher' s).WithObservers R (business s))
    (hretries : ∀ s, (dispatcher s).retries = (dispatcher' s).retries)
    (orders : List (σ × CaCommand)) {e e' : Engine ε} (h : e.Agree R e') :
    (e.run dispatcher orders).1 = (e'.run dispatcher' orders).1 ∧
      (e.run dispatcher orders).2.Agree R (e'.run dispatcher' orders).2 := by
  induction orders generalizing e e' with
  | nil => exact ⟨rfl, h⟩
  | cons order rest ih =>
    obtain ⟨s, command⟩ := order
    obtain ⟨hresult, hagree⟩ := Dispatcher.execute_agree (fun g hg => hbusiness s g hg command)
      (hd s) (hd' s) (hretries s) h
    obtain ⟨hanswers, hagree'⟩ := ih hagree
    refine ⟨?_, hagree'⟩
    rw [run, run]
    dsimp only
    rw [hresult, hagree.tree, hanswers]

end ResourcePki
