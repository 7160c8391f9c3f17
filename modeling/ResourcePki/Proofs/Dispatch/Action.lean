import ResourcePki.Dispatch.Session
import ResourcePki.Proofs.Tree.Restoring

/-! Steps of commands taken apart: what a sequence of steps comes to, and relations between the
sessions before and after that every step keeps. -/

namespace ResourcePki.Action

variable {ε α β : Type}

theorem bind_apply (a : Action ε α) (f : α → Action ε β) (s : Session ε) :
    (a >>= f) s = match a s with
      | (.ok x, s') => f x s'
      | (.error err, s') => (.error err, s') := by
  change (ExceptT.bindCont f (a s).1 : StateM (Session ε) (Except Error β)) (a s).2 = _
  cases a s with
  | mk r s' => cases r <;> rfl

theorem bind_of_ok {a : Action ε α} {f : α → Action ε β} {s s' : Session ε} {x : α}
    (h : a s = (.ok x, s')) : (a >>= f) s = f x s' := by
  rw [bind_apply, h]

theorem bind_of_error {a : Action ε α} {f : α → Action ε β} {s s' : Session ε} {err : Error}
    (h : a s = (.error err, s')) : (a >>= f) s = (.error err, s') := by
  rw [bind_apply, h]

theorem bind_ok {a : Action ε α} {f : α → Action ε β} {s s' : Session ε} {y : β}
    (h : (a >>= f) s = (.ok y, s')) : ∃ x s₁, a s = (.ok x, s₁) ∧ f x s₁ = (.ok y, s') := by
  rw [bind_apply] at h
  cases ha : a s with
  | mk r s₁ =>
    rw [ha] at h
    cases r with
    | ok x => exact ⟨x, s₁, rfl, h⟩
    | error err => cases h

/-- What holds of the session after the first step, and after the others, holds in any case. -/
theorem bind_keep {a : Action ε α} {f : α → Action ε β} {s : Session ε} {Q : Session ε → Prop}
    (ha : Q (a s).2) (hf : ∀ x s', a s = (.ok x, s') → Q (f x s').2) : Q ((a >>= f) s).2 := by
  rw [bind_apply]
  cases hrun : a s with
  | mk r s' =>
    rw [hrun] at ha
    cases r with
    | ok x => exact hf x s' hrun
    | error err => exact ha

/-! What the steps that look at the tree or change it come to -/

section outcome

variable {s s' : Session ε} {id : CaId}

theorem require_ok {ca : CertificateAuthority} (h : require id s = (.ok ca, s')) :
    s.work.tree.get? id = some ca ∧ s' = s := by
  unfold require UnitOfWork.require at h
  obtain ⟨hca, rfl⟩ := Prod.mk.inj h
  refine ⟨?_, rfl⟩
  split at hca
  · rename_i ca' hget
    cases hca
    exact hget
  · cases hca

theorem require_of_get? {ca : CertificateAuthority} (h : s.work.tree.get? id = some ca) :
    require id s = (.ok ca, s) := by
  have hget : s.work.get? id = some ca := h
  rw [require, UnitOfWork.require, hget]

theorem update_ok {f : CertificateAuthority → Except Error CertificateAuthority} {u : Unit}
    (h : update id f s = (.ok u, s')) :
    ∃ ca ca', s.work.tree.get? id = some ca ∧ f ca = .ok ca' ∧
      s'.work.tree = s.work.tree.set id ca' := by
  unfold update UnitOfWork.update at h
  cases hget : s.work.get? id with
  | none =>
    rw [hget] at h
    cases h
  | some ca =>
    rw [hget] at h
    dsimp only at h
    cases hf : f ca with
    | error err =>
      rw [hf] at h
      cases h
    | ok ca' =>
      rw [hf] at h
      obtain ⟨-, rfl⟩ := Prod.mk.inj h
      exact ⟨ca, ca', hget, hf, s.work.tree_write_remember id ca'⟩

theorem update_error {f : CertificateAuthority → Except Error CertificateAuthority} {err : Error}
    (h : update id f s = (.error err, s')) : err = .caUnknown id ∨ ∃ ca, f ca = .error err := by
  unfold update UnitOfWork.update at h
  cases hget : s.work.get? id with
  | none =>
    rw [hget] at h
    exact .inl (Except.error.inj (Prod.mk.inj h).1).symm
  | some ca =>
    rw [hget] at h
    dsimp only at h
    cases hf : f ca with
    | error err' =>
      rw [hf] at h
      obtain ⟨herr, -⟩ := Prod.mk.inj h
      exact .inr ⟨ca, hf.trans (congrArg _ (Except.error.inj herr))⟩
    | ok ca' =>
      rw [hf] at h
      cases h

theorem update_of_get? {f : CertificateAuthority → Except Error CertificateAuthority}
    {ca ca' : CertificateAuthority} (hca : s.work.tree.get? id = some ca) (hf : f ca = .ok ca') :
    update id f s = (.ok (), { s with work := (s.work.remember id).write id ca' }) := by
  have hget : s.work.get? id = some ca := hca
  simp only [update, UnitOfWork.update, hget, hf]
  rfl

theorem update_of_error {f : CertificateAuthority → Except Error CertificateAuthority}
    {ca : CertificateAuthority} {err : Error} (hca : s.work.tree.get? id = some ca)
    (hf : f ca = .error err) :
    update id f s = (.error err, { s with work := (s.work.remember id).write id ca }) := by
  have hget : s.work.get? id = some ca := hca
  simp only [update, UnitOfWork.update, hget, hf]
  rfl

theorem updateWith_of_get? {f : ε → CertificateAuthority → Except Error CertificateAuthority × ε}
    {ca ca' : CertificateAuthority} {memory : ε} (hca : s.work.tree.get? id = some ca)
    (hf : f s.memory ca = (.ok ca', memory)) :
    updateWith id f s = (.ok (), { s with work := (s.work.remember id).write id ca', memory }) := by
  have hget : s.work.get? id = some ca := hca
  simp only [updateWith, UnitOfWork.update, hget, hf]

theorem updateWith_ok {f : ε → CertificateAuthority → Except Error CertificateAuthority × ε}
    {u : Unit} (h : updateWith id f s = (.ok u, s')) :
    ∃ ca ca', s.work.tree.get? id = some ca ∧ (f s.memory ca).1 = .ok ca' ∧
      s'.work.tree = s.work.tree.set id ca' := by
  unfold updateWith UnitOfWork.update at h
  cases hget : s.work.get? id with
  | none =>
    rw [hget] at h
    cases h
  | some ca =>
    rw [hget] at h
    dsimp only at h
    generalize hf : f s.memory ca = result at h
    obtain ⟨r, memory⟩ := result
    cases r with
    | error err => cases h
    | ok ca' =>
      obtain ⟨-, rfl⟩ := Prod.mk.inj h
      exact ⟨ca, ca', hget, by rw [hf], s.work.tree_write_remember id ca'⟩

theorem insert_ok {ca : CertificateAuthority} {u : Unit} (h : insert ca s = (.ok u, s')) :
    s.work.tree.insert ca = .ok s'.work.tree := by
  unfold insert UnitOfWork.insert at h
  dsimp only at h
  rw [s.work.tree_rememberParent ca.parent] at h
  generalize s.work.tree.insert ca = result at h ⊢
  cases result with
  | error err => cases h
  | ok t =>
    obtain ⟨-, rfl⟩ := Prod.mk.inj h
    rfl

variable {parent child : CaId} {f : ε → CertificateAuthority → CertificateAuthority →
  (Except Error α × ε) × CertificateAuthority × CertificateAuthority}

theorem updatePair_of_get? {p c : CertificateAuthority} (hne : parent ≠ child)
    (hp : s.work.tree.get? parent = some p) (hc : s.work.tree.get? child = some c) :
    ∃ work, updatePair parent child f s =
        ((f s.memory p c).1.1, { s with work, memory := (f s.memory p c).1.2 }) ∧
      work.tree = (s.work.tree.set parent (f s.memory p c).2.1).set child (f s.memory p c).2.2 := by
  have hp' : s.work.get? parent = some p := hp
  have hc' : (s.work.remember parent).get? child = some c := by
    rw [UnitOfWork.get?, UnitOfWork.tree_remember]
    exact hc
  refine ⟨(((s.work.remember parent).remember child).write parent (f s.memory p c).2.1).write child
    (f s.memory p c).2.2, ?_, ?_⟩
  · unfold updatePair UnitOfWork.updatePair
    rw [if_neg hne, hp']
    dsimp only
    rw [hc']
  · change ((((s.work.remember parent).remember child).tree.set parent _).set child _) = _
    rw [UnitOfWork.tree_remember, UnitOfWork.tree_remember]

theorem updatePair_ok {a : α} (h : updatePair parent child f s = (.ok a, s')) :
    parent ≠ child ∧ ∃ p c, s.work.tree.get? parent = some p ∧ s.work.tree.get? child = some c ∧
      (f s.memory p c).1.1 = .ok a ∧ s'.status = s.status ∧
      s'.work.tree =
        (s.work.tree.set parent (f s.memory p c).2.1).set child (f s.memory p c).2.2 := by
  by_cases hne : parent = child
  · rw [updatePair, UnitOfWork.updatePair, if_pos hne] at h
    cases h
  · refine ⟨hne, ?_⟩
    cases hp : s.work.tree.get? parent with
    | none =>
      have hp' : s.work.get? parent = none := hp
      rw [updatePair, UnitOfWork.updatePair, if_neg hne, hp'] at h
      cases h
    | some p =>
      have hp' : s.work.get? parent = some p := hp
      cases hc : s.work.tree.get? child with
      | none =>
        have hc' : (s.work.remember parent).get? child = none := by
          rw [UnitOfWork.get?, UnitOfWork.tree_remember]
          exact hc
        rw [updatePair, UnitOfWork.updatePair, if_neg hne, hp'] at h
        dsimp only at h
        rw [hc'] at h
        cases h
      | some c =>
        obtain ⟨work, hrun, htree⟩ := updatePair_of_get? (f := f) hne hp hc
        obtain ⟨hresult, rfl⟩ := Prod.mk.inj (hrun.symm.trans h)
        exact ⟨p, c, rfl, rfl, hresult, rfl, htree⟩

end outcome

/-- A step changes the tree only through its unit of work, and the memory along `M`. -/
def Extends (M : ε → ε → Prop) (a : Action ε α) : Prop :=
  ∀ s, UnitOfWork.Uses s.work (a s).2.work ∧ M s.memory (a s).2.memory

section Extends

variable {M : ε → ε → Prop}

theorem Extends.bind [IsTrans ε M] {a : Action ε α} {f : α → Action ε β} (ha : Extends M a)
    (hf : ∀ x, Extends M (f x)) : Extends M (a >>= f) := by
  intro s
  obtain ⟨hwork, hmemory⟩ := ha s
  rw [bind_apply]
  cases has : a s with
  | mk r s' =>
    rw [has] at hwork hmemory
    cases r with
    | ok x => exact ⟨hwork.trans (hf x s').1, IsTrans.trans _ _ _ hmemory (hf x s').2⟩
    | error err => exact ⟨hwork, hmemory⟩

theorem Extends.of_same [Std.Refl M] {a : Action ε α}
    (h : ∀ s, (a s).2.work = s.work ∧ (a s).2.memory = s.memory) : Extends M a := by
  intro s
  obtain ⟨hwork, hmemory⟩ := h s
  rw [hwork, hmemory]
  exact ⟨.refl, refl _⟩

theorem Extends.pure [Std.Refl M] (x : α) : Extends M (pure x : Action ε α) :=
  .of_same fun _ => ⟨rfl, rfl⟩

theorem Extends.throw [Std.Refl M] (err : Error) : Extends M (throw err : Action ε α) :=
  .of_same fun _ => ⟨rfl, rfl⟩

theorem Extends.log [Std.Refl M] (event : Event) : Extends M (log (ε := ε) event) :=
  .of_same fun _ => ⟨rfl, rfl⟩

theorem Extends.setHadEffect [Std.Refl M] : Extends M (setHadEffect (ε := ε)) :=
  .of_same fun _ => ⟨rfl, rfl⟩

theorem Extends.tree [Std.Refl M] : Extends M (tree (ε := ε)) := .of_same fun _ => ⟨rfl, rfl⟩

theorem Extends.get? [Std.Refl M] (id : CaId) : Extends M (get? (ε := ε) id) :=
  .of_same fun _ => ⟨rfl, rfl⟩

theorem Extends.require [Std.Refl M] (id : CaId) : Extends M (require (ε := ε) id) :=
  .of_same fun _ => ⟨rfl, rfl⟩

theorem Extends.ofExcept [Std.Refl M] (r : Except Error α) : Extends M (ofExcept (ε := ε) r) :=
  .of_same fun _ => ⟨rfl, rfl⟩

theorem Extends.insert [Std.Refl M] (ca : CertificateAuthority) :
    Extends M (insert (ε := ε) ca) := fun s => ⟨.single (.insert s.work ca), refl _⟩

theorem Extends.update [Std.Refl M] (id : CaId)
    (f : CertificateAuthority → Except Error CertificateAuthority) :
    Extends M (update (ε := ε) id f) := fun s => ⟨.single (.update s.work id _), refl _⟩

theorem Extends.ask {f : ε → α × ε} (hf : ∀ m, M m (f m).2) : Extends M (ask f) :=
  fun s => ⟨.refl, hf s.memory⟩

theorem Extends.attempt {f : ε → Except Error α × ε} (hf : ∀ m, M m (f m).2) :
    Extends M (attempt f) := fun s => ⟨.refl, hf s.memory⟩

theorem Extends.updateWith [Std.Refl M] (id : CaId)
    {f : ε → CertificateAuthority → Except Error CertificateAuthority × ε}
    (hf : ∀ m ca, M m (f m ca).2) : Extends M (updateWith id f) := by
  intro s
  -- What is written depends on `f`, but whatever it is, this is one use of the unit of work.
  have huse := fun ca => UnitOfWork.Step.update s.work id fun _ => ((), ca)
  unfold Action.updateWith
  cases hget : s.work.get? id with
  | none =>
    simp only [UnitOfWork.update, hget] at huse ⊢
    exact ⟨.refl, refl _⟩
  | some ca =>
    have hmemory := hf s.memory ca
    simp only [UnitOfWork.update, hget] at huse ⊢
    generalize f s.memory ca = result at huse hmemory ⊢
    obtain ⟨r, memory⟩ := result
    cases r with
    | ok ca' => exact ⟨.single (huse ca'), hmemory⟩
    | error err => exact ⟨.single (huse ca), hmemory⟩

theorem Extends.updatePair [Std.Refl M] (parent child : CaId)
    {f : ε → CertificateAuthority → CertificateAuthority →
      (Except Error α × ε) × CertificateAuthority × CertificateAuthority}
    (hf : ∀ m p c, M m (f m p c).1.2) : Extends M (updatePair parent child f) := by
  intro s
  have huse := UnitOfWork.Step.updatePair s.work parent child (f s.memory)
  -- A pair that is not there is no use of the memory; otherwise `f` decides.
  have hmemory : ∀ r w', s.work.updatePair parent child (f s.memory) = (.ok r, w') →
      M s.memory r.2 := by
    intro r w' hpair
    unfold UnitOfWork.updatePair at hpair
    split at hpair
    · cases hpair
    · split at hpair
      · cases hpair
      · dsimp only at hpair
        split at hpair
        · cases hpair
        · cases hpair
          exact hf ..
  unfold Action.updatePair
  generalize s.work.updatePair parent child (f s.memory) = result at huse hmemory ⊢
  obtain ⟨r, w'⟩ := result
  cases r with
  | ok r => exact ⟨.single huse, hmemory r w' rfl⟩
  | error err => exact ⟨.single huse, refl _⟩

end Extends

end ResourcePki.Action
