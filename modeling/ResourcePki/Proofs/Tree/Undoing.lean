import ResourcePki.Proofs.Tree.Restoring

/-! A unit of work seen from outside. What is done through it comes out as if it were done to the
tree itself, failures included; the copies put aside show only when the work is dropped, and then
the tree is the one at the beginning. -/

namespace ResourcePki

/-- What a unit of work can be asked for. What is done to a CA that is handed out is not
restricted. -/
inductive TreeEdit where
  | update (id : CaId) (change : CertificateAuthority → CertificateAuthority)
  | updatePair (parent child : CaId)
      (change : CertificateAuthority → CertificateAuthority →
        CertificateAuthority × CertificateAuthority)
  | insert (ca : CertificateAuthority)

namespace CaTree

/-- An edit of the tree itself, with nothing put aside. -/
def edit (t : CaTree) : TreeEdit → Except Error CaTree
  | .update id change =>
    match t.get? id with
    | none => .error (.caUnknown id)
    | some ca => .ok (t.set id (change ca))
  | .updatePair parent child change =>
    if parent = child then .error (.illegalState (.ownParent parent))
    else
      match t.get? parent, t.get? child with
      | none, _ => .error (.caUnknown parent)
      | some _, none => .error (.caUnknown child)
      | some p, some c => .ok ((t.set parent (change p c).1).set child (change p c).2)
  | .insert ca => t.insert ca

/-- What comes of something that may fail: a failure leaves the tree as it is. -/
def attempt (t : CaTree) : Except Error CaTree → Except Error Unit × CaTree
  | .ok u => (.ok (), u)
  | .error err => (.error err, t)

/-- Edits one after another, with what came of each. -/
def editAll (t : CaTree) : List TreeEdit → List (Except Error Unit) × CaTree
  | [] => ([], t)
  | e :: es =>
    let (result, u) := t.attempt (t.edit e)
    (result :: (u.editAll es).1, (u.editAll es).2)

end CaTree

namespace UnitOfWork

def perform (w : UnitOfWork) : TreeEdit → Except Error Unit × UnitOfWork
  | .update id change => w.update id fun ca => ((), change ca)
  | .updatePair parent child change => w.updatePair parent child fun p c => ((), change p c)
  | .insert ca => w.insert ca

/-- Edits one after another, with what came of each. A failure does not end the unit of work. -/
def performAll (w : UnitOfWork) : List TreeEdit → List (Except Error Unit) × UnitOfWork
  | [] => ([], w)
  | e :: es =>
    let (result, w) := w.perform e
    (result :: (w.performAll es).1, (w.performAll es).2)

theorem step_perform (w : UnitOfWork) (e : TreeEdit) : Step w (w.perform e).2 := by
  cases e with
  | update id change => exact .update w id _
  | updatePair parent child change => exact .updatePair w parent child _
  | insert ca => exact .insert w ca

theorem uses_performAll (w : UnitOfWork) (es : List TreeEdit) : Uses w (w.performAll es).2 := by
  induction es generalizing w with
  | nil => exact .refl
  | cons e es ih => exact .head (w.step_perform e) (ih _)

variable (w : UnitOfWork)

theorem tree_update (id : CaId) (change : CertificateAuthority → CertificateAuthority) :
    ((w.perform (.update id change)).1, (w.perform (.update id change)).2.tree) =
      w.tree.attempt (w.tree.edit (.update id change)) := by
  simp only [perform, UnitOfWork.update, CaTree.edit, UnitOfWork.get?]
  cases w.tree.get? id with
  | none => rfl
  | some ca => exact congrArg (Prod.mk _) (w.tree_write_remember id _)

theorem tree_updatePair (parent child : CaId)
    (change : CertificateAuthority → CertificateAuthority →
      CertificateAuthority × CertificateAuthority) :
    ((w.perform (.updatePair parent child change)).1,
        (w.perform (.updatePair parent child change)).2.tree) =
      w.tree.attempt (w.tree.edit (.updatePair parent child change)) := by
  simp only [perform, UnitOfWork.updatePair, CaTree.edit, UnitOfWork.get?]
  by_cases hown : parent = child
  · simp only [if_pos hown]
    rfl
  · simp only [if_neg hown]
    cases w.tree.get? parent with
    | none => rfl
    | some p =>
      -- The parent is put aside before the child is looked for, and stays so when there is none.
      simp only [tree_remember]
      cases w.tree.get? child with
      | none => exact congrArg (Prod.mk _) (w.tree_remember parent)
      | some c =>
        have htree : ((w.remember parent).remember child).tree = w.tree := by
          rw [tree_remember, tree_remember]
        simp only [write, htree]
        rfl

theorem tree_insert (ca : CertificateAuthority) :
    ((w.perform (.insert ca)).1, (w.perform (.insert ca)).2.tree) =
      w.tree.attempt (w.tree.edit (.insert ca)) := by
  simp only [perform, UnitOfWork.insert, CaTree.edit, tree_rememberParent]
  cases w.tree.insert ca with
  | error err => exact congrArg (Prod.mk _) (w.tree_rememberParent ca.parent)
  | ok u => rfl

/-- One edit comes out of a unit of work as it does of the tree itself. -/
theorem tree_perform (e : TreeEdit) :
    ((w.perform e).1, (w.perform e).2.tree) = w.tree.attempt (w.tree.edit e) := by
  cases e with
  | update id change => exact w.tree_update id change
  | updatePair parent child change => exact w.tree_updatePair parent child change
  | insert ca => exact w.tree_insert ca

theorem commit_performAll (es : List TreeEdit) :
    ((w.performAll es).1, (w.performAll es).2.commit) = w.tree.editAll es := by
  induction es generalizing w with
  | nil => rfl
  | cons e es ih =>
    have hrest := ih (w.perform e).2
    rw [CaTree.editAll, ← w.tree_perform e]
    dsimp only
    rw [← hrest]
    rfl

/-- Whatever is done through a unit of work, dropping it gives the tree at its begin, and committing
it gives what the same edits make of the tree itself, with the same outcome of each. -/
theorem dropped_or_committed (t : CaTree) (es : List TreeEdit) :
    ((begin t).performAll es).2.rollback = t ∧
      (((begin t).performAll es).1, ((begin t).performAll es).2.commit) = t.editAll es :=
  ⟨rollback_eq_of_uses (uses_performAll _ es), commit_performAll (begin t) es⟩

end UnitOfWork

end ResourcePki
