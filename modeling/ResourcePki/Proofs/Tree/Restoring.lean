import ResourcePki.Tree.UnitOfWork
import Mathlib.Logic.Relation
import Mathlib.Tactic.Common

/-! Whatever is done to a tree through a unit of work, rolling it back gives the tree at its begin.
The invariant `Restores` says of every number what the copies put aside are good for: either the CA
under it is among them as it was, or it was not touched. -/

namespace ResourcePki

namespace SortedMap

variable {κ α : Type} [Numbered κ]

theorem get?_eq_none_of_isEmpty {m : SortedMap κ α} (h : m.isEmpty = true) (k : κ) :
    m.get? k = none := by
  have hnil : m.entries = [] := List.isEmpty_iff.mp h
  rw [get?, hnil, lookup]

theorem isEmpty_insert (m : SortedMap κ α) (k : κ) (a : α) : (m.insert k a).isEmpty = false := by
  have hself : (m.insert k a).get? k = some a := get?_insert_self
  by_contra hempty
  rw [get?_eq_none_of_isEmpty (Bool.not_eq_false _ ▸ hempty)] at hself
  exact absurd hself (by simp)

end SortedMap

namespace CaTree

theorem ext {t u : CaTree} (hget : ∀ id, t.get? id = u.get? id) (hnext : t.nextId = u.nextId) :
    t = u := by
  have hcas : t.cas = u.cas := SortedMap.ext hget
  cases t
  cases u
  simp_all

theorem get?_set {t : CaTree} {id x : CaId} {ca : CertificateAuthority} :
    (t.set id ca).get? x = if id = x then some ca else t.get? x := SortedMap.get?_insert

theorem get?_set_self {t : CaTree} {id : CaId} {ca : CertificateAuthority} :
    (t.set id ca).get? id = some ca := by
  rw [get?_set, if_pos rfl]

theorem get?_set_ne {t : CaTree} {id x : CaId} {ca : CertificateAuthority} (h : id ≠ x) :
    (t.set id ca).get? x = t.get? x := by
  rw [get?_set, if_neg h]

theorem set_of_get? {t : CaTree} {id : CaId} {ca : CertificateAuthority}
    (h : t.get? id = some ca) : t.set id ca = t := by
  refine ext (fun x => ?_) rfl
  rw [get?_set]
  split
  · rename_i hx
    rw [← hx, h]
  · rfl

theorem contains_iff {t : CaTree} {id : CaId} :
    t.contains id = true ↔ ∃ ca, t.get? id = some ca := by
  rw [contains, SortedMap.contains, Option.isSome_iff_exists]
  rfl

theorem contains_eq_false {t : CaTree} {id : CaId} (h : t.contains id = false) :
    t.get? id = none := by
  rw [contains, SortedMap.contains] at h
  exact Option.isSome_eq_false_iff.mp h |> Option.isNone_iff_eq_none.mp

/-- What adding a CA does to the CAs that are there: at most its parent is told of it. -/
theorem insert_ok {t u : CaTree} {ca : CertificateAuthority} (h : t.insert ca = .ok u) :
    t.get? ca.id = none ∧ t.findByName? ca.name = none ∧
      u.nextId = max t.nextId (ca.id + 1) ∧ u.get? ca.id = some ca ∧
      ((ca.parent = none ∧ ∀ x, x ≠ ca.id → u.get? x = t.get? x) ∨
        ∃ p parent, ca.parent = some p ∧ p ≠ ca.id ∧ t.get? p = some parent ∧
          u.get? p = some (parent.addChild ca.id) ∧
          ∀ x, x ≠ ca.id → x ≠ p → u.get? x = t.get? x) := by
  unfold insert at h
  split at h
  · cases h
  · rename_i hnew
    obtain ⟨hid, hname⟩ := not_or.mp hnew
    have hfree : t.get? ca.id = none := contains_eq_false (by simpa using hid)
    have hname' : t.findByName? ca.name = none := by simpa using hname
    cases hp : ca.parent with
    | none =>
      rw [hp] at h
      obtain rfl := Except.ok.inj h
      refine ⟨hfree, hname', rfl, get?_set_self, .inl ⟨rfl, fun x hx => ?_⟩⟩
      exact get?_set_ne (Ne.symm hx)
    | some p =>
      rw [hp] at h
      cases hparent : t.get? p with
      | none =>
        simp only [linkChild, hparent] at h
        cases h
      | some parent =>
        simp only [linkChild, hparent] at h
        obtain rfl := Except.ok.inj h
        have hne : p ≠ ca.id := by
          rintro rfl
          rw [hfree] at hparent
          cases hparent
        refine ⟨hfree, hname', rfl, get?_set_self, .inr ⟨p, parent, rfl, hne, hparent, ?_, ?_⟩⟩
        · rw [get?_set_ne (Ne.symm hne)]
          exact get?_set_self
        · intro x hx hxp
          rw [get?_set_ne (Ne.symm hx)]
          exact get?_set_ne (Ne.symm hxp)

end CaTree

namespace UnitOfWork

/-- One use of a unit of work. What is done to a CA that is handed out is not restricted. -/
inductive Step : UnitOfWork → UnitOfWork → Prop
  | update {α : Type} (w : UnitOfWork) (id : CaId)
      (f : CertificateAuthority → α × CertificateAuthority) : Step w (w.update id f).2
  | updatePair {α : Type} (w : UnitOfWork) (parent child : CaId)
      (f : CertificateAuthority → CertificateAuthority →
        α × CertificateAuthority × CertificateAuthority) : Step w (w.updatePair parent child f).2
  | insert (w : UnitOfWork) (ca : CertificateAuthority) : Step w (w.insert ca).2

/-- Any number of uses of a unit of work. -/
abbrev Uses : UnitOfWork → UnitOfWork → Prop := Relation.ReflTransGen Step

/-- Rolling `w` back would give `t`. -/
structure Restores (t : CaTree) (w : UnitOfWork) : Prop where
  startId : w.startId = t.nextId
  aside : ∀ id before, w.undo.get? id = some before → before = t.get? id
  untouched : ∀ id, w.undo.get? id = none → w.tree.get? id = t.get? id
  nextId : w.undo.isEmpty = true → w.tree.nextId = t.nextId

variable {t : CaTree} {w : UnitOfWork}

theorem restores_begin (t : CaTree) : Restores t (begin t) where
  startId := rfl
  aside id before h := by
    rw [begin, show (∅ : SortedMap CaId _).get? id = none from rfl] at h
    cases h
  untouched _ _ := rfl
  nextId _ := rfl

theorem tree_remember (w : UnitOfWork) (id : CaId) : (w.remember id).tree = w.tree := by
  unfold remember
  split <;> rfl

/-- Putting a CA aside before it is changed does not change the tree. -/
theorem tree_write_remember (w : UnitOfWork) (id : CaId) (ca : CertificateAuthority) :
    ((w.remember id).write id ca).tree = w.tree.set id ca := by
  rw [← w.tree_remember id]
  rfl

theorem undo_remember_self (w : UnitOfWork) (id : CaId) :
    (w.remember id).undo.get? id ≠ none := by
  unfold remember
  split
  · rename_i h
    exact Option.isSome_iff_ne_none.mp h
  · rw [SortedMap.get?_insert_self]
    exact Option.some_ne_none _

theorem isEmpty_undo_of_get? {id : CaId} (h : w.undo.get? id ≠ none) : w.undo.isEmpty = false := by
  by_contra hempty
  exact h (SortedMap.get?_eq_none_of_isEmpty (Bool.not_eq_false _ ▸ hempty) id)

theorem Restores.remember (h : Restores t w) (id : CaId) : Restores t (w.remember id) := by
  unfold UnitOfWork.remember
  split
  · exact h
  · rename_i hnot
    have hnone : w.undo.get? id = none := by
      simpa only [SortedMap.contains, Bool.not_eq_true, Option.isSome_eq_false_iff,
        Option.isNone_iff_eq_none] using hnot
    refine ⟨h.startId, fun x before hx => ?_, fun x hx => ?_, fun hempty => ?_⟩
    · rw [SortedMap.get?_insert] at hx
      split at hx
      · rename_i heq
        obtain rfl : id = x := heq
        rw [← Option.some.inj hx]
        exact h.untouched id hnone
      · exact h.aside x before hx
    · rw [SortedMap.get?_insert] at hx
      split at hx
      · cases hx
      · exact h.untouched x hx
    · rw [SortedMap.isEmpty_insert] at hempty
      cases hempty

/-- Changes of the tree are allowed under numbers whose CA was put aside. -/
theorem Restores.change {u : CaTree} (h : Restores t w)
    (hsame : ∀ x, w.undo.get? x = none → u.get? x = w.tree.get? x)
    (hundo : w.undo.isEmpty = false) : Restores t { w with tree := u } where
  startId := h.startId
  aside := h.aside
  untouched x hx := (hsame x hx).trans (h.untouched x hx)
  -- With something put aside the number to go on from need not be the one at the beginning.
  nextId hempty := by
    rw [hundo] at hempty
    cases hempty

theorem Restores.write (h : Restores t w) {id : CaId} (hid : w.undo.get? id ≠ none)
    (ca : CertificateAuthority) : Restores t (w.write id ca) := by
  refine h.change (fun x hx => CaTree.get?_set_ne ?_) (isEmpty_undo_of_get? hid)
  rintro rfl
  exact hid hx

theorem undo_remember_mono {id x : CaId} (h : w.undo.get? x ≠ none) :
    (w.remember id).undo.get? x ≠ none := by
  unfold remember
  split
  · exact h
  · rw [SortedMap.get?_insert]
    split
    · exact Option.some_ne_none _
    · exact h

theorem Restores.rememberParent (h : Restores t w) (parent : Option CaId) :
    Restores t (w.rememberParent parent) := by
  unfold UnitOfWork.rememberParent
  cases parent with
  | none => exact h
  | some p =>
    dsimp only
    split
    · exact h.remember p
    · exact h

theorem tree_rememberParent (w : UnitOfWork) (parent : Option CaId) :
    (w.rememberParent parent).tree = w.tree := by
  unfold rememberParent
  cases parent with
  | none => rfl
  | some p =>
    dsimp only
    split
    · exact tree_remember w p
    · rfl

theorem undo_rememberParent {p : CaId} {parent : CertificateAuthority}
    (h : w.tree.get? p = some parent) : (w.rememberParent (some p)).undo.get? p ≠ none := by
  rw [rememberParent, if_pos (CaTree.contains_iff.mpr ⟨parent, h⟩)]
  exact undo_remember_self w p

theorem Restores.insert (h : Restores t w) (ca : CertificateAuthority) :
    Restores t (w.insert ca).2 := by
  have hparent := h.rememberParent ca.parent
  unfold UnitOfWork.insert
  dsimp only
  split
  · exact hparent
  · rename_i u hu
    obtain ⟨-, -, -, -, hlinks⟩ := CaTree.insert_ok hu
    refine (hparent.remember ca.id).change (fun x hx => ?_)
      (isEmpty_undo_of_get? (undo_remember_self _ _))
    have hxid : x ≠ ca.id := by
      rintro rfl
      exact undo_remember_self _ _ hx
    rw [tree_remember]
    obtain ⟨-, hsame⟩ | ⟨p, parent, hp, -, hget, -, hsame⟩ := hlinks
    · exact hsame x hxid
    -- The parent is told of its new child, but it was put aside before that.
    · refine hsame x hxid ?_
      rintro rfl
      have hparent : (w.rememberParent ca.parent).undo.get? x ≠ none := by
        rw [hp] at hget ⊢
        exact undo_rememberParent (tree_rememberParent w _ ▸ hget)
      exact undo_remember_mono hparent hx

theorem Restores.step {w' : UnitOfWork} (h : Restores t w) (hs : Step w w') : Restores t w' := by
  cases hs with
  | update _ x f =>
    unfold UnitOfWork.update
    split
    · exact h
    · exact (h.remember x).write (undo_remember_self w x) _
  | updatePair _ parent child f =>
    unfold UnitOfWork.updatePair
    split
    · exact h
    · split
      · exact h
      · dsimp only
        split
        · exact h.remember parent
        · refine Restores.write (Restores.write ((h.remember parent).remember child) ?_ _) ?_ _
          · exact undo_remember_mono (undo_remember_self w parent)
          · exact undo_remember_self (w.remember parent) child
  | insert _ ca => exact h.insert ca

theorem Restores.uses {w' : UnitOfWork} (h : Restores t w) (hs : Uses w w') : Restores t w' := by
  induction hs with
  | refl => exact h
  | tail _ hstep ih => exact ih.step hstep

theorem get?_foldl_restore {l : List (CaId × Option CertificateAuthority)}
    (hl : l.Pairwise fun e f => Numbered.number e.1 < Numbered.number f.1) (u : CaTree) (x : CaId) :
    (l.foldl restore u).get? x = (SortedMap.lookup x l).getD (u.get? x) := by
  induction l generalizing u with
  | nil => rfl
  | cons e rest ih =>
    obtain ⟨hfirst, hrest⟩ := List.pairwise_cons.mp hl
    rw [List.foldl_cons, ih hrest, SortedMap.lookup]
    have hget : (restore u e).get? x = if e.1 = x then e.2 else u.get? x := by
      obtain ⟨id, before⟩ := e
      cases before with
      | some ca => exact CaTree.get?_set
      | none => exact SortedMap.get?_erase
    -- The entries are in order, so what this one gives back is not touched by the later ones.
    by_cases hx : e.1 = x
    · have hlater : SortedMap.lookup x rest = none := by
        refine SortedMap.lookup_eq_none fun f hf heq => ?_
        have hlt := hfirst f hf
        rw [heq, hx] at hlt
        exact Nat.lt_irrefl _ hlt
      rw [hlater, hget, if_pos hx, if_pos (congrArg _ hx)]
      rfl
    · have hne : Numbered.number e.1 ≠ Numbered.number x := hx
      rw [hget, if_neg hx, if_neg hne]

theorem Restores.rollback (h : Restores t w) : w.rollback = t := by
  unfold UnitOfWork.rollback
  split
  -- Nothing was put aside: the tree is left as it is, and so is the number to go on from.
  · rename_i hempty
    exact CaTree.ext (fun id => h.untouched id (SortedMap.get?_eq_none_of_isEmpty hempty id))
      (h.nextId hempty)
  · refine CaTree.ext (fun id => ?_) h.startId
    change (w.undo.entries.foldl restore w.tree).get? id = t.get? id
    rw [get?_foldl_restore w.undo.sorted]
    change (w.undo.get? id).getD (w.tree.get? id) = t.get? id
    cases hid : w.undo.get? id with
    | none => exact h.untouched id hid
    | some before => exact h.aside id before hid

/-- However a unit of work was used, rolling it back gives the tree that it began with. -/
theorem rollback_eq_of_uses (h : Uses (begin t) w) : w.rollback = t :=
  ((restores_begin t).uses h).rollback

end UnitOfWork

end ResourcePki
