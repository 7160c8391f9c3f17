import ResourcePki.Proofs.Issuance.Histories
import ResourcePki.Proofs.Tree.Descendants

/-! The tree of a system as CAs are added, numbers given out and commands executed. It stays a tree,
in that every way up ends at a root, and no number above those in use was given out before. -/

namespace ResourcePki

namespace CaTree

variable {t u : CaTree}

/-- CAs are stored under their numbers and told apart by their names, the links to parents are the
links from them, every way up ends, and the next number is above those in use. The numbers stand for
those of 64 bits, as long as they are below 2^64 - 1. -/
structure IsTree (t : CaTree) : Prop where
  ids : t.Keyed
  names : ∀ id id' ca ca', t.get? id = some ca → t.get? id' = some ca' → ca.name = ca'.name →
    id = id'
  linked : ∀ p c, t.parent? c = some p ↔ c ∈ t.childrenOf p
  rooted : ∀ id ca, t.get? id = some ca →
    ∃ n id' root, t.up n id = some id' ∧ t.get? id' = some root ∧ root.parent = none
  numbered : ∀ id ca, t.get? id = some ca → id < t.nextId

theorem up_loop {n : Nat} {id : CaId} (h : t.up n id = some id) (k : Nat) :
    t.up (k * n) id = some id := by
  induction k with
  | zero => rw [Nat.zero_mul, up]
  | succ k ih => rw [Nat.succ_mul, up_add, ih, Option.bind_some, h]

theorem up_eq_none_of_root {m n : Nat} {id id' : CaId} {root : CertificateAuthority}
    (hup : t.up n id = some id') (hroot : t.get? id' = some root) (hparent : root.parent = none)
    (hlt : n < m) : t.up m id = none := by
  obtain ⟨d, rfl⟩ := Nat.exists_eq_add_of_lt hlt
  rw [Nat.add_assoc, up_add, hup, Option.bind_some, up, parent?_of_get? hroot, hparent,
    Option.bind_none]

theorem exists_of_mem_childrenOf {p c : CaId} (h : c ∈ t.childrenOf p) :
    ∃ parent, t.get? p = some parent ∧ c ∈ parent.children.toList := by
  unfold childrenOf at h
  cases hp : t.get? p with
  | none =>
    rw [hp] at h
    cases h
  | some parent =>
    rw [hp] at h
    exact ⟨parent, rfl, h⟩

theorem mem_childrenOf_of_get? {p c : CaId} {parent : CertificateAuthority}
    (hp : t.get? p = some parent) (hc : c ∈ parent.children.toList) : c ∈ t.childrenOf p := by
  rw [childrenOf, hp]
  exact hc

theorem IsTree.wellFormed (h : t.IsTree) : t.WellFormed where
  ids := h.ids
  names := h.names
  parents id ca hca p hp := by
    have hlink : t.parent? id = some p := (parent?_of_get? hca).trans hp
    exact exists_of_mem_childrenOf ((h.linked p id).mp hlink)
  children p parent hp c hc := (h.linked p c).mpr (mem_childrenOf_of_get? hp hc)
  acyclic n id hup := by
    obtain ⟨p, hp, -⟩ := Option.bind_eq_some_iff.mp hup
    obtain ⟨ca, hca, -⟩ := parent?_eq_some hp
    obtain ⟨m, id', root, hm, hroot, hparent⟩ := h.rooted id ca hca
    -- Going round often enough leads past the root, where there is nothing.
    have hround : t.up ((m + 1) * (n + 1)) id = some id := up_loop hup (m + 1)
    have hlt : m < (m + 1) * (n + 1) := Nat.lt_of_lt_of_le (Nat.lt_succ_self m)
      (Nat.le_mul_of_pos_right (m + 1) (Nat.succ_pos n))
    rw [up_eq_none_of_root hm hroot hparent hlt] at hround
    cases hround

/-- From a CA one can climb any number of links, or there is a root on the way. -/
theorem WellFormed.up_or_rooted (h : t.WellFormed) {id : CaId} {ca : CertificateAuthority}
    (hca : t.get? id = some ca) (n : Nat) : (∃ x, t.up n id = some x) ∨
      ∃ m id' root, t.up m id = some id' ∧ t.get? id' = some root ∧ root.parent = none := by
  induction n with
  | zero => exact .inl ⟨id, rfl⟩
  | succ n ih =>
    rcases ih with ⟨x, hx⟩ | hrooted
    · obtain ⟨cx, hcx⟩ := h.exists_of_up ⟨ca, hca⟩ hx
      cases hp : cx.parent with
      | none => exact .inr ⟨n, x, cx, hx, hcx, hp⟩
      | some p =>
        refine .inl ⟨p, ?_⟩
        rw [up_add, hx, Option.bind_some, up_one, parent?_of_get? hcx, hp]
    · exact .inr hrooted

theorem WellFormed.rooted (h : t.WellFormed) {id : CaId} {ca : CertificateAuthority}
    (hca : t.get? id = some ca) :
    ∃ n id' root, t.up n id = some id' ∧ t.get? id' = some root ∧ root.parent = none := by
  rcases h.up_or_rooted hca t.size with ⟨x, hx⟩ | hrooted
  -- No way is as long as there are CAs.
  · exact absurd (h.depth_lt_size ⟨ca, hca⟩ hx) (Nat.lt_irrefl _)
  · exact hrooted

theorem WellFormed.isTree (h : t.WellFormed) (hnumbered : ∀ id ca, t.get? id = some ca →
    id < t.nextId) : t.IsTree where
  ids := h.ids
  names := h.names
  linked _ _ := h.mem_childrenOf.symm
  rooted _ _ := h.rooted
  numbered := hnumbered

theorem isTree_empty : ({} : CaTree).IsTree where
  ids _ _ h := by cases h
  names _ _ _ _ h := by cases h
  linked _ _ := iff_of_false (fun h => by cases h) fun h => by cases h
  rooted _ _ h := by cases h
  numbered _ _ h := by cases h

theorem IsTree.of_sameLinks (h : t.IsTree) (hs : SameLinks t u) (hnext : t.nextId ≤ u.nextId) :
    u.IsTree := by
  refine (h.wellFormed.of_sameLinks hs).isTree fun id ca' hca' => ?_
  obtain ⟨ca, hca, -⟩ := hs.get? hca'
  exact Nat.lt_of_lt_of_le (h.numbered id ca hca) hnext

theorem IsTree.insert (h : t.IsTree) {ca : CertificateAuthority} (hins : t.insert ca = .ok u)
    (hchildren : ca.children = ∅) : u.IsTree := by
  refine (h.wellFormed.insert hins hchildren).isTree fun id c' hid => ?_
  have hnext : u.nextId = max t.nextId (ca.id + 1) := (insert_ok hins).2.2.1
  rw [hnext]
  obtain ⟨rfl, -⟩ | ⟨c, hc, -, -⟩ := get?_insert hins hid
  · exact Nat.lt_of_lt_of_le (Nat.lt_succ_self ca.id) (Nat.le_max_right ..)
  · exact Nat.lt_of_lt_of_le (h.numbered id c hc) (Nat.le_max_left ..)

theorem IsTree.allocate (h : t.IsTree) : t.allocate.2.IsTree := by
  refine h.of_sameLinks (SameLinks.refl t) ?_
  exact Nat.le_succ_of_le (Nat.le_max_left ..)

end CaTree

theorem Services.Updated.nextId {s : Services} {timing : IssuanceTiming} {t t' : CaTree}
    {id : CaId} {b : Bool} (h : s.Updated timing t id b t') : t'.nextId = t.nextId := by
  cases h <;> rfl

theorem CaTree.IsTree.updated {s : Services} {timing : IssuanceTiming} {t t' : CaTree} {id : CaId}
    {b : Bool} (ht : t.IsTree) (h : s.Updated timing t id b t') : t'.IsTree :=
  ht.of_sameLinks h.sameLinks (Nat.le_of_eq h.nextId.symm)

section performed

variable {s : Services} {policy : IssuancePolicy} {j : Journal} {t t' : CaTree} {id : CaId}
  {details : CommandDetails} {b : Bool}

theorem Services.Changes.links {limit : Nat} {ca ca' : CertificateAuthority}
    (h : s.Changes limit j t details ca b ca') : ca'.links = ca.links := by
  have haged : ca.Aged (fun _ => True) ca' := h.aged fun _ _ => trivial
  exact haged.links

theorem CaTree.Keyed.performed (ht : t.Keyed) (h : s.Performed policy j t id details b t') :
    t'.Keyed := by
  cases h with
  | present => exact ht
  | created hnone hanswer hins hupdated => exact (ht.insert hins).of_sameLinks hupdated.sameLinks
  | updated hupdated _ => exact ht.of_sameLinks hupdated.sameLinks
  | changed hca h => exact ht.of_sameLinks (CaTree.SameLinks.set t hca h.links)

theorem CaTree.IsTree.performed (ht : t.IsTree) (h : s.Performed policy j t id details b t') :
    t'.IsTree := by
  cases h with
  | present => exact ht
  | created hnone hanswer hins hupdated => exact (ht.insert hins rfl).updated hupdated
  | updated hupdated _ => exact ht.updated hupdated
  | changed hca h => exact ht.of_sameLinks (CaTree.SameLinks.set t hca h.links) (Nat.le_refl _)

end performed

/-- A CA is added to the tree of a system if the tree can take it. -/
def Engine.insert {ε : Type} (e : Engine ε) (ca : CertificateAuthority) : Engine ε :=
  match e.tree.insert ca with
  | .ok tree => { e with tree }
  | .error _ => e

/-- The second system comes from the first by adding CAs that have no children, giving out numbers
and executing commands, each of which may fail. -/
inductive Engine.Growth : Engine Journal → Engine Journal → Prop
  | refl (e : Engine Journal) : Growth e e
  | insert {e e' : Engine Journal} (ca : CertificateAuthority) (hchildren : ca.children = ∅)
      (h : Growth e e') : Growth e (e'.insert ca)
  | allocate {e e' : Engine Journal} (h : Growth e e') :
      Growth e { e' with tree := e'.tree.allocate.2 }
  | execute {e e' : Engine Journal} (s : Services) (policy : IssuancePolicy) (retries : Nat)
      (command : CaCommand) (h : Growth e e') :
      Growth e ((Dispatcher.standard s policy retries).execute command e').2

theorem isTree_insert {e : Engine Journal} (h : e.tree.IsTree) {ca : CertificateAuthority}
    (hchildren : ca.children = ∅) : (e.insert ca).tree.IsTree := by
  unfold Engine.insert
  cases hins : e.tree.insert ca with
  | ok tree => exact h.insert hins hchildren
  | error err => exact h

theorem isTree_execute {s : Services} {policy : IssuancePolicy} {retries : Nat}
    {command : CaCommand} {e : Engine Journal} (h : e.tree.IsTree) :
    ((Dispatcher.standard s policy retries).execute command e).2.tree.IsTree := by
  generalize hrun : (Dispatcher.standard s policy retries).execute command e = result
  obtain ⟨r, e'⟩ := result
  cases r with
  | ok status =>
    obtain ⟨j, -, hperformed⟩ := Dispatcher.execute_standard_performed hrun
    exact h.performed hperformed
  | error err =>
    rw [Dispatcher.execute_standard_error hrun]
    exact h

/-- An insertion that fails has at most put a copy of the parent aside. -/
theorem UnitOfWork.tree_insert_of_error {w : UnitOfWork} {ca : CertificateAuthority} {err : Error}
    (h : (w.insert ca).1 = .error err) : (w.insert ca).2.tree = w.tree := by
  have hsame := w.tree_rememberParent ca.parent
  unfold UnitOfWork.insert at h ⊢
  dsimp only at h ⊢
  rw [hsame] at h ⊢
  cases hins : w.tree.insert ca with
  | ok tree =>
    rw [hins] at h
    cases h
  | error err' => exact hsame

/-- However a system grows from nothing, or from a tree, its tree is one; in 64 bits, as long as the
numbers in use are below 2^64 - 1. -/
theorem tree_stays_tree {e e' : Engine Journal} (hgrowth : e.Growth e')
    (hstart : e.tree = {} ∨ e.tree.IsTree) :
    e'.tree.IsTree ∧ ∀ (w : UnitOfWork) (ca : CertificateAuthority) (err : Error),
      (w.insert ca).1 = .error err → (w.insert ca).2.tree = w.tree := by
  refine ⟨?_, fun w ca err => UnitOfWork.tree_insert_of_error⟩
  induction hgrowth with
  | refl =>
    rcases hstart with hempty | hstart
    · rw [hempty]
      exact CaTree.isTree_empty
    · exact hstart
  | insert ca hchildren _ ih => exact isTree_insert ih hchildren
  | allocate _ ih => exact ih.allocate
  | execute s policy retries command _ ih => exact isTree_execute ih

namespace Seedling

def empty : Engine Journal := { tree := {}, memory := {} }

/-- A root, and a CA below it. -/
def rooted : Engine Journal :=
  (empty.insert { Chain.root with children := ∅ }).insert { Chain.production with children := ∅ }

/-- The next number goes to a hosted CA below these. -/
def grown : Engine Journal :=
  ((Dispatcher.standard Chain.services {} 3).execute
    ⟨rooted.tree.allocate.1, .background, .activateHostedCa "CN=upper" 2⟩
    { rooted with tree := rooted.tree.allocate.2 }).2

theorem growth_grown : empty.Growth grown :=
  .execute Chain.services {} 3 _ (.allocate (.insert _ rfl (.insert _ rfl (.refl empty))))

theorem tree_stays_tree_in_seedling :
    (empty.Growth grown ∧ empty.tree = {}) ∧ grown.tree.parent? 3 = some 2 ∧
      grown.tree.IsTree := by
  have hparent : grown.tree.parent? 3 = some 2 := by
    rw [grown, Dispatcher.standard_eq]
    decide +kernel
  exact ⟨⟨growth_grown, rfl⟩, hparent, (tree_stays_tree growth_grown (.inl rfl)).1⟩

end Seedling

end ResourcePki
