import ResourcePki.Proofs.Issuance.Growing
import Mathlib.Logic.Function.Iterate

/-! The search for what is below a CA, with one queue and no record of what was seen. In a
well-formed tree it comes to its end all the same: nobody waits twice, so there are as many turns as
descendants. What it finds is in order of the distance, everybody after the parent. -/

namespace ResourcePki

/-- A search in progress. -/
structure Search where
  waiting : List CaId
  found : List CaId
deriving DecidableEq, Repr

namespace Search

/-- The first that waits is found, and its children wait behind all others. A search is over when
nobody waits. -/
def turn (t : CaTree) : Search → Search
  | ⟨[], found⟩ => ⟨[], found⟩
  | ⟨next :: rest, found⟩ =>
    match t.get? next with
    | some ca => ⟨rest ++ ca.children.toList, found ++ [next]⟩
    | none => ⟨rest, found⟩

/-- After as many turns as CAs wait in front, these are found and their children are at the end. -/
theorem iterate_turn_append {t : CaTree} {ids : List CaId}
    (hids : ∀ id ∈ ids, t.contains id = true) (later found : List CaId) :
    (turn t)^[ids.length] ⟨ids ++ later, found⟩ =
      ⟨later ++ ids.flatMap t.childrenOf, found ++ ids⟩ := by
  induction ids generalizing later found with
  | nil => simp
  | cons id rest ih =>
    obtain ⟨hid, hrest⟩ := List.forall_mem_cons.mp hids
    obtain ⟨ca, hca⟩ := CaTree.contains_iff.mp hid
    have hchildren : t.childrenOf id = ca.children.toList := by
      rw [CaTree.childrenOf, hca]
      rfl
    have hturn : turn t ⟨id :: rest ++ later, found⟩ =
        ⟨rest ++ (later ++ t.childrenOf id), found ++ [id]⟩ := by
      rw [List.cons_append, turn, hca, hchildren, ← List.append_assoc]
    rw [List.length_cons, Function.iterate_succ_apply, hturn, ih hrest, List.flatMap_cons,
      List.append_assoc, List.append_assoc, List.singleton_append]

end Search

namespace CaTree

variable {t : CaTree}

/-- The search for what is below a CA, after a number of turns. -/
def search (t : CaTree) (id : CaId) (turns : Nat) : Search :=
  (Search.turn t)^[turns] ⟨t.childrenOf id, []⟩

/-- The list names all that is below a CA, each once, and what is near before what is far. -/
structure TopDown (t : CaTree) (id : CaId) (ids : List CaId) : Prop where
  mem_iff : ∀ x, x ∈ ids ↔ ∃ n, t.up (n + 1) x = some id
  nodup : ids.Nodup
  not_mem_self : id ∉ ids
  nearer_first : ids.Pairwise fun x y => ∀ m n, t.up m x = some id → t.up n y = some id → m ≤ n
  parent_first : ∀ before x after, ids = before ++ x :: after →
    ∃ p, t.parent? x = some p ∧ (p = id ∨ p ∈ before)

namespace WellFormed

variable (h : t.WellFormed)

include h

/-- Level after level passes through the queue. -/
theorem search_levels (id : CaId) (depth : Nat) :
    t.search id ((List.range depth).flatMap fun k => t.level (k + 1) id).length =
      ⟨t.level (depth + 1) id, (List.range depth).flatMap fun k => t.level (k + 1) id⟩ := by
  induction depth with
  | zero =>
    have hchildren : t.childrenOf id = t.level 1 id := (List.flatMap_singleton ..).symm
    rw [search, hchildren]
    rfl
  | succ depth ih =>
    have hcas : ∀ x ∈ t.level (depth + 1) id, t.contains x = true := fun _ hx =>
      h.contains_of_mem_level hx
    have hlevel := Search.iterate_turn_append hcas []
      ((List.range depth).flatMap fun k => t.level (k + 1) id)
    rw [List.append_nil, List.nil_append] at hlevel
    rw [List.range_succ, List.flatMap_append, List.flatMap_singleton, List.length_append,
      Nat.add_comm, search, Function.iterate_add_apply, ← search, ih, hlevel]
    rfl

theorem level_size (id : CaId) : t.level (t.size + 1) id = [] := by
  refine List.eq_nil_iff_forall_not_mem.mpr fun x hx => ?_
  have hlt := h.depth_lt_size (contains_iff.mp (h.contains_of_mem_level hx)) (h.mem_level.mp hx)
  omega

theorem search_descendants (id : CaId) :
    t.search id (t.descendants id).length = ⟨[], t.descendants id⟩ := by
  rw [h.descendants_eq, h.search_levels, h.level_size]

theorem pairwise_nearer (id : CaId) : (t.descendants id).Pairwise fun x y =>
    ∀ m n, t.up m x = some id → t.up n y = some id → m ≤ n := by
  have hdepth : ∀ {a b x y m n}, x ∈ t.level (a + 1) id → y ∈ t.level (b + 1) id → a ≤ b →
      t.up m x = some id → t.up n y = some id → m ≤ n := by
    intro a b x y m n hx hy hab hm hn
    rw [h.depth_unique hm (h.mem_level.mp hx), h.depth_unique hn (h.mem_level.mp hy)]
    exact Nat.succ_le_succ hab
  rw [h.descendants_eq, List.pairwise_flatMap]
  refine ⟨fun k _ => ?_, List.pairwise_lt_range.imp fun hab x hx y hy m n => ?_⟩
  · exact List.pairwise_of_forall_mem_list fun x hx y hy m n => hdepth hx hy (Nat.le_refl k)
  · exact hdepth hx hy (Nat.le_of_lt hab)

theorem parent_first {id x : CaId} {before after : List CaId}
    (hlist : t.descendants id = before ++ x :: after) :
    ∃ p, t.parent? x = some p ∧ (p = id ∨ p ∈ before) := by
  have hx : x ∈ t.descendants id := by
    rw [hlist]
    exact List.mem_append_right _ (List.mem_cons_self ..)
  obtain ⟨n, hn⟩ := h.mem_descendants.mp hx
  obtain ⟨p, hp, hup⟩ := Option.bind_eq_some_iff.mp hn
  refine ⟨p, hp, ?_⟩
  cases n with
  | zero => exact .inl (Option.some.inj hup)
  | succ n =>
    have hmem : p ∈ before ++ x :: after := hlist ▸ h.mem_descendants.mpr ⟨n, hup⟩
    -- The parent is listed as well, and neither is it the CA itself nor does it come later.
    rcases List.mem_append.mp hmem with hbefore | hrest
    · exact .inr hbefore
    · have hordered := h.pairwise_descendants id
      rw [hlist, List.pairwise_append] at hordered
      obtain ⟨-, hordered, -⟩ := hordered
      rcases List.mem_cons.mp hrest with rfl | hafter
      · exact absurd rfl (h.parent_ne hp)
      · exact absurd hp ((List.pairwise_cons.mp hordered).1 p hafter).2

/-- The search ends, after as many turns as there are descendants, and what it found is all that is
below the CA, top down. -/
theorem search_finds_topDown (id : CaId) :
    (∀ turns, (t.descendants id).length ≤ turns → t.search id turns = ⟨[], t.descendants id⟩) ∧
      t.TopDown id (t.descendants id) := by
  refine ⟨fun turns hturns => ?_, ?_⟩
  · obtain ⟨more, rfl⟩ := Nat.exists_eq_add_of_le hturns
    rw [search, Nat.add_comm, Function.iterate_add_apply, ← search, h.search_descendants]
    exact Function.iterate_fixed rfl more
  · exact {
      mem_iff := fun x => h.mem_descendants
      nodup := (h.pairwise_descendants id).imp And.left
      not_mem_self := fun hself => by
        obtain ⟨n, hn⟩ := h.mem_descendants.mp hself
        exact h.acyclic n id hn
      nearer_first := h.pairwise_nearer id
      parent_first := fun _ _ _ => h.parent_first }

end WellFormed

theorem IsTree.insertAll {cas : List CertificateAuthority} {u : CaTree} (h : t.IsTree)
    (hchildren : ∀ ca ∈ cas, ca.children = ∅) (hrun : cas.foldlM CaTree.insert t = .ok u) :
    u.IsTree := by
  induction cas generalizing t with
  | nil => exact Except.ok.inj hrun ▸ h
  | cons ca rest ih =>
    obtain ⟨hca, hrest⟩ := List.forall_mem_cons.mp hchildren
    rw [List.foldlM_cons] at hrun
    cases hins : t.insert ca with
    | error err =>
      rw [hins] at hrun
      cases hrun
    | ok t' =>
      rw [hins] at hrun
      exact ih (h.insert hins hca) hrest hrun

end CaTree

namespace Branches

def ca (id : CaId) (name : CaName) (parent : Option CaId) : CertificateAuthority :=
  { id, name, parent, kind := .nonHosted [] ∅ }

/-- Two branches below the root, of which the one with the larger numbers goes deeper. -/
def cas : List CertificateAuthority :=
  [ca 1 "CN=root" none, ca 7 "CN=right" (some 1), ca 3 "CN=left" (some 1),
    ca 2 "CN=right-below" (some 7), ca 5 "CN=left-below" (some 3), ca 4 "CN=deep" (some 2)]

def tree : CaTree := (cas.foldlM CaTree.insert {}).toOption.getD {}

theorem wellFormed_tree : tree.WellFormed := by
  have hrun : cas.foldlM CaTree.insert {} = .ok tree := by decide +kernel
  exact (CaTree.isTree_empty.insertAll (by decide) hrun).wellFormed

theorem search_finds_topDown_in_branches :
    tree.WellFormed ∧ tree.search 1 5 = ⟨[], [3, 7, 5, 2, 4]⟩ ∧ tree.TopDown 1 [3, 7, 5, 2, 4] := by
  have hlist : tree.descendants 1 = [3, 7, 5, 2, 4] := by decide +kernel
  obtain ⟨hends, htopDown⟩ := wellFormed_tree.search_finds_topDown 1
  rw [hlist] at hends htopDown
  exact ⟨wellFormed_tree, hends 5 (Nat.le_refl 5), htopDown⟩

end Branches

end ResourcePki
