import ResourcePki.Proofs.Tree.WellFormed
import Mathlib.Data.List.Nodup
import Mathlib.Data.List.Perm.Subperm

/-! What is below a CA in a well-formed tree. The level at depth `n` holds the CAs from which `n`
links lead up to it; so the list of descendants is complete, names nobody twice, and has every CA
after its parent. The number of CAs bounds the depth, as nobody is passed twice on the way up. -/

namespace ResourcePki.CaTree

variable {t u : CaTree}

/-- The CAs at a depth below a CA, which is itself at depth zero. -/
def level (t : CaTree) : Nat → CaId → List CaId
  | 0, id => [id]
  | n + 1, id => (t.level n id).flatMap t.childrenOf

theorem nodup_childrenOf (t : CaTree) (p : CaId) : (t.childrenOf p).Nodup := by
  unfold childrenOf
  cases t.get? p with
  | none => exact List.nodup_nil
  | some parent => exact CaIds.nodup_toList _

namespace WellFormed

variable (h : t.WellFormed)

include h

theorem mem_childrenOf {c p : CaId} : c ∈ t.childrenOf p ↔ t.parent? c = some p := by
  unfold childrenOf
  constructor
  · intro hc
    cases hp : t.get? p with
    | none =>
      rw [hp] at hc
      cases hc
    | some parent =>
      rw [hp] at hc
      exact h.children p parent hp c hc
  · intro hp
    obtain ⟨parent, hparent, hmem⟩ := h.exists_of_parent? hp
    rw [hparent]
    exact hmem

theorem mem_level {n : Nat} {id x : CaId} : x ∈ t.level n id ↔ t.up n x = some id := by
  induction n generalizing x with
  | zero => rw [level, List.mem_singleton, up, Option.some.injEq]
  | succ n ih =>
    rw [level, List.mem_flatMap, up, Option.bind_eq_some_iff]
    constructor
    · rintro ⟨y, hy, hx⟩
      exact ⟨y, h.mem_childrenOf.mp hx, ih.mp hy⟩
    · rintro ⟨y, hx, hy⟩
      exact ⟨y, ih.mpr hy, h.mem_childrenOf.mpr hx⟩

theorem depth_unique {m n : Nat} {id x : CaId} (hm : t.up m x = some id)
    (hn : t.up n x = some id) : m = n := by
  -- The rest of the longer way would lead from the CA at its end back to it.
  have hlt : ∀ {m n}, t.up m x = some id → t.up n x = some id → ¬ m < n := by
    intro m n hm hn hlt
    obtain ⟨d, rfl⟩ := Nat.exists_eq_add_of_lt hlt
    rw [Nat.add_assoc, up_add, hm, Option.bind_some] at hn
    exact h.acyclic d id hn
  exact Nat.le_antisymm (Nat.not_lt.mp (hlt hn hm)) (Nat.not_lt.mp (hlt hm hn))

theorem nodup_level (n : Nat) (id : CaId) : (t.level n id).Nodup := by
  induction n with
  | zero => exact List.nodup_singleton id
  | succ n ih =>
    rw [level, List.nodup_flatMap]
    refine ⟨fun x _ => t.nodup_childrenOf x, ih.imp fun {x y} hne => ?_⟩
    intro c hx hy
    rw [h.mem_childrenOf] at hx hy
    exact hne (Option.some.inj (hx.symm.trans hy))

theorem contains_of_mem_level {n : Nat} {id x : CaId} (hx : x ∈ t.level (n + 1) id) :
    t.contains x = true := by
  rw [h.mem_level, up] at hx
  obtain ⟨p, hp, -⟩ := Option.bind_eq_some_iff.mp hx
  obtain ⟨ca, hca, -⟩ := parent?_eq_some hp
  exact contains_iff.mpr ⟨ca, hca⟩

theorem levels_eq (fuel n : Nat) (id : CaId) : t.levels fuel (t.level (n + 1) id) =
    (List.range fuel).flatMap fun k => t.level (n + 1 + k) id := by
  induction fuel generalizing n with
  | zero => rfl
  | succ fuel ih =>
    -- Listed children are in the tree, so the search drops none of a level.
    have hpresent : (t.level (n + 1) id).filter t.contains = t.level (n + 1) id :=
      List.filter_eq_self.mpr fun x hx => h.contains_of_mem_level hx
    have hnext : (t.level (n + 1) id).flatMap t.childrenOf = t.level (n + 1 + 1) id := rfl
    rw [levels, hpresent, hnext, ih, List.range_succ_eq_map, List.flatMap_cons, List.flatMap_map,
      Nat.add_zero]
    congr 2
    funext k
    rw [Nat.succ_eq_add_one, Nat.add_assoc (n + 1), Nat.add_comm 1 k]

theorem descendants_eq (id : CaId) :
    t.descendants id = (List.range t.size).flatMap fun k => t.level (k + 1) id := by
  have hchildren : t.childrenOf id = t.level 1 id := (List.flatMap_singleton ..).symm
  rw [descendants, hchildren, h.levels_eq]
  congr 1
  funext k
  rw [Nat.add_comm]

theorem depth_lt_size {n : Nat} {id x : CaId} (hx : ∃ ca, t.get? x = some ca)
    (hup : t.up n x = some id) : n < t.size := by
  have hsome : ∀ i, i < n + 1 → ∃ y, t.up i x = some y := by
    intro i hi
    obtain ⟨d, rfl⟩ := Nat.exists_eq_add_of_le (Nat.le_of_lt_succ hi)
    rw [up_add] at hup
    obtain ⟨y, hy, -⟩ := Option.bind_eq_some_iff.mp hup
    exact ⟨y, hy⟩
  -- Nobody is passed twice on the way up: from there the way to `id` has one length only.
  have hnodup : ((List.range (n + 1)).map fun i => (t.up i x).getD 0).Nodup := by
    refine List.Nodup.map_on (fun i hi j hj heq => ?_) List.nodup_range
    obtain ⟨y, hy⟩ := hsome i (List.mem_range.mp hi)
    obtain ⟨z, hz⟩ := hsome j (List.mem_range.mp hj)
    rw [hy, hz, Option.getD_some, Option.getD_some] at heq
    subst heq
    exact h.depth_unique hy hz
  have hsubset : ((List.range (n + 1)).map fun i => (t.up i x).getD 0) ⊆ t.cas.keys := by
    intro y hy
    obtain ⟨i, hi, rfl⟩ := List.mem_map.mp hy
    obtain ⟨z, hz⟩ := hsome i (List.mem_range.mp hi)
    rw [hz, Option.getD_some, SortedMap.mem_keys_iff]
    exact contains_iff.mpr (h.exists_of_up hx hz)
  have hle := (hnodup.subperm hsubset).length_le
  rw [List.length_map, List.length_range, SortedMap.keys, List.length_map] at hle
  exact hle

/-- A CA is among the descendants of another when links lead up from it to that. -/
theorem mem_descendants {id x : CaId} :
    x ∈ t.descendants id ↔ ∃ n, t.up (n + 1) x = some id := by
  rw [h.descendants_eq, List.mem_flatMap]
  constructor
  · rintro ⟨k, -, hk⟩
    exact ⟨k, h.mem_level.mp hk⟩
  · rintro ⟨n, hn⟩
    have hx := contains_iff.mp (h.contains_of_mem_level (h.mem_level.mpr hn))
    have hlt := h.depth_lt_size hx hn
    exact ⟨n, List.mem_range.mpr (Nat.lt_of_succ_lt hlt), h.mem_level.mpr hn⟩

theorem exists_of_mem_descendants {id x : CaId} (hx : x ∈ t.descendants id) :
    ∃ ca, t.get? x = some ca := by
  obtain ⟨n, hn⟩ := h.mem_descendants.mp hx
  exact contains_iff.mp (h.contains_of_mem_level (h.mem_level.mpr hn))

/-- Of two descendants the later one is neither the earlier one nor its parent. -/
theorem pairwise_descendants (id : CaId) :
    (t.descendants id).Pairwise fun x y => x ≠ y ∧ t.parent? x ≠ some y := by
  -- A parent is one level above its child, so it is not listed after it.
  have hparent : ∀ {a b x y}, x ∈ t.level (a + 1) id → y ∈ t.level (b + 1) id → a ≤ b →
      t.parent? x ≠ some y := by
    intro a b x y hx hy hab hp
    rw [h.mem_level, up, hp, Option.bind_some] at hx
    have hdepth := h.depth_unique hx (h.mem_level.mp hy)
    omega
  rw [h.descendants_eq, List.pairwise_flatMap]
  refine ⟨fun k _ => ?_, List.pairwise_lt_range.imp fun {a b} hab x hx y hy => ⟨?_, ?_⟩⟩
  · refine (h.nodup_level (k + 1) id).imp_of_mem fun {x y} hx hy hne => ⟨hne, ?_⟩
    exact hparent hx hy (Nat.le_refl k)
  · rintro rfl
    have hdepth := h.depth_unique (h.mem_level.mp hx) (h.mem_level.mp hy)
    omega
  · exact hparent hx hy (Nat.le_of_lt hab)

/-- A CA comes before all that is below it. -/
theorem pairwise_subtree (id : CaId) :
    (id :: t.descendants id).Pairwise fun x y => x ≠ y ∧ t.parent? x ≠ some y := by
  refine List.pairwise_cons.mpr ⟨fun y hy => ?_, h.pairwise_descendants id⟩
  obtain ⟨n, hn⟩ := h.mem_descendants.mp hy
  constructor
  · rintro rfl
    exact h.acyclic n id hn
  · exact fun hp => h.up_parent_ne hp hn

theorem mem_subtree {id x : CaId} : x ∈ id :: t.descendants id ↔ ∃ n, t.up n x = some id := by
  rw [List.mem_cons, h.mem_descendants]
  constructor
  · rintro (rfl | ⟨n, hn⟩)
    · exact ⟨0, rfl⟩
    · exact ⟨n + 1, hn⟩
  · rintro ⟨n, hn⟩
    cases n with
    | zero => exact .inl (Option.some.inj hn)
    | succ n => exact .inr ⟨n, hn⟩

theorem findByName?_iff {name : CaName} {ca : CertificateAuthority} :
    t.findByName? name = some ca ↔ ∃ id, t.get? id = some ca ∧ ca.name = name := by
  constructor
  · intro hfind
    obtain ⟨⟨id, hid⟩, hname⟩ := findByName?_eq_some hfind
    exact ⟨id, hid, hname⟩
  · rintro ⟨id, hid, hname⟩
    cases hfind : t.findByName? name with
    | none => exact absurd hname (findByName?_eq_none hfind hid)
    | some ca' =>
      obtain ⟨⟨id', hid'⟩, hname'⟩ := findByName?_eq_some hfind
      obtain rfl := h.names id id' ca ca' hid hid' (hname.trans hname'.symm)
      exact hid'.symm.trans hid

end WellFormed

/-! Trees with the same links -/

namespace SameLinks

variable (h : SameLinks t u)

include h

theorem contains (x : CaId) : u.contains x = t.contains x := by
  have hx := congrArg Option.isSome (h x)
  rwa [Option.isSome_map, Option.isSome_map] at hx

theorem childrenOf (x : CaId) : u.childrenOf x = t.childrenOf x := by
  have hx := congrArg (fun o => o.elim [] fun ca => ca.children.toList) (h x)
  unfold CaTree.childrenOf
  cases hu : u.get? x <;> cases ht : t.get? x <;> rw [hu, ht] at hx <;> exact hx

theorem size : u.size = t.size := by
  have hkeys : u.cas.keys.Perm t.cas.keys := by
    have hnodup : ∀ v : CaTree, v.cas.keys.Nodup := fun v => by
      rw [SortedMap.keys, List.nodup_iff_pairwise_ne, List.pairwise_map]
      exact v.cas.sorted.imp fun hlt heq => Nat.ne_of_lt hlt (congrArg _ heq)
    refine (List.perm_ext_iff_of_nodup (hnodup u) (hnodup t)).mpr fun x => ?_
    rw [SortedMap.mem_keys_iff, SortedMap.mem_keys_iff]
    exact (h.contains x).congr_left
  have hlength := hkeys.length_eq
  rwa [SortedMap.keys, SortedMap.keys, List.length_map, List.length_map] at hlength

theorem levels (fuel : Nat) (ids : List CaId) : u.levels fuel ids = t.levels fuel ids := by
  induction fuel generalizing ids with
  | zero => rfl
  | succ fuel ih =>
    rw [CaTree.levels, CaTree.levels, ih, funext h.contains, funext h.childrenOf]

theorem descendants (id : CaId) : u.descendants id = t.descendants id := by
  rw [CaTree.descendants, CaTree.descendants, h.size, h.childrenOf, h.levels]

theorem findByName? (hwf : t.WellFormed) (name : CaName) :
    (u.findByName? name).map (·.identity) = (t.findByName? name).map (·.identity) := by
  have hwf' := hwf.of_sameLinks h
  cases ht : t.findByName? name with
  | some ca =>
    obtain ⟨id, hid, hname⟩ := hwf.findByName?_iff.mp ht
    obtain ⟨ca', hca', hlinks⟩ := h.symm.get? hid
    have hfound : u.findByName? name = some ca' :=
      hwf'.findByName?_iff.mpr ⟨id, hca', (congrArg (·.name) hlinks).symm.trans hname⟩
    rw [hfound, Option.map_some, Option.map_some]
    exact congrArg (some ·.identity) hlinks.symm
  | none =>
    cases hu : u.findByName? name with
    | none => rfl
    | some ca' =>
      obtain ⟨id, hid, hname⟩ := hwf'.findByName?_iff.mp hu
      obtain ⟨ca, hca, hlinks⟩ := h.get? hid
      exact absurd ((congrArg (·.name) hlinks).symm.trans hname) (findByName?_eq_none ht hca)

end SameLinks

end ResourcePki.CaTree
