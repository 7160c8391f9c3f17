import ResourcePki.Proofs.Tree.Restoring
import ResourcePki.Proofs.Authority.Views

/-! Trees whose links mean something: `WellFormed` is what they have to satisfy, `up` climbs from a
CA towards the root. Only the links count, so changes of keys keep a tree well-formed, and so does
adding a CA without children. -/

namespace ResourcePki

namespace SortedMap

open Numbered

variable {κ α : Type} [Numbered κ]

theorem lookup_of_mem {k : κ} {a : α} {l : List (κ × α)}
    (hl : l.Pairwise fun e f => number e.1 < number f.1) (h : (k, a) ∈ l) :
    lookup k l = some a := by
  induction l with
  | nil => cases h
  | cons e rest ih =>
    obtain ⟨hfirst, hrest⟩ := List.pairwise_cons.mp hl
    rw [lookup]
    rcases List.mem_cons.mp h with rfl | h
    · rw [if_pos rfl]
    · have hlt := hfirst _ h
      rw [if_neg (Nat.ne_of_lt hlt), ih hrest h]

theorem mem_of_lookup {k : κ} {a : α} {l : List (κ × α)} (h : lookup k l = some a) :
    (k, a) ∈ l := by
  induction l with
  | nil => cases h
  | cons e rest ih =>
    rw [lookup] at h
    split at h
    · rename_i heq
      obtain rfl := number_inj heq
      obtain rfl := Option.some.inj h
      exact List.mem_cons_self ..
    · exact List.mem_cons_of_mem _ (ih h)

theorem get?_eq_some_iff {m : SortedMap κ α} {k : κ} {a : α} :
    m.get? k = some a ↔ (k, a) ∈ m.entries := ⟨mem_of_lookup, lookup_of_mem m.sorted⟩

theorem mem_keys_iff {m : SortedMap κ α} {k : κ} : k ∈ m.keys ↔ m.contains k = true := by
  rw [keys, List.mem_map, contains, Option.isSome_iff_exists]
  simp only [get?_eq_some_iff, Prod.exists, exists_and_right, exists_eq_right]

end SortedMap

namespace CaIds

theorem mem_toList_add {s : CaIds} {id x : CaId} :
    x ∈ (s.add id).toList ↔ x = id ∨ x ∈ s.toList := by
  rw [toList, SortedMap.mem_keys_iff, toList, SortedMap.mem_keys_iff, SortedMap.contains, add,
    SortedMap.get?_insert]
  split
  · rename_i h
    exact ⟨fun _ => .inl (Eq.symm h), fun _ => rfl⟩
  · rename_i h
    exact ⟨.inr, fun hx => hx.resolve_left fun heq => h heq.symm⟩

theorem nodup_toList (s : CaIds) : s.toList.Nodup := by
  rw [toList, SortedMap.keys, List.nodup_iff_pairwise_ne, List.pairwise_map]
  exact s.sorted.imp fun h heq => Nat.ne_of_lt h (congrArg _ heq)

end CaIds

namespace CaTree

variable {t u : CaTree}

theorem mem_toList_iff {ca : CertificateAuthority} :
    ca ∈ t.toList ↔ ∃ id, t.get? id = some ca := by
  rw [toList, SortedMap.values, List.mem_map]
  simp only [get?, SortedMap.get?_eq_some_iff, Prod.exists, exists_eq_right]

theorem findByName?_eq_none {name : CaName} (h : t.findByName? name = none) {id : CaId}
    {ca : CertificateAuthority} (hca : t.get? id = some ca) : ca.name ≠ name := by
  have hall := List.find?_eq_none.mp h ca (mem_toList_iff.mpr ⟨id, hca⟩)
  simpa using hall

theorem findByName?_eq_some {name : CaName} {ca : CertificateAuthority}
    (h : t.findByName? name = some ca) : (∃ id, t.get? id = some ca) ∧ ca.name = name :=
  ⟨mem_toList_iff.mp (List.mem_of_find?_eq_some h), by simpa using List.find?_some h⟩

/-- The number that a CA names as its parent. -/
def parent? (t : CaTree) (id : CaId) : Option CaId := (t.get? id).bind (·.parent)

/-- Climbs a number of links to parents. -/
def up (t : CaTree) : Nat → CaId → Option CaId
  | 0, id => some id
  | n + 1, id => (t.parent? id).bind (t.up n)

/-- Every CA is stored under its own number, which is where `insert` puts it. -/
def Keyed (t : CaTree) : Prop := ∀ id ca, t.get? id = some ca → ca.id = id

/-- CAs are stored under their numbers, names are told apart, every parent lists its children and
these only, and there are no cycles. -/
structure WellFormed (t : CaTree) : Prop where
  ids : t.Keyed
  names : ∀ id id' ca ca', t.get? id = some ca → t.get? id' = some ca' → ca.name = ca'.name →
    id = id'
  parents : ∀ id ca, t.get? id = some ca → ∀ p, ca.parent = some p →
    ∃ parent, t.get? p = some parent ∧ id ∈ parent.children.toList
  children : ∀ p parent, t.get? p = some parent → ∀ c ∈ parent.children.toList,
    t.parent? c = some p
  acyclic : ∀ n id, t.up (n + 1) id ≠ some id

theorem parent?_of_get? {id : CaId} {ca : CertificateAuthority} (h : t.get? id = some ca) :
    t.parent? id = ca.parent := by
  rw [parent?, h, Option.bind_some]

theorem parent?_eq_some {id p : CaId} (h : t.parent? id = some p) :
    ∃ ca, t.get? id = some ca ∧ ca.parent = some p := Option.bind_eq_some_iff.mp h

theorem up_one (t : CaTree) (id : CaId) : t.up 1 id = t.parent? id := by
  rw [up]
  cases t.parent? id <;> rfl

theorem up_add (t : CaTree) (m n : Nat) (id : CaId) :
    t.up (m + n) id = (t.up m id).bind (t.up n) := by
  induction m generalizing id with
  | zero => rw [Nat.zero_add, up, Option.bind_some]
  | succ m ih =>
    rw [Nat.succ_add, up, up, Option.bind_assoc]
    congr 1
    funext p
    exact ih p

/-- There are no cycles where every CA came after its parent. -/
theorem acyclic_of_lt (h : ∀ id ca p, t.get? id = some ca → ca.parent = some p → p < id) (n : Nat)
    (id : CaId) : t.up (n + 1) id ≠ some id := by
  -- Numbers only get smaller on the way up.
  have hlt : ∀ n id x, t.up (n + 1) id = some x → x < id := by
    intro n
    induction n with
    | zero =>
      intro id x hx
      rw [up_one] at hx
      obtain ⟨ca, hca, hparent⟩ := parent?_eq_some hx
      exact h id ca x hca hparent
    | succ n ih =>
      intro id x hx
      obtain ⟨p, hp, hup⟩ := Option.bind_eq_some_iff.mp hx
      obtain ⟨ca, hca, hparent⟩ := parent?_eq_some hp
      exact Nat.lt_trans (ih p x hup) (h id ca p hca hparent)
  exact fun hup => Nat.lt_irrefl id (hlt n id id hup)

namespace WellFormed

variable (h : t.WellFormed)

include h

theorem parent_ne {id p : CaId} (hp : t.parent? id = some p) : p ≠ id := by
  rintro rfl
  exact h.acyclic 0 p (by rw [up_one, hp])

theorem exists_of_parent? {id p : CaId} (hp : t.parent? id = some p) :
    ∃ parent, t.get? p = some parent ∧ id ∈ parent.children.toList := by
  obtain ⟨ca, hca, hparent⟩ := parent?_eq_some hp
  exact h.parents id ca hca p hparent

theorem exists_of_up {n : Nat} {id x : CaId} (hid : ∃ ca, t.get? id = some ca)
    (hx : t.up n id = some x) : ∃ ca, t.get? x = some ca := by
  induction n generalizing id with
  | zero =>
    obtain rfl := Option.some.inj hx
    exact hid
  | succ n ih =>
    obtain ⟨p, hp, hup⟩ := Option.bind_eq_some_iff.mp hx
    obtain ⟨parent, hparent, -⟩ := h.exists_of_parent? hp
    exact ih ⟨parent, hparent⟩ hup

theorem up_parent_ne {n : Nat} {id p : CaId} (hp : t.parent? id = some p) : t.up n p ≠ some id := by
  intro hup
  refine h.acyclic n id ?_
  rw [up, hp, Option.bind_some, hup]

end WellFormed

end CaTree

/-- A CA without its keys: its links to others, and what it is known by. -/
def CertificateAuthority.links (ca : CertificateAuthority) : CertificateAuthority :=
  { ca with kind := .nonHosted [] ∅ }

theorem CertificateAuthority.links_modifyKeys (ca : CertificateAuthority) (f : KeyRing → KeyRing) :
    (ca.modifyKeys f).links = ca.links := by
  unfold modifyKeys
  split <;> rfl

theorem CertificateAuthority.links_of_face {ca ca' : CertificateAuthority}
    (h : ca'.face = ca.face) : ca'.links = ca.links :=
  of_face (fun ca => ca.links_modifyKeys _) h

theorem CertificateAuthority.links_of_trunk {ca ca' : CertificateAuthority}
    (h : ca'.trunk = ca.trunk) : ca'.links = ca.links :=
  of_trunk (fun ca => ca.links_modifyKeys _) h

namespace CaTree

variable {t u : CaTree}

/-- Two trees with the same CAs, as far as links go. -/
def SameLinks (t u : CaTree) : Prop :=
  ∀ id, (u.get? id).map (·.links) = (t.get? id).map (·.links)

theorem SameLinks.refl (t : CaTree) : SameLinks t t := fun _ => rfl

theorem SameLinks.symm (h : SameLinks t u) : SameLinks u t := fun id => (h id).symm

theorem SameLinks.trans {v : CaTree} (h : SameLinks t u) (h' : SameLinks u v) : SameLinks t v :=
  fun id => (h' id).trans (h id)

theorem SameLinks.get? (h : SameLinks t u) {id : CaId} {ca' : CertificateAuthority}
    (hca : u.get? id = some ca') : ∃ ca, t.get? id = some ca ∧ ca'.links = ca.links := by
  have hid := h id
  rw [hca, Option.map_some] at hid
  obtain ⟨ca, hget, hlinks⟩ := Option.map_eq_some_iff.mp hid.symm
  exact ⟨ca, hget, hlinks.symm⟩

theorem SameLinks.set (t : CaTree) {id : CaId} {ca ca' : CertificateAuthority}
    (hca : t.get? id = some ca) (h : ca'.links = ca.links) : SameLinks t (t.set id ca') := by
  intro x
  rw [get?_set]
  split
  · rename_i hx
    rw [← hx, hca, Option.map_some, Option.map_some, h]
  · rfl

theorem SameLinks.parent? (h : SameLinks t u) (id : CaId) : u.parent? id = t.parent? id := by
  have hid := h id
  unfold CaTree.parent?
  cases hu : u.get? id with
  | none =>
    rw [hu] at hid
    rw [Option.map_eq_none_iff.mp hid.symm]
  | some ca' =>
    obtain ⟨ca, hca, hlinks⟩ := h.get? hu
    rw [hca, Option.bind_some, Option.bind_some]
    exact congrArg (·.parent) hlinks

theorem SameLinks.up (h : SameLinks t u) (n : Nat) (id : CaId) : u.up n id = t.up n id := by
  induction n generalizing id with
  | zero => rfl
  | succ n ih =>
    rw [CaTree.up, CaTree.up, h.parent? id]
    congr 1
    funext p
    exact ih p

theorem Keyed.of_sameLinks (h : t.Keyed) (hs : SameLinks t u) : u.Keyed := by
  intro id ca' hca'
  obtain ⟨ca, hca, hlinks⟩ := hs.get? hca'
  exact (congrArg (·.id) hlinks).trans (h id ca hca)

theorem WellFormed.of_sameLinks (h : t.WellFormed) (hs : SameLinks t u) : u.WellFormed where
  ids := h.ids.of_sameLinks hs
  names id id' ca ca' hca hca' hname := by
    obtain ⟨c, hc, hlinks⟩ := hs.get? hca
    obtain ⟨c', hc', hlinks'⟩ := hs.get? hca'
    exact h.names id id' c c' hc hc'
      ((congrArg (·.name) hlinks).symm.trans (hname.trans (congrArg (·.name) hlinks')))
  parents id ca' hca' p hp := by
    obtain ⟨ca, hca, hlinks⟩ := hs.get? hca'
    obtain ⟨parent, hparent, hmem⟩ :=
      h.parents id ca hca p ((congrArg (·.parent) hlinks).symm.trans hp)
    obtain ⟨parent', hparent', hlinks'⟩ := hs.symm.get? hparent
    refine ⟨parent', hparent', ?_⟩
    rwa [← show parent.children = parent'.children from congrArg (·.children) hlinks']
  children p parent' hparent' c hc := by
    obtain ⟨parent, hparent, hlinks⟩ := hs.get? hparent'
    rw [show parent'.children = parent.children from congrArg (·.children) hlinks] at hc
    rw [hs.parent? c]
    exact h.children p parent hparent c hc
  acyclic n id := by
    rw [hs.up]
    exact h.acyclic n id

theorem up_insert {ca : CertificateAuthority} (h : t.WellFormed) (hins : t.insert ca = .ok u)
    (n : Nat) {id : CaId} (hid : ∃ c, t.get? id = some c) : u.up n id = t.up n id := by
  have hfree := (insert_ok hins).1
  -- The new CA is above nobody yet: every old CA keeps its parent, and that is an old CA too.
  have hparent : ∀ x, (∃ c, t.get? x = some c) → u.parent? x = t.parent? x := by
    rintro x ⟨c, hc⟩
    have hne : x ≠ ca.id := by
      rintro rfl
      rw [hfree] at hc
      cases hc
    obtain ⟨-, hsame⟩ | ⟨p, parent, -, -, hp, hget, hsame⟩ := (insert_ok hins).2.2.2.2
    · rw [parent?, hsame x hne, parent?]
    · by_cases hx : x = p
      · rw [hx, parent?, hget, parent?, hp]
        rfl
      · rw [parent?, hsame x hne hx, parent?]
  induction n generalizing id with
  | zero => rfl
  | succ n ih =>
    rw [up, up, hparent id hid]
    cases hp : t.parent? id with
    | none => rfl
    | some p =>
      obtain ⟨parent, hget, -⟩ := h.exists_of_parent? hp
      exact ih ⟨parent, hget⟩

/-- What adding a CA without children leaves of the others. -/
theorem get?_insert {ca : CertificateAuthority} (hins : t.insert ca = .ok u) {x : CaId}
    {c' : CertificateAuthority} (hx : u.get? x = some c') :
    (x = ca.id ∧ c' = ca) ∨ ∃ c, t.get? x = some c ∧ x ≠ ca.id ∧
      (c' = c ∨ (ca.parent = some x ∧ c' = c.addChild ca.id)) := by
  obtain ⟨hfree, -, -, hself, hlinks⟩ := insert_ok hins
  by_cases hid : x = ca.id
  · rw [hid, hself] at hx
    exact .inl ⟨hid, (Option.some.inj hx).symm⟩
  · refine .inr ?_
    obtain ⟨-, hsame⟩ | ⟨p, parent, hp, -, hparent, hget, hsame⟩ := hlinks
    · rw [hsame x hid] at hx
      exact ⟨c', hx, hid, .inl rfl⟩
    · by_cases hxp : x = p
      · rw [hxp, hget] at hx
        exact ⟨parent, hxp ▸ hparent, hid, .inr ⟨hxp ▸ hp, (Option.some.inj hx).symm⟩⟩
      · rw [hsame x hid hxp] at hx
        exact ⟨c', hx, hid, .inl rfl⟩

section insert

variable {ca : CertificateAuthority} (h : t.WellFormed) (hins : t.insert ca = .ok u)

include hins

theorem Keyed.insert (hkeyed : t.Keyed) : u.Keyed := by
  intro x c' hx
  obtain ⟨rfl, rfl⟩ | ⟨c, hc, -, rfl | ⟨-, rfl⟩⟩ := get?_insert hins hx
  · rfl
  · exact hkeyed x c' hc
  · exact hkeyed x c hc

theorem name_insert {x : CaId} {c' : CertificateAuthority} (hx : u.get? x = some c')
    (hne : x ≠ ca.id) : ∃ c, t.get? x = some c ∧ c'.name = c.name ∧ c.name ≠ ca.name := by
  have hname := (insert_ok hins).2.1
  obtain ⟨rfl, -⟩ | ⟨c, hc, -, rfl | ⟨-, rfl⟩⟩ := get?_insert hins hx
  · exact absurd rfl hne
  · exact ⟨c', hc, rfl, findByName?_eq_none hname hc⟩
  · exact ⟨c, hc, rfl, findByName?_eq_none hname hc⟩

include h

theorem names_insert {x y : CaId} {c d : CertificateAuthority} (hx : u.get? x = some c)
    (hy : u.get? y = some d) (hname : c.name = d.name) : x = y := by
  have hself := (insert_ok hins).2.2.2.1
  -- At most one of the two is the new CA, whose name was free.
  by_cases hxid : x = ca.id
  · by_cases hyid : y = ca.id
    · rw [hxid, hyid]
    · obtain ⟨d₀, -, hd, hne⟩ := name_insert hins hy hyid
      rw [hxid, hself] at hx
      obtain rfl := Option.some.inj hx
      exact absurd (hd.symm.trans hname.symm) hne
  · obtain ⟨c₀, hc₀, hc, hne⟩ := name_insert hins hx hxid
    by_cases hyid : y = ca.id
    · rw [hyid, hself] at hy
      obtain rfl := Option.some.inj hy
      exact absurd (hc.symm.trans hname) hne
    · obtain ⟨d₀, hd₀, hd, -⟩ := name_insert hins hy hyid
      exact h.names x y c₀ d₀ hc₀ hd₀ (hc.symm.trans (hname.trans hd))

theorem parent?_insert {x : CaId} {c : CertificateAuthority} (hx : t.get? x = some c) :
    u.parent? x = c.parent := by
  have hup := up_insert h hins 1 ⟨c, hx⟩
  rwa [up_one, up_one, parent?_of_get? hx] at hup

theorem parents_insert {x p : CaId} {c' : CertificateAuthority} (hx : u.get? x = some c')
    (hp : c'.parent = some p) :
    ∃ parent, u.get? p = some parent ∧ x ∈ parent.children.toList := by
  obtain ⟨hfree, -, -, -, hlinks⟩ := insert_ok hins
  obtain ⟨rfl, rfl⟩ | ⟨c, hc, -, hcase⟩ := get?_insert hins hx
  · obtain ⟨hnone, -⟩ | ⟨q, parent, hq, -, -, hget, -⟩ := hlinks
    · rw [hnone] at hp
      cases hp
    · obtain rfl := Option.some.inj (hq.symm.trans hp)
      exact ⟨_, hget, CaIds.mem_toList_add.mpr (.inl rfl)⟩
  · have hcp : c.parent = some p := by
      rcases hcase with rfl | ⟨-, rfl⟩ <;> exact hp
    obtain ⟨parent, hparent, hmem⟩ := h.parents x c hc p hcp
    have hne : p ≠ ca.id := by
      rintro rfl
      rw [hfree] at hparent
      cases hparent
    obtain ⟨-, hsame⟩ | ⟨q, parent', -, -, hq, hget, hsame⟩ := hlinks
    · exact ⟨parent, (hsame p hne).trans hparent, hmem⟩
    -- The parent may be the one that was told of the new CA; it lists all that it listed before.
    · by_cases hpq : p = q
      · subst hpq
        obtain rfl := Option.some.inj (hq.symm.trans hparent)
        exact ⟨_, hget, CaIds.mem_toList_add.mpr (.inr hmem)⟩
      · exact ⟨parent, (hsame p hne hpq).trans hparent, hmem⟩

theorem children_insert (hchildren : ca.children = ∅) {p x : CaId} {c' : CertificateAuthority}
    (hp : u.get? p = some c') (hx : x ∈ c'.children.toList) : u.parent? x = some p := by
  obtain ⟨rfl, rfl⟩ | ⟨c, hc, -, hcase⟩ := get?_insert hins hp
  · rw [hchildren] at hx
    cases hx
  · have hmem : x ∈ c.children.toList ∨ (x = ca.id ∧ ca.parent = some p) := by
      rcases hcase with rfl | ⟨hparent, rfl⟩
      · exact .inl hx
      · exact (CaIds.mem_toList_add.mp hx).symm.imp_right fun heq => ⟨heq, hparent⟩
    rcases hmem with hmem | ⟨rfl, hparent⟩
    · obtain ⟨d, hd, hdp⟩ := parent?_eq_some (h.children p c hc x hmem)
      rw [parent?_insert h hins hd, hdp]
    · rw [parent?, (insert_ok hins).2.2.2.1, Option.bind_some, hparent]

theorem acyclic_insert (n : Nat) (x : CaId) : u.up (n + 1) x ≠ some x := by
  intro hup
  obtain ⟨hfree, -, -, hself, hlinks⟩ := insert_ok hins
  obtain ⟨p, hp, hup'⟩ := Option.bind_eq_some_iff.mp hup
  obtain ⟨c', hget, hparent⟩ := parent?_eq_some hp
  -- A way round would lead through the new CA or be one among the old CAs; from the parent of
  -- the new CA one only climbs to old CAs.
  obtain ⟨rfl, rfl⟩ | ⟨c, hc, -, -⟩ := get?_insert hins hget
  · obtain ⟨hnone, -⟩ | ⟨q, parent, hq, -, hparent', -, -⟩ := hlinks
    · rw [hnone] at hparent
      cases hparent
    · obtain rfl := Option.some.inj (hq.symm.trans hparent)
      rw [up_insert h hins n ⟨parent, hparent'⟩] at hup'
      obtain ⟨c, hc⟩ := h.exists_of_up ⟨parent, hparent'⟩ hup'
      rw [hfree] at hc
      cases hc
  · rw [up_insert h hins (n + 1) ⟨c, hc⟩] at hup
    exact h.acyclic n x hup

theorem WellFormed.insert (hchildren : ca.children = ∅) : u.WellFormed where
  ids := h.ids.insert hins
  names _ _ _ _ hx hy hname := names_insert h hins hx hy hname
  parents _ _ hx _ hp := parents_insert h hins hx hp
  children _ _ hp _ hx := children_insert h hins hchildren hp hx
  acyclic := acyclic_insert h hins

end insert

end CaTree

end ResourcePki
