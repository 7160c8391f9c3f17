import ResourcePki.Proofs.Issuance.Commands
import ResourcePki.Proofs.Issuance.Settling
import ResourcePki.Proofs.Tree.WellFormed

/-! Updates of the certificates of a CA, as changes of the tree: `Updated` is what a successful
update comes to, and `Settled` says that there is nothing to update. An update of one CA is seen by
its parent and itself only, and keeps what the other children of the parent rely on. -/

namespace ResourcePki

open ResourcePki.Action Certification

namespace CertificateAuthority

/-- A child sees the issuer `ca'` as it saw `ca`: its valid certificates are the same, and no
certificate is forgotten. -/
structure SeenAlike (d : CaId) (ca ca' : CertificateAuthority) : Prop where
  validFor : ∀ key, ca'.validFor d key = ca.validFor d key
  recorded : ∀ o ∈ ca.outgoing, ∃ o' ∈ ca'.outgoing, o.SameRecord o'

theorem SeenAlike.refl (ca : CertificateAuthority) (d : CaId) : ca.SeenAlike d ca :=
  ⟨fun _ => rfl, fun o ho => ⟨o, ho, .refl o⟩⟩

theorem SeenAlike.of_trunk {ca ca' : CertificateAuthority} (h : ca'.trunk = ca.trunk) (d : CaId) :
    ca.SeenAlike d ca' where
  validFor key := by
    have hvalid : ca'.valid = ca.valid := CertificateAuthority.of_trunk valid_trunk h
    rw [CertificateAuthority.validFor, hvalid]
    rfl
  recorded o ho := by
    rw [CertificateAuthority.of_trunk outgoing_trunk h]
    exact ⟨o, ho, .refl o⟩

end CertificateAuthority

namespace CaTree

/-- No CA has two keys with one identifier. -/
def DistinctKeys (t : CaTree) : Prop := ∀ id ca, t.get? id = some ca → ca.skis.Nodup

/-- No CA issued two valid certificates to one CA for one key. -/
def Single (t : CaTree) : Prop :=
  ∀ p parent, t.get? p = some parent → ∀ d key, (parent.validFor d key).length ≤ 1

/-- Something holds of every CA that has a parent, and of this. -/
def Along (t : CaTree) (P : CertificateAuthority → CertificateAuthority → Prop) : Prop :=
  ∀ p parent c child, t.get? p = some parent → t.get? c = some child → child.parent = some p →
    P parent child

theorem Single.validFor_eq {t : CaTree} (h : t.Single) {p d : CaId} {key : String}
    {parent : CertificateAuthority} (hp : t.get? p = some parent) {o : OutgoingCertificate}
    (ho : o ∈ parent.validFor d key) : parent.validFor d key = [o] := by
  have hlength := h p parent hp d key
  obtain ⟨before, after, heq⟩ := List.append_of_mem ho
  rw [heq, List.length_append, List.length_cons] at hlength
  obtain rfl : before = [] := List.length_eq_zero_iff.mp (by omega)
  obtain rfl : after = [] := List.length_eq_zero_iff.mp (by omega)
  exact heq

end CaTree

namespace Services

variable (s : Services) (timing : IssuanceTiming)

/-- The parent of a CA, and what the CA may hold of that; nothing if there is nothing to go by. -/
def entitlement? (t : CaTree) (ca : CertificateAuthority) : Option (CaId × ResourceSet) :=
  ca.parent.bind fun p => (t.get? p).bind fun parent => parent.certified.bind fun held =>
    (ca.certifiable s.lookup).1.map fun requested => (p, requested.inter held)

/-- A successful update of a CA takes one tree to the other; it says whether anything changed. -/
inductive Updated (t : CaTree) (id : CaId) : Bool → CaTree → Prop
  | skipped {ca : CertificateAuthority} (hca : t.get? id = some ca)
      (hnone : s.entitlement? t ca = none) : Updated t id false t
  | aligned {ca parent : CertificateAuthority} {p : CaId} {keys : KeyRing}
      {resources : ResourceSet} {signings : List Signing} {b : Bool} {c : Certification}
      (hca : t.get? id = some ca) (hentitled : s.entitlement? t ca = some (p, resources))
      (hne : p ≠ id) (hparent : t.get? p = some parent) (hkeys : parent.keys? = some keys)
      (halign : align (s.terms timing id resources) ⟨keys, ca, signings⟩ = (.ok b, c)) :
      Updated t id b ((t.set p (parent.withKeys c.parentKeys)).set id c.child)

variable {s timing}

theorem entitlement?_eq_some {t : CaTree} {ca : CertificateAuthority} {p : CaId}
    {resources : ResourceSet} (h : s.entitlement? t ca = some (p, resources)) :
    ca.parent = some p ∧ ∃ parent held requested, t.get? p = some parent ∧
      parent.certified = some held ∧ (ca.certifiable s.lookup).1 = some requested ∧
      resources = requested.inter held := by
  obtain ⟨q, hq, h⟩ := Option.bind_eq_some_iff.mp h
  obtain ⟨parent, hparent, h⟩ := Option.bind_eq_some_iff.mp h
  obtain ⟨held, hheld, h⟩ := Option.bind_eq_some_iff.mp h
  obtain ⟨requested, hrequested, h⟩ := Option.map_eq_some_iff.mp h
  obtain ⟨rfl, rfl⟩ := Prod.mk.inj h
  exact ⟨hq, parent, held, requested, hparent, hheld, hrequested, rfl⟩

theorem entitlement?_of {t : CaTree} {ca parent : CertificateAuthority} {p : CaId}
    {held requested : ResourceSet} (hp : ca.parent = some p) (hparent : t.get? p = some parent)
    (hheld : parent.certified = some held)
    (hrequested : (ca.certifiable s.lookup).1 = some requested) :
    s.entitlement? t ca = some (p, requested.inter held) := by
  rw [entitlement?, hp, Option.bind_some, hparent, Option.bind_some, hheld, Option.bind_some,
    hrequested, Option.map_some]

theorem certifiable_apply (ca : CertificateAuthority) (t : Session Journal) :
    ∃ t', s.certifiable ca t = (.ok (ca.certifiable s.lookup).1, t') ∧ t'.work = t.work ∧
      t'.status = t.status ∧ t'.memory = t.memory := by
  unfold certifiable
  generalize ca.certifiable s.lookup = result
  obtain ⟨resources, event⟩ := result
  cases event <;> exact ⟨_, rfl, rfl, rfl, rfl⟩

theorem alignPair_of_keys {parent child : CertificateAuthority} {keys : KeyRing}
    (h : parent.keys? = some keys) (terms : CertificationTerms) (j : Journal) :
    alignPair terms j parent child =
      (((align terms ⟨keys, child, j.signings⟩).1,
        { j with signings := (align terms ⟨keys, child, j.signings⟩).2.signings }),
        parent.withKeys (align terms ⟨keys, child, j.signings⟩).2.parentKeys,
        (align terms ⟨keys, child, j.signings⟩).2.child) := by
  rw [alignPair, CertificateAuthority.requireKeys, h]

theorem keys?_of_certified {ca : CertificateAuthority} {held : ResourceSet}
    (h : ca.certified = some held) : ∃ keys, ca.keys? = some keys := by
  obtain ⟨keys, hkeys, -⟩ := Option.bind_eq_some_iff.mp h
  exact ⟨keys, hkeys⟩

theorem updateIncoming_ok {id : CaId} {t t' : Session Journal} {b : Bool}
    (h : s.updateIncoming timing id t = (.ok b, t')) :
    s.Updated timing t.work.tree id b t'.work.tree ∧ t'.status = t.status := by
  unfold updateIncoming at h
  obtain ⟨ca, t₁, hrequire, hrest⟩ := bind_ok h
  clear h
  obtain ⟨hca, rfl⟩ := require_ok hrequire
  cases hp : ca.parent with
  | none =>
    rw [hp] at hrest
    obtain ⟨hb, rfl⟩ := Prod.mk.inj hrest
    obtain rfl := Except.ok.inj hb
    exact ⟨.skipped hca (by rw [entitlement?, hp, Option.bind_none]), rfl⟩
  | some p =>
    rw [hp] at hrest
    obtain ⟨parent, t₂, hrequire', hheld'⟩ := bind_ok hrest
    clear hrest
    obtain ⟨hparent, rfl⟩ := require_ok hrequire'
    cases hheld : parent.certified with
    | none =>
      rw [hheld] at hheld'
      obtain ⟨hb, rfl⟩ := Prod.mk.inj hheld'
      obtain rfl := Except.ok.inj hb
      refine ⟨.skipped hca ?_, rfl⟩
      rw [entitlement?, hp, Option.bind_some, hparent, Option.bind_some, hheld, Option.bind_none]
    | some held =>
      rw [hheld] at hheld'
      obtain ⟨resources, t₃, hcertifiable, hpair⟩ := bind_ok hheld'
      obtain ⟨t₃', hrun, hwork, hstatus, -⟩ := certifiable_apply (s := s) ca t₂
      obtain ⟨hresources, rfl⟩ := Prod.mk.inj (hrun.symm.trans hcertifiable)
      obtain rfl := Except.ok.inj hresources
      cases hrequested : (ca.certifiable s.lookup).1 with
      | none =>
        rw [hrequested] at hpair
        obtain ⟨hb, rfl⟩ := Prod.mk.inj hpair
        obtain rfl := Except.ok.inj hb
        rw [hwork]
        refine ⟨.skipped hca ?_, hstatus⟩
        rw [entitlement?, hp, Option.bind_some, hparent, Option.bind_some, hheld,
          Option.bind_some, hrequested, Option.map_none]
      | some requested =>
        rw [hrequested] at hpair
        obtain ⟨hne, parent', ca', hparent', hca', hresult, hstatus', htree⟩ := updatePair_ok hpair
        rw [hwork] at hparent' hca'
        obtain rfl := Option.some.inj (hparent.symm.trans hparent')
        obtain rfl := Option.some.inj (hca.symm.trans hca')
        obtain ⟨keys, hkeys⟩ := keys?_of_certified hheld
        rw [alignPair_of_keys hkeys] at hresult htree
        rw [htree, hwork]
        exact ⟨.aligned hca (entitlement?_of hp hparent hheld hrequested) hne hparent hkeys
          (Prod.ext hresult rfl), hstatus'.trans hstatus⟩

namespace Updated

variable {t t' : CaTree} {id : CaId} {b : Bool}

theorem sameLinks (h : s.Updated timing t id b t') : CaTree.SameLinks t t' := by
  cases h with
  | skipped => exact .refl t
  | @aligned ca parent p keys resources signings b c hca _ hne hparent hkeys halign =>
    have hframe := Frame.steps (align_steps halign)
    have hparent' : (parent.withKeys c.parentKeys).links = parent.links :=
      CertificateAuthority.links_of_face (CertificateAuthority.face_withKeys hkeys hframe.face)
    have hca' : (t.set p (parent.withKeys c.parentKeys)).get? id = some ca := by
      rw [CaTree.get?_set_ne hne, hca]
    exact (CaTree.SameLinks.set t hparent hparent').trans
      (CaTree.SameLinks.set _ hca' (CertificateAuthority.links_of_trunk hframe.trunk))

theorem eq_of_false (h : s.Updated timing t id false t') : t' = t := by
  cases h with
  | skipped => rfl
  | @aligned ca parent p keys resources signings b c hca _ hne hparent hkeys halign =>
    obtain rfl := align_false halign
    rw [CertificateAuthority.withKeys_self hkeys, CaTree.set_of_get? hparent,
      CaTree.set_of_get? hca]

/-- What an update of a CA leaves of all CAs: itself it changes as a subject only, and others as
issuers to it only. -/
theorem get? (hself : ∀ ca, t.get? id = some ca → ca.id = id) (h : s.Updated timing t id b t')
    {x : CaId} {ca' : CertificateAuthority} (hx : t'.get? x = some ca') :
    ∃ ca, t.get? x = some ca ∧ (x ≠ id → ca'.face = ca.face) ∧ (x = id → ca'.trunk = ca.trunk) ∧
      ∀ d, d ≠ id → ca.SeenAlike d ca' := by
  cases h with
  | skipped => exact ⟨ca', hx, fun _ => rfl, fun _ => rfl, fun d _ => .refl ca' d⟩
  | @aligned child parent p keys resources signings b c hchild _ hne hparent hkeys halign =>
    have hframe := Frame.steps (align_steps halign)
    rw [CaTree.get?_set, CaTree.get?_set] at hx
    split at hx
    -- The child itself: it is written last, after its parent.
    · rename_i hid
      obtain rfl := Option.some.inj hx
      refine ⟨child, hid ▸ hchild, fun hxid => absurd hid.symm hxid, fun _ => hframe.trunk, ?_⟩
      exact fun d _ => .of_trunk hframe.trunk d
    · rename_i hid
      split at hx
      · rename_i hp
        obtain rfl := Option.some.inj hx
        refine ⟨parent, hp ▸ hparent, fun _ => CertificateAuthority.face_withKeys hkeys hframe.face,
          fun hxid => absurd hxid.symm hid, fun d hd => ?_⟩
        have hkeys' := CertificateAuthority.keys?_withKeys hkeys c.parentKeys
        refine ⟨fun key => ?_, ?_⟩
        · rw [CertificateAuthority.validFor_of_keys hkeys',
            CertificateAuthority.validFor_of_keys hkeys]
          exact hframe.other d (hself child hchild ▸ hd) key
        · rw [CertificateAuthority.outgoing_of_keys hkeys',
            CertificateAuthority.outgoing_of_keys hkeys]
          exact hframe.recorded
      · exact ⟨ca', hx, fun _ => rfl, fun _ => rfl, fun d _ => .refl ca' d⟩

theorem eq_of_views {α : Sort _} {g : CertificateAuthority → α} (hface : ∀ ca, g ca.face = g ca)
    (htrunk : ∀ ca, g ca.trunk = g ca) (hself : ∀ ca, t.get? id = some ca → ca.id = id)
    (h : s.Updated timing t id b t') {x : CaId} {ca ca' : CertificateAuthority}
    (hx : t.get? x = some ca) (hx' : t'.get? x = some ca') : g ca' = g ca := by
  obtain ⟨ca₁, hca₁, hface₁, htrunk₁, -⟩ := h.get? hself hx'
  obtain rfl := Option.some.inj (hx.symm.trans hca₁)
  by_cases hid : x = id
  · exact CertificateAuthority.of_trunk htrunk (htrunk₁ hid)
  · exact CertificateAuthority.of_face hface (hface₁ hid)

theorem distinctKeys (hself : ∀ ca, t.get? id = some ca → ca.id = id) (hkeys : t.DistinctKeys)
    (h : s.Updated timing t id b t') : t'.DistinctKeys := by
  intro x ca' hx
  obtain ⟨ca, hca, -⟩ := h.get? hself hx
  rw [h.eq_of_views CertificateAuthority.skis_face CertificateAuthority.skis_trunk hself hca hx]
  exact hkeys x ca hca

theorem single (hself : ∀ ca, t.get? id = some ca → ca.id = id) (hsingle : t.Single)
    (h : s.Updated timing t id b t') : t'.Single := by
  intro x ca' hx d key
  by_cases hd : d = id
  · subst hd
    cases h with
    | skipped => exact hsingle x ca' hx d key
    | @aligned child parent p keys resources signings b c hchild _ hne hparent hpkeys halign =>
      have hsteps := align_steps halign
      have hframe := Frame.steps hsteps
      rw [CaTree.get?_set, CaTree.get?_set] at hx
      split at hx
      · obtain rfl := Option.some.inj hx
        rw [(CertificateAuthority.SeenAlike.of_trunk hframe.trunk d).validFor]
        exact hsingle d child hchild d key
      · split at hx
        · obtain rfl := Option.some.inj hx
          -- The parent of `d` issued to it; bringing certificates in line keeps them single.
          have hbefore : Certification.Single ⟨keys, child, signings⟩ := fun key => by
            rw [hself child hchild, ← CertificateAuthority.validFor_of_keys hpkeys]
            exact hsingle p parent hparent d key
          have hafter := hbefore.steps hsteps key
          have hid : c.child.id = d := (CertificateAuthority.of_trunk (g := (·.id))
            CertificateAuthority.id_trunk hframe.trunk).trans (hself child hchild)
          rw [CertificateAuthority.validFor_of_keys
            (CertificateAuthority.keys?_withKeys hpkeys c.parentKeys), ← hid]
          exact hafter
        · exact hsingle x ca' hx d key
  · obtain ⟨ca, hca, -, -, hseen⟩ := h.get? hself hx
    rw [(hseen d hd).validFor]
    exact hsingle x ca hca d key

/-- What holds of parents and children is kept when it depends on what the child sees of the
parent and on its face, and when bringing certificates in line keeps it. -/
theorem along {P : CertificateAuthority → CertificateAuthority → Prop}
    (hcongr : ∀ {parent parent' child child'}, parent.SeenAlike child.id parent' →
      child'.face = child.face → P parent child → P parent' child')
    (hsteps : ∀ {terms keys parent child signings c}, parent.keys? = some keys →
      child.skis.Nodup → Steps terms ⟨keys, child, signings⟩ c → P parent child →
      P (parent.withKeys c.parentKeys) c.child)
    (hwf : t.WellFormed) (hkeys : t.DistinctKeys) (hP : t.Along P)
    (h : s.Updated timing t id b t') : t'.Along P := by
  intro p parent' d child' hp hd hlink
  obtain ⟨child, hchild, hface, -, -⟩ := h.get? (hwf.ids id) hd
  obtain ⟨parent, hparent, -, -, hseen⟩ := h.get? (hwf.ids id) hp
  have hlink' : child.parent = some p := by
    have hsame := h.sameLinks.parent? d
    rw [CaTree.parent?_of_get? hd, CaTree.parent?_of_get? hchild] at hsame
    exact hsame.symm.trans hlink
  have hbefore := hP p parent d child hparent hchild hlink'
  by_cases hid : d = id
  · subst hid
    cases h with
    | skipped =>
      obtain rfl := Option.some.inj (hparent.symm.trans hp)
      obtain rfl := Option.some.inj (hchild.symm.trans hd)
      exact hbefore
    | @aligned ca parent₀ p₀ keys resources signings b c hca hentitled hne hparent₀ hpkeys halign =>
      obtain rfl := Option.some.inj (hca.symm.trans hchild)
      obtain ⟨hp₀, -⟩ := entitlement?_eq_some hentitled
      obtain rfl := Option.some.inj (hp₀.symm.trans hlink')
      obtain rfl := Option.some.inj (hparent₀.symm.trans hparent)
      rw [CaTree.get?_set_self] at hd
      rw [CaTree.get?_set_ne (Ne.symm hne), CaTree.get?_set_self] at hp
      obtain rfl := Option.some.inj hd
      obtain rfl := Option.some.inj hp
      exact hsteps hpkeys (hkeys d ca hca) (align_steps halign) hbefore
  -- The update was of somebody else, so the child sees its parent as before.
  · refine hcongr ?_ (hface hid) hbefore
    rw [hwf.ids d child hchild]
    exact hseen d hid

end Updated

end Services

end ResourcePki
