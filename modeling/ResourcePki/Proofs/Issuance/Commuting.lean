import ResourcePki.Proofs.Issuance.Locality
import ResourcePki.Proofs.Issuance.Matching
import ResourcePki.Proofs.Issuance.Places
import ResourcePki.Proofs.Issuance.Refusals
import ResourcePki.Proofs.Issuance.Settled

/-! Updates of two CAs, neither of which is the parent of the other, in either order. Each leaves
what the other goes by as it is, also where they share a parent. So each comes to the same as if the
other had not been there, and the parent ends up with the same certificates. -/

namespace ResourcePki

open Certification

variable {ε : Type} {tell : Error → ε} {choice : CertificateChoice}

namespace CertificateAuthority

theorem part_withKeys {ca ca' : CertificateAuthority} {r r' q q' : KeyRing}
    (hr : ca.keys? = some r) (hr' : ca'.keys? = some r')
    (hshare : ca.share choice = ca'.share choice) (hpart : q.part choice = q'.part choice) :
    (ca.withKeys q).part choice = (ca'.withKeys q').part choice := by
  have hring : ∀ {ca : CertificateAuthority} {r : KeyRing}, ca.keys? = some r → ∀ q : KeyRing,
      (ca.withKeys q).part choice = (ca.share choice).withKeys (q.part choice) := by
    intro ca r hr q
    rw [part, share, plain, modifyKeys_modifyKeys, modifyKeys_of_some (keys?_withKeys hr q),
      withKeys_withKeys, share, modifyKeys_of_some hr, withKeys_withKeys]
    rfl
  rw [hring hr, hring hr', hshare, hpart]

theorem part_of_share {o o' : Option CertificateAuthority}
    (h : o.map (·.share choice) = o'.map (·.share choice)) :
    o.map (·.part choice) = o'.map (·.part choice) := by
  have hplain := congrArg (Option.map plain) h
  rwa [Option.map_map, Option.map_map] at hplain

end CertificateAuthority

namespace CaTree

/-- The trees `t'` and `u'` come from `t` and `u` by an update of one CA: they agree on that CA, and
on a share of what any other issued that `t` and `u` agree on. -/
structure Parallel (choice : CertificateChoice) (id : CaId) (t u t' u' : CaTree) : Prop where
  self : (t'.get? id).map (·.plain) = (u'.get? id).map (·.plain)
  part : ∀ x, x ≠ id → (t.get? x).map (·.share choice) = (u.get? x).map (·.share choice) →
    (t'.get? x).map (·.part choice) = (u'.get? x).map (·.part choice)
  serial : ∀ x, x ≠ id → (t.get? x).map (·.share choice) = (u.get? x).map (·.share choice) →
    t'.nextSerial x + u.nextSerial x = u'.nextSerial x + t.nextSerial x

theorem Parallel.of_unchanged {t u : CaTree} {id : CaId} (h : t.get? id = u.get? id) :
    Parallel choice id t u t u where
  self := by rw [h]
  part x _ hshare := CertificateAuthority.part_of_share hshare
  serial x _ _ := Nat.add_comm ..

/-- The certificates between a CA and its parent are brought in line in two trees, alike. -/
theorem Parallel.of_aligned {t u : CaTree} {id p : CaId} {ca ca' : CertificateAuthority}
    {r r' : KeyRing} {c d : Certification} (hca : t.get? p = some ca)
    (hca' : u.get? p = some ca') (hr : ca.keys? = some r) (hr' : ca'.keys? = some r')
    (hshare : ca.share choice = ca'.share choice)
    (h : Certification.Alike choice r'.nextSerial r.nextSerial c d) :
    Parallel choice id t u ((t.set p (ca.withKeys c.parentKeys)).set id c.child)
      ((u.set p (ca'.withKeys d.parentKeys)).set id d.child) where
  self := by rw [get?_set_self, get?_set_self, Option.map_some, Option.map_some, h.child]
  part x hx hagree := by
    rw [get?_set_ne (Ne.symm hx), get?_set_ne (Ne.symm hx)]
    by_cases hxp : p = x
    · subst hxp
      rw [get?_set_self, get?_set_self, Option.map_some, Option.map_some,
        CertificateAuthority.part_withKeys hr hr' hshare h.parentKeys.part]
    · rw [get?_set_ne hxp, get?_set_ne hxp]
      exact CertificateAuthority.part_of_share hagree
  serial x hx hagree := by
    rw [nextSerial_set_ne (Ne.symm hx), nextSerial_set_ne (Ne.symm hx)]
    by_cases hxp : p = x
    · subst hxp
      have hc := CertificateAuthority.keys?_withKeys hr c.parentKeys
      have hd := CertificateAuthority.keys?_withKeys hr' d.parentKeys
      rw [nextSerial_set_self, nextSerial_set_self, nextSerial_of_get? hca,
        nextSerial_of_get? hca', CertificateAuthority.nextSerial_of_keys hc,
        CertificateAuthority.nextSerial_of_keys hd, CertificateAuthority.nextSerial_of_keys hr,
        CertificateAuthority.nextSerial_of_keys hr']
      exact h.parentKeys.serial
    · rw [nextSerial_set_ne hxp, nextSerial_set_ne hxp]
      exact Nat.add_comm ..

end CaTree

namespace Services

variable {s : Services} {timing : IssuanceTiming} {t t' u u' : CaTree} {id : CaId}
  {r r' : Except Error Bool}

theorem entitlement?_of_share {ca : CertificateAuthority}
    (h : ∀ p, ca.parent = some p →
      (t.get? p).map (·.share choice) = (u.get? p).map (·.share choice)) :
    s.entitlement? t ca = s.entitlement? u ca := by
  refine entitlement?_congr rfl rfl fun p hp => ?_
  have hcertified := congrArg (Option.bind · CertificateAuthority.certified) (h p hp)
  simpa only [Option.bind_map, Function.comp_def, CertificateAuthority.certified_share] using
    hcertified

/-- What comes of an update goes by the CA, and by the share of its parent in what was issued to
it. -/
theorem Tried.parallel {before before' after after' : List Signing}
    (hsign : s.sign.SignsAlike tell) (hchoice : ∀ key, choice (.child id) key = true)
    (hid : ∀ ca, t.get? id = some ca → ca.id = id) (hself : t.get? id = u.get? id)
    (hparent : ∀ p, t.parent? id = some p →
      (t.get? p).map (·.share choice) = (u.get? p).map (·.share choice))
    (h : s.Tried timing t id before r t' after)
    (h' : s.Tried timing u id before' r' u' after') :
    r.mapError tell = r'.mapError tell ∧ t.Parallel choice id u t' u' := by
  have hentitlement : ∀ {ca}, t.get? id = some ca →
      s.entitlement? t ca = s.entitlement? u ca := by
    intro ca hca
    refine entitlement?_of_share fun p hp => hparent p ?_
    rw [CaTree.parent?_of_get? hca, hp]
  cases h with
  | skipped hca hnone =>
    cases h' with
    | skipped => exact ⟨rfl, .of_unchanged hself⟩
    | aligned hca' hentitled =>
      obtain rfl := Option.some.inj (hca'.symm.trans (hself ▸ hca))
      cases hentitled.symm.trans ((hentitlement hca).symm.trans hnone)
  | @aligned ca parent p keys resources _ c hca hentitled hne hp hkeys halign =>
    cases h' with
    | skipped hca' hnone =>
      obtain rfl := Option.some.inj (hca'.symm.trans (hself ▸ hca))
      cases hnone.symm.trans ((hentitlement hca).symm.trans hentitled)
    | @aligned ca' parent' p' keys' resources' _ d hca' hentitled' hne' hp' hkeys' halign' =>
      obtain rfl := Option.some.inj (hca'.symm.trans (hself ▸ hca))
      have hsame := hentitled.symm.trans ((hentitlement hca).trans hentitled')
      obtain ⟨rfl, rfl⟩ := Prod.mk.inj (Option.some.inj hsame)
      have hlink : t.parent? id = some p := by
        rw [CaTree.parent?_of_get? hca, (entitlement?_eq_some hentitled).1]
      have hshares := hparent p hlink
      rw [hp, hp', Option.map_some, Option.map_some] at hshares
      have hshare := Option.some.inj hshares
      have hrings : keys.share choice = keys'.share choice := by
        have hkeys₂ := congrArg CertificateAuthority.keys? hshare
        rw [CertificateAuthority.keys?_share, CertificateAuthority.keys?_share, hkeys, hkeys']
          at hkeys₂
        exact Option.some.inj hkeys₂
      have hstart : Certification.Alike choice keys'.nextSerial keys.nextSerial
          ⟨keys, ca', before⟩ ⟨keys', ca', before'⟩ :=
        ⟨rfl, congrArg KeyRing.plain hrings, Nat.add_comm ..⟩
      have hterms : (s.terms timing id resources).sign.SignsAlike tell := hsign
      obtain ⟨hresult, hdone⟩ := hstart.align hterms hchoice (hid ca' hca)
      rw [halign, halign'] at hresult hdone
      exact ⟨hresult, .of_aligned hp hp' hkeys hkeys' hshare hdone⟩

/-- An update of a CA ends with this result and leaves this tree; after a failure everything is as
it was. -/
inductive Concluded (s : Services) (timing : IssuanceTiming) (t : CaTree) (id : CaId) :
    Except Error Bool → CaTree → Prop
  | kept {u : CaTree} {b : Bool} {before after : List Signing}
      (h : s.Tried timing t id before (.ok b) u after) : Concluded s timing t id (.ok b) u
  | undone {u : CaTree} {err : Error} {before after : List Signing}
      (h : s.Tried timing t id before (.error err) u after) : Concluded s timing t id (.error err) t

namespace Concluded

theorem sameLinks (h : s.Concluded timing t id r t') : CaTree.SameLinks t t' := by
  cases h with
  | kept h => exact h.updated.sameLinks
  | undone => exact .refl t

theorem nextId (h : s.Concluded timing t id r t') : t'.nextId = t.nextId := by
  cases h with
  | kept h => cases h <;> rfl
  | undone => rfl

theorem get?_of_apart (h : s.Concluded timing t id r t') {x : CaId} (hx : x ≠ id)
    (hparent : t.parent? id ≠ some x) : t'.get? x = t.get? x := by
  cases h with
  | undone => rfl
  | kept h =>
    cases h with
    | skipped => rfl
    | @aligned ca parent p keys resources _ c hca hentitled hne hp hkeys halign =>
      have hpx : p ≠ x := by
        rintro rfl
        rw [CaTree.parent?_of_get? hca, (entitlement?_eq_some hentitled).1] at hparent
        exact hparent rfl
      rw [CaTree.get?_set_ne (Ne.symm hx), CaTree.get?_set_ne hpx]

theorem share (hid : ∀ ca, t.get? id = some ca → ca.id = id)
    (hnot : ∀ key, choice (.child id) key = false) (h : s.Concluded timing t id r t') {x : CaId}
    (hx : x ≠ id) : (t'.get? x).map (·.share choice) = (t.get? x).map (·.share choice) := by
  cases h with
  | undone => rfl
  | kept h =>
    have hupdated := h.updated
    cases hget' : t'.get? x with
    | none =>
      have hnone := hupdated.sameLinks x
      rw [hget', Option.map_none] at hnone
      rw [Option.map_eq_none_iff.mp hnone.symm]
    | some ca' =>
      obtain ⟨ca, hca, -⟩ := hupdated.get? hid hget'
      rw [hca, Option.map_some, Option.map_some, hupdated.share hid hnot hx hca hget']

theorem parallel (hsign : s.sign.SignsAlike tell) (hchoice : ∀ key, choice (.child id) key = true)
    (hid : ∀ ca, t.get? id = some ca → ca.id = id) (hself : t.get? id = u.get? id)
    (hparent : ∀ p, t.parent? id = some p →
      (t.get? p).map (·.share choice) = (u.get? p).map (·.share choice))
    (h : s.Concluded timing t id r t') (h' : s.Concluded timing u id r' u') :
    r.mapError tell = r'.mapError tell ∧ t.Parallel choice id u t' u' := by
  cases h with
  | kept h =>
    cases h' with
    | kept h' => exact h.parallel hsign hchoice hid hself hparent h'
    | undone h' => cases (h.parallel hsign hchoice hid hself hparent h').1
  | undone h =>
    cases h' with
    | kept h' => cases (h.parallel hsign hchoice hid hself hparent h').1
    | undone h' =>
      exact ⟨(h.parallel hsign hchoice hid hself hparent h').1, .of_unchanged hself⟩

variable {x y : CaId} {t₁ t₂ t₁₂ t₂₁ : CaTree} {rx rx' ry ry' : Except Error Bool}

/-- An update of one CA comes to the same before and after an update of another, as far as the
choice has what is issued to the one and not what is issued to the other. -/
theorem beside (hsign : s.sign.SignsAlike tell) (hx : ∀ key, choice (.child x) key = true)
    (hy : ∀ key, choice (.child y) key = false) (hwf : t.WellFormed) (hne : x ≠ y)
    (hxy : t.parent? x ≠ some y) (hyx : t.parent? y ≠ some x)
    (h₁ : s.Concluded timing t x rx t₁) (h₂ : s.Concluded timing t y ry' t₂)
    (h₂₁ : s.Concluded timing t₂ x rx' t₂₁) :
    rx.mapError tell = rx'.mapError tell ∧ t.Parallel choice x t₂ t₁ t₂₁ := by
  have hself : t.get? x = t₂.get? x := (h₂.get?_of_apart hne hyx).symm
  refine h₁.parallel hsign hx (hwf.ids x) hself (fun p hp => ?_) h₂₁
  have hpy : p ≠ y := by
    rintro rfl
    exact hxy hp
  exact (h₂.share (hwf.ids y) hy hpy).symm

theorem commute (hsign : s.sign.SignsAlike tell) (hwf : t.WellFormed) (hne : x ≠ y)
    (hxy : t.parent? x ≠ some y) (hyx : t.parent? y ≠ some x)
    (h₁ : s.Concluded timing t x rx t₁) (h₁₂ : s.Concluded timing t₁ y ry t₁₂)
    (h₂ : s.Concluded timing t y ry' t₂) (h₂₁ : s.Concluded timing t₂ x rx' t₂₁) :
    rx.mapError tell = rx'.mapError tell ∧ ry.mapError tell = ry'.mapError tell ∧
      t₁₂.Matches t₂₁ := by
  have hwf₁ := hwf.of_sameLinks h₁.sameLinks
  have hwf₂ := hwf.of_sameLinks h₂.sameLinks
  have hx : ∀ key, CertificateChoice.only x (.child x) key = true := by
    simp [CertificateChoice.only]
  have hx' : ∀ key, CertificateChoice.others x (.child x) key = false := by
    simp [CertificateChoice.others]
  have hy : ∀ key, CertificateChoice.only x (.child y) key = false := by
    simp [CertificateChoice.only, Ne.symm hne]
  have hy' : ∀ key, CertificateChoice.others x (.child y) key = true := by
    simp [CertificateChoice.others, Ne.symm hne]
  obtain ⟨hrx, hrunx⟩ := beside hsign hx hy hwf hne hxy hyx h₁ h₂ h₂₁
  obtain ⟨hry, hruny⟩ := beside hsign hy' hx' hwf (Ne.symm hne) hyx hxy h₂ h₁ h₁₂
  refine ⟨hrx, hry.symm, fun z => ?_, ?_⟩
  · by_cases hzx : z = x
    · subst hzx
      rw [h₁₂.get?_of_apart hne ((h₁.sameLinks.parent? y).symm ▸ hyx)]
      exact CertificateAuthority.rel_of_plain hrunx.self
    · by_cases hzy : z = y
      · subst hzy
        rw [h₂₁.get?_of_apart hzx ((h₂.sameLinks.parent? x).symm ▸ hxy)]
        exact CertificateAuthority.rel_of_plain hruny.self.symm
      · -- What the two have in common is at most their parent, which each sees from its own side.
        have hagree := (h₂.share (hwf.ids y) hy hzy).symm
        have hagree' := (h₁.share (hwf.ids x) hx' hzx).symm
        have honly := h₁₂.share (hwf₁.ids y) hy hzy
        have hothers := h₂₁.share (hwf₂.ids x) hx' hzx
        have hserial := hrunx.serial z hzx hagree
        have hserial' := hruny.serial z hzy hagree'
        apply CertificateAuthority.rel_of_parts
        · exact (CertificateAuthority.part_of_share honly).trans (hrunx.part z hzx hagree)
        · have hsame := CertificateAuthority.part_of_share hothers
          exact (hruny.part z hzy hagree').symm.trans hsame.symm
        · change t₁₂.nextSerial z = t₂₁.nextSerial z
          omega
  · rw [h₁₂.nextId, h₁.nextId, h₂₁.nextId, h₂.nextId]

end Concluded

end Services

namespace Dispatcher

variable {s : Services} {policy : IssuancePolicy} {retries : Nat} {e e₁ e₂ e₁₂ e₂₁ : Engine Journal}

theorem execute_update_concluded {command : CaCommand} {ca : CertificateAuthority}
    {result : Except Error CommandStatus} (hwf : e.tree.WellFormed)
    (hdetails : command.details = .updateAllIncoming) (hca : e.tree.get? command.ca = some ca)
    (h : (standard s policy retries).execute command e = (result, e₁)) :
    ∃ r, result = r.map (fun b => ({ hadEffect := b } : CommandStatus)) ∧
      s.Concluded policy.timing e.tree command.ca r e₁.tree := by
  obtain ⟨r, e', hrun, before, u, htried, htree⟩ :=
    execute_update_tried s policy retries hwf hdetails hca
  obtain ⟨rfl, rfl⟩ := Prod.mk.inj (hrun.symm.trans h)
  refine ⟨r, rfl, ?_⟩
  cases r with
  | error err =>
    rw [htree]
    exact .undone htried
  | ok b =>
    rw [htree]
    exact .kept htried

/-- Two CAs may be updated in either order, unless one of them is the parent of the other: each
update has the same result and the same effect, and the same tree is left. -/
theorem execute_updates_commute {x y : CaCommand} {ca ca' : CertificateAuthority}
    {rx rx' ry ry' : Except Error CommandStatus} (hsign : s.sign.SignsAlike tell)
    (hwf : e.tree.WellFormed) (hx : x.details = .updateAllIncoming)
    (hy : y.details = .updateAllIncoming) (hca : e.tree.get? x.ca = some ca)
    (hca' : e.tree.get? y.ca = some ca') (hne : x.ca ≠ y.ca)
    (hxy : e.tree.parent? x.ca ≠ some y.ca) (hyx : e.tree.parent? y.ca ≠ some x.ca)
    (h₁ : (standard s policy retries).execute x e = (rx, e₁))
    (h₁₂ : (standard s policy retries).execute y e₁ = (ry, e₁₂))
    (h₂ : (standard s policy retries).execute y e = (ry', e₂))
    (h₂₁ : (standard s policy retries).execute x e₂ = (rx', e₂₁)) :
    rx.mapError tell = rx'.mapError tell ∧ ry.mapError tell = ry'.mapError tell ∧
      e₁₂.tree.Matches e₂₁.tree := by
  obtain ⟨r₁, rfl, hdone₁⟩ := execute_update_concluded hwf hx hca h₁
  obtain ⟨r₂, rfl, hdone₂⟩ := execute_update_concluded hwf hy hca' h₂
  have hlinks₁ := hdone₁.sameLinks
  have hlinks₂ := hdone₂.sameLinks
  obtain ⟨ca₁', hca₁', -⟩ := hlinks₁.symm.get? hca'
  obtain ⟨ca₂, hca₂, -⟩ := hlinks₂.symm.get? hca
  obtain ⟨r₁₂, rfl, hdone₁₂⟩ :=
    execute_update_concluded (hwf.of_sameLinks hlinks₁) hy hca₁' h₁₂
  obtain ⟨r₂₁, rfl, hdone₂₁⟩ :=
    execute_update_concluded (hwf.of_sameLinks hlinks₂) hx hca₂ h₂₁
  obtain ⟨hrx, hry, hmatches⟩ :=
    Services.Concluded.commute hsign hwf hne hxy hyx hdone₁ hdone₁₂ hdone₂ hdone₂₁
  rw [mapError_map, mapError_map, mapError_map, mapError_map, hrx, hry]
  exact ⟨rfl, rfl, hmatches⟩

end Dispatcher

namespace Siblings

def updated (id : CaId) (e : Engine Journal) : Engine Journal := after silent (update id) e

theorem execute_updates_commute_in_siblings :
    ((services silent).sign.SignsAlike id ∧ distinct.tree.WellFormed ∧
      distinct.tree.parent? 3 = some 2 ∧ distinct.tree.parent? 4 = some 2 ∧
      (Dispatcher.standard (services silent) {} 0).execute (update 3) distinct =
        (.ok { hadEffect := true }, updated 3 distinct) ∧
      (Dispatcher.standard (services silent) {} 0).execute (update 4) distinct =
        (.ok { hadEffect := true }, updated 4 distinct)) ∧
    Except.ok { hadEffect := true } = ((Dispatcher.standard (services silent) {} 0).execute
      (update 3) (updated 4 distinct)).1.mapError id ∧
    ((Dispatcher.standard (services silent) {} 0).execute
      (update 4) (updated 3 distinct)).1.mapError id = .ok { hadEffect := true } ∧
    (updated 4 (updated 3 distinct)).tree.Matches (updated 3 (updated 4 distinct)).tree := by
  have hsign : (services silent).sign.SignsAlike id := fun _ _ _ _ _ => rfl
  have hwf : distinct.tree.WellFormed := wellFormed_tree [] "K" "J"
  have hupper : distinct.tree.parent? 3 = some 2 := rfl
  have hlower : distinct.tree.parent? 4 = some 2 := rfl
  have hrun : (Dispatcher.standard (services silent) {} 0).execute (update 3) distinct =
      (.ok { hadEffect := true }, updated 3 distinct) := by
    refine Prod.ext ?_ rfl
    rw [Dispatcher.standard_eq]
    decide +kernel
  have hrun' : (Dispatcher.standard (services silent) {} 0).execute (update 4) distinct =
      (.ok { hadEffect := true }, updated 4 distinct) := by
    refine Prod.ext ?_ rfl
    rw [Dispatcher.standard_eq]
    decide +kernel
  have hxy : distinct.tree.parent? 3 ≠ some 4 := by
    rw [hupper]
    decide
  have hyx : distinct.tree.parent? 4 ≠ some 3 := by
    rw [hlower]
    decide
  refine ⟨⟨hsign, hwf, hupper, hlower, hrun, hrun'⟩, ?_⟩
  exact Dispatcher.execute_updates_commute (x := update 3) (y := update 4) hsign hwf rfl rfl rfl rfl
    (by decide) hxy hyx hrun rfl hrun' rfl

end Siblings

end ResourcePki
