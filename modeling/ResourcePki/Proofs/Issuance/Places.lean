import ResourcePki.Proofs.Issuance.Growing
import ResourcePki.Proofs.Issuance.Requesting
import ResourcePki.Proofs.Key.Places

/-! Certificates of one CA keep apart in the repository. Files are named for keys, so this rests on
who claims a key: a child that uses it, or whoever has a certificate for it in the repository. As
long as nobody claims what another claims, and new keys are claimed by nobody, no two certificates
of a CA ever lie at one place. -/

namespace ResourcePki

namespace KeyRing

variable {r : KeyRing}

theorem activeSkis_lapse (r : KeyRing) (now : Time) : (r.lapse now).activeSkis = r.activeSkis :=
  activeSkis_of_map (f := (·.lapse now)) rfl (fun _ => rfl) fun _ => rfl

theorem mem_activeSkis_revoke {ski ski' : String}
    (h : ski' ∈ (r.modify ski (·.revoke)).activeSkis) : ski' ∈ r.activeSkis := by
  obtain ⟨k', hk', rfl⟩ := List.mem_map.mp h
  obtain ⟨hmem, hactive⟩ := List.mem_filter.mp hk'
  rcases mem_modifyFirst hmem with hk | ⟨k, -, rfl⟩
  · exact List.mem_map_of_mem (List.mem_filter.mpr ⟨hk, hactive⟩)
  · cases hactive

end KeyRing

namespace CertificateAuthority

variable {ca ca' : CertificateAuthority} {fresh : String → Prop}

/-- Where certificates of the CA lie in the repository, or will lie. -/
def places (ca : CertificateAuthority) : List RsyncUri := (ca.keys?.map (·.places)).getD []

theorem places_of_keys {r : KeyRing} (h : ca.keys? = some r) : ca.places = r.places := by
  rw [places, h]
  rfl

theorem places_of_outgoing (h : ca.outgoing = []) : ca.places = [] := by
  cases hr : ca.keys? with
  | none =>
    rw [places, hr]
    rfl
  | some r =>
    rw [outgoing_of_keys hr] at h
    rw [places_of_keys hr, KeyRing.places, KeyRing.live, h]
    rfl

/-- The CA `ca'` is `ca` after some of its certificates left the repository; new keys are fresh. -/
structure Recedes (fresh : String → Prop) (ca ca' : CertificateAuthority) : Prop where
  parent : ca'.parent = ca.parent
  keys : ∀ ski ∈ ca'.subjectKeys, ski ∈ ca.subjectKeys ∨ fresh ski
  ring : ∀ r', ca'.keys? = some r' → ∃ r, ca.keys? = some r ∧ r.Recedes r'

theorem Recedes.imp {other : String → Prop} (himp : ∀ ski, fresh ski → other ski)
    (h : ca.Recedes fresh ca') : ca.Recedes other ca' :=
  ⟨h.parent, fun ski hski => (h.keys ski hski).imp_right (himp ski), h.ring⟩

theorem Recedes.nodup_places (h : ca.Recedes fresh ca') (hplaces : ca.places.Nodup) :
    ca'.places.Nodup := by
  cases hr' : ca'.keys? with
  | none =>
    rw [places, hr']
    exact List.nodup_nil
  | some r' =>
    obtain ⟨r, hr, hring⟩ := h.ring r' hr'
    rw [places_of_keys hr] at hplaces
    rw [places_of_keys hr']
    exact hring.nodup_places hplaces

theorem Recedes.of_kind (hparent : ca'.parent = ca.parent) (hkind : ca'.kind = ca.kind) :
    ca.Recedes fresh ca' where
  parent := hparent
  keys ski hski := by
    rw [subjectKeys, keys?, hkind] at hski
    exact .inl hski
  ring r' hr' := by
    rw [keys?, hkind] at hr'
    exact ⟨r', hr', .refl r'⟩

theorem Recedes.refl (fresh : String → Prop) (ca : CertificateAuthority) : ca.Recedes fresh ca :=
  .of_kind rfl rfl

theorem Recedes.of_rings {r r' : KeyRing} (hparent : ca'.parent = ca.parent)
    (hkeys : ca.keys? = some r) (hkeys' : ca'.keys? = some r') (hring : r.Recedes r')
    (hskis : ∀ ski ∈ r'.activeSkis, ski ∈ r.activeSkis ∨ fresh ski) : ca.Recedes fresh ca' where
  parent := hparent
  keys := by
    rw [subjectKeys_of_keys hkeys, subjectKeys_of_keys hkeys']
    exact hskis
  ring r₁ hr₁ := by
    obtain rfl := Option.some.inj (hkeys'.symm.trans hr₁)
    exact ⟨r, hkeys, hring⟩

theorem Recedes.of_trunk (h : ca'.trunk = ca.trunk) : ca.Recedes fresh ca' where
  parent := CertificateAuthority.of_trunk (g := (·.parent)) (fun ca => ca.parent_modifyKeys _) h
  keys ski hski := by
    rw [CertificateAuthority.of_trunk subjectKeys_trunk h] at hski
    exact .inl hski
  ring r' hr' := by
    have hkeys := congrArg keys? h
    rw [trunk, trunk, keys?_modifyKeys, keys?_modifyKeys, hr', Option.map_some] at hkeys
    obtain ⟨r, hr, htrunk⟩ := Option.map_eq_some_iff.mp hkeys.symm
    exact ⟨r, hr, .of_trunk htrunk.symm⟩

theorem recedes_confirm (ca : CertificateAuthority) (key : Nat) (place : ObjectPlace) :
    ca.Recedes fresh (ca.modifyKeys (·.confirm key place)) := by
  cases hkeys : ca.keys? with
  | none =>
    rw [modifyKeys_of_none hkeys]
    exact .refl fresh ca
  | some r =>
    rw [modifyKeys_of_some hkeys]
    have hring := r.recedes_confirm key place
    refine .of_rings rfl hkeys (keys?_withKeys hkeys _) hring fun ski hski => .inl ?_
    rwa [r.activeSkis_confirm] at hski

theorem recedes_prepareRequest {children : List CaIdentity} {source : KeySource} {id : Uuid}
    {now : Time} {answers : List (Except Error String)}
    (hfresh : ∀ ski, source answers = .ok ski → fresh ski)
    (h : (ca.prepareRequest children source id now answers).1 = .ok ca') :
    ca.Recedes fresh ca' := by
  obtain ⟨keys, keys', pending, signingKey, request, hkind, hkeys', -, -, rfl⟩ :=
    prepareRequest_ok h
  have hkeys : ca.keys? = some keys := by
    rw [keys?, hkind]
    rfl
  obtain rfl | ⟨-, ski, hanswer, rfl⟩ := hkeys'
  · exact .of_rings rfl hkeys rfl (.refl _) fun _ hski => .inl hski
  · refine .of_rings rfl hkeys rfl (keys.recedes_add rfl) fun ski' hski' => ?_
    rw [KeyRing.activeSkis, KeyRing.add, List.filter_append, List.map_append] at hski'
    rcases List.mem_append.mp hski' with hold | hnew
    · exact .inl hold
    · obtain rfl := List.mem_singleton.mp hnew
      exact .inr (hfresh _ hanswer)

theorem recedes_revokeKey {ski : String} (h : ca.revokeKey ski = .ok ca') :
    ca.Recedes fresh ca' := by
  obtain ⟨keys, hkeys, rfl⟩ := revokeKey_ok h
  exact .of_rings rfl hkeys (keys?_withKeys hkeys _) (keys.recedes_revoke ski) fun ski' hski' =>
    .inl (KeyRing.mem_activeSkis_revoke hski')

theorem recedes_lapse {r : KeyRing} (now : Time) (hkeys : ca.keys? = some r) :
    ca.Recedes fresh (ca.withKeys (r.lapse now)) := by
  have hring := r.recedes_lapse now
  refine .of_rings rfl hkeys (keys?_withKeys hkeys _) hring fun ski hski => .inl ?_
  rwa [r.activeSkis_lapse] at hski

/-- Repositories of publishers have nothing to do with keys. -/
theorem Recedes.of_publishers {publicKeys : List String}
    {publishers publishers' : SortedMap PublisherHandle PublisherRepository}
    (hkind : ca.kind = .nonHosted publicKeys publishers) :
    ca.Recedes fresh { ca with kind := .nonHosted publicKeys publishers' } where
  parent := rfl
  keys ski hski := by
    rw [subjectKeys, hkind]
    exact .inl hski
  ring r' hr' := nomatch hr'

theorem recedes_addPublisher {handle : PublisherHandle} {repository : PublisherRepository}
    {limit : Nat} (h : ca.addPublisher handle repository limit = .ok ca') :
    ca.Recedes fresh ca' := by
  obtain ⟨publicKeys, publishers, hkind, -, -, rfl⟩ := addPublisher_eq_ok_iff.mp h
  exact .of_publishers hkind

theorem recedes_removePublisher {handle : PublisherHandle}
    (h : ca.removePublisher handle = .ok ca') : ca.Recedes fresh ca' := by
  obtain ⟨publicKeys, publishers, hkind, -, rfl⟩ := removePublisher_eq_ok_iff.mp h
  exact .of_publishers hkind

end CertificateAuthority

/-- By such a command certificates only leave the repository. -/
theorem Services.Changes.recedes {s : Services} {limit : Nat} {j : Journal} {t : CaTree}
    {details : CommandDetails} {ca ca' : CertificateAuthority} {b : Bool} {fresh : String → Prop}
    (h : s.Changes limit j t details ca b ca')
    (hfresh : ∀ ski, s.keys j.keys = .ok ski → fresh ski) : ca.Recedes fresh ca' := by
  cases h with
  | request h => exact CertificateAuthority.recedes_prepareRequest hfresh h
  | revoke h => exact CertificateAuthority.recedes_revokeKey h
  | unmanaged now hkeys => exact .refl fresh ca
  | expire now hkeys => exact CertificateAuthority.recedes_lapse now hkeys
  | registered h => exact .refl fresh ca
  | register h => exact CertificateAuthority.recedes_addPublisher h
  | remove h => exact CertificateAuthority.recedes_removePublisher h

namespace CaTree

variable {t u : CaTree} {id p d d' : CaId} {key : String}

/-- Who has a say in what is published under a CA for a key: a child that uses the key, and whoever
has a certificate for it in the repository. -/
inductive Claims (t : CaTree) (p d : CaId) (key : String) : Prop
  | child {child : CertificateAuthority} (hd : t.get? d = some child)
      (hparent : child.parent = some p) (hkey : key ∈ child.subjectKeys)
  | holder {parent : CertificateAuthority} {r : KeyRing} {o : OutgoingCertificate}
      (hp : t.get? p = some parent) (hr : parent.keys? = some r) (ho : o ∈ r.live)
      (hfor : o.isFor d key = true)

def Unclaimed (t : CaTree) (key : String) : Prop := ∀ p d, ¬ t.Claims p d key

/-- Nobody claims under a CA what another claims there, and what lies at the place of a key is a
valid certificate for it. -/
structure Uncontested (t : CaTree) : Prop where
  single : ∀ p d d' key, t.Claims p d key → t.Claims p d' key → d = d'
  orderly : ∀ id ca r, t.get? id = some ca → ca.keys? = some r → r.Orderly

/-- No two certificates of a CA that are in the repository lie at one place. -/
def PlacesApart (t : CaTree) : Prop := ∀ id ca, t.get? id = some ca → ca.places.Nodup

/-- A well-formed tree in which certificates keep apart, and will do so. -/
structure Tidy (t : CaTree) : Prop where
  wellFormed : t.WellFormed
  uncontested : t.Uncontested
  apart : t.PlacesApart

/-- Nobody contests a key if what is new is claimed for one CA only, and nobody claimed it. -/
theorem single_of_claims (h : ∀ p d d' key, t.Claims p d key → t.Claims p d' key → d = d')
    (hnew : ∀ p d key, u.Claims p d key → t.Claims p d key ∨ (d = id ∧ t.Unclaimed key))
    (hclaims : u.Claims p d key) (hclaims' : u.Claims p d' key) : d = d' := by
  rcases hnew p d key hclaims with hold | ⟨hd, hfree⟩
  · rcases hnew p d' key hclaims' with hold' | ⟨-, hfree⟩
    · exact h p d d' key hold hold'
    · exact absurd hold (hfree p d)
  · rcases hnew p d' key hclaims' with hold' | ⟨hd', -⟩
    · exact absurd hold' (hfree p d')
    · rw [hd, hd']

/-- In `u` certificates have only left the repository since `t`, and new keys are new keys of the CA
under a number, which may itself be new. -/
def Recedes (id : CaId) (t u : CaTree) : Prop :=
  ∀ x ca', u.get? x = some ca' →
    (∃ ca, t.get? x = some ca ∧ ca.Recedes (fun ski => x = id ∧ t.Unclaimed ski) ca') ∨
      (x = id ∧ (∀ ski ∈ ca'.subjectKeys, t.Unclaimed ski) ∧ ca'.outgoing = [])

theorem Recedes.claims (h : Recedes id t u) (hclaims : u.Claims p d key) :
    t.Claims p d key ∨ (d = id ∧ t.Unclaimed key) := by
  cases hclaims with
  | child hd hparent hkey =>
    obtain ⟨ca, hca, hrecedes⟩ | ⟨hid, hfree, -⟩ := h _ _ hd
    · exact (hrecedes.keys key hkey).imp_left (.child hca (hrecedes.parent ▸ hparent))
    · exact .inr ⟨hid, hfree key hkey⟩
  | @holder parent r' o' hp hr' ho' hfor =>
    obtain ⟨ca, hca, hrecedes⟩ | ⟨-, -, hempty⟩ := h _ _ hp
    · obtain ⟨r, hr, hring⟩ := hrecedes.ring r' hr'
      obtain ⟨o, ho, hsame, -⟩ := hring.origin ho'
      exact .inl (.holder hca hr ho ((KeyRing.isFor_of_same hsame d key).symm.trans hfor))
    · rw [CertificateAuthority.outgoing_of_keys hr'] at hempty
      have hmem := (KeyRing.mem_live.mp ho').1
      rw [hempty] at hmem
      cases hmem

theorem Tidy.recedes (h : t.Tidy) (hwf : u.WellFormed) (hrecedes : Recedes id t u) : u.Tidy where
  wellFormed := hwf
  uncontested :=
    { single := fun _ _ _ _ hclaims hclaims' =>
        single_of_claims h.uncontested.single (fun _ _ _ => hrecedes.claims) hclaims hclaims'
      orderly := fun x ca' r' hx hr' => by
        obtain ⟨ca, hca, hca'⟩ | ⟨-, -, hempty⟩ := hrecedes x ca' hx
        · obtain ⟨r, hr, hring⟩ := hca'.ring r' hr'
          exact (h.uncontested.orderly x ca r hca hr).recedes hring
        · rw [CertificateAuthority.outgoing_of_keys hr'] at hempty
          intro o ho
          rw [KeyRing.live, hempty] at ho
          cases ho }
  apart x ca' hx := by
    obtain ⟨ca, hca, hca'⟩ | ⟨-, -, hempty⟩ := hrecedes x ca' hx
    · exact hca'.nodup_places (h.apart x ca hca)
    · rw [CertificateAuthority.places_of_outgoing hempty]
      exact List.nodup_nil

theorem Tidy.set {ca ca' : CertificateAuthority} (h : t.Tidy) (hca : t.get? id = some ca)
    (hlinks : ca'.links = ca.links) (hrecedes : ca.Recedes t.Unclaimed ca') :
    (t.set id ca').Tidy := by
  have hset : Recedes id t (t.set id ca') := fun x c hx => .inl <| by
    rw [get?_set] at hx
    split at hx
    · rename_i hid
      obtain rfl := Option.some.inj hx
      exact ⟨ca, hid ▸ hca, hrecedes.imp fun ski hfree => ⟨hid.symm, hfree⟩⟩
    · exact ⟨c, hx, .refl _ c⟩
  exact h.recedes (h.wellFormed.of_sameLinks (.set t hca hlinks)) hset

theorem Tidy.insert {ca : CertificateAuthority} (h : t.Tidy) (hins : t.insert ca = .ok u)
    (hchildren : ca.children = ∅) (hempty : ca.outgoing = [])
    (hnew : ∀ ski ∈ ca.subjectKeys, t.Unclaimed ski) : u.Tidy := by
  have hinserted : Recedes ca.id t u := fun x c' hx => by
    obtain ⟨rfl, rfl⟩ | ⟨c, hc, -, rfl | ⟨-, rfl⟩⟩ := get?_insert hins hx
    · exact .inr ⟨rfl, hnew, hempty⟩
    · exact .inl ⟨c', hc, .refl _ c'⟩
    · exact .inl ⟨c, hc, .of_kind rfl rfl⟩
  exact h.recedes (h.wellFormed.insert hins hchildren) hinserted

theorem Tidy.confirm (h : t.Tidy) (id : CaId) (position : Nat) (place : ObjectPlace) :
    (t.confirm id position place).Tidy := by
  unfold CaTree.confirm
  split
  · rename_i ca hca
    exact h.set hca (ca.links_modifyKeys _) (ca.recedes_confirm position place)
  · exact h

section placed

variable {ca parent : CertificateAuthority} {r r' : KeyRing} (hca : t.get? id = some ca)
  (hlink : ca.parent = some p) (hparent : t.get? p = some parent) (hkeys : parent.keys? = some r)
  (hface : r'.face = r.face) (hplaced : KeyRing.Placed id ca.subjectKeys r r')

include hca hlink hparent hkeys hface hplaced

/-- Putting certificates for the keys of a child of a CA in their places contests nothing. -/
theorem claims_placed {q : CaId} (h : (t.set p (parent.withKeys r')).Claims q d key) :
    t.Claims q d key := by
  cases h with
  | child hd hq hkey =>
    rw [get?_set] at hd
    split at hd
    · rename_i hp
      obtain rfl := Option.some.inj hd
      have hd' : t.get? d = some parent := hp ▸ hparent
      rw [CertificateAuthority.of_face CertificateAuthority.subjectKeys_face
        (CertificateAuthority.face_withKeys hkeys hface)] at hkey
      exact .child hd' hq hkey
    · exact .child hd hq hkey
  | @holder issuer ring o' hq hring ho' hfor =>
    rw [get?_set] at hq
    split at hq
    · rename_i hp
      obtain rfl := Option.some.inj hq
      rw [CertificateAuthority.keys?_withKeys hkeys r'] at hring
      obtain rfl := Option.some.inj hring
      subst hp
      -- A certificate that was put in its place is for a key that the child uses.
      rcases hplaced.origin o' ho' with ⟨key', hkey', hfor'⟩ | ⟨o, ho, hsame⟩
      · obtain ⟨hd, rfl⟩ := OutgoingCertificate.isFor_iff.mp hfor
        obtain ⟨hid, rfl⟩ := OutgoingCertificate.isFor_iff.mp hfor'
        obtain rfl := Subject.child.inj (hd.symm.trans hid)
        exact .child hca hlink hkey'
      · exact .holder hparent hkeys ho ((KeyRing.isFor_of_same hsame d key).symm.trans hfor)
    · exact .holder hq hring ho' hfor

theorem Tidy.placed (h : t.Tidy) : (t.set p (parent.withKeys r')).Tidy := by
  have hkeys' := CertificateAuthority.keys?_withKeys hkeys r'
  have hlinks := CertificateAuthority.links_of_face
    (CertificateAuthority.face_withKeys hkeys hface)
  have hclaims : ∀ q d key, (t.set p (parent.withKeys r')).Claims q d key → t.Claims q d key :=
    fun _ _ _ => claims_placed hca hlink hparent hkeys hface hplaced
  refine ⟨h.wellFormed.of_sameLinks (.set t hparent hlinks), ⟨fun q d d' key hd hd' => ?_,
    fun x c ring hx hring => ?_⟩, fun x c hx => ?_⟩
  · exact h.uncontested.single q d d' key (hclaims q d key hd) (hclaims q d' key hd')
  · rw [get?_set] at hx
    split at hx
    · obtain rfl := Option.some.inj hx
      obtain rfl := Option.some.inj (hkeys'.symm.trans hring)
      exact hplaced.orderly
    · exact h.uncontested.orderly x c ring hx hring
  · rw [get?_set] at hx
    split at hx
    · obtain rfl := Option.some.inj hx
      rw [CertificateAuthority.places_of_keys hkeys']
      exact hplaced.places
    · exact h.apart x c hx

end placed

theorem Uncontested.heldBy {parent : CertificateAuthority} {r : KeyRing} (h : t.Uncontested)
    (hparent : t.get? p = some parent) (hkeys : parent.keys? = some r)
    (hclaims : t.Claims p d key) : r.HeldBy d key := fun _ ho d' hfor =>
  h.single p d' d key (.holder hparent hkeys ho hfor) hclaims

theorem Tidy.updated {s : Services} {timing : IssuanceTiming} {b : Bool} (h : t.Tidy)
    (hu : s.Updated timing t id b u) : u.Tidy := by
  cases hu with
  | skipped => exact h
  | @aligned ca parent p keys resources signings b c hca hentitled hne hparent hkeys halign =>
    obtain ⟨hlink, -⟩ := Services.entitlement?_eq_some hentitled
    have hid := h.wellFormed.ids id ca hca
    have hframe := Certification.Frame.steps (Certification.align_steps halign)
    have hplaces : keys.places.Nodup :=
      CertificateAuthority.places_of_keys hkeys ▸ h.apart p parent hparent
    have hplaced := Certification.align_placed (s.terms timing id resources)
      ⟨keys, ca, signings⟩ (h.uncontested.orderly p parent keys hparent hkeys) hplaces
      fun key hkey => hid.symm ▸ h.uncontested.heldBy hparent hkeys (.child hca hlink hkey)
    rw [halign, hid] at hplaced
    have hissued := Tidy.placed hca hlink hparent hkeys hframe.face hplaced h
    refine hissued.set ((get?_set_ne hne).trans hca) ?_ (.of_trunk hframe.trunk)
    exact CertificateAuthority.links_of_trunk hframe.trunk

end CaTree

/-- Keys that are created from now on are claimed by nobody in the tree. -/
def Services.UnclaimedKeys (s : Services) (t : CaTree) (memory : Journal) : Prop :=
  ∀ answers ski, memory.keys <:+ answers → s.keys answers = .ok ski → t.Unclaimed ski

theorem CaTree.Tidy.performed {s : Services} {policy : IssuancePolicy} {j : Journal}
    {t t' : CaTree} {id : CaId} {details : CommandDetails} {b : Bool} (h : t.Tidy)
    (hperformed : s.Performed policy j t id details b t') (hnew : s.UnclaimedKeys t j) :
    t'.Tidy := by
  cases hperformed with
  | present => exact h
  | @created name parent ski directory u t' b hnone hanswer hins hupdated =>
    refine (h.insert hins rfl rfl fun ski' hski' => ?_).updated hupdated
    obtain rfl := List.mem_singleton.mp hski'
    exact hnew j.keys _ List.suffix_rfl hanswer
  | updated hupdated _ => exact h.updated hupdated
  | changed hca hchanges =>
    refine h.set hca hchanges.links (hchanges.recedes fun ski hanswer => ?_)
    exact hnew j.keys ski List.suffix_rfl hanswer

/-- The second system comes from the first by commands, each with services of its own that create
no key which somebody claims, and by confirmations of the publication side, in any order. -/
inductive Engine.FreshCourse : Engine Journal → Engine Journal → Prop
  | refl (e : Engine Journal) : FreshCourse e e
  | execute {e e' : Engine Journal} (s : Services) (policy : IssuancePolicy) (retries : Nat)
      (command : CaCommand) (hnew : s.UnclaimedKeys e'.tree e'.memory) (h : FreshCourse e e') :
      FreshCourse e ((Dispatcher.standard s policy retries).execute command e').2
  | confirm {e e' : Engine Journal} (id : CaId) (key : Nat) (place : ObjectPlace)
      (h : FreshCourse e e') : FreshCourse e { e' with tree := e'.tree.confirm id key place }

theorem tidy_execute {s : Services} {policy : IssuancePolicy} {retries : Nat}
    {command : CaCommand} {e : Engine Journal} (hnew : s.UnclaimedKeys e.tree e.memory)
    (h : e.tree.Tidy) :
    ((Dispatcher.standard s policy retries).execute command e).2.tree.Tidy := by
  generalize hrun : (Dispatcher.standard s policy retries).execute command e = result
  obtain ⟨r, e'⟩ := result
  cases r with
  | ok status =>
    obtain ⟨j, hgrows, hperformed⟩ := Dispatcher.execute_standard_performed hrun
    exact h.performed hperformed fun answers ski hanswers =>
      hnew answers ski (hgrows.keys.trans hanswers)
  | error err =>
    rw [Dispatcher.execute_standard_error hrun]
    exact h

/-- Whatever commands and confirmations come, the certificates of a CA that are in the repository
keep apart, as long as keys are not contested. -/
theorem certificates_keep_apart {e e' : Engine Journal} (hrun : e.FreshCourse e')
    (hwf : e.tree.WellFormed) (huncontested : e.tree.Uncontested) (hapart : e.tree.PlacesApart) :
    e'.tree.WellFormed ∧ e'.tree.Uncontested ∧ e'.tree.PlacesApart := by
  have hafter : e'.tree.Tidy := by
    induction hrun with
    | refl => exact ⟨hwf, huncontested, hapart⟩
    | execute s policy retries command hnew _ ih => exact tidy_execute hnew ih
    | confirm id key place _ ih => exact ih.confirm id key place
  exact ⟨hafter.wellFormed, hafter.uncontested, hafter.apart⟩

/-! Two CAs that keep their own keys, under one parent -/

namespace Siblings

def production (outgoing : List OutgoingCertificate) : CertificateAuthority where
  id := 2
  name := "CN=Production CA"
  parent := some 1
  children := .ofIds [3, 4]
  kind := .production
    { pairs := [{ ski := "P", status := .current, outgoing,
                  incoming := some ⟨Chain.productionCertificate, Chain.directory, ∅⟩ }]
      directory := Chain.directory }

def member (id : CaId) (name : CaName) (key : String) : CertificateAuthority where
  id := id
  name := name
  parent := some 2
  kind := .nonHosted [key] ∅

def tree (outgoing : List OutgoingCertificate) (key key' : String) : CaTree where
  cas := ⟨[(1, Chain.root), (2, production outgoing), (3, member 3 "CN=upper" key),
    (4, member 4 "CN=lower" key')], by simp [Numbered.number]⟩
  nextId := 5

theorem get?_tree {outgoing : List OutgoingCertificate} {key key' : String} {id : CaId}
    {ca : CertificateAuthority} (h : (tree outgoing key key').get? id = some ca) :
    (id = 1 ∧ ca = Chain.root) ∨ (id = 2 ∧ ca = production outgoing) ∨
      (id = 3 ∧ ca = member 3 "CN=upper" key) ∨ (id = 4 ∧ ca = member 4 "CN=lower" key') := by
  have hmem := SortedMap.get?_eq_some_iff.mp h
  simpa [tree] using hmem

theorem wellFormed_tree (outgoing : List OutgoingCertificate) (key key' : String) :
    (tree outgoing key key').WellFormed where
  ids id ca h := by
    rcases get?_tree h with ⟨rfl, rfl⟩ | ⟨rfl, rfl⟩ | ⟨rfl, rfl⟩ | ⟨rfl, rfl⟩ <;> rfl
  names id id' ca ca' h h' hname := by
    rcases get?_tree h with ⟨rfl, rfl⟩ | ⟨rfl, rfl⟩ | ⟨rfl, rfl⟩ | ⟨rfl, rfl⟩ <;>
      rcases get?_tree h' with ⟨rfl, rfl⟩ | ⟨rfl, rfl⟩ | ⟨rfl, rfl⟩ | ⟨rfl, rfl⟩ <;>
      first
      | rfl
      | simp [Chain.root, Chain.rootName, production, member] at hname
  parents id ca h p hp := by
    rcases get?_tree h with ⟨rfl, rfl⟩ | ⟨rfl, rfl⟩ | ⟨rfl, rfl⟩ | ⟨rfl, rfl⟩
    · cases hp
    all_goals obtain rfl := Option.some.inj hp
    · exact ⟨_, rfl, List.mem_singleton_self _⟩
    · exact ⟨_, rfl, List.mem_cons_self ..⟩
    · exact ⟨_, rfl, List.mem_cons_of_mem _ (List.mem_singleton_self _)⟩
  children p parent h c hc := by
    rcases get?_tree h with ⟨rfl, rfl⟩ | ⟨rfl, rfl⟩ | ⟨rfl, rfl⟩ | ⟨rfl, rfl⟩
    · obtain rfl := List.mem_singleton.mp hc
      exact rfl
    · have hmem : c ∈ [3, 4] := hc
      simp only [List.mem_cons, List.not_mem_nil, or_false] at hmem
      obtain rfl | rfl := hmem <;> rfl
    · cases hc
    · cases hc
  acyclic := CaTree.acyclic_of_lt fun id ca p h hp => by
    rcases get?_tree h with ⟨rfl, rfl⟩ | ⟨rfl, rfl⟩ | ⟨rfl, rfl⟩ | ⟨rfl, rfl⟩
    · cases hp
    all_goals
      obtain rfl := Option.some.inj hp
      decide

theorem claims_tree {key key' claimed : String} {p d : CaId}
    (h : (tree [] key key').Claims p d claimed) :
    (p = 1 ∧ d = 2 ∧ claimed = "P") ∨ (p = 2 ∧ d = 3 ∧ claimed = key) ∨
      (p = 2 ∧ d = 4 ∧ claimed = key') := by
  cases h with
  | child hd hparent hkey =>
    rcases get?_tree hd with ⟨rfl, rfl⟩ | ⟨rfl, rfl⟩ | ⟨rfl, rfl⟩ | ⟨rfl, rfl⟩
    · cases hparent
    all_goals
      obtain rfl := Option.some.inj hparent
      obtain rfl := List.mem_singleton.mp hkey
    · exact .inl ⟨rfl, rfl, rfl⟩
    · exact .inr (.inl ⟨rfl, rfl, rfl⟩)
    · exact .inr (.inr ⟨rfl, rfl, rfl⟩)
  | holder hp hr ho hfor =>
    rcases get?_tree hp with ⟨rfl, rfl⟩ | ⟨rfl, rfl⟩ | ⟨rfl, rfl⟩ | ⟨rfl, rfl⟩
    · obtain rfl := Option.some.inj hr
      cases ho
    · obtain rfl := Option.some.inj hr
      cases ho
    · cases hr
    · cases hr

def start (outgoing : List OutgoingCertificate) (key key' : String) : Engine Journal :=
  { tree := tree outgoing key key', memory := {} }

/-- The registry has the same resources for all. -/
def services (keys : KeySource) : Services :=
  { Chain.services with lookup := fun _ => .ok (some Chain.asns), keys }

def silent : KeySource := fun _ => .error (.illegalState (.other "no keys"))

def after (keys : KeySource) (command : CaCommand) (e : Engine Journal) : Engine Journal :=
  ((Dispatcher.standard (services keys) {} 0).execute command e).2

def update (id : CaId) : CaCommand := ⟨id, .background, .updateAllIncoming⟩

def activate : CaCommand := ⟨5, .background, .activateHostedCa "CN=newcomer" 2⟩

theorem course_after (keys : KeySource) (command : CaCommand) {e e' : Engine Journal}
    (h : e.Course e') : e.Course (after keys command e') :=
  .execute (services keys) {} 0 command h

theorem unclaimedKeys_silent (t : CaTree) (memory : Journal) :
    (services silent).UnclaimedKeys t memory := fun _ _ _ h => nomatch h

def fileOf (name : String) : RsyncUri := ⟨Chain.directory.text ++ name⟩

def distinct : Engine Journal := start [] "K" "J"

theorem uncontested_distinct : distinct.tree.Uncontested where
  single p d d' key hd hd' := by
    rcases claims_tree hd with ⟨-, rfl, rfl⟩ | ⟨-, rfl, rfl⟩ | ⟨-, rfl, rfl⟩ <;>
      rcases claims_tree hd' with ⟨-, rfl, heq⟩ | ⟨-, rfl, heq⟩ | ⟨-, rfl, heq⟩ <;>
      first
      | rfl
      | exact absurd heq (by decide)
  orderly id ca r hca hr o ho := by
    rcases get?_tree hca with ⟨rfl, rfl⟩ | ⟨rfl, rfl⟩ | ⟨rfl, rfl⟩ | ⟨rfl, rfl⟩
    · obtain rfl := Option.some.inj hr
      cases ho
    · obtain rfl := Option.some.inj hr
      cases ho
    · cases hr
    · cases hr

theorem placesApart_tree (outgoing : List OutgoingCertificate) (key key' : String)
    (h : (production outgoing).places.Nodup) : (tree outgoing key key').PlacesApart := by
  intro id ca hca
  rcases get?_tree hca with ⟨rfl, rfl⟩ | ⟨rfl, rfl⟩ | ⟨rfl, rfl⟩ | ⟨rfl, rfl⟩
  · exact List.nodup_nil
  · exact h
  · exact List.nodup_nil
  · exact List.nodup_nil

theorem not_placesApart {t : CaTree} {id : CaId} {places : List RsyncUri}
    (h : (t.get? id).map (·.places) = some places) (htwice : ¬ places.Nodup) :
    ¬ t.PlacesApart := by
  intro hapart
  obtain ⟨ca, hca, rfl⟩ := Option.map_eq_some_iff.mp h
  exact htwice (hapart id ca hca)

/-- The newcomer has its certificate in the repository, and then a sibling gets one. -/
def joined : Engine Journal :=
  let e := after (fun _ => .ok "N") activate distinct
  after silent (update 3) { e with tree := e.tree.confirm 2 0 (.certificate 0) }

theorem places_joined : (joined.tree.get? 2).map (·.places) =
    some [fileOf "N.cer", fileOf "K.cer"] := by
  unfold joined after
  rw [Dispatcher.standard_eq, Dispatcher.standard_eq]
  decide +kernel

theorem freshCourse_joined : distinct.FreshCourse joined := by
  refine .execute (services silent) {} 0 (update 3) (unclaimedKeys_silent _ _) ?_
  refine .confirm 2 0 (.certificate 0) (.execute (services fun _ => .ok "N") {} 0 activate ?_
    (.refl distinct))
  rintro answers ski - hanswer p d hclaims
  obtain rfl := Except.ok.inj hanswer
  rcases claims_tree hclaims with ⟨-, -, heq⟩ | ⟨-, -, heq⟩ | ⟨-, -, heq⟩ <;>
    exact absurd heq (by decide)

theorem certificates_keep_apart_of_siblings :
    (distinct.FreshCourse joined ∧ distinct.tree.WellFormed ∧ distinct.tree.Uncontested ∧
      distinct.tree.PlacesApart) ∧
    (joined.tree.get? 2).map (·.places) = some [fileOf "N.cer", fileOf "K.cer"] ∧
    joined.tree.WellFormed ∧ joined.tree.Uncontested ∧ joined.tree.PlacesApart :=
  have hwf := wellFormed_tree [] "K" "J"
  have hapart := placesApart_tree [] "K" "J" List.nodup_nil
  ⟨⟨freshCourse_joined, hwf, uncontested_distinct, hapart⟩, places_joined,
    certificates_keep_apart freshCourse_joined hwf uncontested_distinct hapart⟩

/-- An expired certificate that was not withdrawn. -/
def stale : OutgoingCertificate where
  certificate := Chain.certificate "CN=upper" "K" Chain.asns
  subject := .child 3
  status := .expired
  embedded := false
  object := some { filename := "K.cer", directory := Chain.directory, content := [],
                   validity := ⟨⟨0⟩, Time.addWeeks ⟨0⟩ 52⟩, status := .published }
  publicationUri := some (fileOf "K.cer")

/-- From a well-formed tree in which certificates keep apart a system comes to one in which two
certificates of one CA lie at one place. -/
structure Meet (e e' : Engine Journal) : Prop where
  course : e.Course e'
  wellFormed : e.tree.WellFormed
  before : e.tree.PlacesApart
  after : ¬ e'.tree.PlacesApart

theorem meet_start {outgoing : List OutgoingCertificate} {key key' : String} {e' : Engine Journal}
    (hrun : (start outgoing key key').Course e') (hbefore : (production outgoing).places.Nodup)
    (hafter : (e'.tree.get? 2).map (·.places) = some [fileOf "K.cer", fileOf "K.cer"]) :
    Meet (start outgoing key key') e' where
  course := hrun
  wellFormed := wellFormed_tree outgoing key key'
  before := placesApart_tree outgoing key key' hbefore
  after := not_placesApart hafter (by decide)

/-- Certificates meet when two children use one key, when something else lies at the place of a key
from the start, and when a key is created twice. -/
theorem certificates_meet :
    Meet (start [] "K" "K") (after silent (update 4) (after silent (update 3) (start [] "K" "K"))) ∧
    Meet (start [stale] "K" "J") (after silent (update 3) (start [stale] "K" "J")) ∧
    distinct.tree.Uncontested ∧
    Meet distinct (after (fun _ => .ok "K") activate (after silent (update 3) distinct)) := by
  refine ⟨meet_start ?_ List.nodup_nil ?_, meet_start ?_ (by decide) ?_, uncontested_distinct,
    meet_start ?_ List.nodup_nil ?_⟩
  · exact course_after silent (update 4) (course_after silent (update 3) (.refl _))
  · unfold after
    rw [Dispatcher.standard_eq]
    decide +kernel
  · exact course_after silent (update 3) (.refl _)
  · unfold after
    rw [Dispatcher.standard_eq]
    decide +kernel
  · exact course_after (fun _ => .ok "K") activate (course_after silent (update 3) (.refl _))
  · unfold after
    rw [Dispatcher.standard_eq, Dispatcher.standard_eq]
    decide +kernel

end Siblings

end ResourcePki
