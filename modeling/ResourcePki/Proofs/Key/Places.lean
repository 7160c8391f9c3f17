import ResourcePki.Proofs.Issuance.Retiring

/-! Where the certificates of a ring lie in the repository. The name of a file is made of the key
that the certificate is for, so certificates keep out of each other's way as long as a key has one
holder only: then the certificate that was there before is the one that a new one replaces. -/

namespace ResourcePki

namespace RsyncUri

theorem join_ok {base uri : RsyncUri} {path : String} (hpath : path ≠ "")
    (h : base.join path = .ok uri) : ∃ stem, uri.text.toList = stem ++ path.toList ∧
      stem = if base.text.toList.getLast? = some '/' then base.text.toList
        else base.text.toList ++ ['/'] := by
  have hne : path.toList.isEmpty = false := by
    rw [List.isEmpty_eq_false_iff]
    exact fun hnil => hpath (String.toList_eq_nil_iff.mp hnil)
  unfold join at h
  dsimp only at h
  rw [hne, if_neg Bool.false_ne_true] at h
  cases hcharacters : Uri.checkCharacters path.toList with
  | error fault =>
    rw [hcharacters] at h
    cases h
  | ok u =>
    cases hpath : Uri.checkPath path.toList with
    | error fault =>
      rw [hcharacters, hpath] at h
      cases h
    | ok u =>
      rw [hcharacters, hpath] at h
      obtain rfl := Except.ok.inj h
      refine ⟨_, ?_, rfl⟩
      rw [String.toList_ofList]
      split
      · rfl
      · rw [List.append_assoc]
        rfl

theorem join_inj {base uri : RsyncUri} {path path' : String} (hpath : path ≠ "")
    (hpath' : path' ≠ "") (h : base.join path = .ok uri) (h' : base.join path' = .ok uri) :
    path = path' := by
  obtain ⟨stem, htext, rfl⟩ := join_ok hpath h
  obtain ⟨stem', htext', rfl⟩ := join_ok hpath' h'
  exact String.toList_inj.mp (List.append_cancel_left (htext.symm.trans htext'))

end RsyncUri

namespace OutgoingCertificate

variable {o o' : OutgoingCertificate}

/-- The record `o'` is `o` at a later point; it has left the repository or is there as it was. -/
structure Recedes (o o' : OutgoingCertificate) : Prop where
  same : o.SameRecord o'
  kept : o'.isPublishable = true → o.isPublishable = true ∧ o'.isValid = o.isValid

theorem Recedes.refl (o : OutgoingCertificate) : o.Recedes o := ⟨.refl o, fun h => ⟨h, rfl⟩⟩

theorem Recedes.of_gone (hsame : o.SameRecord o') (hgone : o'.isPublishable = false) :
    o.Recedes o' :=
  ⟨hsame, fun h => absurd (hgone.symm.trans h) Bool.false_ne_true⟩

theorem recedes_withdraw (o : OutgoingCertificate) : o.Recedes o.withdraw :=
  .of_gone ⟨rfl, rfl, rfl⟩ o.isPublishable_withdraw

theorem recedes_revoke (o : OutgoingCertificate) (now : Time) : o.Recedes (o.revoke now) := by
  by_cases h : o.isValid = true
  · exact .of_gone sameRecord_revoke (isPublishable_revoke_of_valid h)
  · rw [revoke, if_neg h]
    exact .refl o

theorem recedes_lapse (o : OutgoingCertificate) (now : Time) : o.Recedes (o.lapse now) := by
  unfold lapse
  split
  · exact .of_gone ⟨rfl, rfl, rfl⟩ o.isPublishable_withdraw
  · exact .refl o

theorem recedes_markPublished (o : OutgoingCertificate) : o.Recedes o.markPublished :=
  ⟨⟨rfl, rfl, rfl⟩, fun h => ⟨o.isPublishable_markPublished ▸ h, rfl⟩⟩

/-- What is in the repository after certificates receded was there before. -/
theorem sublist_places {l l' : List OutgoingCertificate} (h : List.Forall₂ Recedes l l') :
    ((l'.filter (·.isPublishable)).filterMap (·.publicationUri)).Sublist
      ((l.filter (·.isPublishable)).filterMap (·.publicationUri)) := by
  induction h with
  | nil => exact List.Sublist.refl _
  | @cons o o' l l' ho _ ih =>
    have htail : ((l.filter (·.isPublishable)).filterMap (·.publicationUri)).Sublist
        (((o :: l).filter (·.isPublishable)).filterMap (·.publicationUri)) :=
      ((List.sublist_cons_self o l).filter _).filterMap _
    cases hlive : o'.isPublishable with
    | false =>
      rw [List.filter_cons_of_neg (by simp [hlive])]
      exact ih.trans htail
    | true =>
      rw [List.filter_cons_of_pos hlive, List.filter_cons_of_pos (ho.kept hlive).1,
        List.filterMap_cons, List.filterMap_cons, ho.same.publicationUri]
      cases o.publicationUri with
      | none => exact ih
      | some uri => exact ih.cons_cons uri

end OutgoingCertificate

namespace KeyPair

open OutgoingCertificate

/-- The key `k'` is `k` after some of what it signed left the repository. -/
def Recedes (k k' : KeyPair) : Prop :=
  List.Forall₂ OutgoingCertificate.Recedes k.outgoing k'.outgoing

theorem Recedes.refl (k : KeyPair) : k.Recedes k := List.forall₂_same.mpr fun o _ => .refl o

theorem recedes_revokeFor (k : KeyPair) (subject : Subject) (key : Option String) (now : Time) :
    k.Recedes (k.revokeFor subject key now) := by
  refine forall₂_map (fun o => ?_) k.outgoing
  split
  · exact o.recedes_revoke now
  · exact .refl o

theorem recedes_lapse (k : KeyPair) (now : Time) : k.Recedes (k.lapse now) :=
  forall₂_map (·.recedes_lapse now) k.outgoing

theorem recedes_revoke (k : KeyPair) : k.Recedes k.revoke :=
  forall₂_map recedes_withdraw k.outgoing

theorem recedes_confirm (k : KeyPair) (place : ObjectPlace) : k.Recedes (k.confirm place) := by
  cases place with
  | certificate i => exact forall₂_modify recedes_markPublished .refl i k.outgoing
  | published i => exact .refl k

end KeyPair

namespace KeyRing

open OutgoingCertificate

variable {r r' r'' : KeyRing}

/-- The certificates that are in the repository or on their way there. -/
def live (r : KeyRing) : List OutgoingCertificate := r.outgoing.filter (·.isPublishable)

/-- Where they lie. -/
def places (r : KeyRing) : List RsyncUri := r.live.filterMap (·.publicationUri)

/-- The place for certificates of a key. -/
def placeOf (r : KeyRing) (key : String) : Except Uri.Fault RsyncUri :=
  r.directory.join s!"{key}.cer"

/-- What lies at the place of a key is a valid certificate of some child for that key. -/
def Orderly (r : KeyRing) : Prop :=
  ∀ o ∈ r.live, ∀ uri key, o.publicationUri = some uri → r.placeOf key = .ok uri →
    o.isValid = true ∧ ∃ d, o.isFor d key = true

theorem mem_live {o : OutgoingCertificate} :
    o ∈ r.live ↔ o ∈ r.outgoing ∧ o.isPublishable = true := List.mem_filter

theorem placeOf_inj {key key' : String} {uri : RsyncUri} (h : r.placeOf key = .ok uri)
    (h' : r.placeOf key' = .ok uri) : key = key' := by
  have hname : ∀ key : String, (s!"{key}.cer").toList = key.toList ++ ".cer".toList :=
    fun key => String.toList_append
  have hne : ∀ key : String, s!"{key}.cer" ≠ "" := fun key hnil => by
    have hempty := (hname key).symm.trans (congrArg String.toList hnil)
    cases (List.append_eq_nil_iff.mp hempty).2
  have heq := congrArg String.toList (RsyncUri.join_inj (hne key) (hne key') h h')
  rw [hname, hname] at heq
  exact String.toList_inj.mp (List.append_cancel_right heq)

/-- The ring `r'` is `r` after some of its certificates left the repository. -/
structure Recedes (r r' : KeyRing) : Prop where
  directory : r'.directory = r.directory
  outgoing : List.Forall₂ OutgoingCertificate.Recedes r.outgoing r'.outgoing

theorem Recedes.of_outgoing (hdirectory : r'.directory = r.directory)
    (houtgoing : r'.outgoing = r.outgoing) : r.Recedes r' :=
  ⟨hdirectory, houtgoing ▸ List.forall₂_same.mpr fun o _ => .refl o⟩

theorem Recedes.refl (r : KeyRing) : r.Recedes r := .of_outgoing rfl rfl

theorem Recedes.of_trunk (h : r'.trunk = r.trunk) : r.Recedes r' := by
  have houtgoing : ∀ r : KeyRing, r.trunk.outgoing = r.outgoing := fun r => List.flatMap_map ..
  refine .of_outgoing (congrArg (·.directory) h) ?_
  rw [← houtgoing r', h, houtgoing]

theorem Recedes.origin (h : r.Recedes r') {o' : OutgoingCertificate} (ho' : o' ∈ r'.live) :
    ∃ o ∈ r.live, o.SameRecord o' ∧ o'.isValid = o.isValid := by
  obtain ⟨hmem, hlive⟩ := mem_live.mp ho'
  obtain ⟨o, ho, hrecedes⟩ := (exists_of_forall₂ h.outgoing).2 o' hmem
  obtain ⟨hbefore, hvalid⟩ := hrecedes.kept hlive
  exact ⟨o, mem_live.mpr ⟨ho, hbefore⟩, hrecedes.same, hvalid⟩

theorem Recedes.nodup_places (h : r.Recedes r') (hplaces : r.places.Nodup) : r'.places.Nodup :=
  hplaces.sublist (sublist_places h.outgoing)

theorem isFor_of_same {o o' : OutgoingCertificate} (h : o.SameRecord o') (d : CaId)
    (key : String) : o'.isFor d key = o.isFor d key := by
  rw [isFor, isFor, h.subject, h.certificate]

theorem Orderly.recedes (horderly : r.Orderly) (h : r.Recedes r') : r'.Orderly := by
  intro o' ho' uri key huri hplace
  obtain ⟨o, ho, hsame, hvalid⟩ := h.origin ho'
  rw [placeOf, h.directory] at hplace
  obtain ⟨hbefore, d, hfor⟩ :=
    horderly o ho uri key (hsame.publicationUri.symm.trans huri) hplace
  exact ⟨hvalid.trans hbefore, d, (isFor_of_same hsame d key).trans hfor⟩

theorem Recedes.of_pairs {pairs : List KeyPair}
    (h : List.Forall₂ KeyPair.Recedes r.pairs pairs) : r.Recedes { r with pairs } :=
  ⟨rfl, List.rel_flatMap h fun _ _ hk => hk⟩

theorem recedes_revokeChild (r : KeyRing) (child : CaId) (key : Option String) (now : Time) :
    r.Recedes (r.revokeChild child key now) :=
  .of_pairs (forall₂_map (·.recedes_revokeFor _ key now) _)

theorem recedes_lapse (r : KeyRing) (now : Time) : r.Recedes (r.lapse now) :=
  .of_pairs (forall₂_map (·.recedes_lapse now) _)

theorem recedes_revoke (r : KeyRing) (ski : String) : r.Recedes (r.modify ski (·.revoke)) :=
  .of_pairs (forall₂_modifyFirst_self (·.recedes_revoke) .refl ski _)

theorem recedes_confirm (r : KeyRing) (key : Nat) (place : ObjectPlace) :
    r.Recedes (r.confirm key place) :=
  .of_pairs (forall₂_modify (·.recedes_confirm place) .refl key _)

theorem recedes_add (r : KeyRing) {k : KeyPair} (hk : k.outgoing = []) : r.Recedes (r.add k) := by
  refine .of_outgoing rfl ?_
  rw [outgoing, add, List.flatMap_append, List.flatMap_singleton, hk, List.append_nil]
  rfl

/-! What a new certificate does -/

variable {q : ChildRequest}

theorem place_placed {template : CertificateTemplate} {der : Bytes} {o : OutgoingCertificate}
    (h : r.place q template der = .ok o) : o.isPublishable = true ∧
      ∃ uri, o.publicationUri = some uri ∧ r.placeOf q.subjectKey = .ok uri := by
  rw [place_eq] at h
  unfold publish PublishedObject.uri at h
  dsimp only at h
  change (do let uri ← (r.placeOf q.subjectKey).mapError _; _) = _ at h
  cases hplace : r.placeOf q.subjectKey with
  | error fault =>
    rw [hplace] at h
    cases h
  | ok uri =>
    rw [hplace] at h
    obtain rfl := Except.ok.inj h
    exact ⟨rfl, uri, rfl, rfl⟩

/-- Only one child has certificates for a key in the repository, if any has. -/
def HeldBy (r : KeyRing) (child : CaId) (key : String) : Prop :=
  ∀ o ∈ r.live, ∀ d, o.isFor d key = true → d = child

/-- Revoking what the only holder of a key has for it makes room at the place of the key. -/
theorem not_mem_places_revokeChild {child : CaId} {key : String} {uri : RsyncUri} (now : Time)
    (horderly : r.Orderly) (hheld : r.HeldBy child key) (hplace : r.placeOf key = .ok uri) :
    uri ∉ (r.revokeChild child (some key) now).places := by
  intro hmem
  obtain ⟨o', ho', huri⟩ := List.mem_filterMap.mp hmem
  obtain ⟨hout, hlive⟩ := mem_live.mp ho'
  rw [outgoing_revokeChild] at hout
  obtain ⟨o, ho, rfl⟩ := List.mem_map.mp hout
  split at hlive
  · rename_i hconcerns
    have hvalid : o.isValid = true := (Bool.and_eq_true_iff.mp hconcerns).2
    exact absurd ((isPublishable_revoke_of_valid hvalid).symm.trans hlive) Bool.false_ne_true
  -- What is still there was not revoked, but at this place everything is concerned.
  · rename_i hconcerns
    rw [if_neg hconcerns] at huri
    have hbefore : o ∈ r.live := mem_live.mpr ⟨ho, hlive⟩
    obtain ⟨hvalid, d, hfor⟩ := horderly o hbefore uri key huri hplace
    obtain rfl := hheld o hbefore d hfor
    rw [concerns_some, hfor, hvalid] at hconcerns
    exact hconcerns rfl

theorem live_replaceChild_perm {key : String} {o : OutgoingCertificate} (child : CaId) (now : Time)
    (hkey : key ∈ r.skis) (hlive : o.isPublishable = true) :
    (r.replaceChild key o child now).live.Perm
      (o :: (r.revokeChild child (some o.certificate.subjectKey) now).live) := by
  have hkey' : key ∈ (r.revokeChild child (some o.certificate.subjectKey) now).skis := by
    rw [skis_revokeChild]
    exact hkey
  have hperm := (outgoing_addOutgoing_perm (c := o) hkey').filter (·.isPublishable)
  rwa [List.filter_cons_of_pos hlive] at hperm

/-- The ring `r'` is `r` after certificates for some keys of a child were put in their places. -/
structure Placed (child : CaId) (keys : List String) (r r' : KeyRing) : Prop where
  orderly : r'.Orderly
  places : r'.places.Nodup
  origin : ∀ o' ∈ r'.live, (∃ key ∈ keys, o'.isFor child key = true) ∨
    ∃ o ∈ r.live, o.SameRecord o'

theorem Recedes.placed (h : r.Recedes r') (horderly : r.Orderly) (hplaces : r.places.Nodup)
    (child : CaId) (keys : List String) : Placed child keys r r' where
  orderly := horderly.recedes h
  places := h.nodup_places hplaces
  origin o' ho' := by
    obtain ⟨o, ho, hsame, -⟩ := h.origin ho'
    exact .inr ⟨o, ho, hsame⟩

theorem Placed.trans {child : CaId} {keys : List String} (h : Placed child keys r r')
    (h' : Placed child keys r' r'') : Placed child keys r r'' where
  orderly := h'.orderly
  places := h'.places
  origin o'' ho'' := by
    rcases h'.origin o'' ho'' with hnew | ⟨o', ho', hsame'⟩
    · exact .inl hnew
    · rcases h.origin o' ho' with ⟨key, hkey, hfor⟩ | ⟨o, ho, hsame⟩
      · exact .inl ⟨key, hkey, (isFor_of_same hsame' child key).trans hfor⟩
      · exact .inr ⟨o, ho, hsame.trans hsame'⟩

theorem Placed.heldBy {child : CaId} {keys : List String} {key : String}
    (h : Placed child keys r r') (hheld : r.HeldBy child key) : r'.HeldBy child key := by
  intro o' ho' d hfor
  rcases h.origin o' ho' with ⟨key', -, hchild⟩ | ⟨o, ho, hsame⟩
  · exact Subject.child.inj ((isFor_iff.mp hfor).1.symm.trans (isFor_iff.mp hchild).1)
  · exact hheld o ho d ((isFor_of_same hsame d key).symm.trans hfor)

theorem placed_replaceChild {keys : List String} {key : String} {o : OutgoingCertificate}
    {template : CertificateTemplate} {der : Bytes} (now : Time) (horderly : r.Orderly)
    (hheld : r.HeldBy q.child.id q.subjectKey) (hplaces : r.places.Nodup) (hkey : key ∈ r.skis)
    (hasked : q.subjectKey ∈ keys) (htemplate : template.subjectKey = q.subjectKey)
    (hplace : r.place q template der = .ok o) :
    Placed q.child.id keys r (r.replaceChild key o q.child.id now) := by
  obtain ⟨hcertificate, hsubject, hcurrent⟩ := place_ok hplace
  obtain ⟨hlive, uri, huri, hplaceOf⟩ := place_placed hplace
  have hsubjectKey : o.certificate.subjectKey = q.subjectKey := by
    rw [hcertificate]
    exact htemplate
  have hfor : o.isFor q.child.id q.subjectKey = true := isFor_iff.mpr ⟨hsubject, hsubjectKey⟩
  let before := r.revokeChild q.child.id (some q.subjectKey) now
  have hrecedes : r.Recedes before := r.recedes_revokeChild _ _ now
  have hperm := live_replaceChild_perm q.child.id now hkey hlive
  rw [hsubjectKey] at hperm
  refine ⟨?_, ?_, ?_⟩
  · intro o' ho' uri' key' huri' hplace'
    rcases List.mem_cons.mp (hperm.mem_iff.mp ho') with rfl | hbefore
    · obtain rfl := Option.some.inj (huri.symm.trans huri')
      obtain rfl := placeOf_inj hplaceOf hplace'
      exact ⟨isValid_iff.mpr hcurrent, q.child.id, hfor⟩
    · exact horderly.recedes hrecedes o' hbefore uri' key' huri' hplace'
  · have hfree := not_mem_places_revokeChild now horderly hheld hplaceOf
    have hnodup : (uri :: before.places).Nodup :=
      List.nodup_cons.mpr ⟨hfree, hrecedes.nodup_places hplaces⟩
    have hplaces' := hperm.filterMap (·.publicationUri)
    rw [List.filterMap_cons, huri] at hplaces'
    exact hplaces'.nodup_iff.mpr hnodup
  · intro o' ho'
    rcases List.mem_cons.mp (hperm.mem_iff.mp ho') with rfl | hbefore
    · exact .inl ⟨q.subjectKey, hasked, hfor⟩
    · obtain ⟨c, hc, hsame, -⟩ := hrecedes.origin hbefore
      exact .inr ⟨c, hc, hsame⟩

/-- Whatever comes of a request, certificates do not meet in the repository. -/
theorem Answered.placed {signer : Signer} {now : Time} {signings signings' : List Signing}
    {answer : Except Error IncomingCertificate} {keys : List String}
    (h : Answered r q signer now signings answer r' signings') (horderly : r.Orderly)
    (hheld : r.HeldBy q.child.id q.subjectKey) (hplaces : r.places.Nodup)
    (hasked : q.subjectKey ∈ keys) : Placed q.child.id keys r r' := by
  cases h with
  | unable => exact (Recedes.refl r).placed horderly hplaces _ keys
  | refused =>
    have hrecedes : r.Recedes { r with nextSerial := r.nextSerial + 1 } := .of_outgoing rfl rfl
    exact hrecedes.placed horderly hplaces _ keys
  | issued hkey _ hplace _ =>
    -- The serial number that was used up plays no part in this.
    have horderly' : Orderly { r with nextSerial := r.nextSerial + 1 } := horderly
    have hplaced := placed_replaceChild now horderly' hheld hplaces (signingKey?_mem hkey) hasked
      rfl hplace
    exact ⟨hplaced.orderly, hplaced.places, hplaced.origin⟩

end KeyRing

namespace Certification

/-- Bringing certificates in line puts nothing where something else lies, also if it fails, as long
as no other child has certificates for the keys of this one. -/
theorem align_placed (terms : CertificationTerms) (c : Certification)
    (horderly : c.parentKeys.Orderly) (hplaces : c.parentKeys.places.Nodup)
    (hheld : ∀ key ∈ c.child.subjectKeys, c.parentKeys.HeldBy c.child.id key) :
    KeyRing.Placed c.child.id c.child.subjectKeys c.parentKeys (align terms c).2.parentKeys := by
  unfold align
  split
  · exact (c.parentKeys.recedes_revokeChild _ none terms.now).placed horderly hplaces _ _
  · refine (certify_keep terms c.child.subjectKeys c
      (P := fun c' => c'.child.id = c.child.id ∧
        KeyRing.Placed c.child.id c.child.subjectKeys c.parentKeys c'.parentKeys) ?_
      ⟨rfl, (KeyRing.Recedes.refl _).placed horderly hplaces _ _⟩).2
    rintro c' ski hski ⟨hid, hplaced⟩
    obtain ⟨answer, hanswered, hchild⟩ := issue_answered terms c' ski
    have hid' : c'.child.identity.id = c.child.id := hid
    have hnext := hanswered.placed hplaced.orderly (hid' ▸ hplaced.heldBy (hheld ski hski))
      hplaced.places hski
    rw [hid'] at hnext
    refine ⟨?_, hplaced.trans hnext⟩
    obtain hsame | ⟨inc, hreceived⟩ := hchild
    · rw [hsame, hid]
    · rw [hreceived, CertificateAuthority.id_modifyKeys, hid]

end Certification

end ResourcePki
