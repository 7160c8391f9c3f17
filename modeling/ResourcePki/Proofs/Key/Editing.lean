import ResourcePki.Proofs.Key.Issuing
import ResourcePki.Proofs.Key.Lapsing
import Mathlib.Data.List.Forall2
import Mathlib.Data.List.Nodup
import Mathlib.Logic.Relation

/-! The life of a ring, one edit at a time. Keys come, receive certificates and end; certificates
are issued, replaced, revoked and expire; and the publication side confirms what it did with an
object. What one edit keeps holds all along, of a ring as of each of its keys. -/

namespace ResourcePki

/-- Where a key pair has an object: with a certificate that it issued, or on its own. -/
inductive ObjectPlace where
  | certificate (index : Nat)
  | published (index : Nat)
deriving DecidableEq, Repr

section forall₂

variable {α : Type} {R : α → α → Prop} {f : α → α}

theorem forall₂_map (hf : ∀ a, R a (f a)) (l : List α) : List.Forall₂ R l (l.map f) :=
  List.forall₂_map_right_iff.mpr (List.forall₂_same.mpr fun a _ => hf a)

theorem forall₂_modify (hf : ∀ a, R a (f a)) (hsame : ∀ a, R a a) (i : Nat) (l : List α) :
    List.Forall₂ R l (l.modify i f) := by
  induction l generalizing i with
  | nil => cases i <;> exact .nil
  | cons a rest ih =>
    cases i with
    | zero => exact .cons (hf a) (List.forall₂_same.mpr fun a _ => hsame a)
    | succ i => exact .cons (hsame a) (ih i)

theorem forall₂_trans (htrans : ∀ {a b c}, R a b → R b c → R a c) {l m n : List α}
    (h : List.Forall₂ R l m) (h' : List.Forall₂ R m n) : List.Forall₂ R l n := by
  induction h generalizing n with
  | nil => exact h'
  | cons hab _ ih =>
    cases h' with
    | cons hbc hrest => exact .cons (htrans hab hbc) (ih hrest)

end forall₂

namespace KeyPair

open OutgoingCertificate

/-- The publication side has done with one object what was asked of it. -/
def confirm (k : KeyPair) : ObjectPlace → KeyPair
  | .certificate i => { k with outgoing := k.outgoing.modify i (·.markPublished) }
  | .published i => { k with published := k.published.modify i (·.markPublished) }

theorem ski_confirm (k : KeyPair) (place : ObjectPlace) : (k.confirm place).ski = k.ski := by
  cases place <;> rfl

/-- The second key has the same certificates on record as the first, at a later point. -/
def SameRecords (k k' : KeyPair) : Prop := List.Forall₂ SameRecord k.outgoing k'.outgoing

theorem SameRecords.refl (k : KeyPair) : k.SameRecords k :=
  List.forall₂_same.mpr fun o _ => .refl o

theorem SameRecords.trans {k k' k'' : KeyPair} (h : k.SameRecords k') (h' : k'.SameRecords k'') :
    k.SameRecords k'' := forall₂_trans (R := SameRecord) .trans h h'

theorem sameRecords_receive (k : KeyPair) (inc : IncomingCertificate) :
    k.SameRecords (k.receive inc) := by
  unfold receive activate
  split <;> exact .refl k

theorem sameRecords_revokeFor (k : KeyPair) (subject : Subject) (key : Option String)
    (now : Time) : k.SameRecords (k.revokeFor subject key now) := by
  refine forall₂_map (fun o => ?_) k.outgoing
  split
  · exact sameRecord_revoke
  · exact .refl o

theorem sameRecords_lapse (k : KeyPair) (now : Time) : k.SameRecords (k.lapse now) := by
  refine forall₂_map (fun o => ?_) k.outgoing
  unfold OutgoingCertificate.lapse
  split <;> exact ⟨rfl, rfl, rfl⟩

theorem sameRecords_revoke (k : KeyPair) : k.SameRecords k.revoke :=
  forall₂_map (fun _ => ⟨rfl, rfl, rfl⟩) k.outgoing

theorem sameRecords_confirm (k : KeyPair) (place : ObjectPlace) :
    k.SameRecords (k.confirm place) := by
  cases place with
  | certificate i => exact forall₂_modify (fun _ => ⟨rfl, rfl, rfl⟩) .refl i k.outgoing
  | published i => exact .refl k

/-- One edit of a key. Only a key in use receives a certificate, and only a current one signs. -/
inductive Edit : KeyPair → KeyPair → Prop
  | receive {k : KeyPair} (inc : IncomingCertificate) (hactive : k.isRevoked = false) :
      Edit k (k.receive inc)
  | clearIncoming (k : KeyPair) : Edit k k.clearIncoming
  | addOutgoing {k : KeyPair} (o : OutgoingCertificate) (hcurrent : k.isCurrent = true) :
      Edit k (k.addOutgoing o)
  | revokeFor (k : KeyPair) (subject : Subject) (key : Option String) (now : Time) :
      Edit k (k.revokeFor subject key now)
  | lapse (k : KeyPair) (now : Time) : Edit k (k.lapse now)
  | revoke (k : KeyPair) : Edit k k.revoke
  | confirm (k : KeyPair) (place : ObjectPlace) : Edit k (k.confirm place)

abbrev Edits : KeyPair → KeyPair → Prop := Relation.ReflTransGen Edit

theorem Edit.ski {k k' : KeyPair} (h : k.Edit k') : k'.ski = k.ski := by
  cases h with
  | receive inc _ => exact k.ski_receive inc
  | confirm place => exact k.ski_confirm place
  | _ => rfl

theorem Edits.ski {k k' : KeyPair} (h : k.Edits k') : k'.ski = k.ski := by
  induction h with
  | refl => rfl
  | tail _ hedit ih => exact hedit.ski.trans ih

end KeyPair

namespace KeyRing

open OutgoingCertificate

variable {r r' : KeyRing}

def confirm (r : KeyRing) (key : Nat) (place : ObjectPlace) : KeyRing :=
  { r with pairs := r.pairs.modify key (·.confirm place) }

/-- One edit of a ring. An empty ring gets its first key, certificates are received for keys in
use, and each one issued has the next serial number, which may also be used up for nothing. -/
inductive Edit : KeyRing → KeyRing → Prop
  | add {r : KeyRing} (ski : String) (hempty : r.pairs = []) :
      Edit r (r.add (KeyPair.requestCertificate { ski }))
  | receive {r : KeyRing} {ski : String} (inc : IncomingCertificate) (hski : ski ∈ r.activeSkis) :
      Edit r (r.modify ski (·.receive inc))
  | clearIncoming (r : KeyRing) : Edit r r.clearIncoming
  | spend (r : KeyRing) : Edit r { r with nextSerial := r.nextSerial + 1 }
  | issue {r : KeyRing} {q : ChildRequest} {key : String} {der : Bytes} {o : OutgoingCertificate}
      (now : Time) (hkey : r.signingKey? = some key)
      (hplace : r.place q (q.template r.nextSerial) der = .ok o) :
      Edit r ({ r with nextSerial := r.nextSerial + 1 }.replaceChild key o q.child.id now)
  | revokeChild (r : KeyRing) (child : CaId) (key : Option String) (now : Time) :
      Edit r (r.revokeChild child key now)
  | lapse (r : KeyRing) (now : Time) : Edit r (r.lapse now)
  | revoke (r : KeyRing) (ski : String) : Edit r (r.modify ski (·.revoke))
  | confirm (r : KeyRing) (key : Nat) (place : ObjectPlace) : Edit r (r.confirm key place)

abbrev Edits : KeyRing → KeyRing → Prop := Relation.ReflTransGen Edit

/-- Whatever comes of a request for a certificate, it is one edit at most. -/
theorem Answered.edits {q : ChildRequest} {signer : Signer} {now : Time}
    {signings signings' : List Signing} {answer : Except Error IncomingCertificate}
    (h : Answered r q signer now signings answer r' signings') : r.Edits r' := by
  cases h with
  | unable => exact .refl
  | refused => exact .single (.spend r)
  | issued hkey _ hplace _ => exact .single (.issue now hkey hplace)

/-! What an edit of a ring is for its keys -/

theorem forall₂_modifyFirst {R S : KeyPair → KeyPair → Prop} {f : KeyPair → KeyPair}
    {ski : String} {l m : List KeyPair} (h : List.Forall₂ R l m)
    (hf : ∀ a b, R a b → b.ski = ski → S a (f b)) (hsame : ∀ a b, R a b → S a b) :
    List.Forall₂ S l (modifyFirst ski f m) := by
  induction h with
  | nil => exact .nil
  | @cons a b l m hab hrest ih =>
    unfold modifyFirst
    split
    · rename_i hski
      exact .cons (hf a b hab hski) (hrest.imp hsame)
    · exact .cons (hsame a b hab) ih

theorem eq_of_ski_eq (hskis : r.skis.Nodup) {k k' : KeyPair} (hk : k ∈ r.pairs)
    (hk' : k' ∈ r.pairs) (hski : k.ski = k'.ski) : k = k' :=
  List.inj_on_of_nodup_map hskis hk hk' hski

theorem isRevoked_of_active (hskis : r.skis.Nodup) {k : KeyPair} (hk : k ∈ r.pairs)
    (hactive : k.ski ∈ r.activeSkis) : k.isRevoked = false := by
  obtain ⟨k', hk', hski⟩ := List.mem_map.mp hactive
  obtain ⟨hmem, hnot⟩ := List.mem_filter.mp hk'
  rw [eq_of_ski_eq hskis hk hmem hski.symm]
  simpa using hnot

theorem exists_signingKey {key : String} (h : r.signingKey? = some key) :
    ∃ k ∈ r.pairs, k.ski = key ∧ k.isCurrent = true ∧ k.incoming.isSome = true := by
  obtain ⟨k, hk, hski⟩ := Option.map_eq_some_iff.mp h
  obtain ⟨hfound, hcertified⟩ := Option.mem_filter_iff.mp hk
  exact ⟨k, List.mem_of_find?_eq_some hfound, hski, List.find?_some hfound, hcertified⟩

/-- An edit gives an empty ring its first key, or edits the keys that are there. -/
theorem Edit.keywise (h : r.Edit r') (hskis : r.skis.Nodup) :
    (r.pairs = [] ∧ ∃ ski, r'.pairs = [KeyPair.requestCertificate { ski }]) ∨
      List.Forall₂ KeyPair.Edits r.pairs r'.pairs := by
  have hsame : ∀ k : KeyPair, k.Edits k := fun _ => .refl
  have hself : List.Forall₂ (fun a b => a = b ∧ a ∈ r.pairs) r.pairs r.pairs :=
    List.forall₂_same.mpr fun k hk => ⟨rfl, hk⟩
  cases h with
  | add ski hempty => exact .inl ⟨hempty, ski, congrArg (· ++ _) hempty⟩
  | receive inc hski =>
    refine .inr (forall₂_modifyFirst hself ?_ ?_)
    · rintro k _ ⟨rfl, hk⟩ rfl
      exact .single (.receive inc (isRevoked_of_active hskis hk hski))
    · rintro k _ ⟨rfl, -⟩
      exact .refl
  | clearIncoming => exact .inr (forall₂_map (fun k => .single (.clearIncoming k)) _)
  | spend => exact .inr (List.forall₂_same.mpr fun k _ => hsame k)
  | @issue q key der o now hkey hplace =>
    -- First the certificate before is revoked, then the new one is stored under the signing key.
    obtain ⟨signing, hsigning, rfl, hcurrent, -⟩ := exists_signingKey hkey
    refine .inr (forall₂_modifyFirst
      (R := fun a b => a.Edits b ∧ (b.ski = signing.ski → b.isCurrent = true)) ?_ ?_ ?_)
    · refine List.forall₂_map_right_iff.mpr (List.forall₂_same.mpr fun k hk => ⟨?_, fun hski => ?_⟩)
      · exact .single (.revokeFor k _ _ now)
      · rw [← eq_of_ski_eq hskis hk hsigning hski] at hcurrent
        exact hcurrent
    · exact fun a b hab hski => hab.1.tail (.addOutgoing o (hab.2 hski))
    · exact fun a b hab => hab.1
  | revokeChild child key now => exact .inr (forall₂_map (fun k => .single (.revokeFor k _ _ _)) _)
  | lapse now => exact .inr (forall₂_map (fun k => .single (.lapse k now)) _)
  | revoke ski =>
    refine .inr (forall₂_modifyFirst hself ?_ ?_)
    · rintro k _ ⟨rfl, -⟩ -
      exact .single (.revoke k)
    · rintro k _ ⟨rfl, -⟩
      exact .refl
  | confirm key place => exact .inr (forall₂_modify (fun k => .single (.confirm k place)) hsame _ _)

theorem skis_of_forall₂ {l l' : List KeyPair} (h : List.Forall₂ KeyPair.Edits l l') :
    l'.map (·.ski) = l.map (·.ski) := by
  induction h with
  | nil => rfl
  | cons hk _ ih => rw [List.map_cons, List.map_cons, hk.ski, ih]

theorem Edit.nodup_skis (h : r.Edit r') (hskis : r.skis.Nodup) : r'.skis.Nodup := by
  obtain ⟨-, ski, hnew⟩ | hkeys := h.keywise hskis
  · rw [skis, hnew]
    exact List.pairwise_singleton ..
  · rwa [skis, skis_of_forall₂ hkeys]

/-- No edit takes a key out of a ring. -/
theorem Edit.skis_subset (h : r.Edit r') : r.skis ⊆ r'.skis := by
  suffices hsame : r'.skis = r.skis ∨ ∃ ski, r'.skis = r.skis ++ [ski] by
    obtain hsame | ⟨ski, hmore⟩ := hsame
    · exact hsame ▸ List.Subset.refl _
    · exact hmore ▸ List.subset_append_left ..
  cases h with
  | add ski hempty => exact .inr ⟨ski, List.map_append⟩
  | receive inc _ => exact .inl (map_modifyFirst (·.ski_receive inc) _ _)
  | clearIncoming | lapse => exact .inl List.map_map
  | spend => exact .inl rfl
  | @issue q key der o now hkey hplace =>
    refine .inl (Eq.trans ?_ (skis_revokeChild _ q.child.id (some o.certificate.subjectKey) now))
    exact map_modifyFirst (f := (·.addOutgoing o)) (fun _ => rfl) key _
  | revokeChild child key now => exact .inl (r.skis_revokeChild child key now)
  | revoke ski => exact .inl (map_modifyFirst (f := (·.revoke)) (fun _ => rfl) ski _)
  | confirm key place =>
    have hskis := forall₂_modify (R := fun k k' => k'.ski = k.ski) (fun k => k.ski_confirm place)
      (fun _ => rfl) key r.pairs
    refine .inl (List.forall₂_eq_eq_eq ▸ List.forall₂_map_left_iff.mpr ?_)
    exact List.forall₂_map_right_iff.mpr hskis.flip

/-! What an edit of a ring puts on record -/

theorem forall₂_outgoing {l l' : List KeyPair} (h : List.Forall₂ KeyPair.SameRecords l l') :
    List.Forall₂ SameRecord (l.flatMap (·.outgoing)) (l'.flatMap (·.outgoing)) :=
  List.rel_flatMap h fun _ _ hk => hk

theorem forall₂_modifyFirst_self {R : KeyPair → KeyPair → Prop} {f : KeyPair → KeyPair}
    (hf : ∀ k, R k (f k)) (hsame : ∀ k, R k k) (ski : String) (l : List KeyPair) :
    List.Forall₂ R l (modifyFirst ski f l) :=
  forall₂_modifyFirst (R := Eq) (List.forall₂_same.mpr fun _ _ => rfl)
    (fun a _ h _ => h ▸ hf a) fun a _ h => h ▸ hsame a

/-- An edit puts no certificate on record, or one with the next serial number. -/
theorem Edit.recorded (h : r.Edit r') :
    (List.Forall₂ SameRecord r.outgoing r'.outgoing ∧ r.nextSerial ≤ r'.nextSerial) ∨
      ∃ o l, o.certificate.serial = r.nextSerial ∧ List.Forall₂ SameRecord r.outgoing l ∧
        r'.outgoing.Perm (o :: l) ∧ r'.nextSerial = r.nextSerial + 1 := by
  have hsame := KeyPair.SameRecords.refl
  cases h with
  | add ski hempty =>
    refine .inl ⟨?_, Nat.le_refl _⟩
    rw [outgoing, outgoing, KeyRing.add, hempty]
    exact .nil
  | receive inc _ =>
    exact .inl ⟨forall₂_outgoing (forall₂_modifyFirst_self (·.sameRecords_receive inc) hsame _ _),
      Nat.le_refl _⟩
  | clearIncoming =>
    exact .inl ⟨forall₂_outgoing (forall₂_map (f := KeyPair.clearIncoming) hsame _),
      Nat.le_refl _⟩
  | spend => exact .inl ⟨List.forall₂_same.mpr fun o _ => .refl o, Nat.le_succ _⟩
  | @issue q key der o now hkey hplace =>
    let before := r.revokeChild q.child.id (some o.certificate.subjectKey) now
    have hkey' : key ∈ before.skis := by
      rw [skis_revokeChild]
      exact signingKey?_mem hkey
    refine .inr ⟨o, before.outgoing, ?_, ?_, outgoing_addOutgoing_perm hkey', rfl⟩
    · rw [(place_ok hplace).1]
      rfl
    · exact forall₂_outgoing (forall₂_map (·.sameRecords_revokeFor _ _ now) _)
  | revokeChild child key now =>
    exact .inl ⟨forall₂_outgoing (forall₂_map (·.sameRecords_revokeFor _ _ now) _), Nat.le_refl _⟩
  | lapse now =>
    exact .inl ⟨forall₂_outgoing (forall₂_map (·.sameRecords_lapse now) _), Nat.le_refl _⟩
  | revoke ski =>
    exact .inl ⟨forall₂_outgoing (forall₂_modifyFirst_self (·.sameRecords_revoke) hsame _ _),
      Nat.le_refl _⟩
  | confirm key place =>
    exact .inl ⟨forall₂_outgoing (forall₂_modify (·.sameRecords_confirm place) hsame _ _),
      Nat.le_refl _⟩

end KeyRing

end ResourcePki
