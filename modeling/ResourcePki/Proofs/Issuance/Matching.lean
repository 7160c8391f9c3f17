import ResourcePki.Proofs.Issuance.Numbering
import ResourcePki.Proofs.Issuance.Plain

/-! Trees that are equal but for what two runs of the same updates may differ in: serial numbers,
signed bytes, and the order in which the certificates of one key were issued. Where two issuers
agree on what they issued to one child and on what they issued to all others, they match. -/

namespace ResourcePki

structure KeyPair.Matches (k k' : KeyPair) : Prop where
  ski : k.ski = k'.ski
  status : k.status = k'.status
  published : k.published = k'.published
  incoming : k.incoming.map (·.plain) = k'.incoming.map (·.plain)
  outgoing : (k.outgoing.map (·.plain)).Perm (k'.outgoing.map (·.plain))

structure KeyRing.Matches (r r' : KeyRing) : Prop where
  pairs : List.Forall₂ KeyPair.Matches r.pairs r'.pairs
  directory : r.directory = r'.directory
  checkNeeded : r.checkNeeded = r'.checkNeeded
  nextSerial : r.nextSerial = r'.nextSerial

/-- All of a CA but its keys. -/
def CertificateAuthority.bare (ca : CertificateAuthority) : CertificateAuthority :=
  ca.modifyKeys fun _ => default

structure CertificateAuthority.Matches (ca ca' : CertificateAuthority) : Prop where
  bare : ca.bare = ca'.bare
  keys : Option.Rel KeyRing.Matches ca.keys? ca'.keys?

structure CaTree.Matches (t t' : CaTree) : Prop where
  cas : ∀ id, Option.Rel CertificateAuthority.Matches (t.get? id) (t'.get? id)
  nextId : t.nextId = t'.nextId

namespace KeyPair

theorem Matches.of_plain {k k' : KeyPair} (h : k.plain = k'.plain) : k.Matches k' where
  ski := congrArg (·.ski) h
  status := congrArg (·.status) h
  published := congrArg (·.published) h
  incoming := congrArg (·.incoming) h
  outgoing := .of_eq (congrArg (·.outgoing) h)

/-- What was issued to one child and what was issued to others is all that was issued. -/
theorem map_plain_perm (child : CaId) (l : List OutgoingCertificate) :
    (l.map (·.plain)).Perm ((l.filter (·.isChosen (.only child))).map (·.plain) ++
      (l.filter (·.isChosen (.others child))).map (·.plain)) := by
  have hothers : ∀ c : OutgoingCertificate,
      c.isChosen (.others child) = !c.isChosen (.only child) := by
    intro c
    simp [OutgoingCertificate.isChosen, CertificateChoice.others, CertificateChoice.only]
  rw [← List.map_append]
  simp only [hothers]
  exact ((List.filter_append_perm _ l).map _).symm

theorem Matches.of_shares {k k' : KeyPair} {child : CaId}
    (honly : (k.share (.only child)).plain = (k'.share (.only child)).plain)
    (hothers : (k.share (.others child)).plain = (k'.share (.others child)).plain) :
    k.Matches k' where
  ski := congrArg (·.ski) honly
  status := congrArg (·.status) honly
  published := congrArg (·.published) honly
  incoming := congrArg (·.incoming) honly
  outgoing := by
    have honly' : (k.outgoing.filter (·.isChosen (.only child))).map (·.plain) =
        (k'.outgoing.filter (·.isChosen (.only child))).map (·.plain) :=
      congrArg (·.outgoing) honly
    have hothers' : (k.outgoing.filter (·.isChosen (.others child))).map (·.plain) =
        (k'.outgoing.filter (·.isChosen (.others child))).map (·.plain) :=
      congrArg (·.outgoing) hothers
    refine (map_plain_perm child k.outgoing).trans ?_
    rw [honly', hothers']
    exact (map_plain_perm child k'.outgoing).symm

end KeyPair

namespace KeyRing

theorem forall₂_of_map_eq {α β γ : Type} {R : α → α → Prop} {f : α → β} {g : α → γ}
    (h : ∀ a b, f a = f b → g a = g b → R a b) {l l' : List α} (hf : l.map f = l'.map f)
    (hg : l.map g = l'.map g) : List.Forall₂ R l l' := by
  induction l generalizing l' with
  | nil =>
    obtain rfl := List.map_eq_nil_iff.mp hf.symm
    exact .nil
  | cons a rest ih =>
    cases l' with
    | nil => cases hf
    | cons b rest' =>
      obtain ⟨hfab, hfrest⟩ := List.cons.inj hf
      obtain ⟨hgab, hgrest⟩ := List.cons.inj hg
      exact .cons (h a b hfab hgab) (ih hfrest hgrest)

theorem Matches.of_plain {r r' : KeyRing} (h : r.plain = r'.plain) : r.Matches r' where
  pairs := by
    have hpairs : r.pairs.map (·.plain) = r'.pairs.map (·.plain) := congrArg (·.pairs) h
    exact forall₂_of_map_eq (fun _ _ hplain _ => .of_plain hplain) hpairs hpairs
  directory := congrArg (·.directory) h
  checkNeeded := congrArg (·.checkNeeded) h
  nextSerial := congrArg (·.nextSerial) h

theorem Matches.of_parts {r r' : KeyRing} {child : CaId}
    (honly : r.part (.only child) = r'.part (.only child))
    (hothers : r.part (.others child) = r'.part (.others child))
    (hserial : r.nextSerial = r'.nextSerial) : r.Matches r' where
  pairs := by
    have hpairs : ∀ {choice : CertificateChoice}, r.part choice = r'.part choice →
        r.pairs.map (fun k => (k.share choice).plain) =
          r'.pairs.map fun k => (k.share choice).plain := by
      intro choice hpart
      have hmap := congrArg (·.pairs) hpart
      simpa only [part, plain, share, List.map_map, Function.comp_def] using hmap
    exact forall₂_of_map_eq (fun _ _ => .of_shares) (hpairs honly) (hpairs hothers)
  directory := congrArg (·.directory) honly
  checkNeeded := congrArg (·.checkNeeded) honly
  nextSerial := hserial

end KeyRing

namespace CertificateAuthority

variable {ca ca' : CertificateAuthority} {choice : CertificateChoice}

/-- The plain form of a share. -/
def part (choice : CertificateChoice) (ca : CertificateAuthority) : CertificateAuthority :=
  (ca.share choice).plain

theorem bare_modifyKeys (ca : CertificateAuthority) (f : KeyRing → KeyRing) :
    (ca.modifyKeys f).bare = ca.bare := modifyKeys_modifyKeys ca f _

theorem bare_part (choice : CertificateChoice) (ca : CertificateAuthority) :
    (ca.part choice).bare = ca.bare :=
  (bare_modifyKeys ..).trans (ca.bare_modifyKeys _)

theorem keys?_part (ca : CertificateAuthority) :
    (ca.part choice).keys? = ca.keys?.map (·.part choice) := by
  rw [part, keys?_plain, keys?_share, Option.map_map]
  rfl

theorem Matches.of_plain (h : ca.plain = ca'.plain) : ca.Matches ca' where
  bare := by
    rw [← bare_modifyKeys ca KeyRing.plain, ← bare_modifyKeys ca' KeyRing.plain]
    exact congrArg CertificateAuthority.bare h
  keys := by
    have hkeys := congrArg keys? h
    rw [keys?_plain, keys?_plain] at hkeys
    cases hca : ca.keys? <;> cases hca' : ca'.keys? <;> rw [hca, hca'] at hkeys
    · exact .none
    · cases hkeys
    · cases hkeys
    · exact .some (.of_plain (Option.some.inj hkeys))

theorem Matches.of_parts {child : CaId} (honly : ca.part (.only child) = ca'.part (.only child))
    (hothers : ca.part (.others child) = ca'.part (.others child))
    (hserial : ca.nextSerial = ca'.nextSerial) : ca.Matches ca' where
  bare := by
    rw [← ca.bare_part (.only child), honly, bare_part]
  keys := by
    have honly' := congrArg keys? honly
    have hothers' := congrArg keys? hothers
    rw [keys?_part, keys?_part] at honly' hothers'
    unfold nextSerial at hserial
    cases hca : ca.keys? <;> cases hca' : ca'.keys? <;> rw [hca, hca'] at honly' hothers' hserial
    · exact .none
    · cases honly'
    · cases honly'
    · exact .some (.of_parts (Option.some.inj honly') (Option.some.inj hothers') hserial)

variable {o o' : Option CertificateAuthority}

theorem rel_of_plain (h : o.map (·.plain) = o'.map (·.plain)) : Option.Rel Matches o o' := by
  cases o <;> cases o'
  · exact .none
  · cases h
  · cases h
  · exact .some (.of_plain (Option.some.inj h))

theorem rel_of_parts {child : CaId}
    (honly : o.map (·.part (.only child)) = o'.map (·.part (.only child)))
    (hothers : o.map (·.part (.others child)) = o'.map (·.part (.others child)))
    (hserial : o.elim 0 (·.nextSerial) = o'.elim 0 (·.nextSerial)) :
    Option.Rel Matches o o' := by
  cases o <;> cases o'
  · exact .none
  · cases honly
  · cases honly
  · exact .some (.of_parts (Option.some.inj honly) (Option.some.inj hothers) hserial)

end CertificateAuthority

end ResourcePki
