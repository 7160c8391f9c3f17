import ResourcePki.Proofs.Issuance.Updating
import Mathlib.Data.List.Forall2

/-! The two records of a certificate, that of the parent and that of the child, tell the same.
`HoldsValid` and `RecordsHeld` are the two directions. Updates keep them, and so does whatever only
lets certificates age, as long as new keys were never certified before. -/

namespace ResourcePki

open OutgoingCertificate Certification

/-- Another record of the certificate, which is not valid unless the first one was. -/
structure OutgoingCertificate.Ages (o o' : OutgoingCertificate) : Prop where
  same : SameRecord o o'
  isValid : o'.isValid = true → o.isValid = true

theorem OutgoingCertificate.Ages.refl (o : OutgoingCertificate) : Ages o o := ⟨.refl o, id⟩

theorem exists_of_forall₂ {α β : Type} {R : α → β → Prop} {l : List α} {l' : List β}
    (h : List.Forall₂ R l l') : (∀ a ∈ l, ∃ b ∈ l', R a b) ∧ ∀ b ∈ l', ∃ a ∈ l, R a b := by
  induction h with
  | nil => exact ⟨fun _ ha => (nomatch ha), fun _ hb => (nomatch hb)⟩
  | @cons a b l l' hab _ ih =>
    refine ⟨List.forall_mem_cons.mpr ⟨⟨b, List.mem_cons_self .., hab⟩, fun x hx => ?_⟩,
      List.forall_mem_cons.mpr ⟨⟨a, List.mem_cons_self .., hab⟩, fun y hy => ?_⟩⟩
    · obtain ⟨y, hy, hxy⟩ := ih.1 x hx
      exact ⟨y, List.mem_cons_of_mem _ hy, hxy⟩
    · obtain ⟨x, hx, hxy⟩ := ih.2 y hy
      exact ⟨x, List.mem_cons_of_mem _ hx, hxy⟩

namespace CertificateAuthority

variable {parent parent' child child' ca ca' : CertificateAuthority}

/-- The child holds every valid certificate that the parent has for a key in use. -/
def HoldsValid (parent child : CertificateAuthority) : Prop :=
  ∀ k ∈ child.pairs, k.isRevoked = false → ∀ o ∈ parent.validFor child.id k.ski,
    ∃ inc, k.incoming = some inc ∧ o.Records inc

/-- The parent has a record of every certificate that the child holds for a key in use. -/
def RecordsHeld (parent child : CertificateAuthority) : Prop :=
  ∀ k ∈ child.pairs, k.isRevoked = false → ∀ inc, k.incoming = some inc →
    ∃ o ∈ parent.outgoing, o.subject = .child child.id ∧ o.certificate.subjectKey = k.ski ∧
      o.certificate = inc.certificate

/-- The keys of the child hold just the certificates that the parent has valid for them. -/
def HoldsExactly (parent child : CertificateAuthority) : Prop :=
  ∀ k ∈ child.pairs,
    (∀ inc, k.incoming = some inc → ∃ o, parent.validFor child.id k.ski = [o] ∧ o.Records inc) ∧
    (k.incoming = none → parent.validFor child.id k.ski = [])

theorem HoldsExactly.holdsValid (h : HoldsExactly parent child) : HoldsValid parent child := by
  intro k hk _ o ho
  obtain ⟨hsome, hnone⟩ := h k hk
  cases hinc : k.incoming with
  | none =>
    rw [hnone hinc] at ho
    cases ho
  | some inc =>
    obtain ⟨o', hvalid, hrecords⟩ := hsome inc hinc
    rw [hvalid, List.mem_singleton] at ho
    exact ⟨inc, rfl, ho ▸ hrecords⟩

theorem HoldsExactly.recordsHeld (h : HoldsExactly parent child) : RecordsHeld parent child := by
  intro k hk _ inc hinc
  obtain ⟨o, hvalid, hrecords⟩ := (h k hk).1 inc hinc
  have hmem : o ∈ parent.validFor child.id k.ski := hvalid ▸ List.mem_singleton_self o
  obtain ⟨hout, -, hsubject, hkey⟩ := mem_validFor.mp hmem
  exact ⟨o, hout, hsubject, hkey, hrecords.certificate.symm⟩

theorem HoldsValid.congr (hseen : parent.SeenAlike child.id parent')
    (hface : child'.face = child.face) (h : HoldsValid parent child) :
    HoldsValid parent' child' := by
  intro k' hk' hrevoked o ho
  obtain ⟨k, hk, hski, hincoming, hstatus⟩ := exists_key_of_face hface hk'
  have hid : child'.id = child.id := of_face id_face hface
  rw [hid, hseen.validFor, ← hski] at ho
  rw [← hincoming]
  refine h k hk ?_ o ho
  rwa [KeyPair.isRevoked, hstatus]

theorem RecordsHeld.congr (hseen : parent.SeenAlike child.id parent')
    (hface : child'.face = child.face) (h : RecordsHeld parent child) :
    RecordsHeld parent' child' := by
  intro k' hk' hrevoked inc hinc
  obtain ⟨k, hk, hski, hincoming, hstatus⟩ := exists_key_of_face hface hk'
  have hid : child'.id = child.id := of_face id_face hface
  have hnot : k.isRevoked = false := by rwa [KeyPair.isRevoked, hstatus]
  obtain ⟨o, ho, hsubject, hkey, hcertificate⟩ := h k hk hnot inc (hincoming.trans hinc)
  obtain ⟨o', ho', hsame⟩ := hseen.recorded o ho
  refine ⟨o', ho', ?_, ?_, hsame.certificate.trans hcertificate⟩
  · rw [hid, hsame.subject, hsubject]
  · rw [hsame.certificate, hkey, hski]

section steps

variable {terms : CertificationTerms} {keys : KeyRing} {signings : List Signing}
  {c : Certification} (hkeys : parent.keys? = some keys) (hskis : child.skis.Nodup)
  (hsteps : Steps terms ⟨keys, child, signings⟩ c)

include hkeys hskis hsteps

theorem HoldsValid.steps (h : HoldsValid parent child) :
    HoldsValid (parent.withKeys c.parentKeys) c.child := by
  have hbefore : Held ⟨keys, child, signings⟩ := fun k hk hrevoked o ho =>
    h k hk hrevoked o (by rwa [validFor_of_keys hkeys])
  have hafter := hsteps.keep Held.step hskis hbefore
  intro k hk hrevoked o ho
  rw [validFor_of_keys (keys?_withKeys hkeys c.parentKeys)] at ho
  exact hafter k hk hrevoked o ho

theorem RecordsHeld.steps (h : RecordsHeld parent child) :
    RecordsHeld (parent.withKeys c.parentKeys) c.child := by
  have hbefore : Recorded ⟨keys, child, signings⟩ := fun k hk hrevoked inc hinc => by
    rw [← outgoing_of_keys hkeys]
    exact h k hk hrevoked inc hinc
  have hafter := hsteps.keep Recorded.step hskis hbefore
  intro k hk hrevoked inc hinc
  rw [outgoing_of_keys (keys?_withKeys hkeys c.parentKeys)]
  exact hafter k hk hrevoked inc hinc

end steps

/-- The CA `ca'` is `ca` after some of its certificates and keys came to an end; new keys are fresh
and hold nothing. -/
structure Aged (fresh : String → Prop) (ca ca' : CertificateAuthority) : Prop where
  links : ca'.links = ca.links
  issued : List.Forall₂ Ages ca.outgoing ca'.outgoing
  held : ∀ k' ∈ ca'.pairs, k'.isRevoked = false →
    (∃ k ∈ ca.pairs, k.isRevoked = false ∧ k.ski = k'.ski ∧ k.incoming = k'.incoming) ∨
      (fresh k'.ski ∧ k'.incoming = none)
  skis : ca.skis.Nodup → ca'.skis.Nodup

theorem Aged.refl (fresh : String → Prop) (ca : CertificateAuthority) : Aged fresh ca ca where
  links := rfl
  issued := List.forall₂_same.mpr fun o _ => .refl o
  held k hk hrevoked := .inl ⟨k, hk, hrevoked, rfl, rfl⟩
  skis h := h

theorem length_filter_of_forall₂ {l l' : List OutgoingCertificate} (h : List.Forall₂ Ages l l')
    (d : CaId) (key : String) :
    ((l'.filter (·.isValid)).filter (·.isFor d key)).length ≤
      ((l.filter (·.isValid)).filter (·.isFor d key)).length := by
  simp only [List.filter_filter]
  induction h with
  | nil => exact Nat.le_refl _
  | @cons o o' l l' ho _ ih =>
    -- What still counts later on did so before.
    have hkept : (o'.isFor d key && o'.isValid) = true → (o.isFor d key && o.isValid) = true := by
      simp only [Bool.and_eq_true, isFor_iff, ho.same.subject, ho.same.certificate]
      exact fun h => ⟨h.1, ho.isValid h.2⟩
    rw [List.filter_cons, List.filter_cons]
    split
    · rename_i h'
      rw [if_pos (hkept h')]
      exact Nat.succ_le_succ ih
    · split
      · exact Nat.le_succ_of_le ih
      · exact ih

theorem Aged.length_validFor {fresh : String → Prop} (h : Aged fresh ca ca') (d : CaId)
    (key : String) : (ca'.validFor d key).length ≤ (ca.validFor d key).length := by
  rw [validFor, validFor, valid_eq, valid_eq]
  exact length_filter_of_forall₂ h.issued d key

theorem Aged.exists_validFor {fresh : String → Prop} (h : Aged fresh ca ca') {d : CaId}
    {key : String} {o' : OutgoingCertificate} (ho' : o' ∈ ca'.validFor d key) :
    ∃ o ∈ ca.validFor d key, SameRecord o o' := by
  obtain ⟨hout, hvalid, hsubject, hkey⟩ := mem_validFor.mp ho'
  obtain ⟨o, ho, hages⟩ := (exists_of_forall₂ h.issued).2 o' hout
  refine ⟨o, mem_validFor.mpr ⟨ho, hages.isValid hvalid, ?_, ?_⟩, hages.same⟩
  · rw [← hages.same.subject, hsubject]
  · rw [← hages.same.certificate, hkey]

theorem Records.of_same {o o' : OutgoingCertificate} {inc : IncomingCertificate}
    (h : SameRecord o o') (hrecords : o.Records inc) : o'.Records inc :=
  ⟨hrecords.certificate.trans h.certificate.symm,
    h.publicationUri.trans hrecords.publicationUri⟩

theorem HoldsValid.aged {fresh : String → Prop}
    (hfresh : ∀ ski, fresh ski → ∀ o ∈ parent.outgoing, o.certificate.subjectKey ≠ ski)
    (hparent : Aged fresh parent parent') (hchild : Aged fresh child child')
    (h : HoldsValid parent child) : HoldsValid parent' child' := by
  intro k' hk' hrevoked o' ho'
  obtain ⟨o, ho, hsame⟩ := hparent.exists_validFor ho'
  have hid : child'.id = child.id := congrArg (·.id) hchild.links
  rw [hid] at ho
  -- A new key has no certificate to hold, since the parent never issued one for it.
  rcases hchild.held k' hk' hrevoked with ⟨k, hk, hnot, hski, hincoming⟩ | ⟨hnew, -⟩
  · rw [← hski] at ho
    obtain ⟨inc, hinc, hrecords⟩ := h k hk hnot o ho
    exact ⟨inc, hincoming ▸ hinc, Records.of_same hsame hrecords⟩
  · obtain ⟨hout, -, -, hkey⟩ := mem_validFor.mp ho
    exact absurd hkey (hfresh _ hnew o hout)

theorem RecordsHeld.aged {fresh : String → Prop} (hparent : Aged fresh parent parent')
    (hchild : Aged fresh child child') (h : RecordsHeld parent child) :
    RecordsHeld parent' child' := by
  intro k' hk' hrevoked inc hinc
  have hid : child'.id = child.id := congrArg (·.id) hchild.links
  rcases hchild.held k' hk' hrevoked with ⟨k, hk, hnot, hski, hincoming⟩ | ⟨-, hnone⟩
  · obtain ⟨o, ho, hsubject, hkey, hcertificate⟩ := h k hk hnot inc (hincoming.trans hinc)
    obtain ⟨o', ho', hages⟩ := (exists_of_forall₂ hparent.issued).1 o ho
    refine ⟨o', ho', ?_, ?_, hages.same.certificate.trans hcertificate⟩
    · rw [hid, hages.same.subject, hsubject]
    · rw [hages.same.certificate, hkey, hski]
  · rw [hnone] at hinc
    cases hinc

end CertificateAuthority

namespace CaTree

open CertificateAuthority

variable {t u : CaTree}

/-- A certificate for the key is on record somewhere in the tree. -/
def Mentions (t : CaTree) (ski : String) : Prop :=
  ∃ id ca, t.get? id = some ca ∧ ∃ o ∈ ca.outgoing, o.certificate.subjectKey = ski

/-- Parents and children tell the same of the certificates between them. -/
structure Linked (t : CaTree) : Prop where
  single : t.Single
  held : t.Along HoldsValid
  recorded : t.Along RecordsHeld

/-- All CAs of `u` are aged ones of `t`; new keys were not mentioned. -/
structure Evolves (t u : CaTree) : Prop where
  links : SameLinks t u
  aged : ∀ x ca', u.get? x = some ca' → ∃ ca, t.get? x = some ca ∧
    Aged (fun ski => ¬ t.Mentions ski) ca ca'

theorem Evolves.set {id : CaId} {ca ca' : CertificateAuthority} (hca : t.get? id = some ca)
    (h : Aged (fun ski => ¬ t.Mentions ski) ca ca') : Evolves t (t.set id ca') := by
  refine ⟨.set t hca h.links, fun x c' hx => ?_⟩
  rw [get?_set] at hx
  split at hx
  · rename_i hid
    obtain rfl := Option.some.inj hx
    exact ⟨ca, hid ▸ hca, h⟩
  · exact ⟨c', hx, .refl _ c'⟩

theorem Evolves.distinctKeys (h : Evolves t u) (hkeys : t.DistinctKeys) : u.DistinctKeys := by
  intro x ca' hx
  obtain ⟨ca, hca, haged⟩ := h.aged x ca' hx
  exact haged.skis (hkeys x ca hca)

theorem Evolves.link (h : Evolves t u) {p c : CaId} {parent' child' : CertificateAuthority}
    (hp : u.get? p = some parent') (hc : u.get? c = some child') (hlink : child'.parent = some p) :
    ∃ parent child, t.get? p = some parent ∧ t.get? c = some child ∧ child.parent = some p ∧
      Aged (fun ski => ¬ t.Mentions ski) parent parent' ∧
      Aged (fun ski => ¬ t.Mentions ski) child child' := by
  obtain ⟨parent, hparent, haged⟩ := h.aged p parent' hp
  obtain ⟨child, hchild, haged'⟩ := h.aged c child' hc
  exact ⟨parent, child, hparent, hchild, (congrArg (·.parent) haged'.links).symm.trans hlink,
    haged, haged'⟩

theorem Linked.evolves (h : t.Linked) (he : Evolves t u) : u.Linked where
  single p parent' hp d key := by
    obtain ⟨parent, hparent, haged⟩ := he.aged p parent' hp
    exact Nat.le_trans (haged.length_validFor d key) (h.single p parent hparent d key)
  held p parent' c child' hp hc hlink := by
    obtain ⟨parent, child, hparent, hchild, hlink', haged, haged'⟩ := he.link hp hc hlink
    refine .aged (fun ski hski o ho hkey => hski ?_) haged haged'
      (h.held p parent c child hparent hchild hlink')
    exact ⟨p, parent, hparent, o, ho, hkey⟩
  recorded p parent' c child' hp hc hlink := by
    obtain ⟨parent, child, hparent, hchild, hlink', haged, haged'⟩ := he.link hp hc hlink
    exact .aged haged haged' (h.recorded p parent c child hparent hchild hlink')

theorem Linked.updated {s : Services} {timing : IssuanceTiming} {id : CaId} {b : Bool}
    (h : t.Linked) (hwf : t.WellFormed) (hkeys : t.DistinctKeys)
    (hu : s.Updated timing t id b u) : u.Linked where
  single := hu.single (hwf.ids id) h.single
  held := hu.along HoldsValid.congr HoldsValid.steps hwf hkeys h.held
  recorded := hu.along RecordsHeld.congr RecordsHeld.steps hwf hkeys h.recorded

theorem link_insert {ca : CertificateAuthority} (hwf : t.WellFormed) (hins : t.insert ca = .ok u)
    {p c : CaId} {parent' child' : CertificateAuthority} (hp : u.get? p = some parent')
    (hc : u.get? c = some child') (hlink : child'.parent = some p) :
    ∃ parent, t.get? p = some parent ∧ (parent' = parent ∨ parent' = parent.addChild ca.id) ∧
      ((c = ca.id ∧ child' = ca) ∨ ∃ child, t.get? c = some child ∧ child.parent = some p ∧
        (child' = child ∨ child' = child.addChild ca.id)) := by
  obtain ⟨hfree, -, -, -, hlinks⟩ := insert_ok hins
  have hchild : (c = ca.id ∧ child' = ca) ∨ ∃ child, t.get? c = some child ∧
      child.parent = some p ∧ (child' = child ∨ child' = child.addChild ca.id) := by
    obtain ⟨rfl, rfl⟩ | ⟨child, hchild, -, rfl | ⟨-, rfl⟩⟩ := get?_insert hins hc
    · exact .inl ⟨rfl, rfl⟩
    · exact .inr ⟨_, hchild, hlink, .inl rfl⟩
    · exact .inr ⟨child, hchild, hlink, .inr rfl⟩
  -- The new CA has no children, so whoever is a parent now was there before.
  have hold : ∃ parent, t.get? p = some parent := by
    rcases hchild with ⟨rfl, rfl⟩ | ⟨child, hchild, hlink', -⟩
    · obtain ⟨hnone, -⟩ | ⟨q, parent, hq, -, hparent, -, -⟩ := hlinks
      · rw [hnone] at hlink
        cases hlink
      · obtain rfl := Option.some.inj (hq.symm.trans hlink)
        exact ⟨parent, hparent⟩
    · obtain ⟨parent, hparent, -⟩ := hwf.parents c child hchild p hlink'
      exact ⟨parent, hparent⟩
  obtain ⟨parent, hparent⟩ := hold
  refine ⟨parent, hparent, ?_, hchild⟩
  obtain ⟨rfl, -⟩ | ⟨parent₁, hparent₁, -, hcase⟩ := get?_insert hins hp
  · rw [hfree] at hparent
    cases hparent
  · obtain rfl := Option.some.inj (hparent.symm.trans hparent₁)
    exact hcase.imp_right And.right

/-- A new CA that issued nothing and holds nothing has nothing to disagree about, if its keys were
not mentioned before. -/
theorem Linked.insert {ca : CertificateAuthority} (h : t.Linked) (hwf : t.WellFormed)
    (hins : t.insert ca = .ok u) (hout : ca.outgoing = [])
    (hnew : ∀ k ∈ ca.pairs, k.incoming = none ∧ ¬ t.Mentions k.ski) : u.Linked where
  single p parent' hp d key := by
    obtain ⟨rfl, rfl⟩ | ⟨parent, hparent, -, rfl | ⟨-, rfl⟩⟩ := get?_insert hins hp
    · rw [validFor, valid_eq, hout]
      exact Nat.zero_le _
    · exact h.single p _ hparent d key
    · exact h.single p parent hparent d key
  held p parent' c child' hp hc hlink := by
    obtain ⟨parent, hparent, hpcase, hccase⟩ := link_insert hwf hins hp hc hlink
    have hsame : parent'.validFor = parent.validFor := by
      rcases hpcase with rfl | rfl <;> rfl
    intro k hk hrevoked o ho
    rw [hsame] at ho
    rcases hccase with ⟨-, rfl⟩ | ⟨child, hchild, hlink', rfl | rfl⟩
    · obtain ⟨hout', -, -, hkey⟩ := mem_validFor.mp ho
      exact absurd ⟨p, parent, hparent, o, hout', hkey⟩ (hnew k hk).2
    · exact h.held p parent c _ hparent hchild hlink' k hk hrevoked o ho
    · exact h.held p parent c child hparent hchild hlink' k hk hrevoked o ho
  recorded p parent' c child' hp hc hlink := by
    obtain ⟨parent, hparent, hpcase, hccase⟩ := link_insert hwf hins hp hc hlink
    have hsame : parent'.outgoing = parent.outgoing := by
      rcases hpcase with rfl | rfl <;> rfl
    intro k hk hrevoked inc hinc
    rw [hsame]
    rcases hccase with ⟨-, rfl⟩ | ⟨child, hchild, hlink', rfl | rfl⟩
    · rw [(hnew k hk).1] at hinc
      cases hinc
    · exact h.recorded p parent c _ hparent hchild hlink' k hk hrevoked inc hinc
    · exact h.recorded p parent c child hparent hchild hlink' k hk hrevoked inc hinc

theorem DistinctKeys.insert {ca : CertificateAuthority} (h : t.DistinctKeys)
    (hins : t.insert ca = .ok u) (hskis : ca.skis.Nodup) : u.DistinctKeys := by
  intro x ca' hx
  obtain ⟨rfl, rfl⟩ | ⟨c, hc, -, rfl | ⟨-, rfl⟩⟩ := get?_insert hins hx
  · exact hskis
  · exact h x _ hc
  · exact h x c hc

end CaTree

end ResourcePki
