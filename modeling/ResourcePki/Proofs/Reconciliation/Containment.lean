import ResourcePki.Proofs.Reconciliation.Passes

/-! Whether CAs are still covered for what they issued after a run of the update job. A CA that is
certified after the run is: all that it issued was gone through since. One that is not certified any
more passes over its children, and what it issued to them before stays as it was. -/

namespace ResourcePki

open Certification

namespace CertificateAuthority

/-- The child has valid certificates for this set only, and holds no other. -/
structure Allots (parent child : CertificateAuthority) (resources : ResourceSet) : Prop where
  issued : ∀ o ∈ parent.valid, o.subject = .child child.id → o.resources = resources
  held : ∀ k ∈ child.publishable, ∀ inc, k.incoming = some inc → inc.own = resources

theorem mem_valid_iff_of_validFor {ca ca' : CertificateAuthority} {d : CaId}
    (h : ∀ key, ca'.validFor d key = ca.validFor d key) {o : OutgoingCertificate}
    (hsubject : o.subject = .child d) : o ∈ ca'.valid ↔ o ∈ ca.valid := by
  have hmem : ∀ ca : CertificateAuthority,
      o ∈ ca.valid ↔ o ∈ ca.validFor d o.certificate.subjectKey := fun ca =>
    ⟨fun ho => mem_validFor_of_valid ho hsubject, fun ho => (List.mem_filter.mp ho).1⟩
  rw [hmem ca', h, ← hmem ca]

end CertificateAuthority

theorem CaTree.Orderly.allots {t : CaTree} (h : t.Orderly) {p id : CaId}
    {parent child : CertificateAuthority} (hp : t.get? p = some parent)
    (hid : t.get? id = some child) (hlink : child.parent = some p) {resources : ResourceSet}
    (hserved : ∀ key ∈ child.subjectKeys, ∃ o ∈ parent.validFor child.id key,
      o.resources = resources) : parent.Allots child resources := by
  constructor
  · intro o ho hsubject
    obtain ⟨d, child₁, hd, hchild₁, -, hkey⟩ := h.inUse p parent hp o ho
    obtain rfl := Subject.child.inj (hd.symm.trans hsubject)
    rw [h.wellFormed.ids id child hid] at hchild₁
    obtain rfl := Option.some.inj (hid.symm.trans hchild₁)
    -- The key of `o` is in use, so `o` is the certificate that serves it.
    obtain ⟨o₁, ho₁, hresources⟩ := hserved _ hkey
    have hmem := CertificateAuthority.mem_validFor_of_valid ho hsubject
    rw [h.single.validFor_eq hp ho₁, List.mem_singleton] at hmem
    rw [hmem, hresources]
  · intro k hk inc hinc
    rw [CertificateAuthority.publishable_eq, List.mem_filter] at hk
    have hrevoked := KeyPair.isRevoked_of_isPublishable hk.2
    obtain ⟨inc', hinc', hown⟩ :=
      (h.held p parent id child hp hid hlink).own_eq hserved k hk.1 hrevoked
    obtain rfl := Option.some.inj (hinc'.symm.trans hinc)
    exact hown

namespace Services

variable {s : Services} {timing : IssuanceTiming} {t t' : CaTree} {id : CaId} {b : Bool}

/-- After its update a CA that is entitled to a set has certificates for this set only. -/
theorem Updated.allots (ht : t.Orderly) (h : s.Updated timing t id b t')
    {ca : CertificateAuthority} (hca : t.get? id = some ca) {p : CaId} {resources : ResourceSet}
    (hentitled : s.entitlement? t ca = some (p, resources)) {parent' ca' : CertificateAuthority}
    (hp : t'.get? p = some parent') (hid : t'.get? id = some ca') :
    parent'.Allots ca' resources := by
  have hlink : ca'.parent = some p := (h.parent hca hid).trans (entitlement?_eq_some hentitled).1
  -- Either all certificates were withdrawn, or every key in use has one for the set.
  cases hempty : resources.isEmpty with
  | true =>
    obtain ⟨hincoming, hnone⟩ := h.withdrawn hca hentitled hp hid hempty
    constructor
    · intro o ho hsubject
      have hmem := CertificateAuthority.mem_validFor_of_valid ho hsubject
      rw [hnone] at hmem
      cases hmem
    · intro k hk inc hinc
      rw [CertificateAuthority.publishable_eq, List.mem_filter] at hk
      rw [hincoming k hk.1] at hinc
      cases hinc
  | false =>
    exact (ht.updated h).allots hp hid hlink
      (h.served hca hentitled hp hid (ht.wellFormed.ids id ca hca) hempty)

section pass

variable {ids : List CaId} (ht : t.Orderly)
  (hids : ids.Pairwise fun x y => x ≠ y ∧ t.parent? x ≠ some y) (h : s.Passed timing ids t t')
  {x : CaId} {ca ca' : CertificateAuthority} (hca : t.get? x = some ca)
  (hca' : t'.get? x = some ca')

include ht hids h hca hca'

/-- Whether a CA has certified resources in the end decides what becomes of the certificates that it
issued to a child: they are all issued anew or withdrawn, or they are all left alone. -/
theorem Passed.issued_child {d : CaId} (hd : d ∈ ids) {child : CertificateAuthority}
    (hchild : t.get? d = some child) (hlink : child.parent = some x) {requested : ResourceSet}
    (hrequested : (child.certifiable s.lookup).1 = some requested) :
    (∀ held, ca'.certified = some held → ∀ o ∈ ca'.valid, o.subject = .child d →
      o.resources = requested.inter held) ∧
    (ca'.certified = none → ∀ key, ca'.validFor d key = ca.validFor d key) := by
  obtain ⟨l, r, u₁, u₂, b, hl, hu, hr, hdl, hdr, hparent⟩ := h.turn_of_mem hids hd
  have hxr : x ∉ r := hparent x ((CaTree.parent?_of_get? hchild).trans hlink)
  have hu₁ := hl.orderly ht
  obtain ⟨ca₂, hca₂, hface₂, hseen₂⟩ := hr.get? (hu₁.updated hu).wellFormed hca'
  obtain ⟨ca₁, hca₁, hface₁, -, -⟩ := hu.get? (hu₁.wellFormed.ids _) hca₂
  obtain ⟨ca₀, hca₀, -, hseen₀⟩ := hl.get? ht.wellFormed hca₁
  obtain rfl := Option.some.inj (hca.symm.trans hca₀)
  obtain ⟨child₁, hchild₁, -⟩ := hl.sameLinks.symm.get? hchild
  obtain ⟨child₀, hchild₀, hface, -⟩ := hl.get? ht.wellFormed hchild₁
  obtain rfl := Option.some.inj (hchild.symm.trans hchild₀)
  have hlink₁ : child₁.parent = some x :=
    (CertificateAuthority.of_face CertificateAuthority.parent_face (hface hdl)).trans hlink
  have hrequested₁ : (child₁.certifiable s.lookup).1 = some requested := by
    rw [CertificateAuthority.of_face (g := fun ca => ca.certifiable s.lookup)
      (CertificateAuthority.certifiable_face s.lookup) (hface hdl), hrequested]
  have hne : x ≠ d := hu₁.wellFormed.parent_ne ((CaTree.parent?_of_get? hchild₁).trans hlink₁)
  -- From the turn of the child on its parent is not updated, so it holds what it held then.
  have hcertified : ca'.certified = ca₁.certified :=
    CertificateAuthority.of_face CertificateAuthority.certified_face
      ((hface₂ hxr).trans (hface₁ hne))
  rw [hcertified]
  refine ⟨fun held hheld o ho hsubject => ?_, fun hnone key => ?_⟩
  · have hentitled := entitlement?_of hlink₁ hca₁ hheld hrequested₁
    obtain ⟨child₂, hchild₂, -⟩ := hu.sameLinks.symm.get? hchild₁
    have hallots := hu.allots hu₁ hchild₁ hentitled hca₂ hchild₂
    have hmem := CertificateAuthority.mem_validFor_of_valid ho hsubject
    rw [(hseen₂ d hdr).validFor] at hmem
    refine hallots.issued o (List.mem_filter.mp hmem).1 ?_
    rw [(hu₁.updated hu).wellFormed.ids d child₂ hchild₂, hsubject]
  · have hentitled : s.entitlement? u₁ child₁ = none := by
      rw [entitlement?, hlink₁, Option.bind_some, hca₁, Option.bind_some, hnone, Option.bind_none]
    -- Nothing could be issued at its turn: the parent was not certified any more.
    obtain rfl := hu.eq_of_none hchild₁ hentitled
    obtain rfl := Option.some.inj (hca₁.symm.trans hca₂)
    rw [(hseen₂ d hdr).validFor, (hseen₀ d hdl).validFor]

theorem Passed.agrees (hx : x ∈ ids) (hagrees : ca.Agrees) : ca'.Agrees := by
  obtain ⟨l, r, u₁, u₂, b, hl, hu, hr, hxl, hxr, -⟩ := h.turn_of_mem hids hx
  have hu₁ := hl.orderly ht
  obtain ⟨ca₂, hca₂, hface₂, -⟩ := hr.get? (hu₁.updated hu).wellFormed hca'
  obtain ⟨ca₁, hca₁, -⟩ := hu.get? (hu₁.wellFormed.ids _) hca₂
  obtain ⟨ca₀, hca₀, hface₁, -⟩ := hl.get? ht.wellFormed hca₁
  obtain rfl := Option.some.inj (hca.symm.trans hca₀)
  refine .of_face (hface₂ hxr) ?_
  cases hentitled : s.entitlement? u₁ ca₁ with
  | none =>
    obtain rfl := hu.eq_of_none hca₁ hentitled
    obtain rfl := Option.some.inj (hca₁.symm.trans hca₂)
    exact hagrees.of_face (hface₁ hxl)
  | some entitled =>
    obtain ⟨p, resources⟩ := entitled
    obtain ⟨-, parent, -, -, hparent, -⟩ := entitlement?_eq_some hentitled
    obtain ⟨parent', hparent', -⟩ := hu.sameLinks.symm.get? hparent
    exact ⟨resources, (hu.allots hu₁ hca₁ hentitled hparent' hca₂).held⟩

section listed

variable (hlisted : ∀ d child, t.get? d = some child → child.parent = some x →
  d ∈ ids ∧ ∃ requested, (child.certifiable s.lookup).1 = some requested)

include hlisted

theorem Passed.mem_valid_iff (hnone : ca'.certified = none) {o : OutgoingCertificate} :
    o ∈ ca'.valid ↔ o ∈ ca.valid := by
  have hkept : ∀ {d child}, t.get? d = some child → child.parent = some x →
      o.subject = .child d → (o ∈ ca'.valid ↔ o ∈ ca.valid) := by
    intro d child hchild hlink hsubject
    obtain ⟨hd, requested, hrequested⟩ := hlisted d child hchild hlink
    have hissued := h.issued_child ht hids hca hca' hd hchild hlink hrequested
    exact CertificateAuthority.mem_valid_iff_of_validFor (hissued.2 hnone) hsubject
  -- Either way the certificate is that of a child, only the tree that says so differs.
  constructor
  · intro ho
    obtain ⟨d, child', hsubject, hd', hlink, -⟩ := (h.orderly ht).inUse x ca' hca' o ho
    obtain ⟨child, hd, hlinks⟩ := h.sameLinks.get? hd'
    exact (hkept hd ((congrArg (·.parent) hlinks).symm.trans hlink) hsubject).mp ho
  · intro ho
    obtain ⟨d, child, hsubject, hd, hlink, -⟩ := ht.inUse x ca hca o ho
    exact (hkept hd hlink hsubject).mpr ho

theorem Passed.covers {held : ResourceSet} (hcertified : ca'.certified = some held)
    {o : OutgoingCertificate} (ho : o ∈ ca'.valid) : ca'.Covers o.resources := by
  have ht' := h.orderly ht
  obtain ⟨d, child', hsubject, hd', hlink', -⟩ := ht'.inUse x ca' hca' o ho
  obtain ⟨child, hchild, hlinks⟩ := h.sameLinks.get? hd'
  have hlink : child.parent = some x := (congrArg (·.parent) hlinks).symm.trans hlink'
  obtain ⟨hd, requested, hrequested⟩ := hlisted d child hchild hlink
  have hresources := (h.issued_child ht hids hca hca' hd hchild hlink hrequested).1 held hcertified
    o ho hsubject
  rw [hresources]
  exact CertificateAuthority.covers_of_certified (ht'.ownOnly x ca' hca') hcertified inf_le_right

/-- After a pass a CA passes the checks just when it is certified, or is still covered for all that
it had issued before. -/
theorem Passed.check_iff (hx : x ∈ ids) (hchecked : ∀ m : InvariantModel, m.check ca = .ok ()) :
    (∀ m : InvariantModel, m.check ca' = .ok ()) ↔
      (ca'.certified = none → ∀ o ∈ ca.valid, ca'.Covers o.resources) := by
  have hbefore := CertificateAuthority.agrees_of_check (ht.ownOnly x ca hca) (hchecked .hosted)
  rw [CertificateAuthority.check_iff_covers ((h.orderly ht).ownOnly x ca' hca')
    (h.agrees ht hids hca hca' hx hbefore)]
  cases hcertified : ca'.certified with
  | none =>
    have hsame := fun o => h.mem_valid_iff ht hids hca hca' hlisted hcertified (o := o)
    simp only [hsame, forall_const]
  | some held =>
    exact ⟨fun _ hnone => (nomatch hnone),
      fun _ o ho => h.covers ht hids hca hca' hlisted hcertified ho⟩

end listed

end pass

end Services

namespace CaTree

/-- A tree in which every CA passes the checks, and holds just what its parent certified it for. -/
structure Contained (t : CaTree) : Prop where
  wellFormed : t.WellFormed
  distinctKeys : t.DistinctKeys
  single : t.Single
  inUse : t.InUse
  held : t.Along CertificateAuthority.HoldsExactly
  ownOnly : t.OwnOnly
  checked : ∀ id ca, t.get? id = some ca → ∀ m : InvariantModel, m.check ca = .ok ()

theorem Contained.orderly {t : CaTree} (h : t.Contained) : t.Orderly where
  wellFormed := h.wellFormed
  distinctKeys := h.distinctKeys
  single := h.single
  held p parent c child hp hc hlink := (h.held p parent c child hp hc hlink).holdsValid
  inUse := h.inUse
  ownOnly := h.ownOnly

end CaTree

namespace Server

variable {s : Server} {e e' : Engine Journal} {production : CertificateAuthority}
  {report : UpdateReport}

/-- The registry has something for the production CA and for every CA below it. -/
def Lists (s : Server) (t : CaTree) (production : CertificateAuthority) : Prop :=
  ∀ depth id ca, t.up depth id = some production.id → t.get? id = some ca →
    ∃ r, s.services.lookup ca.identity = .ok (some r) ∧ r.isEmpty = false

theorem certifiable_of_lookup {ca : CertificateAuthority} {lookup : ResourceLookup}
    {r : ResourceSet} (h : lookup ca.identity = .ok (some r)) :
    ∃ requested, (ca.certifiable lookup).1 = some requested := by
  unfold CertificateAuthority.certifiable
  cases ca.kind with
  | allResources => exact ⟨.all, rfl⟩
  | _ =>
    rw [h]
    exact ⟨r, rfl⟩

/-- A run that goes over all CAs leaves the production CA and those below it contained, as long as
each is certified in the end; one that is not has to be covered for what it had issued before. -/
theorem run_contained_iff (ht : e.tree.Contained) (hready : s.Ready e.tree production)
    (hlists : s.Lists e.tree production)
    (hrun : (s.updateJob (.ok ())).run e = (.ok report, e')) (hfailed : report.failed = 0)
    (hbudget : report.updated < s.config.updateLimit) :
    ∀ depth id ca, e.tree.up depth id = some production.id → e.tree.get? id = some ca →
      ∃ ca', e'.tree.get? id = some ca' ∧ ((∀ m : InvariantModel, m.check ca' = .ok ()) ↔
        (ca'.certified = none → ∀ o ∈ ca.valid, ca'.Covers o.resources)) := by
  intro depth id ca hdepth hca
  have hwf := ht.wellFormed
  obtain ⟨b, t₁, hu, hswept⟩ := run_ok hwf hready hrun hfailed
  have hpassed : s.services.Passed s.config.timing
      (production.id :: e.tree.descendants production.id) e.tree e'.tree :=
    .cons hu (hswept.passed hbudget)
  obtain ⟨ca', hca', -⟩ := hpassed.sameLinks.symm.get? hca
  refine ⟨ca', hca', ?_⟩
  refine hpassed.check_iff ht.orderly (hwf.pairwise_subtree production.id) hca hca' ?_
    (hwf.mem_subtree.mpr ⟨depth, hdepth⟩) (ht.checked id ca hca)
  intro d child hchild hlink
  have hup : e.tree.up (depth + 1) d = some production.id := by
    rw [CaTree.up, CaTree.parent?_of_get? hchild, hlink, Option.bind_some, hdepth]
  obtain ⟨r, hr, -⟩ := hlists (depth + 1) d child hup hchild
  exact ⟨hwf.mem_subtree.mpr ⟨depth + 1, hup⟩, certifiable_of_lookup hr⟩

end Server

namespace Chain

theorem valid_tree {id : CaId} {ca : CertificateAuthority} (h : tree.get? id = some ca)
    {o : OutgoingCertificate} (ho : o ∈ ca.valid) : ∃ d child, o.subject = .child d ∧
      tree.get? d = some child ∧ child.parent = some id ∧
      o.certificate.subjectKey ∈ child.subjectKeys := by
  rcases get?_tree h with ⟨rfl, rfl⟩ | ⟨rfl, rfl⟩ | ⟨rfl, rfl⟩ | ⟨rfl, rfl⟩
  · obtain rfl := List.mem_singleton.mp ho
    exact ⟨2, production, rfl, rfl, rfl, by decide⟩
  · obtain rfl := List.mem_singleton.mp ho
    exact ⟨3, upper, rfl, rfl, rfl, by decide⟩
  · obtain rfl := List.mem_singleton.mp ho
    exact ⟨4, lower, rfl, rfl, rfl, by decide⟩
  · cases ho

theorem contained_tree : tree.Contained where
  wellFormed := wellFormed_tree
  distinctKeys := distinctKeys_tree
  single := single_tree
  inUse _ _ h _ ho := valid_tree h ho
  held := held_tree
  ownOnly id ca h k hk inc hinc := by
    obtain ⟨c, child, hkeys⟩ := keys_tree h
    rw [CertificateAuthority.pairs, hkeys] at hk
    obtain rfl := List.mem_singleton.mp hk
    obtain rfl := Option.some.inj hinc
    rfl
  checked id ca h m := by
    rcases get?_tree h with ⟨-, rfl⟩ | ⟨-, rfl⟩ | ⟨-, rfl⟩ | ⟨-, rfl⟩ <;>
      cases m <;> decide +kernel

theorem lists_tree (limit : Nat) : (server limit).Lists tree production := by
  intro depth id ca _ _
  refine ⟨_, rfl, ?_⟩
  split <;> rfl

def withdrawn : CertificateAuthority := upper.modifyKeys (·.clearIncoming)

theorem run_chain : ∃ e', ((server 2).updateJob (.ok ())).run engine =
    (.ok { updated := 1, considered := 2 }, e') ∧ e'.tree.get? 3 = some withdrawn := by
  refine ⟨(((server 2).updateJob (.ok ())).run engine).2, Prod.ext ?_ rfl, ?_⟩
  · rw [(server 2).updateJob_eq]
    decide +kernel
  · rw [(server 2).updateJob_eq]
    decide +kernel

/-- The upper member issued a certificate to the lower one, and its own was withdrawn. -/
theorem run_contained_iff_in_chain : ∃ e',
    ((server 2).updateJob (.ok ())).run engine = (.ok { updated := 1, considered := 2 }, e') ∧
    ∃ ca', e'.tree.get? 3 = some ca' ∧ ((∀ m : InvariantModel, m.check ca' = .ok ()) ↔
      (ca'.certified = none → ∀ o ∈ upper.valid, ca'.Covers o.resources)) := by
  obtain ⟨e', hrun, -⟩ := run_chain
  refine ⟨e', hrun, ?_⟩
  have ht : engine.tree.Contained := contained_tree
  have hlists : (server 2).Lists engine.tree production := lists_tree 2
  exact Server.run_contained_iff ht (ready_tree 2) hlists hrun rfl (Nat.lt_succ_self 1) 1 3 upper
    rfl rfl

/-- So runs that go over all CAs do not always leave them contained. -/
theorem run_not_contained : ¬ ∀ (s : Server) (e e' : Engine Journal)
    (production : CertificateAuthority) (report : UpdateReport), e.tree.Contained →
    s.Ready e.tree production → s.Lists e.tree production →
    (s.updateJob (.ok ())).run e = (.ok report, e') → report.failed = 0 →
    report.updated < s.config.updateLimit →
    ∀ depth id ca', e.tree.up depth id = some production.id → e'.tree.get? id = some ca' →
      ∀ m : InvariantModel, m.check ca' = .ok () := by
  intro h
  obtain ⟨e', hrun, hupper⟩ := run_chain
  have hcheck := h (server 2) engine e' production _ contained_tree (ready_tree 2) (lists_tree 2)
    hrun rfl (Nat.lt_succ_self 1) 1 3 withdrawn rfl hupper .hosted
  have hfails : InvariantModel.hosted.check withdrawn ≠ .ok () := by decide +kernel
  exact hfails hcheck

end Chain

end ResourcePki
