import ResourcePki.Simulation.Plan
import ResourcePki.Proofs.Issuance.Performing

/-! Histories of commands, each with services of its own, as the clock goes on and the registry
changes. `Consistent` is what every command keeps, whether it succeeds, fails or is repeated. -/

namespace ResourcePki

open ResourcePki.Action

namespace CaTree

/-- A well-formed tree that tells its keys apart, with records that agree. -/
structure Consistent (t : CaTree) : Prop where
  wellFormed : t.WellFormed
  distinctKeys : t.DistinctKeys
  linked : t.Linked

variable {t u : CaTree}

theorem Consistent.evolves (h : t.Consistent) (he : Evolves t u) : u.Consistent :=
  ⟨h.wellFormed.of_sameLinks he.links, he.distinctKeys h.distinctKeys, h.linked.evolves he⟩

theorem Consistent.updated {s : Services} {timing : IssuanceTiming} {id : CaId} {b : Bool}
    (h : t.Consistent) (hu : s.Updated timing t id b u) : u.Consistent where
  wellFormed := h.wellFormed.of_sameLinks hu.sameLinks
  distinctKeys := hu.distinctKeys (h.wellFormed.ids id) h.distinctKeys
  linked := h.linked.updated h.wellFormed h.distinctKeys hu

theorem Consistent.insert {ca : CertificateAuthority} (h : t.Consistent)
    (hins : t.insert ca = .ok u) (hchildren : ca.children = ∅) (hout : ca.outgoing = [])
    (hskis : ca.skis.Nodup) (hnew : ∀ k ∈ ca.pairs, k.incoming = none ∧ ¬ t.Mentions k.ski) :
    u.Consistent where
  wellFormed := h.wellFormed.insert hins hchildren
  distinctKeys := h.distinctKeys.insert hins hskis
  linked := h.linked.insert h.wellFormed hins hout hnew

end CaTree

/-- Keys that are created from now on were never certified in the tree. -/
def Services.NewKeys (s : Services) (t : CaTree) (memory : Journal) : Prop :=
  ∀ answers ski, memory.keys <:+ answers → s.keys answers = .ok ski → ¬ t.Mentions ski

section performed

variable {s : Services} {policy : IssuancePolicy} {j : Journal} {t t' : CaTree}
  {details : CommandDetails} {b : Bool}

theorem CaTree.Consistent.performed {id : CaId} (hc : t.Consistent)
    (h : s.Performed policy j t id details b t') (hnew : s.NewKeys t j) : t'.Consistent := by
  cases h with
  | present => exact hc
  | created hnone hanswer hins hupdated =>
    refine (hc.insert hins rfl rfl (List.pairwise_singleton ..) fun k hk => ?_).updated hupdated
    obtain rfl := List.mem_singleton.mp hk
    exact ⟨rfl, hnew j.keys _ List.suffix_rfl hanswer⟩
  | updated hupdated _ => exact hc.updated hupdated
  | changed hca h =>
    have haged := h.aged fun ski hanswer => hnew j.keys ski List.suffix_rfl hanswer
    exact hc.evolves (.set hca haged)

end performed

/-- The second system comes from the first by commands, each with services of its own that make
new keys. -/
inductive Engine.History : Engine Journal → Engine Journal → Prop
  | refl (e : Engine Journal) : History e e
  | execute {e e' : Engine Journal} (s : Services) (policy : IssuancePolicy) (retries : Nat)
      (command : CaCommand) (hnew : s.NewKeys e'.tree e'.memory) (h : History e e') :
      History e ((Dispatcher.standard s policy retries).execute command e').2

theorem consistent_execute {s : Services} {policy : IssuancePolicy} {retries : Nat}
    {command : CaCommand} {e : Engine Journal} (hnew : s.NewKeys e.tree e.memory)
    (hc : e.tree.Consistent) :
    ((Dispatcher.standard s policy retries).execute command e).2.tree.Consistent := by
  generalize hrun : (Dispatcher.standard s policy retries).execute command e = result
  obtain ⟨r, e'⟩ := result
  cases r with
  -- Failed attempts before this one may have taken keys from the source, but forgot none.
  | ok status =>
    obtain ⟨j, hgrows, hperformed⟩ := Dispatcher.execute_standard_performed hrun
    exact hc.performed hperformed fun answers ski hanswers =>
      hnew answers ski (hgrows.keys.trans hanswers)
  | error err =>
    rw [Dispatcher.execute_standard_error hrun]
    exact hc

/-- Whatever commands are executed, what parents recorded of the certificates of their children and
what the children hold stays in agreement. -/
theorem records_never_drift {e e' : Engine Journal} (hrun : e.History e')
    (hwf : e.tree.WellFormed) (hkeys : e.tree.DistinctKeys) (hlinked : e.tree.Linked) :
    e'.tree.WellFormed ∧ e'.tree.DistinctKeys ∧ e'.tree.Linked := by
  have hafter : e'.tree.Consistent := by
    induction hrun with
    | refl => exact ⟨hwf, hkeys, hlinked⟩
    | execute s policy retries command hnew _ ih => exact consistent_execute hnew ih
  exact ⟨hafter.wellFormed, hafter.distinctKeys, hafter.linked⟩

/-! A chain of CAs, each of which holds one certificate and issued one at most -/

namespace Chain

def asns : ResourceSet := { asn := .ofBlock ⟨64496, 64511, by decide⟩ }

def directory : RsyncUri := ⟨"rsync://repository/module/"⟩

def certificate (subject key : String) (resources : ResourceSet) : SignedCertificate where
  serial := 1
  subjectName := subject
  subjectKey := key
  resources := resources
  validity := ⟨⟨0⟩, Time.addWeeks ⟨0⟩ 52⟩
  der := []

def issue (c : CaId × SignedCertificate) : OutgoingCertificate where
  certificate := c.2
  subject := .child c.1
  status := .current
  embedded := false
  publicationUri := some directory

/-- One current key with its certificate, and the certificate that it issued to a child. -/
def keys (certificate : SignedCertificate) (child : Option (CaId × SignedCertificate)) :
    KeyRing where
  pairs := [{ ski := certificate.subjectKey, status := .current,
              incoming := some ⟨certificate, directory, ∅⟩,
              outgoing := (child.map issue).toList }]
  directory := directory

def rootName : CaName := "CN=ALL Resources,O=Internet"

def productionCertificate : SignedCertificate := certificate "CN=Production CA" "P" asns

def upperCertificate : SignedCertificate := certificate "CN=upper" "U" asns

def lowerCertificate : SignedCertificate := certificate "CN=lower" "L" asns

def root : CertificateAuthority where
  id := 1
  name := rootName
  children := .ofIds [2]
  kind := .allResources
    (keys (certificate rootName "R" .all) (some (2, productionCertificate))) none

def production : CertificateAuthority where
  id := 2
  name := "CN=Production CA"
  parent := some 1
  children := .ofIds [3]
  kind := .production (keys productionCertificate (some (3, upperCertificate)))

def upper : CertificateAuthority where
  id := 3
  name := "CN=upper"
  parent := some 2
  children := .ofIds [4]
  kind := .hosted (keys upperCertificate (some (4, lowerCertificate)))

def lower : CertificateAuthority where
  id := 4
  name := "CN=lower"
  parent := some 3
  kind := .hosted (keys lowerCertificate none)

def tree : CaTree where
  cas := ⟨[(1, root), (2, production), (3, upper), (4, lower)], by decide⟩
  nextId := 5

def engine : Engine Journal := { tree, memory := {} }

/-- The registry has other resources now for the upper one of the two members. -/
def services : Services where
  now := ⟨0⟩
  lookup := fun ca =>
    .ok (some (if ca.id = 3 then { asn := .ofBlock ⟨65536, 65551, by decide⟩ } else asns))
  keys := fun _ => .ok "N"
  sign := fun _ _ _ => .ok []
  requestId := IdSeries.requests.get

theorem get?_tree {id : CaId} {ca : CertificateAuthority} (h : tree.get? id = some ca) :
    (id = 1 ∧ ca = root) ∨ (id = 2 ∧ ca = production) ∨ (id = 3 ∧ ca = upper) ∨
      (id = 4 ∧ ca = lower) := by
  have hmem := SortedMap.get?_eq_some_iff.mp h
  simpa [tree] using hmem

theorem keys_tree {id : CaId} {ca : CertificateAuthority} (h : tree.get? id = some ca) :
    ∃ c child, ca.keys? = some (keys c child) := by
  rcases get?_tree h with ⟨-, rfl⟩ | ⟨-, rfl⟩ | ⟨-, rfl⟩ | ⟨-, rfl⟩ <;> exact ⟨_, _, rfl⟩

theorem link_tree {p d : CaId} {parent child : CertificateAuthority}
    (hp : tree.get? p = some parent) (hd : tree.get? d = some child)
    (hlink : child.parent = some p) : ∃ c c' grandchild,
      parent.keys? = some (keys c (some (child.id, c'))) ∧
      child.keys? = some (keys c' grandchild) := by
  rcases get?_tree hd with ⟨-, rfl⟩ | ⟨-, rfl⟩ | ⟨-, rfl⟩ | ⟨-, rfl⟩
  · cases hlink
  · obtain rfl := Option.some.inj hlink
    obtain rfl := Option.some.inj hp
    exact ⟨_, _, _, rfl, rfl⟩
  · obtain rfl := Option.some.inj hlink
    obtain rfl := Option.some.inj hp
    exact ⟨_, _, _, rfl, rfl⟩
  · obtain rfl := Option.some.inj hlink
    obtain rfl := Option.some.inj hp
    exact ⟨_, _, _, rfl, rfl⟩

theorem wellFormed_tree : tree.WellFormed where
  ids id ca h := by
    rcases get?_tree h with ⟨rfl, rfl⟩ | ⟨rfl, rfl⟩ | ⟨rfl, rfl⟩ | ⟨rfl, rfl⟩ <;> rfl
  names id id' ca ca' h h' hname := by
    have hnames : ∀ e ∈ tree.cas.entries, ∀ f ∈ tree.cas.entries,
        e.2.name = f.2.name → e.1 = f.1 := by decide
    exact hnames (id, ca) (SortedMap.get?_eq_some_iff.mp h) (id', ca')
      (SortedMap.get?_eq_some_iff.mp h') hname
  parents id ca h p hp := by
    rcases get?_tree h with ⟨rfl, rfl⟩ | ⟨rfl, rfl⟩ | ⟨rfl, rfl⟩ | ⟨rfl, rfl⟩
    · cases hp
    all_goals
      obtain rfl := Option.some.inj hp
      exact ⟨_, rfl, List.mem_singleton_self _⟩
  children p parent h c hc := by
    rcases get?_tree h with ⟨rfl, rfl⟩ | ⟨rfl, rfl⟩ | ⟨rfl, rfl⟩ | ⟨rfl, rfl⟩
    · obtain rfl := List.mem_singleton.mp hc
      exact rfl
    · obtain rfl := List.mem_singleton.mp hc
      exact rfl
    · obtain rfl := List.mem_singleton.mp hc
      exact rfl
    · cases hc
  acyclic := CaTree.acyclic_of_lt fun id ca p h hp => by
    rcases get?_tree h with ⟨rfl, rfl⟩ | ⟨rfl, rfl⟩ | ⟨rfl, rfl⟩ | ⟨rfl, rfl⟩
    · cases hp
    all_goals
      obtain rfl := Option.some.inj hp
      decide

theorem distinctKeys_tree : tree.DistinctKeys := fun id ca h => by
  obtain ⟨c, child, hkeys⟩ := keys_tree h
  rw [CertificateAuthority.skis, CertificateAuthority.pairs, hkeys]
  exact List.pairwise_singleton ..

theorem single_tree : tree.Single := fun id ca h d key => by
  obtain ⟨c, child, hkeys⟩ := keys_tree h
  have hlength : ca.outgoing.length ≤ 1 := by
    rw [CertificateAuthority.outgoing_of_keys hkeys]
    cases child with
    | none => exact Nat.zero_le _
    | some child => exact Nat.le_refl _
  rw [CertificateAuthority.validFor, CertificateAuthority.valid_eq]
  exact Nat.le_trans (List.length_filter_le ..) (Nat.le_trans (List.length_filter_le ..) hlength)

theorem held_tree : tree.Along CertificateAuthority.HoldsExactly := by
  intro p parent d child hp hd hlink k hk
  obtain ⟨c, c', grandchild, hparent, hchild⟩ := link_tree hp hd hlink
  rw [CertificateAuthority.pairs, hchild] at hk
  obtain rfl := List.mem_singleton.mp hk
  rw [CertificateAuthority.validFor_of_keys hparent]
  refine ⟨fun inc hinc => ⟨issue (child.id, c'), ?_, ?_⟩,
    fun hinc => absurd hinc (Option.some_ne_none _)⟩
  · have hfor : (issue (child.id, c')).isFor child.id c'.subjectKey = true :=
      OutgoingCertificate.isFor_iff.mpr ⟨rfl, rfl⟩
    change [issue (child.id, c')].filter (·.isFor child.id c'.subjectKey) = _
    rw [List.filter_cons, hfor, if_pos rfl, List.filter_nil]
  · obtain rfl := Option.some.inj hinc
    exact ⟨rfl, rfl⟩

theorem linked_tree : tree.Linked where
  single := single_tree
  held p parent d child hp hd hlink := (held_tree p parent d child hp hd hlink).holdsValid
  recorded p parent d child hp hd hlink := (held_tree p parent d child hp hd hlink).recordsHeld

theorem newKeys_engine : services.NewKeys engine.tree engine.memory := by
  rintro answers ski - hanswer ⟨id, ca, hca, o, ho, hkey⟩
  obtain rfl := Except.ok.inj hanswer
  rcases get?_tree hca with ⟨-, rfl⟩ | ⟨-, rfl⟩ | ⟨-, rfl⟩ | ⟨-, rfl⟩
  · obtain rfl := List.mem_singleton.mp ho
    exact absurd hkey (by decide)
  · obtain rfl := List.mem_singleton.mp ho
    exact absurd hkey (by decide)
  · obtain rfl := List.mem_singleton.mp ho
    exact absurd hkey (by decide)
  · cases ho

def updated : Engine Journal :=
  ((Dispatcher.standard services {} 3).execute ⟨3, .background, .updateAllIncoming⟩ engine).2

theorem execute_updated :
    (Dispatcher.standard services {} 3).execute ⟨3, .background, .updateAllIncoming⟩ engine =
      (.ok { hadEffect := true }, updated) := by
  refine Prod.ext ?_ rfl
  rw [Dispatcher.standard_eq]
  decide +kernel

theorem history_updated : engine.History updated :=
  .execute services {} 3 ⟨3, .background, .updateAllIncoming⟩ newKeys_engine (.refl engine)

end Chain

/-- In the chain the upper member loses its certificate by one command. -/
theorem records_agree_in_chain :
    (Chain.engine.History Chain.updated ∧ Chain.engine.tree.WellFormed ∧
      Chain.engine.tree.DistinctKeys ∧ Chain.engine.tree.Linked) ∧
    (Chain.updated.tree.WellFormed ∧ Chain.updated.tree.DistinctKeys ∧ Chain.updated.tree.Linked) :=
  ⟨⟨Chain.history_updated, Chain.wellFormed_tree, Chain.distinctKeys_tree, Chain.linked_tree⟩,
    records_never_drift Chain.history_updated Chain.wellFormed_tree Chain.distinctKeys_tree
      Chain.linked_tree⟩

end ResourcePki
