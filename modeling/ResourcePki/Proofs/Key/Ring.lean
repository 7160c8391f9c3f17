import ResourcePki.Key.Ring
import ResourcePki.Proofs.Certificate.Record
import Mathlib.Data.List.Basic
import Mathlib.Tactic.Common

/-! Key rings through two views: what each key is and holds (`shells`), and what was issued with
the keys (`outgoing`, `valid`, `validFor`). Issuing changes the second only, and replaces just the
certificate that it is about. -/

namespace ResourcePki

namespace KeyPair

/-- A key and what it holds, without what was issued with it. -/
def shell (k : KeyPair) : KeyPair := { k with outgoing := [] }

/-- A key and what was issued with it, without what it holds. -/
def trunk (k : KeyPair) : KeyPair :=
  { k with incoming := none, status := if k.isRevoked then .revoked else .new }

theorem valid_revokeFor (k : KeyPair) (subject : Subject) (key : Option String) (now : Time) :
    (k.revokeFor subject key now).valid = k.valid.filter fun c => !concerns subject key c := by
  unfold valid revokeFor
  induction k.outgoing with
  | nil => rfl
  | cons c rest ih =>
    dsimp only at ih ⊢
    rw [List.map_cons]
    -- Only valid certificates are concerned, and a revoked one is not valid any more.
    by_cases hc : concerns subject key c = true
    · have hvalid : c.isValid = true := (Bool.and_eq_true_iff.mp hc).2
      rw [if_pos hc, List.filter_cons_of_neg (by simp [OutgoingCertificate.isValid_revoke]),
        List.filter_cons_of_pos hvalid, List.filter_cons_of_neg (by simp [hc]), ih]
    · rw [if_neg hc]
      by_cases hvalid : c.isValid = true
      · rw [List.filter_cons_of_pos hvalid, List.filter_cons_of_pos hvalid,
          List.filter_cons_of_pos (by simp [hc]), ih]
      · rw [List.filter_cons_of_neg hvalid, List.filter_cons_of_neg hvalid, ih]

theorem ski_receive (k : KeyPair) (c : IncomingCertificate) : (k.receive c).ski = k.ski := by
  unfold receive activate
  split <;> rfl

theorem incoming_receive (k : KeyPair) (c : IncomingCertificate) :
    (k.receive c).incoming = some c := by
  unfold receive activate
  split <;> rfl

theorem isRevoked_trunk (k : KeyPair) : k.trunk.isRevoked = k.isRevoked := by
  unfold trunk isRevoked
  dsimp only
  split <;> simp_all

theorem trunk_receive (k : KeyPair) (c : IncomingCertificate) : (k.receive c).trunk = k.trunk := by
  unfold receive activate trunk isRevoked
  cases k.status <;> rfl

end KeyPair

namespace KeyRing

open OutgoingCertificate

/-- Every certificate ever issued with one of the keys. -/
def outgoing (r : KeyRing) : List OutgoingCertificate := r.pairs.flatMap (·.outgoing)

/-- The valid certificates that a child has for its key. -/
def validFor (r : KeyRing) (child : CaId) (key : String) : List OutgoingCertificate :=
  r.valid.filter (·.isFor child key)

def shells (r : KeyRing) : List KeyPair := r.pairs.map (·.shell)

/-- A ring without what was issued with it. -/
def face (r : KeyRing) : KeyRing := { r with pairs := r.shells, nextSerial := 0 }

/-- A ring without what its keys hold. -/
def trunk (r : KeyRing) : KeyRing := { r with pairs := r.pairs.map (·.trunk) }

def skis (r : KeyRing) : List String := r.pairs.map (·.ski)

variable {r : KeyRing}

theorem valid_eq (r : KeyRing) : r.valid = r.outgoing.filter (·.isValid) := by
  rw [outgoing, List.filter_flatMap]
  rfl

theorem mem_validFor {child : CaId} {key : String} {c : OutgoingCertificate} :
    c ∈ r.validFor child key ↔ c ∈ r.outgoing ∧ c.isValid = true ∧ c.subject = .child child ∧
      c.certificate.subjectKey = key := by
  rw [validFor, valid_eq, List.mem_filter, List.mem_filter, isFor_iff, and_assoc]

theorem validChild_eq (r : KeyRing) (child : CaId) (key : String) :
    r.validChild child key = (r.validFor child key).head? := by
  unfold validChild validFor valid
  induction r.pairs with
  | nil => rfl
  | cons k rest ih =>
    have hfirst : k.validFor (.child child) key = (k.valid.filter (·.isFor child key)).head? := by
      rw [KeyPair.validFor, List.head?_filter]
      rfl
    rw [List.findSome?_cons, List.flatMap_cons, List.filter_append, List.head?_append, ← ih,
      hfirst]
    cases (k.valid.filter (·.isFor child key)).head? <;> rfl

/-! Revoking -/

theorem shells_revokeChild (r : KeyRing) (child : CaId) (key : Option String) (now : Time) :
    (r.revokeChild child key now).shells = r.shells := by
  unfold revokeChild shells
  rw [List.map_map]
  rfl

theorem outgoing_revokeChild (r : KeyRing) (child : CaId) (key : Option String) (now : Time) :
    (r.revokeChild child key now).outgoing = r.outgoing.map fun c =>
      if KeyPair.concerns (.child child) key c then c.revoke now else c := by
  unfold revokeChild outgoing
  rw [List.flatMap_map, List.map_flatMap]
  rfl

theorem valid_revokeChild (r : KeyRing) (child : CaId) (key : Option String) (now : Time) :
    (r.revokeChild child key now).valid =
      r.valid.filter fun c => !KeyPair.concerns (.child child) key c := by
  unfold revokeChild valid
  rw [List.flatMap_map, List.filter_flatMap]
  congr 1
  funext k
  exact k.valid_revokeFor _ key now

theorem sameRecord_revokeChild {child : CaId} {key : Option String} {now : Time}
    {c : OutgoingCertificate} (h : c ∈ r.outgoing) :
    ∃ d ∈ (r.revokeChild child key now).outgoing, SameRecord c d := by
  rw [outgoing_revokeChild]
  refine ⟨_, List.mem_map_of_mem h, ?_⟩
  split
  · exact sameRecord_revoke
  · exact .refl c

/-! Changing every key -/

section map

variable {r' : KeyRing} {f : KeyPair → KeyPair}

theorem current?_of_map (hpairs : r'.pairs = r.pairs.map f)
    (hcurrent : ∀ k, (f k).isCurrent = k.isCurrent) : r'.current? = r.current?.map f := by
  rw [current?, hpairs, List.find?_map, current?]
  simp only [Function.comp_def, hcurrent]

theorem certified_of_map (hpairs : r'.pairs = r.pairs.map f)
    (hcurrent : ∀ k, (f k).isCurrent = k.isCurrent) (hheld : ∀ k, (f k).certified = k.certified) :
    r'.certified = r.certified := by
  rw [certified, current?_of_map hpairs hcurrent, Option.bind_map, certified]
  simp only [Function.comp_def, hheld]

theorem signingKey?_of_map (hpairs : r'.pairs = r.pairs.map f)
    (hcurrent : ∀ k, (f k).isCurrent = k.isCurrent)
    (hheld : ∀ k, (f k).incoming.isSome = k.incoming.isSome) (hski : ∀ k, (f k).ski = k.ski) :
    r'.signingKey? = r.signingKey? := by
  rw [signingKey?, current?_of_map hpairs hcurrent, Option.filter_map, Option.map_map, signingKey?]
  simp only [Function.comp_def, hheld, hski]

theorem activeSkis_of_map (hpairs : r'.pairs = r.pairs.map f)
    (hrevoked : ∀ k, (f k).isRevoked = k.isRevoked) (hski : ∀ k, (f k).ski = k.ski) :
    r'.activeSkis = r.activeSkis := by
  rw [activeSkis, hpairs, List.filter_map, List.map_map, activeSkis]
  simp only [Function.comp_def, hrevoked, hski]

end map

/-! Changing one key -/

theorem map_modifyFirst {α : Type} {g : KeyPair → α} {f : KeyPair → KeyPair}
    (h : ∀ k, g (f k) = g k) (ski : String) (l : List KeyPair) :
    (modifyFirst ski f l).map g = l.map g := by
  induction l with
  | nil => rfl
  | cons k rest ih =>
    unfold modifyFirst
    split
    · rw [List.map_cons, List.map_cons, h]
    · rw [List.map_cons, List.map_cons, ih]

theorem modifyFirst_eq_map {ski : String} {f : KeyPair → KeyPair} {l : List KeyPair}
    (h : (l.map (·.ski)).Nodup) :
    modifyFirst ski f l = l.map fun k => if k.ski = ski then f k else k := by
  induction l with
  | nil => rfl
  | cons k rest ih =>
    rw [List.map_cons, List.nodup_cons] at h
    obtain ⟨hk, hrest⟩ := h
    unfold modifyFirst
    rw [List.map_cons]
    split
    · rename_i heq
      -- No other key has the same identifier, so the first one that has it is the only one.
      have hothers : ∀ k' ∈ rest, (if k'.ski = ski then f k' else k') = k' := by
        intro k' hk'
        rw [if_neg]
        rintro rfl
        exact hk (heq ▸ List.mem_map_of_mem hk')
      rw [List.map_congr_left hothers, List.map_id']
    · rw [ih hrest]

theorem trunk_receive (r : KeyRing) (ski : String) (c : IncomingCertificate) :
    (r.modify ski (·.receive c)).trunk = r.trunk := by
  unfold trunk
  rw [modify, map_modifyFirst (f := (·.receive c)) fun k => k.trunk_receive c]

theorem trunk_clearIncoming (r : KeyRing) : r.clearIncoming.trunk = r.trunk := by
  unfold trunk clearIncoming
  rw [List.map_map]
  rfl

theorem shells_addOutgoing (r : KeyRing) (ski : String) (c : OutgoingCertificate) :
    (r.modify ski (·.addOutgoing c)).shells = r.shells :=
  map_modifyFirst (f := (·.addOutgoing c)) (fun _ => rfl) ski r.pairs

theorem outgoing_addOutgoing_perm {ski : String} {c : OutgoingCertificate} (h : ski ∈ r.skis) :
    (r.modify ski (·.addOutgoing c)).outgoing.Perm (c :: r.outgoing) := by
  unfold modify outgoing
  unfold skis at h
  dsimp only
  generalize r.pairs = pairs at h ⊢
  induction pairs with
  | nil => cases h
  | cons k rest ih =>
    unfold modifyFirst
    split
    · rw [List.flatMap_cons, List.flatMap_cons, ← List.cons_append]
      exact List.Perm.append_right _ (List.perm_append_singleton c k.outgoing)
    · rename_i hne
      rw [List.map_cons, List.mem_cons] at h
      have hrest := ih (h.resolve_left (Ne.symm hne))
      rw [List.flatMap_cons, List.flatMap_cons]
      exact (List.Perm.append_left _ hrest).trans List.perm_middle

/-- Adding a certificate leaves all lists that do not select it as they were. -/
theorem filter_addOutgoing {ski : String} {c : OutgoingCertificate} {q : OutgoingCertificate → Bool}
    (h : q c = false) :
    (r.modify ski (·.addOutgoing c)).outgoing.filter q = r.outgoing.filter q := by
  unfold modify outgoing
  induction r.pairs with
  | nil => rfl
  | cons k rest ih =>
    dsimp only at ih ⊢
    unfold modifyFirst
    split
    · rw [List.flatMap_cons, List.flatMap_cons, List.filter_append, List.filter_append]
      simp only [KeyPair.addOutgoing, List.filter_append, List.filter_cons, h, Bool.false_eq_true,
        if_false, List.filter_nil, List.append_nil]
    · rw [List.flatMap_cons, List.flatMap_cons, List.filter_append, List.filter_append, ih]

theorem validFor_addOutgoing_of_not_isFor {ski : String} {c : OutgoingCertificate} {child : CaId}
    {key : String} (h : c.isFor child key = false) :
    (r.modify ski (·.addOutgoing c)).validFor child key = r.validFor child key := by
  rw [validFor, validFor, valid_eq, valid_eq, List.filter_filter, List.filter_filter]
  exact filter_addOutgoing (by rw [h, Bool.false_and])

theorem validFor_addOutgoing_self {ski : String} {c : OutgoingCertificate} {child : CaId}
    {key : String} (hski : ski ∈ r.skis) (hfor : c.isFor child key = true)
    (hvalid : c.isValid = true) (hnone : r.validFor child key = []) :
    (r.modify ski (·.addOutgoing c)).validFor child key = [c] := by
  -- A list with one element has no other order than its own.
  have hperm := ((outgoing_addOutgoing_perm (c := c) hski).filter (·.isValid)).filter
    (·.isFor child key)
  rw [← valid_eq, List.filter_cons_of_pos hvalid, List.filter_cons_of_pos hfor, ← valid_eq] at hperm
  change List.Perm _ (c :: r.validFor child key) at hperm
  rw [hnone] at hperm
  exact List.perm_singleton.mp hperm

end KeyRing

end ResourcePki
