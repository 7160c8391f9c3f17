import ResourcePki.Resources.Blocks

/-!
Internet number resources: AS numbers, IPv4 and IPv6 addresses, each as a set of numbers.
A set is looked at through its holdings, a number in one of the three families: `holds_union`,
`holds_inter` and `holds_excess` give the operations, `contains_iff` and `equivalent_iff` the tests.
-/

namespace ResourcePki

inductive Family where
  | asn
  | ipv4
  | ipv6
deriving DecidableEq, Repr

def Family.largest : Family → Nat
  | .asn => 0xffffffff
  | .ipv4 => 0xffffffff
  | .ipv6 => 0xffffffffffffffffffffffffffffffff

structure ResourceSet where
  asn : Blocks := ∅
  ipv4 : Blocks := ∅
  ipv6 : Blocks := ∅
deriving DecidableEq, Repr, Inhabited

namespace ResourceSet

instance : EmptyCollection ResourceSet := ⟨{}⟩

/-- Every resource of every family. -/
def all : ResourceSet where
  asn := .ofBlock ⟨0, Family.asn.largest, Nat.zero_le _⟩
  ipv4 := .ofBlock ⟨0, Family.ipv4.largest, Nat.zero_le _⟩
  ipv6 := .ofBlock ⟨0, Family.ipv6.largest, Nat.zero_le _⟩

def part (r : ResourceSet) : Family → Blocks
  | .asn => r.asn
  | .ipv4 => r.ipv4
  | .ipv6 => r.ipv6

/-- Whether number `n` of the family belongs to the set. -/
def Holds (r : ResourceSet) (f : Family) (n : Nat) : Prop := n ∈ r.part f

def isEmpty (r : ResourceSet) : Bool := r.asn.isEmpty && r.ipv4.isEmpty && r.ipv6.isEmpty

def union (r s : ResourceSet) : ResourceSet :=
  ⟨r.asn.union s.asn, r.ipv4.union s.ipv4, r.ipv6.union s.ipv6⟩

def inter (r s : ResourceSet) : ResourceSet :=
  ⟨r.asn.inter s.asn, r.ipv4.inter s.ipv4, r.ipv6.inter s.ipv6⟩

def contains (r s : ResourceSet) : Bool :=
  r.asn.contains s.asn && r.ipv4.contains s.ipv4 && r.ipv6.contains s.ipv6

def equivalent (r s : ResourceSet) : Bool := r.contains s && s.contains r

/-- What `r` holds and `held` does not. -/
def excess (r held : ResourceSet) : ResourceSet :=
  ⟨r.asn.diff held.asn, r.ipv4.diff held.ipv4, r.ipv6.diff held.ipv6⟩

def unions (sets : List ResourceSet) : ResourceSet := sets.foldl union ∅

theorem holds_union {r s : ResourceSet} {f : Family} {n : Nat} :
    (r.union s).Holds f n ↔ r.Holds f n ∨ s.Holds f n := by
  cases f <;> exact Blocks.mem_union

theorem holds_inter {r s : ResourceSet} {f : Family} {n : Nat} :
    (r.inter s).Holds f n ↔ r.Holds f n ∧ s.Holds f n := by
  cases f <;> exact Blocks.mem_inter

theorem holds_excess {r s : ResourceSet} {f : Family} {n : Nat} :
    (r.excess s).Holds f n ↔ r.Holds f n ∧ ¬ s.Holds f n := by
  cases f <;> exact Blocks.mem_diff

theorem contains_iff {r s : ResourceSet} :
    r.contains s = true ↔ ∀ f n, s.Holds f n → r.Holds f n := by
  simp only [contains, Bool.and_eq_true, Blocks.contains_iff]
  constructor
  · rintro ⟨⟨ha, h4⟩, h6⟩ f
    cases f
    · exact ha
    · exact h4
    · exact h6
  · intro h
    exact ⟨⟨h .asn, h .ipv4⟩, h .ipv6⟩

theorem equivalent_iff {r s : ResourceSet} : r.equivalent s = true ↔ r = s := by
  constructor
  · intro h
    simp only [equivalent, Bool.and_eq_true, contains_iff] at h
    have key : ∀ f, r.part f = s.part f := fun f =>
      Blocks.ext fun n => ⟨h.2 f n, h.1 f n⟩
    cases r
    cases s
    exact congr (congr (congrArg mk (key .asn)) (key .ipv4)) (key .ipv6)
  · rintro rfl
    simp only [equivalent, Bool.and_self, contains_iff]
    exact fun _ _ h => h

end ResourceSet

end ResourcePki
