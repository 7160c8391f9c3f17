import ResourcePki.Proofs.Resources.Order
import ResourcePki.Resources.Text

/-! What one set lacks of another is the least that has to be added. It depends on the resources
alone: how they are written, in which order and in how many blocks, makes no difference to any of
the operations. -/

namespace ResourcePki

namespace ResourceSet

variable {a b r : ResourceSet} {f : Family} {n : Nat}

/-! ### Equivalence -/

theorem equivalent_iff_le : a.equivalent b = true ↔ b ≤ a ∧ a ≤ b := Bool.and_eq_true_iff

theorem equivalent_iff_holds : a.equivalent b = true ↔ ∀ f n, a.Holds f n ↔ b.Holds f n := by
  rw [equivalent_iff_le, ← holds_le_iff, ← holds_le_iff]
  constructor
  · rintro ⟨hba, hab⟩ f n
    exact ⟨hab f n, hba f n⟩
  · intro h
    exact ⟨fun f n => (h f n).mpr, fun f n => (h f n).mp⟩

theorem equivalent_symm (h : a.equivalent b = true) : b.equivalent a = true :=
  equivalent_iff_le.mpr (equivalent_iff_le.mp h).symm

theorem equivalence_equivalent : Equivalence fun a b : ResourceSet => a.equivalent b = true where
  refl _ := equivalent_iff_le.mpr ⟨le_rfl, le_rfl⟩
  symm := equivalent_symm
  trans h h' := by
    obtain ⟨hba, hab⟩ := equivalent_iff_le.mp h
    obtain ⟨hcb, hbc⟩ := equivalent_iff_le.mp h'
    exact equivalent_iff_le.mpr ⟨hcb.trans hba, hab.trans hbc⟩

/-- Equivalent sets give equivalent results. -/
def Respects (op : ResourceSet → ResourceSet → ResourceSet) : Prop :=
  ∀ a a' b b', a.equivalent a' = true → b.equivalent b' = true →
    (op a b).equivalent (op a' b') = true

/-- One direction is enough, as either side may be replaced by the other. -/
theorem respects_of_le {op : ResourceSet → ResourceSet → ResourceSet}
    (h : ∀ {a a' b b'}, a.equivalent a' = true → b.equivalent b' = true → op a b ≤ op a' b') :
    Respects op := by
  intro a a' b b' ha hb
  exact equivalent_iff_le.mpr ⟨h (equivalent_symm ha) (equivalent_symm hb), h ha hb⟩

/-- More is missing the more is asked for and the less is held. -/
theorem respects_excess : Respects excess := by
  apply respects_of_le
  intro a a' b b' ha hb
  obtain ⟨-, hmore⟩ := equivalent_iff_le.mp ha
  obtain ⟨hless, -⟩ := equivalent_iff_le.mp hb
  exact sdiff_le_sdiff hmore hless

theorem respects_union : Respects union := by
  apply respects_of_le
  intro a a' b b' ha hb
  exact sup_le_sup (equivalent_iff_le.mp ha).2 (equivalent_iff_le.mp hb).2

theorem respects_inter : Respects inter := by
  apply respects_of_le
  intro a a' b b' ha hb
  exact inf_le_inf (equivalent_iff_le.mp ha).2 (equivalent_iff_le.mp hb).2

/-! ### Ways of writing a set -/

/-- The set of some blocks of each family; they may overlap, touch and come in any order. -/
def ofBlocks (l : Family → List Block) : ResourceSet :=
  ⟨.ofList (l .asn), .ofList (l .ipv4), .ofList (l .ipv6)⟩

theorem holds_ofBlocks {l : Family → List Block} :
    (ofBlocks l).Holds f n ↔ ∃ b ∈ l f, n ∈ b := by
  cases f <;> exact Blocks.mem_ofList

theorem equivalent_ofBlocks_iff {l m : Family → List Block} :
    (ofBlocks l).equivalent (ofBlocks m) = true ↔
      ∀ f n, (∃ b ∈ l f, n ∈ b) ↔ ∃ b ∈ m f, n ∈ b := by
  simp only [equivalent_iff_holds, holds_ofBlocks]

end ResourceSet

/-- The blocks that are written in a text. -/
def Family.written? (f : Family) (text : String) : Option (List Block) :=
  (((Text.split ',' text.toList).map Text.trim).filter (! ·.isEmpty)).mapM f.block?

theorem Family.blocks?_eq (f : Family) (text : String) :
    f.blocks? text = (f.written? text).map .ofList := by
  rw [Option.map_eq_bind]
  rfl

namespace ResourceSet

variable {r : ResourceSet} {texts : Family → String}

theorem ofTexts_eq_ok_iff_part : ofTexts (texts .asn) (texts .ipv4) (texts .ipv6) = .ok r ↔
    ∀ f : Family, f.blocks? (texts f) = some (r.part f) := by
  have hall : (∀ f : Family, f.blocks? (texts f) = some (r.part f)) ↔
      Family.asn.blocks? (texts .asn) = some r.asn ∧
        Family.ipv4.blocks? (texts .ipv4) = some r.ipv4 ∧
        Family.ipv6.blocks? (texts .ipv6) = some r.ipv6 := by
    refine ⟨fun h => ⟨h .asn, h .ipv4, h .ipv6⟩, ?_⟩
    rintro ⟨hasn, hipv4, hipv6⟩ (_ | _ | _)
    exacts [hasn, hipv4, hipv6]
  rw [hall, ofTexts]
  cases r
  split <;> simp_all

/-- A set is read just when blocks are written in all three texts, which then make it up. -/
theorem ofTexts_eq_ok_iff : ofTexts (texts .asn) (texts .ipv4) (texts .ipv6) = .ok r ↔
    ∃ l, (∀ f : Family, f.written? (texts f) = some (l f)) ∧ r = ofBlocks l := by
  rw [ofTexts_eq_ok_iff_part]
  simp only [Family.blocks?_eq, Option.map_eq_some_iff]
  constructor
  · intro h
    choose l hwritten hpart using h
    exact ⟨l, hwritten, ext fun f n => by rw [Holds, ← hpart f, Blocks.mem_ofList, holds_ofBlocks]⟩
  · rintro ⟨l, hwritten, rfl⟩ f
    exact ⟨l f, hwritten f, by cases f <;> rfl⟩

example : ofTexts "" "10.0.0.0/23" "" = ofTexts "" "10.0.1.0/24, 10.0.0.0/24" "" := by
  decide +kernel

/-! ### The least that is missing -/

/-- The excess is the least that has to be added to what is held, so there is none just when all is
held. Like the other operations it cannot tell equivalent sets apart, and sets are equivalent just
when the same numbers were written, in whatever blocks. -/
theorem excess_least_missing :
    (∀ a b c : ResourceSet, c.contains (a.excess b) = true ↔ (b.union c).contains a = true) ∧
      (∀ a b : ResourceSet, (a.excess b).isEmpty = true ↔ b.contains a = true) ∧
      (∀ l m : Family → List Block, (ofBlocks l).equivalent (ofBlocks m) = true ↔
        ∀ f n, (∃ x ∈ l f, n ∈ x) ↔ ∃ x ∈ m f, n ∈ x) ∧
      Equivalence (fun a b : ResourceSet => a.equivalent b = true) ∧
      Respects excess ∧ Respects union ∧ Respects inter :=
  ⟨fun _ _ _ => contains_excess_iff, fun _ _ => isEmpty_excess_iff,
    fun _ _ => equivalent_ofBlocks_iff, equivalence_equivalent,
    respects_excess, respects_union, respects_inter⟩

end ResourceSet

namespace Shortfall

open ResourceSet

def held : ResourceSet := .ofBlocks fun
  | .asn => [⟨65000, 65010, by decide⟩, ⟨4294967040, 4294967290, by decide⟩]
  | .ipv4 => [⟨0x0a000000, 0x0affffff, by decide⟩]
  | .ipv6 => []

/-- The same in smaller blocks, out of order and with some numbers written twice. -/
def heldInParts : ResourceSet := .ofBlocks fun
  | .asn => [⟨4294967100, 4294967290, by decide⟩, ⟨65004, 65010, by decide⟩,
    ⟨4294967040, 4294967200, by decide⟩, ⟨65000, 65003, by decide⟩]
  | .ipv4 => [⟨0x0a800000, 0x0affffff, by decide⟩, ⟨0x0a000000, 0x0a7fffff, by decide⟩]
  | .ipv6 => []

def issued : ResourceSet := .ofBlocks fun
  | .asn => [⟨65005, 65020, by decide⟩, ⟨4294967280, 4294967295, by decide⟩]
  | .ipv4 => [⟨0x0a000000, 0x0bffffff, by decide⟩]
  | .ipv6 => []

def missing : ResourceSet := .ofBlocks fun
  | .asn => [⟨65011, 65020, by decide⟩, ⟨4294967291, 4294967295, by decide⟩]
  | .ipv4 => [⟨0x0b000000, 0x0bffffff, by decide⟩]
  | .ipv6 => []

theorem excess_least_missing_of_parts :
    held.equivalent heldInParts = true ∧ held.contains issued = false ∧
      (issued.excess held).isEmpty = false ∧
      missing.contains (issued.excess held) = true ∧ (held.union missing).contains issued = true ∧
      (issued.excess held).equivalent (issued.excess heldInParts) = true := by
  obtain ⟨hleast, hempty, -, hequivalence, hexcess, -, -⟩ := excess_least_missing
  have hparts : held.equivalent heldInParts = true := by decide +kernel
  have hlacks : held.contains issued = false := by decide +kernel
  have hmissing : missing.contains (issued.excess held) = true := by decide +kernel
  have hsome : (issued.excess held).isEmpty = false := by
    rw [Bool.eq_false_iff, ne_eq, hempty, hlacks]
    exact Bool.false_ne_true
  exact ⟨hparts, hlacks, hsome, hmissing, (hleast _ _ _).mp hmissing,
    hexcess _ _ _ _ (hequivalence.refl issued) hparts⟩

end Shortfall

end ResourcePki
