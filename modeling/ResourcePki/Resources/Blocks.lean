/-!
Sets of numbers held as blocks of consecutive numbers. A set is a list of blocks in ascending
order with a gap between any two, so that a set has one form only. The main statements give
each operation through membership: `mem_union`, `mem_inter`, `mem_diff` and `contains_iff`;
`ext` says that membership determines the set.
-/

namespace ResourcePki

/-- The numbers from `first` to `last`, both included. -/
structure Block where
  first : Nat
  last : Nat
  first_le_last : first ≤ last := by omega
deriving DecidableEq, Repr

namespace Block

instance : Membership Nat Block := ⟨fun b n => b.first ≤ n ∧ n ≤ b.last⟩

theorem mem_def {n : Nat} {b : Block} : n ∈ b ↔ b.first ≤ n ∧ n ≤ b.last := Iff.rfl

/-- There is at least one number between the end of `b` and the start of `c`. -/
def Before (b c : Block) : Prop := b.last + 1 < c.first

instance (b c : Block) : Decidable (b.Before c) := inferInstanceAs (Decidable (_ < _))

/-- The smallest block that covers both. -/
def hull (b c : Block) : Block where
  first := min b.first c.first
  last := max b.last c.last
  first_le_last := by have := b.first_le_last; omega

/-- The numbers in both blocks, if there are any. -/
def inter? (b c : Block) : Option Block :=
  if h : max b.first c.first ≤ min b.last c.last then
    some ⟨max b.first c.first, min b.last c.last, h⟩
  else
    none

/-- The part of `b` below `c`, then the part above it. -/
def minus (b c : Block) : List Block :=
  (if h : b.first < c.first then
    [⟨b.first, min b.last (c.first - 1), by have := b.first_le_last; omega⟩]
  else []) ++
  (if h : c.last < b.last then
    [⟨max b.first (c.last + 1), b.last, by have := b.first_le_last; omega⟩]
  else [])

def covers (b c : Block) : Bool := b.first ≤ c.first && c.last ≤ b.last

theorem mem_inter? {n : Nat} {b c : Block} :
    (∃ d, b.inter? c = some d ∧ n ∈ d) ↔ n ∈ b ∧ n ∈ c := by
  unfold inter?
  split
  · simp only [Option.some.injEq, exists_eq_left', mem_def]; omega
  · simp only [reduceCtorEq, false_and, exists_false, mem_def, false_iff]; omega

theorem mem_minus {n : Nat} {b c : Block} : (∃ d ∈ b.minus c, n ∈ d) ↔ n ∈ b ∧ n ∉ c := by
  have hb := b.first_le_last
  have hc := c.first_le_last
  unfold minus
  split <;> split <;>
    simp only [List.append_nil, List.nil_append, List.singleton_append, List.mem_cons,
      List.not_mem_nil, or_false, exists_eq_or_imp, exists_eq_left, mem_def, false_and,
      exists_false, false_iff] <;> omega

end Block

/-- A set of numbers, as blocks in ascending order with gaps between them. -/
structure Blocks where
  toList : List Block
  apart : toList.Pairwise Block.Before := by decide
deriving DecidableEq, Repr

namespace Blocks

instance : Membership Nat Blocks := ⟨fun s n => ∃ b ∈ s.toList, n ∈ b⟩

theorem mem_def {n : Nat} {s : Blocks} : n ∈ s ↔ ∃ b ∈ s.toList, n ∈ b := Iff.rfl

def empty : Blocks := ⟨[], List.Pairwise.nil⟩

instance : EmptyCollection Blocks := ⟨empty⟩

instance : Inhabited Blocks := ⟨empty⟩

def isEmpty (s : Blocks) : Bool := s.toList.isEmpty

def ofBlock (b : Block) : Blocks := ⟨[b], List.pairwise_singleton _ _⟩

/-- Adds a block to a list of blocks, joining it with those it overlaps or touches. -/
def insertBlock (b : Block) : List Block → List Block
  | [] => [b]
  | c :: rest =>
    if b.Before c then b :: c :: rest
    else if c.Before b then c :: insertBlock b rest
    else insertBlock (b.hull c) rest

theorem before_insertBlock {a b : Block} {l : List Block} (hb : a.Before b)
    (hl : ∀ c ∈ l, a.Before c) : ∀ c ∈ insertBlock b l, a.Before c := by
  induction l generalizing b with
  | nil => simpa [insertBlock] using hb
  | cons d rest ih =>
    have hd := hl d (by simp)
    have hrest : ∀ c ∈ rest, a.Before c := fun c hc => hl c (by simp [hc])
    unfold insertBlock
    split
    · simpa using ⟨hb, hd, hrest⟩
    · split
      · simpa using ⟨hd, ih hb hrest⟩
      · apply ih _ hrest
        simp only [Block.Before, Block.hull] at *
        omega

theorem pairwise_insertBlock {b : Block} {l : List Block} (h : l.Pairwise Block.Before) :
    (insertBlock b l).Pairwise Block.Before := by
  induction l generalizing b with
  | nil => simp [insertBlock]
  | cons c rest ih =>
    obtain ⟨hc, hrest⟩ := List.pairwise_cons.1 h
    unfold insertBlock
    split
    · rename_i hbc
      refine List.pairwise_cons.2 ⟨?_, h⟩
      intro d hd
      rcases List.mem_cons.1 hd with rfl | hd
      · exact hbc
      · have := hc d hd
        have := c.first_le_last
        simp only [Block.Before] at *
        omega
    · split
      · rename_i hcb
        exact List.pairwise_cons.2 ⟨before_insertBlock hcb hc, ih hrest⟩
      · exact ih hrest

theorem mem_insertBlock {n : Nat} {b : Block} {l : List Block} :
    (∃ c ∈ insertBlock b l, n ∈ c) ↔ n ∈ b ∨ ∃ c ∈ l, n ∈ c := by
  induction l generalizing b with
  | nil => simp [insertBlock]
  | cons c rest ih =>
    unfold insertBlock
    split
    · simp
    · split
      · simp only [List.mem_cons, exists_eq_or_imp, ih]
        exact or_left_comm
      · rw [ih]
        have hb := b.first_le_last
        have hc := c.first_le_last
        simp only [List.mem_cons, exists_eq_or_imp, ← or_assoc]
        refine or_congr_left ?_
        simp only [Block.mem_def, Block.hull, Block.Before] at *
        omega

def insert (s : Blocks) (b : Block) : Blocks :=
  ⟨insertBlock b s.toList, pairwise_insertBlock s.apart⟩

theorem mem_insert {n : Nat} {s : Blocks} {b : Block} : n ∈ s.insert b ↔ n ∈ b ∨ n ∈ s :=
  mem_insertBlock

/-- The numbers of some blocks in any order. -/
def ofList (l : List Block) : Blocks := l.foldl insert empty

def union (s t : Blocks) : Blocks := t.toList.foldl insert s

theorem mem_foldl_insert {n : Nat} {s : Blocks} {l : List Block} :
    n ∈ l.foldl insert s ↔ n ∈ s ∨ ∃ b ∈ l, n ∈ b := by
  induction l generalizing s with
  | nil => simp
  | cons b rest ih =>
    simp only [List.foldl_cons, ih, mem_insert, List.mem_cons, exists_eq_or_imp]
    rw [or_comm (a := n ∈ b), or_assoc]

theorem not_mem_empty (n : Nat) : n ∉ empty := by simp [mem_def, empty]

theorem mem_ofList {n : Nat} {l : List Block} : n ∈ ofList l ↔ ∃ b ∈ l, n ∈ b := by
  simp [ofList, mem_foldl_insert, not_mem_empty]

theorem mem_union {n : Nat} {s t : Blocks} : n ∈ s.union t ↔ n ∈ s ∨ n ∈ t :=
  mem_foldl_insert

/-- Replacing each block by smaller ones inside it keeps the gaps. -/
theorem pairwise_flatMap {l : List Block} {f : Block → List Block}
    (h : l.Pairwise Block.Before) (hin : ∀ b, ∀ d ∈ f b, b.first ≤ d.first ∧ d.last ≤ b.last)
    (hself : ∀ b, (f b).Pairwise Block.Before) : (l.flatMap f).Pairwise Block.Before := by
  rw [List.flatMap, List.pairwise_flatten]
  refine ⟨by simpa using fun b _ => hself b, ?_⟩
  rw [List.pairwise_map]
  refine h.imp fun {b c} hbc x hx y hy => ?_
  have := hin b x hx
  have := hin c y hy
  simp only [Block.Before] at *
  omega

def inter (s t : Blocks) : Blocks where
  toList := s.toList.flatMap fun b => t.toList.filterMap b.inter?
  apart := by
    refine pairwise_flatMap s.apart ?_ ?_
    · intro b d hd
      obtain ⟨c, _, hc⟩ := List.mem_filterMap.1 hd
      simp only [Block.inter?, Option.dite_none_right_eq_some, Option.some.injEq] at hc
      obtain ⟨_, rfl⟩ := hc
      simp only
      omega
    · intro b
      refine t.apart.filterMap _ fun c c' hcc' d hd d' hd' => ?_
      simp only [Block.inter?, Option.dite_none_right_eq_some, Option.some.injEq] at hd hd'
      obtain ⟨_, rfl⟩ := hd
      obtain ⟨_, rfl⟩ := hd'
      simp only [Block.Before] at *
      omega

theorem mem_inter {n : Nat} {s t : Blocks} : n ∈ s.inter t ↔ n ∈ s ∧ n ∈ t := by
  simp only [mem_def, inter, List.mem_flatMap, List.mem_filterMap]
  constructor
  · rintro ⟨d, ⟨b, hb, c, hc, hd⟩, hn⟩
    have := Block.mem_inter?.1 ⟨d, hd, hn⟩
    exact ⟨⟨b, hb, this.1⟩, ⟨c, hc, this.2⟩⟩
  · rintro ⟨⟨b, hb, hnb⟩, ⟨c, hc, hnc⟩⟩
    obtain ⟨d, hd, hn⟩ := Block.mem_inter?.2 ⟨hnb, hnc⟩
    exact ⟨d, ⟨b, hb, c, hc, hd⟩, hn⟩

def erase (s : Blocks) (c : Block) : Blocks where
  toList := s.toList.flatMap (·.minus c)
  apart := by
    refine pairwise_flatMap s.apart ?_ ?_
    · intro b d hd
      have hb := b.first_le_last
      unfold Block.minus at hd
      split at hd <;> split at hd <;> simp at hd
      · rcases hd with rfl | rfl <;> dsimp only <;> omega
      · subst hd; dsimp only; omega
      · subst hd; dsimp only; omega
    · intro b
      have hb := b.first_le_last
      have hc := c.first_le_last
      unfold Block.minus
      split <;> split <;> simp [Block.Before]
      omega

theorem mem_erase {n : Nat} {s : Blocks} {c : Block} : n ∈ s.erase c ↔ n ∈ s ∧ n ∉ c := by
  simp only [mem_def, erase, List.mem_flatMap]
  constructor
  · rintro ⟨d, ⟨b, hb, hd⟩, hn⟩
    have := Block.mem_minus.1 ⟨d, hd, hn⟩
    exact ⟨⟨b, hb, this.1⟩, this.2⟩
  · rintro ⟨⟨b, hb, hnb⟩, hnc⟩
    obtain ⟨d, hd, hn⟩ := Block.mem_minus.2 ⟨hnb, hnc⟩
    exact ⟨d, ⟨b, hb, hd⟩, hn⟩

def diff (s t : Blocks) : Blocks := t.toList.foldl erase s

theorem mem_diff {n : Nat} {s t : Blocks} : n ∈ s.diff t ↔ n ∈ s ∧ n ∉ t := by
  have key : ∀ (l : List Block) (s : Blocks),
      n ∈ l.foldl erase s ↔ n ∈ s ∧ ¬ ∃ b ∈ l, n ∈ b := by
    intro l
    induction l with
    | nil => simp
    | cons b rest ih =>
      intro s
      simp only [List.foldl_cons, ih, mem_erase, List.mem_cons, exists_eq_or_imp, not_or, and_assoc]
  exact key t.toList s

/-- Whether `s` holds all of `t`: each block of `t` lies in one of `s`. -/
def contains (s t : Blocks) : Bool := t.toList.all fun c => s.toList.any (·.covers c)

/-- Numbers in a row that all belong to a set lie in one of its blocks. -/
theorem exists_covers {l : List Block} (h : l.Pairwise Block.Before) {c : Block}
    (hc : ∀ n ∈ c, ∃ b ∈ l, n ∈ b) : ∃ b ∈ l, b.covers c = true := by
  obtain ⟨b, hb, hfirst⟩ := hc c.first ⟨Nat.le_refl _, c.first_le_last⟩
  refine ⟨b, hb, ?_⟩
  simp only [Block.covers, Bool.and_eq_true, decide_eq_true_eq]
  refine ⟨hfirst.1, ?_⟩
  by_cases hlast : c.last ≤ b.last
  · exact hlast
  · exfalso
    obtain ⟨d, hd, hnext⟩ := hc (b.last + 1) (by have := hfirst.2; simp only [Block.mem_def]; omega)
    have hne : b ≠ d := by
      rintro rfl
      have := hnext.2
      omega
    have hsep : b.Before d ∨ d.Before b := by
      rcases List.mem_iff_getElem.1 hb with ⟨i, hi, rfl⟩
      rcases List.mem_iff_getElem.1 hd with ⟨j, hj, rfl⟩
      rcases Nat.lt_trichotomy i j with hij | hij | hij
      · exact .inl (List.pairwise_iff_getElem.1 h i j hi hj hij)
      · exact absurd (by simp [hij]) hne
      · exact .inr (List.pairwise_iff_getElem.1 h j i hj hi hij)
    have hb' := b.first_le_last
    have hd' := d.first_le_last
    simp only [Block.Before, Block.mem_def] at *
    omega

theorem contains_iff {s t : Blocks} : s.contains t = true ↔ ∀ n ∈ t, n ∈ s := by
  simp only [contains, List.all_eq_true, List.any_eq_true]
  constructor
  · rintro h n ⟨c, hc, hn⟩
    obtain ⟨b, hb, hcov⟩ := h c hc
    simp only [Block.covers, Bool.and_eq_true, decide_eq_true_eq] at hcov
    exact ⟨b, hb, by simp only [Block.mem_def] at *; omega⟩
  · intro h c hc
    exact exists_covers s.apart fun n hn => h n ⟨c, hc, hn⟩

/-- In an ascending list no number lies at or before the end of the first block and in the rest. -/
theorem last_lt_of_mem_tail {b : Block} {l : List Block} (h : (b :: l).Pairwise Block.Before)
    {n : Nat} (hn : ∃ c ∈ l, n ∈ c) : b.last + 1 < n := by
  obtain ⟨c, hc, hnc⟩ := hn
  have := (List.pairwise_cons.1 h).1 c hc
  simp only [Block.Before, Block.mem_def] at *
  omega

theorem eq_of_mem_iff {l m : List Block} (hl : l.Pairwise Block.Before)
    (hm : m.Pairwise Block.Before) (h : ∀ n : Nat, (∃ b ∈ l, n ∈ b) ↔ ∃ b ∈ m, n ∈ b) : l = m := by
  induction l generalizing m with
  | nil =>
    cases m with
    | nil => rfl
    | cons c m =>
      simpa [Block.mem_def, c.first_le_last] using
        (h c.first).2 ⟨c, by simp [Block.mem_def, c.first_le_last]⟩
  | cons b l ih =>
    cases m with
    | nil =>
      simpa [Block.mem_def, b.first_le_last] using
        (h b.first).1 ⟨b, by simp [Block.mem_def, b.first_le_last]⟩
    | cons c m =>
      have hb := b.first_le_last
      have hc := c.first_le_last
      have split : ∀ n : Nat, (n ∈ b ∨ ∃ d ∈ l, n ∈ d) ↔ (n ∈ c ∨ ∃ d ∈ m, n ∈ d) := by
        simpa only [List.mem_cons, exists_eq_or_imp] using h
      have tailb : ∀ n : Nat, (∃ d ∈ l, n ∈ d) → b.last + 1 < n := fun n => last_lt_of_mem_tail hl
      have tailc : ∀ n : Nat, (∃ d ∈ m, n ∈ d) → c.last + 1 < n := fun n => last_lt_of_mem_tail hm
      simp only [Block.mem_def] at split tailb tailc
      have hbc : c.first ≤ b.first := by
        rcases (split b.first).1 (.inl (by omega)) with h | h
        · omega
        · have := tailc _ h; omega
      have hcb : b.first ≤ c.first := by
        rcases (split c.first).2 (.inl (by omega)) with h | h
        · omega
        · have := tailb _ h; omega
      have lastc : c.last ≤ b.last := by
        by_cases hlt : b.last + 1 ≤ c.last
        · rcases (split (b.last + 1)).2 (.inl (by omega)) with h | h
          · omega
          · have := tailb _ h; omega
        · omega
      have lastb : b.last ≤ c.last := by
        by_cases hlt : c.last + 1 ≤ b.last
        · rcases (split (c.last + 1)).1 (.inl (by omega)) with h | h
          · omega
          · have := tailc _ h; omega
        · omega
      have hhead : b = c := by
        cases b; cases c
        simp only [Block.mk.injEq]
        exact ⟨by simp only at *; omega, by simp only at *; omega⟩
      subst hhead
      congr 1
      refine ih (List.pairwise_cons.1 hl).2 (List.pairwise_cons.1 hm).2 fun n => ?_
      constructor
      · intro hn
        have := tailb n hn
        exact ((split n).1 (.inr hn)).resolve_left (by omega)
      · intro hn
        have := tailc n hn
        exact ((split n).2 (.inr hn)).resolve_left (by omega)

theorem ext {s t : Blocks} (h : ∀ n : Nat, n ∈ s ↔ n ∈ t) : s = t := by
  have := eq_of_mem_iff s.apart t.apart h
  cases s; cases t
  simp_all

end Blocks

end ResourcePki
