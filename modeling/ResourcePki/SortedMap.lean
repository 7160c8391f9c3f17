/-!
Finite maps as lists in ascending order of their keys, so that equal maps are equal values.
A map is looked at through `get?`: `get?_insert` and `get?_erase` give the operations, and `ext`
says that the look-ups determine the map.
-/

namespace ResourcePki

/-- Keys that are told apart, and ordered, by a number. -/
class Numbered (κ : Type) where
  number : κ → Nat
  number_inj : ∀ {a b : κ}, number a = number b → a = b

instance : Numbered Nat := ⟨id, id⟩

structure SortedMap (κ α : Type) [Numbered κ] where
  entries : List (κ × α)
  sorted : entries.Pairwise fun e f => Numbered.number e.1 < Numbered.number f.1

namespace SortedMap

open Numbered

variable {κ α : Type} [Numbered κ]

instance [DecidableEq κ] [DecidableEq α] : DecidableEq (SortedMap κ α) := fun m n =>
  decidable_of_iff (m.entries = n.entries) (by cases m; cases n; simp)

instance [Repr κ] [Repr α] : Repr (SortedMap κ α) := ⟨fun m n => reprPrec m.entries n⟩

def empty : SortedMap κ α := ⟨[], List.Pairwise.nil⟩

instance : EmptyCollection (SortedMap κ α) := ⟨empty⟩

instance : Inhabited (SortedMap κ α) := ⟨empty⟩

def size (m : SortedMap κ α) : Nat := m.entries.length

def isEmpty (m : SortedMap κ α) : Bool := m.entries.isEmpty

def keys (m : SortedMap κ α) : List κ := m.entries.map (·.1)

def values (m : SortedMap κ α) : List α := m.entries.map (·.2)

def lookup (k : κ) : List (κ × α) → Option α
  | [] => none
  | e :: rest => if number e.1 = number k then some e.2 else lookup k rest

def get? (m : SortedMap κ α) (k : κ) : Option α := lookup k m.entries

def contains (m : SortedMap κ α) (k : κ) : Bool := (m.get? k).isSome

/-- Puts a value under a key, in place of the one that is there. -/
def insertEntry (k : κ) (a : α) : List (κ × α) → List (κ × α)
  | [] => [(k, a)]
  | e :: rest =>
    if number k < number e.1 then (k, a) :: e :: rest
    else if number e.1 = number k then (k, a) :: rest
    else e :: insertEntry k a rest

def eraseEntry (k : κ) : List (κ × α) → List (κ × α)
  | [] => []
  | e :: rest => if number e.1 = number k then rest else e :: eraseEntry k rest

theorem mem_insertEntry {k : κ} {a : α} {l : List (κ × α)} {e : κ × α}
    (h : e ∈ insertEntry k a l) : e = (k, a) ∨ e ∈ l := by
  induction l with
  | nil => simpa [insertEntry] using h
  | cons d rest ih =>
    unfold insertEntry at h
    split at h
    · simpa using h
    · split at h
      · rcases List.mem_cons.1 h with h | h
        · exact .inl h
        · exact .inr (List.mem_cons_of_mem _ h)
      · rcases List.mem_cons.1 h with h | h
        · exact .inr (by simp [h])
        · exact (ih h).imp_right (List.mem_cons_of_mem _)

theorem mem_of_mem_eraseEntry {k : κ} {l : List (κ × α)} {e : κ × α}
    (h : e ∈ eraseEntry k l) : e ∈ l := by
  induction l with
  | nil => simp [eraseEntry] at h
  | cons d rest ih =>
    unfold eraseEntry at h
    split at h
    · exact List.mem_cons_of_mem _ h
    · rcases List.mem_cons.1 h with h | h
      · simp [h]
      · exact List.mem_cons_of_mem _ (ih h)

theorem sorted_insertEntry {k : κ} {a : α} {l : List (κ × α)}
    (h : l.Pairwise fun e f => number e.1 < number f.1) :
    (insertEntry k a l).Pairwise fun e f => number e.1 < number f.1 := by
  induction l with
  | nil => simp [insertEntry]
  | cons d rest ih =>
    obtain ⟨hd, hrest⟩ := List.pairwise_cons.1 h
    unfold insertEntry
    split
    · rename_i hlt
      refine List.pairwise_cons.2 ⟨fun e he => ?_, h⟩
      rcases List.mem_cons.1 he with rfl | he
      · exact hlt
      · exact Nat.lt_trans hlt (hd e he)
    · split
      · rename_i heq
        exact List.pairwise_cons.2 ⟨fun e he => heq ▸ hd e he, hrest⟩
      · refine List.pairwise_cons.2 ⟨fun e he => ?_, ih hrest⟩
        rcases mem_insertEntry he with rfl | he
        · simp only
          omega
        · exact hd e he

theorem sorted_eraseEntry {k : κ} {l : List (κ × α)}
    (h : l.Pairwise fun e f => number e.1 < number f.1) :
    (eraseEntry k l).Pairwise fun e f => number e.1 < number f.1 := by
  induction l with
  | nil => simp [eraseEntry]
  | cons d rest ih =>
    obtain ⟨hd, hrest⟩ := List.pairwise_cons.1 h
    unfold eraseEntry
    split
    · exact hrest
    · exact List.pairwise_cons.2 ⟨fun e he => hd e (mem_of_mem_eraseEntry he), ih hrest⟩

def insert (m : SortedMap κ α) (k : κ) (a : α) : SortedMap κ α :=
  ⟨insertEntry k a m.entries, sorted_insertEntry m.sorted⟩

def erase (m : SortedMap κ α) (k : κ) : SortedMap κ α :=
  ⟨eraseEntry k m.entries, sorted_eraseEntry m.sorted⟩

/-- Later entries take the place of earlier ones with the same key. -/
def ofList (l : List (κ × α)) : SortedMap κ α := l.foldl (fun m e => m.insert e.1 e.2) empty

theorem lookup_eq_none {k : κ} {l : List (κ × α)} (h : ∀ e ∈ l, number e.1 ≠ number k) :
    lookup k l = none := by
  induction l with
  | nil => rfl
  | cons d rest ih =>
    rw [lookup, if_neg (h d (by simp))]
    exact ih fun e he => h e (by simp [he])

theorem lookup_insertEntry {k k' : κ} {a : α} {l : List (κ × α)} :
    lookup k' (insertEntry k a l) = if number k = number k' then some a else lookup k' l := by
  induction l with
  | nil => simp [insertEntry, lookup]
  | cons d rest ih =>
    unfold insertEntry
    split
    · simp [lookup]
    · split
      · rename_i heq
        by_cases hk : number k = number k' <;> simp [lookup, hk, heq]
      · rename_i hne
        by_cases hk : number k = number k'
        · simp [lookup, ih, hk, hk ▸ hne]
        · simp [lookup, ih, hk]

theorem lookup_eraseEntry {k k' : κ} {l : List (κ × α)}
    (h : l.Pairwise fun e f => number e.1 < number f.1) :
    lookup k' (eraseEntry k l) = if number k = number k' then none else lookup k' l := by
  induction l with
  | nil => simp [eraseEntry, lookup]
  | cons d rest ih =>
    obtain ⟨hd, hrest⟩ := List.pairwise_cons.1 h
    unfold eraseEntry
    split
    · rename_i heq
      by_cases hk : number k = number k'
      · rw [if_pos hk]
        exact lookup_eq_none fun e he => by have := hd e he; omega
      · rw [if_neg hk, lookup, if_neg (by omega)]
    · by_cases hk : number k = number k'
      · rw [lookup, if_neg (by omega), ih hrest]
        simp [hk]
      · simp [lookup, ih hrest, hk]

@[simp] theorem get?_empty (k : κ) : (empty : SortedMap κ α).get? k = none := rfl

theorem get?_insert {m : SortedMap κ α} {k k' : κ} {a : α} :
    (m.insert k a).get? k' = if number k = number k' then some a else m.get? k' :=
  lookup_insertEntry

theorem get?_erase {m : SortedMap κ α} {k k' : κ} :
    (m.erase k).get? k' = if number k = number k' then none else m.get? k' :=
  lookup_eraseEntry m.sorted

@[simp] theorem get?_insert_self {m : SortedMap κ α} {k : κ} {a : α} :
    (m.insert k a).get? k = some a := by
  simp [get?_insert]

theorem entries_eq_of_lookup {l m : List (κ × α)}
    (hl : l.Pairwise fun e f => number e.1 < number f.1)
    (hm : m.Pairwise fun e f => number e.1 < number f.1)
    (h : ∀ k, lookup k l = lookup k m) : l = m := by
  induction l generalizing m with
  | nil =>
    cases m with
    | nil => rfl
    | cons f m => simpa [lookup] using h f.1
  | cons e l ih =>
    cases m with
    | nil => simpa [lookup] using h e.1
    | cons f m =>
      obtain ⟨he, hltail⟩ := List.pairwise_cons.1 hl
      obtain ⟨hf, hmtail⟩ := List.pairwise_cons.1 hm
      have below : ∀ {k : κ} {d : κ × α} {r : List (κ × α)},
          (∀ x ∈ r, number d.1 < number x.1) → number k ≤ number d.1 → lookup k r = none :=
        fun hr hk => lookup_eq_none fun x hx => by have := hr x hx; omega
      have hkey : number e.1 = number f.1 := by
        rcases Nat.lt_trichotomy (number e.1) (number f.1) with hlt | heq | hgt
        · have := h e.1
          rw [lookup, if_pos rfl, lookup, if_neg (by omega), below hf (by omega)] at this
          cases this
        · exact heq
        · have := h f.1
          rw [lookup, if_neg (by omega), below he (by omega), lookup, if_pos rfl] at this
          cases this
      have hval : e.2 = f.2 := by
        have := h e.1
        rw [lookup, if_pos rfl, lookup, if_pos hkey.symm] at this
        exact Option.some.inj this
      have hhead : e = f := Prod.ext (number_inj hkey) hval
      subst hhead
      congr 1
      refine ih hltail hmtail fun k => ?_
      by_cases hk : number e.1 = number k
      · rw [below he (by omega), below hf (by omega)]
      · have := h k
        rwa [lookup, lookup, if_neg hk, if_neg hk] at this

theorem ext {m n : SortedMap κ α} (h : ∀ k, m.get? k = n.get? k) : m = n := by
  have := entries_eq_of_lookup m.sorted n.sorted h
  cases m
  cases n
  simp_all

end SortedMap

end ResourcePki
