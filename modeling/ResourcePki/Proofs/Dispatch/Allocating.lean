import ResourcePki.Proofs.Issuance.Growing
import ResourcePki.Proofs.Tree.Undoing

/-! The numbers that a tree gives out. The counter goes up with every number given out and never
goes back behind one: only what is rolled back lowers it, to where it was at the begin, and in the
meantime none is given out. So each number is larger than all before, and than those in the tree. -/

namespace ResourcePki

namespace CaTree

variable {t u : CaTree}

theorem lt_firstFree {id : CaId} (h : t.contains id = true) : id < t.firstFree := by
  have hmem : id ∈ t.cas.keys := SortedMap.mem_keys_iff.mpr h
  have hsorted : t.cas.keys.Pairwise (· < ·) := by
    rw [SortedMap.keys, List.pairwise_map]
    exact t.cas.sorted
  obtain ⟨last, hlast⟩ := Option.isSome_iff_exists.mp
    (List.getLast?_isSome.mpr (List.ne_nil_of_mem hmem))
  have hfree : t.firstFree = last + 1 := by
    rw [firstFree, hlast]
    rfl
  obtain ⟨others, hkeys⟩ := List.getLast?_eq_some_iff.mp hlast
  rw [hkeys] at hmem hsorted
  rw [hfree]
  -- The keys ascend, so the last of them is the largest.
  rcases List.mem_append.mp hmem with hother | hself
  · have hlt := (List.pairwise_append.mp hsorted).2.2 id hother last (List.mem_singleton_self last)
    exact Nat.lt_succ_of_lt hlt
  · exact Nat.lt_succ_of_le (Nat.le_of_eq (List.mem_singleton.mp hself))

theorem not_contains_allocate (t : CaTree) : t.contains t.allocate.1 = false := by
  refine Bool.eq_false_iff.mpr fun hthere => ?_
  have hlt := lt_firstFree hthere
  exact Nat.not_lt.mpr (Nat.le_max_right ..) hlt

theorem nextId_le_insert {ca : CertificateAuthority} (h : t.insert ca = .ok u) :
    t.nextId ≤ u.nextId := by
  rw [(insert_ok h).2.2.1]
  exact Nat.le_max_left ..

end CaTree

namespace UnitOfWork

variable {w w' : UnitOfWork}

theorem nextId_le_step (h : Step w w') : w.tree.nextId ≤ w'.tree.nextId := by
  cases h with
  | update _ id f =>
    unfold UnitOfWork.update
    cases w.get? id with
    | none => exact Nat.le_refl _
    | some ca =>
      dsimp only
      rw [tree_write_remember]
      exact Nat.le_refl _
  | updatePair _ parent child f =>
    unfold UnitOfWork.updatePair
    split
    · exact Nat.le_refl _
    · split
      · exact Nat.le_refl _
      · dsimp only
        split
        · exact Nat.le_of_eq (by rw [tree_remember])
        · change _ ≤ ((w.remember parent).remember child).tree.nextId
          exact Nat.le_of_eq (by rw [tree_remember, tree_remember])
  | insert _ ca =>
    unfold UnitOfWork.insert
    dsimp only
    split
    · exact Nat.le_of_eq (by rw [tree_rememberParent])
    · rename_i u hins
      rw [tree_rememberParent] at hins
      exact CaTree.nextId_le_insert hins

theorem nextId_le_uses (h : Uses w w') : w.tree.nextId ≤ w'.tree.nextId := by
  induction h with
  | refl => exact Nat.le_refl _
  | tail _ hstep ih => exact Nat.le_trans ih (nextId_le_step hstep)

end UnitOfWork

variable {ε : Type}

/-- What may happen to the tree of a system. A unit of work is committed or dropped. -/
inductive TreeEvent (ε : Type) where
  | allocate
  | insert (ca : CertificateAuthority)
  | work (edits : List TreeEdit) (committed : Bool)
  | command (dispatcher : Dispatcher ε) (command : CaCommand)

/-- Commands change the tree by units of work only. -/
def TreeEvent.ThroughWork : TreeEvent ε → Prop
  | .command dispatcher _ => ∀ h ∈ dispatcher.handlers, h.ThroughWork
  | _ => True

/-- A number given out, and the tree that gave it. -/
structure Allocation where
  tree : CaTree
  id : CaId
deriving DecidableEq, Repr

theorem Dispatcher.nextId_le_execute {d : Dispatcher ε} (hwork : ∀ h ∈ d.handlers, h.ThroughWork)
    (command : CaCommand) (e : Engine ε) :
    e.tree.nextId ≤ (d.execute command e).2.tree.nextId := by
  obtain ⟨-, memory, r, s, -, -, hr, -, -, htree, -⟩ :=
    attempts_handled hwork command 0 d.retries e
  have hturn : ∀ h ∈ d.turn command, h.ThroughWork := fun h hh => hwork h (List.mem_filter.mp hh).1
  rw [execute, htree]
  cases r with
  | ok _ => exact UnitOfWork.nextId_le_uses (hr.uses hturn)
  | error _ => exact Nat.le_refl _

namespace Engine

variable {e : Engine ε} {event : TreeEvent ε}

/-- The system after an event, whether that failed or not. -/
def happen (e : Engine ε) : TreeEvent ε → Engine ε
  | .allocate => { e with tree := e.tree.allocate.2 }
  | .insert ca => e.insert ca
  | .work edits committed =>
    let w := ((UnitOfWork.begin e.tree).performAll edits).2
    { e with tree := if committed then w.commit else w.rollback }
  | .command dispatcher command => (dispatcher.execute command e).2

/-- The numbers given out in the course of a history, in order. -/
def allocations (e : Engine ε) : List (TreeEvent ε) → List Allocation
  | [] => []
  | .allocate :: rest => ⟨e.tree, e.tree.allocate.1⟩ :: (e.happen .allocate).allocations rest
  | event :: rest => (e.happen event).allocations rest

theorem nextId_le_happen (h : event.ThroughWork) : e.tree.nextId ≤ (e.happen event).tree.nextId := by
  cases event with
  | allocate => exact Nat.le_succ_of_le (Nat.le_max_left ..)
  | insert ca =>
    change _ ≤ (e.insert ca).tree.nextId
    unfold Engine.insert
    cases hins : e.tree.insert ca with
    | ok tree => exact CaTree.nextId_le_insert hins
    | error err => exact Nat.le_refl _
  | work edits committed =>
    have huses := UnitOfWork.uses_performAll (.begin e.tree) edits
    cases committed with
    | true => exact UnitOfWork.nextId_le_uses huses
    | false =>
      change _ ≤ ((UnitOfWork.begin e.tree).performAll edits).2.rollback.nextId
      exact Nat.le_of_eq (by rw [UnitOfWork.rollback_eq_of_uses huses])
  | command dispatcher command => exact Dispatcher.nextId_le_execute h command e

/-- No number is given out that is smaller than the counter is now. -/
theorem nextId_le_allocations {history : List (TreeEvent ε)}
    (hwork : ∀ event ∈ history, event.ThroughWork) :
    ∀ a ∈ e.allocations history, e.tree.nextId ≤ a.id := by
  induction history generalizing e with
  | nil => exact nofun
  | cons event rest ih =>
    obtain ⟨hevent, hrest⟩ := List.forall_mem_cons.mp hwork
    have hlater : ∀ a ∈ (e.happen event).allocations rest, e.tree.nextId ≤ a.id := fun a ha =>
      Nat.le_trans (nextId_le_happen hevent) (ih hrest a ha)
    cases event with
    | allocate => exact List.forall_mem_cons.mpr ⟨Nat.le_max_left .., hlater⟩
    | insert | work | command => exact hlater

/-- Whatever the counter was at first and whatever happens in between, a number that is given out is
not in the tree then, and it is larger than all that were given out before. In 64 bits this holds as
long as the numbers in use are below 2^64 - 1. -/
theorem allocations_never_repeat (history : List (TreeEvent ε))
    (hwork : ∀ event ∈ history, event.ThroughWork) :
    (∀ a ∈ e.allocations history, a.tree.contains a.id = false) ∧
      (e.allocations history).Pairwise fun a b => a.id < b.id := by
  induction history generalizing e with
  | nil => exact ⟨nofun, .nil⟩
  | cons event rest ih =>
    obtain ⟨-, hrest⟩ := List.forall_mem_cons.mp hwork
    obtain ⟨hnew, hascending⟩ := ih (e := e.happen event) hrest
    cases event with
    | allocate =>
      refine ⟨List.forall_mem_cons.mpr ⟨e.tree.not_contains_allocate, hnew⟩,
        List.pairwise_cons.mpr ⟨fun a ha => ?_, hascending⟩⟩
      -- The counter is behind the number just given out.
      exact nextId_le_allocations hrest a ha
    | insert | work | command => exact ⟨hnew, hascending⟩

end Engine

namespace Chain

/-- The counter in the file is behind the numbers in use. -/
def lagging : Engine Journal := { engine with tree := { tree with nextId := 0 } }

def guest (id : CaId) (name : CaName) : CertificateAuthority :=
  { id, name, parent := some 2, kind := .nonHosted [] ∅ }

def standardCommand (command : CaCommand) : TreeEvent Journal :=
  .command (Dispatcher.standard services {} 0) command

/-- Guests come and do not stay, come with numbers of their own, or with the number given out. -/
def visits : List (TreeEvent Journal) :=
  [.allocate, .work [.insert (guest 40 "CN=dropped")] false, .insert (guest 9 "CN=guest"),
    .allocate, standardCommand ⟨10, .background, .activateHostedCa "CN=new" 2⟩,
    standardCommand ⟨99, .background, .updateAllIncoming⟩,
    .work [.insert (guest 20 "CN=kept"), .insert (guest 20 "CN=twin")] true, .allocate]

theorem allocations_never_repeat_in_chain :
    (∀ event ∈ visits, event.ThroughWork) ∧
      (lagging.allocations visits).map (·.id) = [5, 10, 21] ∧
      (∀ a ∈ lagging.allocations visits, a.tree.contains a.id = false) ∧
      (lagging.allocations visits).Pairwise fun a b => a.id < b.id := by
  have hwork : ∀ event ∈ visits, event.ThroughWork := by
    have hstandard : ∀ command, (standardCommand command).ThroughWork := fun _ =>
      Dispatcher.throughWork_standard
    simp only [visits, List.forall_mem_cons]
    exact ⟨trivial, trivial, trivial, trivial, hstandard _, hstandard _, trivial, trivial, nofun⟩
  have hids : (lagging.allocations visits).map (·.id) = [5, 10, 21] := by
    rw [visits, standardCommand, standardCommand, Dispatcher.standard_eq]
    decide +kernel
  exact ⟨hwork, hids, Engine.allocations_never_repeat visits hwork⟩

end Chain

end ResourcePki
