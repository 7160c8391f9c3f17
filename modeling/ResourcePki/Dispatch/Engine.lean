import ResourcePki.Dispatch.Session

/-!
Executing commands. A command is handled by every handler that accepts it, in ascending order of
the handlers, as a whole or not at all; when it fails for a reason that may pass, it is tried again.
-/

namespace ResourcePki

structure Handler (ε : Type) where
  name : String
  /-- Handlers run in ascending order; those of one order run as they were given. -/
  order : Int := 0
  filter : CommandFilter
  handle : CaCommand → Action ε Unit

/-- From this order on, handlers only look at what the others did. -/
def Handler.observerOrder : Int := 1000

structure Engine (ε : Type) where
  tree : CaTree
  log : List Event := []
  memory : ε
  /-- Whether the job that updates all CAs is running. -/
  updating : Bool := false

def Engine.note {ε : Type} (e : Engine ε) (event : Event) : Engine ε :=
  { e with log := e.log ++ [event] }

/-- Executes commands: this is all that jobs and interfaces know of a dispatcher. -/
abbrev CommandService (ε : Type) := CaCommand → Engine ε → Except Error CommandStatus × Engine ε

structure Dispatcher (ε : Type) where
  handlers : List (Handler ε)
  retries : Nat

namespace Dispatcher

variable {ε : Type}

/-- A dispatcher for some handlers, which are put in order. -/
def ofHandlers (handlers : List (Handler ε)) (retries : Nat) : Dispatcher ε :=
  { handlers := handlers.mergeSort fun g h => decide (g.order ≤ h.order), retries }

def handlerNames (d : Dispatcher ε) : List String := d.handlers.map (·.name)

/-- Runs handlers one after the other, up to the first that fails. -/
def runHandlers (command : CaCommand) : List (Handler ε) → Action ε Unit
  | [] => pure ()
  | h :: rest => do
    if h.filter.accepts command.type then h.handle command
    runHandlers command rest

/-- One attempt at a command: either all handlers succeed, or the tree stays as it was. -/
def attempt (d : Dispatcher ε) (command : CaCommand) (e : Engine ε) :
    Except Error CommandStatus × Engine ε :=
  match runHandlers command d.handlers ⟨.begin e.tree, {}, [], e.memory⟩ with
  | (.ok (), s) =>
    (.ok s.status, { e with tree := s.work.commit, log := e.log ++ s.log, memory := s.memory })
  | (.error err, s) =>
    (.error err, { e with tree := s.work.rollback, log := e.log ++ s.log, memory := s.memory })

/-- Attempts with a number of retries left; `done` counts those that are used up. -/
def attempts (d : Dispatcher ε) (command : CaCommand) (done : Nat) :
    Nat → Engine ε → Except Error CommandStatus × Engine ε
  | 0, e => d.attempt command e
  | left + 1, e =>
    match d.attempt command e with
    | (.ok status, e) => (.ok status, e)
    | (.error err, e) =>
      if err.isTransient then
        d.attempts command (done + 1) left (e.note (.retrying command (done + 1) err))
      else (.error err, e)

def execute (d : Dispatcher ε) : CommandService ε := fun command e =>
  d.attempts command 0 d.retries e

end Dispatcher

end ResourcePki
