import ResourcePki.Time.Calendar

/-!
Points in time to the nanosecond. A second counts two billion ticks: the upper half of the last
second of a minute belongs to the leap second that may follow it, so that the order of ticks is
the order of times with leap seconds too.
-/

namespace ResourcePki

/-- A point in time, in ticks since the start of 1970, UTC. -/
structure Time where
  ticks : Int
deriving DecidableEq, Repr, Inhabited

namespace Time

instance : LT Time := ⟨fun s t => s.ticks < t.ticks⟩

instance : LE Time := ⟨fun s t => s.ticks ≤ t.ticks⟩

instance (s t : Time) : Decidable (s < t) := inferInstanceAs (Decidable (s.ticks < t.ticks))

instance (s t : Time) : Decidable (s ≤ t) := inferInstanceAs (Decidable (s.ticks ≤ t.ticks))

theorem lt_def {s t : Time} : s < t ↔ s.ticks < t.ticks := Iff.rfl

def ticksPerSecond : Int := 2000000000

def addSeconds (t : Time) (n : Int) : Time := ⟨t.ticks + n * ticksPerSecond⟩

def addMinutes (t : Time) (n : Int) : Time := t.addSeconds (60 * n)

def addWeeks (t : Time) (n : Int) : Time := t.addSeconds (7 * 86400 * n)

end Time

/-- The period in which a certificate may be used, both ends included. -/
structure Validity where
  notBefore : Time
  notAfter : Time
deriving DecidableEq, Repr, Inhabited

end ResourcePki
