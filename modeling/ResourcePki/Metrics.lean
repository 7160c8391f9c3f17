/-! Counters and timers, which only collect values, in 64 bits each. A count stands for what these
hold as long as there are fewer than 2^64 events; a sum of durations may well be too large for them,
and starts over. -/

namespace ResourcePki

structure Counter where
  name : String
  help : String
  value : Nat := 0
deriving DecidableEq, Repr

namespace Counter

def increment (c : Counter) : Counter := { c with value := c.value + 1 }

def text (c : Counter) : String := s!"{c.name} {c.value}"

end Counter

structure Timer where
  name : String
  help : String
  count : Nat := 0
  totalMicros : Nat := 0
deriving DecidableEq, Repr

namespace Timer

/-- The microseconds of a duration, which are not counted beyond 64 bits. -/
def microseconds (seconds nanoseconds : Nat) : Nat :=
  min (seconds * 1000000 + nanoseconds / 1000) (UInt64.size - 1)

/-- Adds a duration; the sum is kept in 64 bits and starts over when it does not fit. -/
def observe (t : Timer) (micros : Nat) : Timer :=
  { t with count := t.count + 1, totalMicros := (t.totalMicros + micros) % UInt64.size }

def text (t : Timer) : String := s!"{t.name} count={t.count} total={t.totalMicros}us"

end Timer

end ResourcePki
