import LmdGhost.Word
/-!
Lengths of time, counted in nanoseconds.
-/

namespace LmdGhost

structure Duration where
  nanoseconds : Nat
deriving DecidableEq, Inhabited

namespace Duration

def nanosecondsPerSecond : Nat := 1000000000

def ofSeconds (seconds : UInt64) : Duration :=
  ⟨seconds.toNat * nanosecondsPerSecond⟩

def ofParts (seconds nanoseconds : UInt64) : Duration :=
  ⟨seconds.toNat * nanosecondsPerSecond + nanoseconds.toNat⟩

/-- The whole seconds. -/
def seconds (duration : Duration) : Nat :=
  duration.nanoseconds / nanosecondsPerSecond

/-- The nanoseconds past the whole seconds. -/
def subsecond (duration : Duration) : Nat :=
  duration.nanoseconds % nanosecondsPerSecond

instance : LT Duration := ⟨fun a b => a.nanoseconds < b.nanoseconds⟩

instance (a b : Duration) : Decidable (a < b) :=
  inferInstanceAs (Decidable (a.nanoseconds < b.nanoseconds))

/-- The time from `earlier` to `later`; none has passed if the order is the other way round. -/
def between (earlier later : Duration) : Duration :=
  ⟨later.nanoseconds - earlier.nanoseconds⟩

/-- One of `parts` equal parts, to the nanosecond below. -/
def part (duration : Duration) (parts : Nat) : Duration :=
  ⟨duration.nanoseconds / parts⟩

end Duration

end LmdGhost
