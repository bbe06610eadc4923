import LmdGhost.ChainConfig.Basic
import LmdGhost.Duration
/-!
The relation between wall-clock time and slots. A slot is divided into intervals; a block is timely
if it arrives in the first one.
-/

namespace LmdGhost.Clock

def intervalsPerSlot : Nat := 3

def slotDuration (config : ChainConfig) : Duration :=
  .ofSeconds config.secondsPerSlot

def intervalDuration (config : ChainConfig) : Duration :=
  (slotDuration config).part intervalsPerSlot

/-- The second at which a slot starts. -/
def slotStart (config : ChainConfig) (genesis : UnixSeconds) (slot : Slot) :
    Except Overflow UnixSeconds := do
  Word.add genesis (← Word.mul slot config.secondsPerSlot)

/-- The time from the start of a slot to an arrival; an early arrival has no delay. -/
def delay (config : ChainConfig) (genesis : UnixSeconds) (slot : Slot) (arrival : Duration) :
    Except Overflow Duration := do
  let start ← slotStart config genesis slot
  return Duration.between (.ofSeconds start) arrival

end LmdGhost.Clock
