import LmdGhost.Clock
/-!
The settings of one node. They do not have to agree across the network.
-/

namespace LmdGhost

structure NodeSettings where
  /-- How many nodes pruning has to find before it removes any. -/
  pruneThreshold : UInt64 := 256
  boostEnabled : Bool := true
  /-- How late a boosted block may arrive; the first interval of its slot if nothing is set. -/
  timely? : Option Duration := none
  /-- The score of a boost, in place of the one that follows from the balances. -/
  boostScore? : Option Gwei := none
deriving DecidableEq, Inhabited

namespace NodeSettings

/-- Settings under which every finalized block is pruned at once. -/
def pruneEagerly : NodeSettings :=
  { pruneThreshold := 0 }

/-- The delay below which a block is timely. -/
def timelyThreshold (settings : NodeSettings) (config : ChainConfig) : Duration :=
  settings.timely?.getD (Clock.intervalDuration config)

end NodeSettings

end LmdGhost
