import LmdGhost.Preset
/-!
The score of a boost: a share, in percent, of the weight of one committee. A committee is the
number of active validators spread over the slots of an epoch, each taken with the average
balance.
-/

namespace LmdGhost

/-- The score of a boost for the balances of the justified state. -/
def boostScore (preset : Preset) (percent : UInt64) (balances : Balances) : Gwei :=
  let active := balances.filter (0 < ·)
  if active.isEmpty then
    0
  else
    let total := active.foldl Word.satAdd 0
    let average := total.toNat / active.length
    let committee := active.length / preset.slotsPerEpoch.toNat
    Word.satMul (Word.satMul (UInt64.ofNat committee) (UInt64.ofNat average)) percent / 100

end LmdGhost
