import LmdGhost.BoostScore
import LmdGhost.ChainConfig.Basic
import LmdGhost.Proofs.VoteTable.Headroom
/-!
How much a boost may weigh. Its score comes from divisions that round down and from sums and products
that stop at the largest word, and each of these steps can only make it smaller: times the slots of
an epoch it is at most its percentage of all balances, whatever they come to. Inactive validators
and the order of the others do not matter. Where the percentage of all balances fits a word, nothing
stops there and the score is exact. In words, the calculation neither overflows nor divides by zero.
-/

namespace LmdGhost

variable {preset : Preset} {config : ChainConfig} {percent : UInt64} {balances other : Balances}

namespace Balances

def active (balances : Balances) : Balances :=
  balances.filter (0 < ·)

theorem total_cons (balance : Gwei) (balances : Balances) :
    Balances.total (balance :: balances) = balance.toNat + balances.total := by
  simp [total]

theorem total_active (balances : Balances) : balances.active.total = balances.total := by
  induction balances with
  | nil => rfl
  | cons balance balances ih =>
    rw [total_cons, active, List.filter_cons]
    split
    · rw [total_cons, ← active, ih]
    · next inactive =>
      have zero : balance.toNat = 0 := by simpa [UInt64.lt_iff_toNat_lt] using inactive
      rw [← active, ih, zero, Nat.zero_add]

theorem total_perm (rearranged : other.Perm balances) : other.total = balances.total :=
  (rearranged.map _).sum_nat

/-- A sum that stops at the largest word is the exact one, or the largest word. -/
theorem toNat_foldl_satAdd (balances : Balances) (start : Gwei) :
    (balances.foldl Word.satAdd start).toNat =
      min (start.toNat + balances.total) (UInt64.size - 1) := by
  induction balances generalizing start with
  | nil =>
    have bound := start.toNat_lt_size
    simp only [List.foldl_nil, total, List.map_nil, List.sum_nil]
    omega
  | cons balance balances ih =>
    rw [List.foldl_cons, ih, Word.toNat_satAdd, total_cons]
    omega

end Balances

namespace Preset

theorem slotsPerEpoch_pos (preset : Preset) : 0 < preset.slotsPerEpoch.toNat := by
  cases preset <;> decide

/-- What a committee weighs in exact numbers: the average balance for each of its members. -/
def committeeWeight (preset : Preset) (active total : Nat) : Nat :=
  if active = 0 then 0 else active / preset.slotsPerEpoch.toNat * (total / active)

/-- The committees of an epoch together weigh no more than everyone. -/
theorem committeeWeight_le (preset : Preset) (active total : Nat) :
    preset.committeeWeight active total * preset.slotsPerEpoch.toNat ≤ total := by
  rw [committeeWeight]
  split
  · omega
  calc
    active / preset.slotsPerEpoch.toNat * (total / active) * preset.slotsPerEpoch.toNat
    _ = active / preset.slotsPerEpoch.toNat * preset.slotsPerEpoch.toNat * (total / active) :=
      Nat.mul_right_comm _ _ _
    _ ≤ active * (total / active) := Nat.mul_le_mul_right _ (Nat.div_mul_le_self _ _)
    _ ≤ total := Nat.mul_div_le _ _

theorem committeeWeight_le_total (preset : Preset) (active total : Nat) :
    preset.committeeWeight active total ≤ total :=
  (Nat.le_mul_of_pos_right _ preset.slotsPerEpoch_pos).trans (preset.committeeWeight_le _ _)

end Preset

/-- The sum of the balances where it fits a word, else the largest word. -/
def Balances.cappedTotal (balances : Balances) : Nat :=
  min balances.total (UInt64.size - 1)

theorem Balances.cappedTotal_lt (balances : Balances) : balances.cappedTotal < UInt64.size := by
  simp only [cappedTotal, UInt64.size]
  omega

/-- A product that fits a word is exact, also where a factor does not: the other one is zero then. -/
theorem Word.toNat_satMul_ofNat {a b : Nat} (fits : a * b < UInt64.size) :
    (satMul (UInt64.ofNat a) (UInt64.ofNat b)).toNat = a * b := by
  rw [toNat_satMul]
  rcases Nat.eq_zero_or_pos a with rfl | a_pos
  · simp
  rcases Nat.eq_zero_or_pos b with rfl | b_pos
  · simp
  have a_fits := (Nat.le_mul_of_pos_right a b_pos).trans_lt fits
  have b_fits := (Nat.le_mul_of_pos_left b a_pos).trans_lt fits
  rw [UInt64.toNat_ofNat_of_lt' a_fits, UInt64.toNat_ofNat_of_lt' b_fits]
  omega

/-- The score in exact numbers: only the sum of the balances and the product stop at the largest
word. -/
theorem toNat_boostScore (preset : Preset) (percent : UInt64) (balances : Balances) :
    (boostScore preset percent balances).toNat =
      min (preset.committeeWeight balances.active.length balances.cappedTotal * percent.toNat)
        (UInt64.size - 1) / 100 := by
  have summed : (balances.active.foldl Word.satAdd 0).toNat = balances.cappedTotal := by
    rw [Balances.toNat_foldl_satAdd, Balances.total_active, Balances.cappedTotal]
    simp
  rw [boostScore, ← Balances.active]
  split
  · next nobody => simp [List.isEmpty_iff.mp nobody, Preset.committeeWeight]
  · next somebody =>
    have weight : balances.active.length / preset.slotsPerEpoch.toNat *
        (balances.cappedTotal / balances.active.length) =
        preset.committeeWeight balances.active.length balances.cappedTotal := by
      rw [Preset.committeeWeight, if_neg (by simpa using somebody)]
    have fits := (preset.committeeWeight_le_total balances.active.length _).trans_lt
      balances.cappedTotal_lt
    rw [← weight] at fits ⊢
    dsimp only
    rw [UInt64.toNat_div, Word.toNat_satMul, summed, Word.toNat_satMul_ofNat fits]
    rfl

/-- Times the slots of an epoch, a score is at most its percentage of all balances. -/
theorem boostScore_le (preset : Preset) (percent : UInt64) (balances : Balances) :
    (boostScore preset percent balances).toNat * 100 * preset.slotsPerEpoch.toNat ≤
      percent.toNat * balances.total := by
  rw [toNat_boostScore]
  calc
    _ ≤ preset.committeeWeight balances.active.length balances.cappedTotal * percent.toNat *
        preset.slotsPerEpoch.toNat :=
      Nat.mul_le_mul_right _ ((Nat.div_mul_le_self _ _).trans (Nat.min_le_left _ _))
    _ = percent.toNat * (preset.committeeWeight balances.active.length balances.cappedTotal *
        preset.slotsPerEpoch.toNat) := by rw [Nat.mul_comm _ percent.toNat, Nat.mul_assoc]
    _ ≤ percent.toNat * balances.total :=
      Nat.mul_le_mul_left _ ((preset.committeeWeight_le _ _).trans (Nat.min_le_left _ _))

theorem boostScore_congr (same : other.active.Perm balances.active) :
    boostScore preset percent other = boostScore preset percent balances := by
  have total : other.total = balances.total := by
    rw [← other.total_active, ← balances.total_active, Balances.total_perm same]
  rw [← UInt64.toNat_inj, toNat_boostScore, toNat_boostScore, same.length_eq,
    Balances.cappedTotal, Balances.cappedTotal, total]

/-- Where the percentage of all balances fits a word, so does every number on the way. -/
theorem toNat_boostScore_of_fits (fits : balances.total * percent.toNat < UInt64.size) :
    (boostScore preset percent balances).toNat =
      preset.committeeWeight balances.active.length balances.total * percent.toNat / 100 := by
  rw [toNat_boostScore]
  rcases Nat.eq_zero_or_pos percent.toNat with zero | positive
  · simp [zero]
  have uncapped : balances.cappedTotal = balances.total := by
    have small := (Nat.le_mul_of_pos_right balances.total positive).trans_lt fits
    rw [Balances.cappedTotal]
    omega
  have product := (Nat.mul_le_mul_right percent.toNat
    (preset.committeeWeight_le_total balances.active.length balances.total)).trans_lt fits
  rw [uncapped, Nat.min_eq_left (by omega)]

/-! The same calculation in words, where the count could overflow and a divisor could be zero. -/

inductive Breakdown where
  | overflow (cause : Overflow)
  | divisionByZero
deriving DecidableEq, Repr

def Word.div (a b : UInt64) : Except Breakdown UInt64 :=
  if b = 0 then .error .divisionByZero else .ok (a / b)

/-- One more balance in a sum, which stops at the largest word, and in a count, which does not. -/
def tallyBalance (tally : Gwei × UInt64) (balance : Gwei) : Except Breakdown (Gwei × UInt64) := do
  let count ← (Word.add tally.2 1).mapError .overflow
  return (Word.satAdd tally.1 balance, count)

def boostScoreInWords (preset : Preset) (percent : UInt64) (balances : Balances) :
    Except Breakdown Gwei := do
  let (total, active) ← (balances.filter (0 < ·)).foldlM tallyBalance (0, 0)
  if active = 0 then
    return 0
  let average ← Word.div total active
  let committee ← Word.div active preset.slotsPerEpoch
  Word.div (Word.satMul (Word.satMul committee average) percent) 100

theorem Word.div_ok {a b : UInt64} (nonzero : b ≠ 0) :
    div a b = .ok (UInt64.ofNat (a.toNat / b.toNat)) := by
  rw [div, if_neg nonzero, ← UInt64.toNat_div, UInt64.ofNat_toNat]

/-- As many balances as a word can count are counted without overflow. -/
theorem foldlM_tallyBalance (balances : Balances) (total : Gwei) {count counted : UInt64}
    (counts : counted.toNat = count.toNat + balances.length) :
    balances.foldlM tallyBalance (total, count) =
      .ok (balances.foldl Word.satAdd total, counted) := by
  induction balances generalizing total count with
  | nil =>
    have same : counted = count := UInt64.toNat_inj.mp counts
    rw [same]
    rfl
  | cons balance balances ih =>
    -- The count on the way is no greater than the last one, which is a word.
    have bound := counted.toNat_lt_size
    rw [List.length_cons] at counts
    have next : (UInt64.ofNat (count.toNat + 1)).toNat = count.toNat + 1 :=
      UInt64.toNat_ofNat_of_lt' (by omega)
    have step : tallyBalance (total, count) balance =
        .ok (Word.satAdd total balance, UInt64.ofNat (count.toNat + 1)) := by
      rw [tallyBalance, Word.add_eq_ok.mpr next]
      rfl
    rw [List.foldlM_cons, step]
    exact ih _ (by omega)

theorem boostScoreInWords_eq (counts : balances.length < UInt64.size) :
    boostScoreInWords preset percent balances = .ok (boostScore preset percent balances) := by
  have fits : balances.active.length < UInt64.size :=
    (List.length_filter_le _ _).trans_lt counts
  have counted : (UInt64.ofNat balances.active.length).toNat = balances.active.length :=
    UInt64.toNat_ofNat_of_lt' fits
  have tallied : balances.active.foldlM tallyBalance (0, 0) =
      .ok (balances.active.foldl Word.satAdd 0, UInt64.ofNat balances.active.length) :=
    foldlM_tallyBalance _ _ (by rw [counted]; simp)
  rw [boostScoreInWords, boostScore, ← Balances.active, tallied]
  simp only [bind, Except.bind, pure, Except.pure]
  split
  · next nobody =>
    have empty : balances.active = [] := by
      rw [← List.length_eq_zero_iff, ← counted, nobody]
      rfl
    rw [empty]
    rfl
  · next somebody =>
    have nonempty : ¬balances.active.isEmpty = true := fun empty =>
      somebody (by rw [List.isEmpty_iff.mp empty]; rfl)
    have slots : preset.slotsPerEpoch ≠ 0 := by cases preset <;> decide
    simp only [Word.div_ok somebody, Word.div_ok slots, counted, if_neg nonempty]
    exact if_neg (by decide)

theorem ChainConfig.boostPercent_le (valid : config.validate = .ok ()) :
    config.boostPercent.toNat ≤ 100 := by
  rw [validate] at valid
  split_ifs at valid with _ _ excessive
  exact UInt64.le_iff_toNat_le.mp (UInt64.not_lt.mp excessive)

/--
For every valid configuration and all balances: in words, the score comes out of its calculation
without overflow and without division by zero, for every list whose length is a word. Times a
hundred and the slots of an epoch it is at most the configured percentage of all balances, and so it
does not exceed a slot's share of them. Lists with the same balances other than zero, in whatever
order, have the same score. Where the percentage of all balances fits a word, the score is the
configured percentage of what a committee weighs, rounded down.
-/
theorem boostScore_bounded (preset : Preset) (valid : config.validate = .ok ())
    (balances : Balances) :
    (balances.length < UInt64.size → boostScoreInWords preset config.boostPercent balances =
      .ok (boostScore preset config.boostPercent balances)) ∧
    (boostScore preset config.boostPercent balances).toNat * 100 * preset.slotsPerEpoch.toNat ≤
      config.boostPercent.toNat * balances.total ∧
    (boostScore preset config.boostPercent balances).toNat * preset.slotsPerEpoch.toNat ≤
      balances.total ∧
    (∀ other : Balances, other.active.Perm balances.active →
      boostScore preset config.boostPercent other =
        boostScore preset config.boostPercent balances) ∧
    (balances.total * config.boostPercent.toNat < UInt64.size →
      (boostScore preset config.boostPercent balances).toNat =
        preset.committeeWeight balances.active.length balances.total *
          config.boostPercent.toNat / 100) := by
  have share := boostScore_le preset config.boostPercent balances
  refine ⟨boostScoreInWords_eq, share, ?_, fun other => boostScore_congr, toNat_boostScore_of_fits⟩
  have percentage := Nat.mul_le_mul_right balances.total (config.boostPercent_le valid)
  rw [Nat.mul_right_comm, Nat.mul_comm _ 100] at share
  exact Nat.le_of_mul_le_mul_left (share.trans percentage) (by decide)

def largestBalances : Balances :=
  List.replicate 16 0xffffffffffffffff

/-- Both the sum of the balances and the product with the percentage stop at the largest word. -/
theorem boostScore_bounded_past_largest_word :
    ChainConfig.minimal.validate = .ok () ∧ UInt64.size < largestBalances.total ∧
      largestBalances.length < UInt64.size ∧
      boostScoreInWords .minimal 40 largestBalances = .ok 184467440737095516 ∧
      184467440737095516 * 100 * 8 ≤ 40 * largestBalances.total ∧
      boostScore .minimal 40 (0 :: largestBalances ++ [0, 0]) = 184467440737095516 ∧
      Balances.total (List.replicate 64 32) * 40 < UInt64.size ∧
      (boostScore .minimal 40 (List.replicate 64 32)).toNat = 64 / 8 * (2048 / 64) * 40 / 100 := by
  have valid : ChainConfig.minimal.validate = .ok () := rfl
  have counts : largestBalances.length < UInt64.size := by decide
  have fits : Balances.total (List.replicate 64 32) * 40 < UInt64.size := by decide
  have score : boostScore .minimal 40 largestBalances = 184467440737095516 := by decide +kernel
  obtain ⟨inWords, share, -, same, -⟩ := boostScore_bounded .minimal valid largestBalances
  obtain ⟨-, -, -, -, exact⟩ := boostScore_bounded .minimal valid (List.replicate 64 32)
  have percent : ChainConfig.minimal.boostPercent = 40 := rfl
  rw [percent, score] at share
  exact ⟨valid, by decide +kernel, counts, (inWords counts).trans (congrArg _ score), share,
    (same _ (.of_eq (by decide +kernel))).trans score, fits, exact fits⟩

end LmdGhost
