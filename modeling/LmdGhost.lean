import LmdGhost.Attestation
import LmdGhost.BeaconBlock
import LmdGhost.BlockTree.Basic
import LmdGhost.BlockTree.Chain
import LmdGhost.BlockTree.Error
import LmdGhost.BlockTree.Json
import LmdGhost.BlockTree.Payload
import LmdGhost.BlockTree.Prune
import LmdGhost.BlockTree.Scores
import LmdGhost.BlockTree.Viability
import LmdGhost.BoostScore
import LmdGhost.ChainConfig.Basic
import LmdGhost.ChainConfig.Json
import LmdGhost.Checkpoint
import LmdGhost.Clock
import LmdGhost.Difficulty
import LmdGhost.Duration
import LmdGhost.ExecutionEngine
import LmdGhost.ForkChoice.Attest
import LmdGhost.ForkChoice.Basic
import LmdGhost.ForkChoice.Error
import LmdGhost.ForkChoice.Head
import LmdGhost.ForkChoice.Import
import LmdGhost.ForkChoice.Maintenance
import LmdGhost.ForkChoice.Snapshot
import LmdGhost.ForkChoice.Time
import LmdGhost.Json
import LmdGhost.MergeTransition
import LmdGhost.NodeSettings
import LmdGhost.Notice
import LmdGhost.Outcome
import LmdGhost.PayloadStatus
import LmdGhost.Preset
import LmdGhost.Proofs.BlockTree.Ancestry
import LmdGhost.Proofs.BlockTree.Backing
import LmdGhost.Proofs.BlockTree.Bounds
import LmdGhost.Proofs.BlockTree.Calls
import LmdGhost.Proofs.BlockTree.Choice
import LmdGhost.Proofs.BlockTree.Confirmation
import LmdGhost.Proofs.BlockTree.Decoding
import LmdGhost.Proofs.BlockTree.Descent
import LmdGhost.Proofs.BlockTree.ExactWeights
import LmdGhost.Proofs.BlockTree.Faults
import LmdGhost.Proofs.BlockTree.Grading
import LmdGhost.Proofs.BlockTree.Growth
import LmdGhost.Proofs.BlockTree.Guidance
import LmdGhost.Proofs.BlockTree.Headers
import LmdGhost.Proofs.BlockTree.Headroom
import LmdGhost.Proofs.BlockTree.Heads
import LmdGhost.Proofs.BlockTree.InBounds
import LmdGhost.Proofs.BlockTree.Insertion
import LmdGhost.Proofs.BlockTree.Judgement
import LmdGhost.Proofs.BlockTree.Lineage
import LmdGhost.Proofs.BlockTree.Meeting
import LmdGhost.Proofs.BlockTree.ParentChain
import LmdGhost.Proofs.BlockTree.PrunedScores
import LmdGhost.Proofs.BlockTree.PrunedView
import LmdGhost.Proofs.BlockTree.Pruning
import LmdGhost.Proofs.BlockTree.Repetition
import LmdGhost.Proofs.BlockTree.Scores
import LmdGhost.Proofs.BlockTree.Siblings
import LmdGhost.Proofs.BlockTree.Slots
import LmdGhost.Proofs.BlockTree.Stranding
import LmdGhost.Proofs.BlockTree.Subtrees
import LmdGhost.Proofs.BlockTree.Sweep
import LmdGhost.Proofs.BlockTree.Verdicts
import LmdGhost.Proofs.BlockTree.Walks
import LmdGhost.Proofs.BlockTree.Weighing
import LmdGhost.Proofs.BlockTree.WellFormed
import LmdGhost.Proofs.BoostScore
import LmdGhost.Proofs.ChainConfig
import LmdGhost.Proofs.ForkChoice.Accounts
import LmdGhost.Proofs.ForkChoice.Admission
import LmdGhost.Proofs.ForkChoice.Boosting
import LmdGhost.Proofs.ForkChoice.Calls
import LmdGhost.Proofs.ForkChoice.ChainQueries
import LmdGhost.Proofs.ForkChoice.Checkpoints
import LmdGhost.Proofs.ForkChoice.Deferral
import LmdGhost.Proofs.ForkChoice.Deviation
import LmdGhost.Proofs.ForkChoice.Drift
import LmdGhost.Proofs.ForkChoice.EarlyVotes
import LmdGhost.Proofs.ForkChoice.Faults
import LmdGhost.Proofs.ForkChoice.Finality
import LmdGhost.Proofs.ForkChoice.FinalityTests
import LmdGhost.Proofs.ForkChoice.Headroom
import LmdGhost.Proofs.ForkChoice.Import
import LmdGhost.Proofs.ForkChoice.MergeBlocks
import LmdGhost.Proofs.ForkChoice.Passage
import LmdGhost.Proofs.ForkChoice.Queue
import LmdGhost.Proofs.ForkChoice.Receipts
import LmdGhost.Proofs.ForkChoice.Recollection
import LmdGhost.Proofs.ForkChoice.Rejection
import LmdGhost.Proofs.ForkChoice.Resumption
import LmdGhost.Proofs.ForkChoice.Selection
import LmdGhost.Proofs.ForkChoice.Synced
import LmdGhost.Proofs.ForkChoice.Targets
import LmdGhost.Proofs.ForkChoice.Verdicts
import LmdGhost.Proofs.ForkChoice.VoteBounds
import LmdGhost.Proofs.ForkChoice.Watching
import LmdGhost.Proofs.ForkChoice.Weights
import LmdGhost.Proofs.Json
import LmdGhost.Proofs.Outcome
import LmdGhost.Proofs.Run
import LmdGhost.Proofs.VoteTable.Headroom
import LmdGhost.Proofs.VoteTable.LatestMessage
import LmdGhost.Proofs.VoteTable.Movement
import LmdGhost.Proofs.VoteTable.Support
import LmdGhost.Root
import LmdGhost.RootIndex
import LmdGhost.Store
import LmdGhost.Text.Decimal
import LmdGhost.Text.Hex
import LmdGhost.VoteTable.Basic
import LmdGhost.VoteTable.Deltas
import LmdGhost.Word
