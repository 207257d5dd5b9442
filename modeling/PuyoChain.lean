import PuyoChain.Field.Zobrist
import PuyoChain.Found.Search
import PuyoChain.Record.Chains
import PuyoChain.Proofs.Field.Operations
import PuyoChain.Proofs.Plan.Replay
import PuyoChain.Proofs.Plan.Roots
import PuyoChain.Proofs.Pose
import PuyoChain.Proofs.Reachability
import PuyoChain.Proofs.Candidate.Listing
import PuyoChain.Proofs.Candidate.Sound
import PuyoChain.Proofs.Candidate.Completion
import PuyoChain.Proofs.Candidate.Keys
import PuyoChain.Proofs.Candidate.Layers
import PuyoChain.Proofs.Candidate.Raised
import PuyoChain.Proofs.Found.Replay
import PuyoChain.Proofs.EraseTrack
import PuyoChain.Proofs.Field.Origins
import PuyoChain.Proofs.Field.Tracking
import PuyoChain.Proofs.Candidate.Purposes
import PuyoChain.Proofs.Twins
import PuyoChain.Proofs.Field.Steps
import PuyoChain.Proofs.Candidate.ThirteenthRow
import PuyoChain.Proofs.Field.Riding
import PuyoChain.Proofs.Found.Stopping
import PuyoChain.Proofs.Field.Vanishing
import PuyoChain.Proofs.Field.Outcome
import PuyoChain.Proofs.Moves
import PuyoChain.Proofs.Field.Resting
import PuyoChain.Proofs.Field.Prediction
import PuyoChain.Proofs.Climbing
import PuyoChain.Proofs.Field.Flood
import PuyoChain.Proofs.Field.Compaction
import PuyoChain.Proofs.Field.Stacking
import PuyoChain.Proofs.Candidate.Shortest
import PuyoChain.Proofs.Found.KeyBudget
import PuyoChain.Proofs.Field.Writing
import PuyoChain.Proofs.Found.SideChains
import PuyoChain.Proofs.Field.Symmetric
import PuyoChain.Proofs.Additions.Reading
import PuyoChain.Proofs.Candidate.Recursion
import PuyoChain.Proofs.Candidate.OnePuyo
import PuyoChain.Proofs.Field.Carrying
import PuyoChain.Proofs.Candidate.Loops
import PuyoChain.Proofs.Candidate.SharedList
