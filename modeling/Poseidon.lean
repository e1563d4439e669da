import Poseidon.Proofs.CsrUpdates
import Poseidon.Proofs.Deletion
import Poseidon.Proofs.Dictionary
import Poseidon.Proofs.ExprEval
import Poseidon.Proofs.FileScan
import Poseidon.Proofs.FreeSpace
import Poseidon.Proofs.Histories
import Poseidon.Proofs.ImKeyMap
import Poseidon.Proofs.ImRange
import Poseidon.Proofs.IndexRuns
import Poseidon.Proofs.Integrity
import Poseidon.Proofs.Iteration
import Poseidon.Proofs.LogChain
import Poseidon.Proofs.LogSequence
import Poseidon.Proofs.Pins
import Poseidon.Proofs.Recovery
import Poseidon.Proofs.Restore
import Poseidon.Proofs.Rollback
import Poseidon.Proofs.UpdatedChains
import Poseidon.Proofs.ValueOrder
import Poseidon.Proofs.OrderBy
import Poseidon.Proofs.VersionMap
import Poseidon.Proofs.DeltaChains
import Poseidon.Proofs.VarExpand
import Poseidon.Proofs.DeltaMerges
import Poseidon.Proofs.DetachRuns
import Poseidon.Proofs.Aggregates
import Poseidon.Proofs.AllWeights
import Poseidon.Proofs.InPlace
import Poseidon.Proofs.BinarySearch
import Poseidon.Proofs.Rebalancing
import Poseidon.Proofs.Imports
import Poseidon.Proofs.ParallelAnswers
import Poseidon.Proofs.Conversions
import Poseidon.Proofs.PropertyReads
import Poseidon.Proofs.RefusedDelete
