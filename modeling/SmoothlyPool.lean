import SmoothlyPool.Library.Checked
import SmoothlyPool.Library.Ledger
import SmoothlyPool.Library.Run
import SmoothlyPool.Proof.Pool.Refine
import SmoothlyPool.Proof.Pool.Books
import SmoothlyPool.Proof.Pool.Buckets
import SmoothlyPool.Proof.Pool.Shares
import SmoothlyPool.Proof.Pool.Solvency
import SmoothlyPool.Proof.Pool.Reentrancy
import SmoothlyPool.Proof.Pool.Credit
import SmoothlyPool.Proof.Pool.Removal
import SmoothlyPool.Proof.Pool.Membership
import SmoothlyPool.Proof.Pool.Kept
import SmoothlyPool.Library.GIndex
import SmoothlyPool.Proof.Merkle.Arrays
import SmoothlyPool.Proof.Merkle.HelperIndices
import SmoothlyPool.Proof.Merkle.Log2
import SmoothlyPool.Proof.Merkle.Multiproof
import SmoothlyPool.Construction.BlockTree
import SmoothlyPool.Proof.Strings
import SmoothlyPool.Proof.Oracle.FeeRecipient
import SmoothlyPool.Proof.Scenario
import SmoothlyPool.Proof.Merkle.Branch
import SmoothlyPool.Proof.Oracle.ValidatorList
import SmoothlyPool.Proof.Merkle.History
import SmoothlyPool.Proof.Merkle.Soundness
import SmoothlyPool.Proof.Pool.ForcedExit
import SmoothlyPool.Proof.Pool.Gate
import SmoothlyPool.Proof.Pool.Payout
import SmoothlyPool.Proof.Pool.Nesting
import SmoothlyPool.Proof.Pool.Backing
import SmoothlyPool.Library.ProRata
import SmoothlyPool.Proof.Pool.Schedule
import SmoothlyPool.Proof.Pool.Drain
import SmoothlyPool.Proof.Merkle.SingleIndex
import SmoothlyPool.Construction.SSZ
import SmoothlyPool.Proof.Merkle.Verifier
import SmoothlyPool.Library.ByteOrder
import SmoothlyPool.Proof.Oracle.LittleEndian
import SmoothlyPool.Library.BalancedTree
import SmoothlyPool.Proof.Oracle.ValidatorRoot
import SmoothlyPool.Construction.Prover
import SmoothlyPool.Proof.Merkle.Compose
import SmoothlyPool.Construction.OffChain
import SmoothlyPool.Proof.Merkle.OffChain
import SmoothlyPool.Proof.Merkle.Scan
import SmoothlyPool.Proof.Pool.Parts
import SmoothlyPool.Proof.Pool.Rate
import SmoothlyPool.Proof.Pool.Access
import SmoothlyPool.Proof.Oracle.Block
import SmoothlyPool.Proof.Pool.Honest
import SmoothlyPool.Proof.Pool.Provenance
import SmoothlyPool.Proof.Pool.Spacing
import SmoothlyPool.Library.ByteMemory
import SmoothlyPool.Construction.Memory
import SmoothlyPool.Proof.Merkle.InPlace
import SmoothlyPool.Proof.Merkle.Bundle
import SmoothlyPool.Construction.Slots
import SmoothlyPool.Proof.Merkle.Slots
import SmoothlyPool.Proof.Oracle.Records
import SmoothlyPool.Library.NestedTree
import SmoothlyPool.Proof.Oracle.Containers
import SmoothlyPool.Proof.Oracle.Paths
import SmoothlyPool.Library.IndexLoop
import SmoothlyPool.Construction.Loops
import SmoothlyPool.Proof.Merkle.Loops
