import ClawHdf5.Merkle.Mutation
import ClawHdf5.Merkle.Update
import ClawHdf5.Subset.Contiguous
import ClawHdf5.Subset.LeafSlots
import ClawHdf5.Subset.MeshExtract
import ClawHdf5.Subset.Ragged
import ClawHdf5.Filters.LeafHash
import ClawHdf5.Filters.CommitAtomicity
import ClawHdf5.Filters.CompactCrash
import ClawHdf5.Filters.VersionLimit
import ClawHdf5.Filters.WriteOrder
import ClawHdf5.Format.ImplicitIndex
import ClawHdf5.Format.ChunkedRoundTrip
import ClawHdf5.Format.EaRoundTrip
import ClawHdf5.Format.BTreeDepth
import ClawHdf5.Format.MetadataIndex
import ClawHdf5.Format.IntegerRead
import ClawHdf5.Format.HeaderWriter
import ClawHdf5.Format.FilterMask
import ClawHdf5.Agent.AsyncMemory
import ClawHdf5.Agent.Crash
import ClawHdf5.Agent.References
import ClawHdf5.Agent.Rollback
import ClawHdf5.Agent.Snapshot
import ClawHdf5.Agent.WalRecovery
import ClawHdf5.Agent.GraphSearch
import ClawHdf5.Agent.TemporalIndex
import ClawHdf5.Agent.EntityOverlap
