import UltraSql.Txn.VacuumHorizon
import UltraSql.Lock.Exclusion
import UltraSql.Storage.Redo
import UltraSql.Recovery.TwoPhase
import UltraSql.Ssi.Serializability
import UltraSql.Heap.LostWrites
import UltraSql.Index.UniqueRows
import UltraSql.Constraint.ForeignKeySafety
import UltraSql.View.MaterializedSafety
import UltraSql.Heap.CachedReads
import UltraSql.View.AggregatingSafety
import UltraSql.Partition.ChunkSafety
import UltraSql.Index.BrinSafety
import UltraSql.Auth.Escalation
import UltraSql.Sequence.Concurrent
import UltraSql.Sequence.Recycling
import UltraSql.Value.Calendar
import UltraSql.Value.DecimalOrder
import UltraSql.Heap.FamilyRollback
import UltraSql.Storage.WalReader
import UltraSql.Window.Ntile
import UltraSql.Eval.Like
import UltraSql.Partition.Pruning
