import Lsmdb.Db.AnyFile
import Lsmdb.Db.StreamFile
import Lsmdb.Db.Bootstrap
import Lsmdb.Db.Compactor
import Lsmdb.Db.ReadErrors
import Lsmdb.Db.Faults
import Lsmdb.Db.Replay
import Lsmdb.Raft.Rejection
import Lsmdb.Raft.Contact
import Lsmdb.Raft.Lagging
import Lsmdb.Raft.Orderly
import Lsmdb.RaftStore.SnapshotFile
import Lsmdb.RaftStore.Cuts
import Lsmdb.RaftStore.Promises
import Lsmdb.RaftGrpc.SnapshotStream
import Lsmdb.RaftGrpc.Wire
import Lsmdb.RaftNode.Ordering
import Lsmdb.RaftNode.Proposals
import Lsmdb.RaftNode.Application
import Lsmdb.KvClient.Retry
import Lsmdb.Cluster.Lease
import Lsmdb.Cluster.Leaders
import Lsmdb.KvState.Machine
