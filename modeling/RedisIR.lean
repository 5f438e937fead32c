import RedisIR.Proofs.Glob
import RedisIR.Proofs.Scan
import RedisIR.Proofs.Strings
import RedisIR.Proofs.Checkpoint
import RedisIR.Proofs.Truncation
import RedisIR.Proofs.Consumption
import RedisIR.Proofs.Deletion
import RedisIR.Proofs.Replica
import RedisIR.Proofs.AofFile
import RedisIR.Proofs.Rewrite
import RedisIR.Proofs.TruncatedLoad
import RedisIR.Proofs.RewriteRecovery
import RedisIR.Proofs.Intset
import RedisIR.Proofs.Listpack
import RedisIR.Proofs.Ziplist
import RedisIR.Proofs.Rdb
import RedisIR.Proofs.Watch
import RedisIR.Proofs.XreadLoop
import RedisIR.Proofs.StreamReplay
import RedisIR.Proofs.Backlog
import RedisIR.Proofs.Expire
import RedisIR.Proofs.BlockedLists
import RedisIR.Proofs.WatchedKeys
import RedisIR.Proofs.WatchView
import RedisIR.Proofs.BlockingPops
import RedisIR.Proofs.ClusterElection
import RedisIR.Proofs.SentinelElection
import RedisIR.Proofs.KeyPositions
import RedisIR.Proofs.Restarts
import RedisIR.Proofs.Chart
import RedisIR.Proofs.SplitArgs
import RedisIR.Proofs.Slots
