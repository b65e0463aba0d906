import MuseKv.Hash.Equiv.FiniteMap
import MuseKv.Hash.Equiv.Sweep
import MuseKv.Value.Equiv.Hashset
import MuseKv.Value.Equiv.HashmapBuckets
import MuseKv.General.Chain
import MuseKv.Kvstore.Equiv.Text
import MuseKv.Kvstore.Equiv.Loops
import MuseKv.Kvstore.Equiv.Strtoint
import MuseKv.Encrypt.Basic
import MuseKv.Encrypt.Equiv.Keys
import MuseKv.Command.Equiv.RoundTrip
import MuseKv.Command.Equiv.WriteProtection
import MuseKv.Command.Equiv.ReadProtection
import MuseKv.Command.Equiv.Classification
import MuseKv.Command.Equiv.ReadBack
import MuseKv.Command.Equiv.Sort
import MuseKv.Command.Equiv.Create
import MuseKv.Command.Equiv.Stored
import MuseKv.Command.Equiv.Invisible
import MuseKv.Command.Equiv.Levels
import MuseKv.Command.Equiv.Linearizable
import MuseKv.Server.Equiv.Route
import MuseKv.Server.Equiv.Forwarded
import MuseKv.Server.Equiv.Log
import MuseKv.Server.Equiv.Encrypters
import MuseKv.Server.Equiv.Sessions
import MuseKv.Server.Equiv.Limit
import MuseKv.Server.Equiv.Framing
import MuseKv.Server.Equiv.Bounds
import MuseKv.Cluster.Equiv.Coverage
import MuseKv.Cluster.Equiv.Table
import MuseKv.Cluster.Equiv.Building
import MuseKv.Cluster.Equiv.Builder
import MuseKv.Cluster.Equiv.FailOver
import MuseKv.Cluster.Equiv.TryCluster
import MuseKv.Cluster.Equiv.SharedLink
import MuseKv.Replica.Equiv.Agreement
import MuseKv.Replica.Equiv.Circulation
import MuseKv.Replica.Equiv.Drain
import MuseKv.Replica.Equiv.Sockets
import MuseKv.General.RealTime
import MuseKv.Client.Equiv.Handshake
import MuseKv.Client.Equiv.Recover
import MuseKv.Client.Equiv.Restore
import MuseKv.Command.Equiv.Locality
import MuseKv.Command.Equiv.Isolation
import MuseKv.Command.Equiv.Deque
import MuseKv.Command.Equiv.Lifetime
import MuseKv.Command.Equiv.Expiry
import MuseKv.Command.Equiv.Sweeps
import MuseKv.Cluster.Equiv.Serving
import MuseKv.Cluster.Equiv.Placing
import MuseKv.Cluster.Equiv.Progress
import MuseKv.Cluster.Equiv.Queue
