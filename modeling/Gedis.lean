import Gedis.Storage.Accounting
import Gedis.Commands.Flush
import Gedis.Commands.Sidecar
import Gedis.Replication.Link
import Gedis.Replication.Session
import Gedis.Commands.TxnWatch
import Gedis.Commands.TxnIsolation
import Gedis.Commands.Intersections
import Gedis.Protocol.Hostile
import Gedis.Commands.FunctionDump
import Gedis.Commands.FunctionStore
import Gedis.Commands.Publishers
import Gedis.Commands.StringRanges
import Gedis.Commands.ZBounds
import Gedis.Commands.Counting
import Gedis.Commands.NumkeysSafe
import Gedis.Commands.Save
import Gedis.Commands.TrackingRuns
import Gedis.Commands.Moves
import Gedis.Commands.Migration
import Gedis.Acl.Saved
import Gedis.Acl.Coverage
import Gedis.Acl.Channels
import Gedis.Sentinel.Adoption
import Gedis.Sentinel.Election
import Gedis.Sentinel.Promotion
import Gedis.Datastruct.Geo
import Gedis.Sentinel.Selection
import Gedis.Cluster.SlotKeys
import Gedis.Cluster.Agreement
