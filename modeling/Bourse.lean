import Bourse.Data.OrderedMap
import Bourse.Data.Loop
import Bourse.Data.Fifo
import Bourse.Data.Machine
import Bourse.Data.Throughout
import Bourse.Data.RingIndex
import Bourse.Data.Fallible
import Bourse.Data.ReleaseAcquire
import Bourse.Data.Handover
import Bourse.Data.Replacing
import Bourse.Data.Bytes
import Bourse.Data.Framing
import Bourse.Data.Crc32c
import Bourse.Data.Decimal
import Bourse.Types
import Bourse.Book.Core
import Bourse.Book.Queue
import Bourse.Book.Invariant
import Bourse.Book.Resting
import Bourse.Book.Rebuild
import Bourse.Book.Fillable
import Bourse.Book.Algebra
import Bourse.Matcher.Core
import Bourse.Matcher.Run
import Bourse.Matcher.Invariant
import Bourse.Matcher.Lifecycle
import Bourse.Matcher.Mirror
import Bourse.Matcher.Reference
import Bourse.Matcher.Priority
import Bourse.Matcher.Kinds
import Bourse.Hub.Core
import Bourse.Hub.Routing
import Bourse.Hub.Owners
import Bourse.Hub.Shutdown
import Bourse.Hub.Stages
import Bourse.Hub.Forget
import Bourse.Hub.Progress
import Bourse.Spsc.Core
import Bourse.Spsc.Invariant
import Bourse.Spsc.Refinement
import Bourse.Spsc.Halves
import Bourse.Spsc.Sound
import Bourse.Spsc.Weak
import Bourse.Engine
import Bourse.Engine.Stop
import Bourse.Engine.Weak
import Bourse.Engine.Warned
import Bourse.Wal.Codec
import Bourse.Wal.Exact
import Bourse.Wal.Writer
import Bourse.Wal.Corrupted
import Bourse.Wal.Directory
import Bourse.Wal.Sessions
import Bourse.Wal.Rotation
import Bourse.Wal.Torn
import Bourse.Wal.Acts
import Bourse.Wal.Faulty
import Bourse.Wal.Interrupted
import Bourse.Wal.Recovered
import Bourse.Snapshot.Codec
import Bourse.Snapshot.Exact
import Bourse.Replay
import Bourse.Snapshot.Saved
import Bourse.Restart
import Bourse.Protocol.Codec
import Bourse.Protocol.Exact
import Bourse.Protocol.Stream
import Bourse.Server.Core
import Bourse.Server.Reading
import Bourse.Server.Writing
import Bourse.Server.Serving
import Bourse.Server.Clients
import Bourse.Server.Closing
