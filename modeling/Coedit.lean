import Coedit.Channel.Run
import Coedit.Json.Equality
import Coedit.Json.Reader
import Coedit.Json.Writer
import Coedit.Proofs.Channel.Accounting
import Coedit.Proofs.Channel.Acknowledging
import Coedit.Proofs.Channel.Assertions
import Coedit.Proofs.Channel.Backoff
import Coedit.Proofs.Channel.DeliveryOrder
import Coedit.Proofs.Channel.Emptied
import Coedit.Proofs.Channel.LateReplies
import Coedit.Proofs.Channel.Resubmission
import Coedit.Proofs.Channel.SaveState
import Coedit.Proofs.Channel.Steps
import Coedit.Proofs.Document.Cancelling
import Coedit.Proofs.Document.Composition
import Coedit.Proofs.Document.Noops
import Coedit.Proofs.Document.Persistence
import Coedit.Proofs.Document.Recovery
import Coedit.Proofs.Document.References
import Coedit.Proofs.Document.Transform
import Coedit.Proofs.Document.Undo
import Coedit.Proofs.Network.Convergence
import Coedit.Proofs.Network.Reconnect
import Coedit.Proofs.Queue.Compaction
import Coedit.Proofs.Queue.Echoes
import Coedit.Proofs.Queue.Grid
import Coedit.Proofs.Queue.Replica
import Coedit.Proofs.Queue.Revisions
import Coedit.Proofs.Sequence.Associativity
import Coedit.Proofs.Sequence.Canonical
import Coedit.Proofs.Sequence.Composition
import Coedit.Proofs.Sequence.Cursor
import Coedit.Proofs.Sequence.Merge
import Coedit.Proofs.Session.Fatal
import Coedit.Proofs.Session.Rejection
import Coedit.Proofs.Session.Timers
import Coedit.Proofs.Text.Runs
import Coedit.Proofs.Wire.Message
import Coedit.Session.Journal
import Coedit.Session.Run
import Coedit.Wire.Config
import Coedit.Wire.Message
