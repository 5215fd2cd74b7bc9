import Overlay.Interchange.Settings
import Overlay.Literal
import Overlay.Proofs.Engine.Accessing
import Overlay.Proofs.Engine.Attributing
import Overlay.Proofs.Engine.Collecting
import Overlay.Proofs.Engine.Independence
import Overlay.Proofs.Engine.Initialised
import Overlay.Proofs.Engine.Lawful
import Overlay.Proofs.Engine.Leniency
import Overlay.Proofs.Engine.Releasing
import Overlay.Proofs.Engine.Subtyping
import Overlay.Proofs.Engine.Vetting
import Overlay.Proofs.Enumeration.Addressing
import Overlay.Proofs.Enumeration.Audit
import Overlay.Proofs.Enumeration.Fields
import Overlay.Proofs.Heap.Equivalence
import Overlay.Proofs.Heap.Histories
import Overlay.Proofs.Interchange.Canonical
import Overlay.Proofs.Interchange.Loading
import Overlay.Proofs.Interchange.Portable
import Overlay.Proofs.Interchange.RoundTrip
import Overlay.Proofs.Schema.Spelling
import Overlay.Proofs.Schema.Visible
import Overlay.Proofs.Snapshot.Detached
import Overlay.Proofs.Snapshot.Fields
import Overlay.Proofs.Snapshot.Liveness
import Overlay.Proofs.Snapshot.Observing
import Overlay.Proofs.Time.Millis
import Overlay.Schema.Inspect
import Overlay.Session
