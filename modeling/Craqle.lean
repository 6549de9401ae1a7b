import Craqle.Sync.Canonical
import Craqle.Replication.Freshness
import Craqle.Replication.Hints
import Craqle.Replication.Reconcile
import Craqle.Index.Trust
import Craqle.Index.Generation
import Craqle.Store.Backlog
import Craqle.Store.Budget
import Craqle.Store.Caches
import Craqle.Store.Gate
import Craqle.Store.Interning
import Craqle.Store.Retention
import Craqle.Replication.Fence
import Craqle.Crate.Frames
import Craqle.Crate.Valid
import Craqle.Query.Shape
import Craqle.Query.Sequence
import Craqle.Query.Serial
import Craqle.Query.Grants
import Craqle.Query.Slice
import Craqle.Shacl.Imports
import Craqle.Shacl.Report
