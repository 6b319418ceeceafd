import RowStore.Codec.Lemmas
import RowStore.Disk.Lemmas
import RowStore.Engine.Cache.Lemmas
import RowStore.Lock.Lemmas
import RowStore.Lock.Listing
import RowStore.Lock.Waiting
import RowStore.Page.Lemmas
import RowStore.Proofs.Atomicity
import RowStore.Proofs.Isolation
import RowStore.Proofs.Lock.Granting
import RowStore.Proofs.PageImage
import RowStore.Query.Plan
import RowStore.Schema
import RowStore.Proofs.PageBytes
import RowStore.Proofs.Durability
import RowStore.Proofs.Rollback
import RowStore.Proofs.Cleanup
import RowStore.Proofs.Eviction
import RowStore.Proofs.Transparency
import RowStore.Proofs.RepeatableScan
import RowStore.Proofs.Lock.Counting
import RowStore.Proofs.Lock.Releasing
import RowStore.Proofs.Query.Inserting
import RowStore.Catalog.Lemmas
import RowStore.Proofs.Naming
import RowStore.Proofs.PageSchemas
import RowStore.Proofs.Query.Closing
import RowStore.Proofs.Engine.Refusing
import RowStore.Proofs.Query.Welltyped
import RowStore.Proofs.Requesting
import RowStore.Proofs.Query.Tracking
import RowStore.Proofs.Query.Partitioning
import RowStore.Proofs.Scan.Guarantees
import RowStore.Proofs.Growing
import RowStore.Proofs.FailedChange
import RowStore.Proofs.Query.Reordering
import RowStore.Proofs.PageArray
import RowStore.Proofs.PageAddressing
import RowStore.Proofs.Rereading
import RowStore.Proofs.Filling
import RowStore.Proofs.Query.Deleting
import RowStore.Proofs.PageSlots
import RowStore.Proofs.RowBytes
import RowStore.Proofs.PageRoom
