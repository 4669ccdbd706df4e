import Foundation.Proofs.Concurrency
import Foundation.Proofs.Rebuilding
import Foundation.Proofs.Accounting
import Foundation.Proofs.AccumulatorRuns
import Foundation.Proofs.Tombstones
import Foundation.Proofs.Indexes
import Foundation.Proofs.Pages
import Foundation.Proofs.ProjectionStore
import Foundation.Proofs.ReadIsolation
import Foundation.Proofs.Dispatch
import Foundation.Proofs.DispatchBlock
import Foundation.Proofs.Receipts
import Foundation.Proofs.PolicyEngine
import Foundation.Proofs.Money
import Foundation.Proofs.FreshBatches
import Foundation.Proofs.ColumnSelection
import Foundation.Proofs.SealedColumnar
import Foundation.Proofs.MemoryDB
import Foundation.Proofs.MirrorSweep
import Foundation.Proofs.SweepReads
import Foundation.Proofs.RecordStamp
import Foundation.Proofs.MutationWire
import Foundation.Proofs.MerkleWitness
import Foundation.Proofs.ChainWalks
import Foundation.Proofs.SlotHints
import Foundation.Proofs.RecordKeys
import Foundation.Proofs.ExtensionRoundTrip
import Foundation.Proofs.ExtensionHeap
import Foundation.Proofs.LatticeMaplet
import Foundation.Proofs.RuntimeMaplet
import Foundation.Proofs.CachedStateStore
import Foundation.Proofs.Hub
import Foundation.Proofs.WorkerEngine
import Foundation.Proofs.TenantPersistence
import Foundation.Proofs.ProjectionAdapter
import Foundation.Proofs.Racer
import Foundation.Proofs.DedupRing
import Foundation.Proofs.ColumnarScan
import Foundation.Proofs.ColumnarBitmap
import Foundation.Proofs.ColumnarReduce
import Foundation.Proofs.RingBuffer
import Foundation.Proofs.AcceptEncoding
import Foundation.Proofs.Cache
import Foundation.Proofs.DeviceRouting
import Foundation.Proofs.Loader
