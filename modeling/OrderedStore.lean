import OrderedStore.Decimal.Nearest
import OrderedStore.Latch
import OrderedStore.LockTable
import OrderedStore.Operation.Counter
import OrderedStore.Packed.Map
import OrderedStore.Store.Audit
import OrderedStore.Bytes.Reader
import OrderedStore.Proofs.Block.Soundness
import OrderedStore.Proofs.Block.Growth
import OrderedStore.Proofs.Block.Compaction
import OrderedStore.Proofs.Block.Writes
import OrderedStore.Proofs.Block.Reshapes
import OrderedStore.Proofs.Directory.Segments
import OrderedStore.Proofs.Run.Updates
import OrderedStore.Proofs.Store.Tiling
import OrderedStore.Proofs.Writer.Spans
import OrderedStore.Proofs.Writer.Entries
import OrderedStore.Proofs.Writer.Writes
import OrderedStore.Proofs.Writer.Puts
import OrderedStore.Proofs.Writer.Rounds
import OrderedStore.Proofs.Writer.Changes
import OrderedStore.Proofs.Store.Merging
import OrderedStore.Proofs.Store.Calls
import OrderedStore.Proofs.Store.Searches
import OrderedStore.Proofs.Store.Commits
import OrderedStore.Proofs.Scan.Upward
import OrderedStore.Proofs.Store.Contents
import OrderedStore.Proofs.Store.Ranges
import OrderedStore.Proofs.Store.Reachable
import OrderedStore.Proofs.Store.Audits
import OrderedStore.Proofs.Store.Layout
import OrderedStore.Proofs.Store.Accounts
import OrderedStore.Proofs.Store.Atomicity
import OrderedStore.Proofs.Store.Refinement
import OrderedStore.Proofs.Store.Puts
import OrderedStore.Proofs.Store.Walks
import OrderedStore.Proofs.Record.Decoding
import OrderedStore.Proofs.Scan.Downward
import OrderedStore.Proofs.Scan.Steps
import OrderedStore.Proofs.Scan.Cursors
import OrderedStore.Proofs.Scan.Histories
import OrderedStore.Proofs.Bytes.Varints
import OrderedStore.Proofs.Packed.Encoding
import OrderedStore.Proofs.Packed.Chunks
import OrderedStore.Proofs.Packed.Rewrites
import OrderedStore.Proofs.Packed.Records
import OrderedStore.Proofs.Packed.Operations
import OrderedStore.Proofs.Packed.Catalog
import OrderedStore.Proofs.Packed.Holdings
import OrderedStore.Proofs.Packed.Fields
import OrderedStore.Proofs.Packed.Deletions
import OrderedStore.Proofs.Packed.Refinement
import OrderedStore.Proofs.Packed.Ceiling
import OrderedStore.Proofs.Packed.Written
import OrderedStore.Proofs.Packed.Parts
import OrderedStore.Proofs.Packed.Balance
import OrderedStore.Proofs.Packed.Sizes
import OrderedStore.Proofs.Block.Rounds
import OrderedStore.Proofs.Block.Room
import OrderedStore.Proofs.Bytes.Edits
import OrderedStore.Proofs.Block.Pages
import OrderedStore.Proofs.Block.Refinement
import OrderedStore.Proofs.Block.Splits
import OrderedStore.Proofs.Block.Boundaries
import OrderedStore.Proofs.Block.Compacted
import OrderedStore.Proofs.Block.Merges
import OrderedStore.Proofs.Store.Compactions
import OrderedStore.Proofs.Block.Stamps
import OrderedStore.Proofs.Bytes.Access
import OrderedStore.Proofs.Record.Recovery
import OrderedStore.Proofs.Record.Iteration
import OrderedStore.Proofs.Record.Layouts
import OrderedStore.Proofs.Packed.Cells
import OrderedStore.Proofs.Packed.Views
import OrderedStore.Proofs.Packed.FieldWrites
import OrderedStore.Proofs.Packed.KeyRanges
import OrderedStore.Proofs.Bytes.Groups
import OrderedStore.Proofs.Operation.Decimals
import OrderedStore.Proofs.Store.Counters
import OrderedStore.Proofs.Locks.Parties
import OrderedStore.Proofs.Locks.Primes
import OrderedStore.Proofs.Ledger.Regions
import OrderedStore.Proofs.Store.Moments
