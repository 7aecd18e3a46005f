import PackedColumn.Column.Printed
import PackedColumn.Memory.Pool
import PackedColumn.Schema.Written
import PackedColumn.Workspace
import PackedColumn.Proofs.CopyRange
import PackedColumn.Proofs.LayoutChecks
import PackedColumn.Proofs.Transfers
import PackedColumn.Proofs.Encoding
import PackedColumn.Proofs.Refusals
import PackedColumn.Proofs.Overflow
import PackedColumn.Proofs.Capacity
import PackedColumn.Proofs.Overwrites
import PackedColumn.Proofs.Exchange
import PackedColumn.Proofs.Leftovers
import PackedColumn.Proofs.Extremes
import PackedColumn.Proofs.Commutation
import PackedColumn.Proofs.Scattered
import PackedColumn.Proofs.InitialSizes
import PackedColumn.Proofs.Texts
import PackedColumn.Proofs.Doubling
import PackedColumn.Proofs.Custody
import PackedColumn.Proofs.Plans
import PackedColumn.Proofs.BitCopies
import PackedColumn.Proofs.FlagArrays
import PackedColumn.Proofs.Rewrites
import PackedColumn.Proofs.OffsetArrays
import PackedColumn.Proofs.SchemaTexts
