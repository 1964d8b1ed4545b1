import BitcoinBlock.Block.Reading
import BitcoinBlock.Block.Template
import BitcoinBlock.Main
import BitcoinBlock.Proofs.Block.Batch
import BitcoinBlock.Proofs.Block.Building
import BitcoinBlock.Proofs.Block.Conservation
import BitcoinBlock.Proofs.Block.Count
import BitcoinBlock.Proofs.Block.Grammar
import BitcoinBlock.Proofs.Block.Labels
import BitcoinBlock.Proofs.Block.Lazy
import BitcoinBlock.Proofs.Block.LeastNonce
import BitcoinBlock.Proofs.Block.Mining
import BitcoinBlock.Proofs.Block.Reading
import BitcoinBlock.Proofs.Block.RoundTrip
import BitcoinBlock.Proofs.Block.Splitting
import BitcoinBlock.Proofs.CommandLine.HeaderAlone
import BitcoinBlock.Proofs.CommandLine.Sources
import BitcoinBlock.Proofs.CompactBits.Canonical
import BitcoinBlock.Proofs.CompactBits.Rounding
import BitcoinBlock.Proofs.Hash
import BitcoinBlock.Proofs.Header
import BitcoinBlock.Proofs.Merkle.Binding
import BitcoinBlock.Proofs.Merkle.Repetition
import BitcoinBlock.Proofs.Merkle.Tree
import BitcoinBlock.Proofs.Script.Shortest
import BitcoinBlock.Proofs.Text.Numeral
import BitcoinBlock.Proofs.Transaction.Exact
import BitcoinBlock.Proofs.Transaction.RoundTrip
import BitcoinBlock.Proofs.Transaction.Stripped
import BitcoinBlock.Proofs.Wire.ByteString
import BitcoinBlock.Proofs.Wire.Cursor
import BitcoinBlock.Proofs.Wire.Exact
import BitcoinBlock.Proofs.Wire.Kind
import BitcoinBlock.Proofs.Wire.Streaming
import BitcoinBlock.Storage
import BitcoinBlock.Wire.Cursor
import BitcoinBlock.Wire.Kind
