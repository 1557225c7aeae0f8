import BlockDoc.Archive.Basic
import BlockDoc.Archive.Frame
import BlockDoc.Binary.Input
import BlockDoc.Binary.Reader
import BlockDoc.Binary.Writer
import BlockDoc.Bytes
import BlockDoc.Charset.Basic
import BlockDoc.Charset.CodePage
import BlockDoc.Charset.Label
import BlockDoc.Checksum
import BlockDoc.Command.Arguments
import BlockDoc.Command.Config
import BlockDoc.Command.Convert
import BlockDoc.Document.Basic
import BlockDoc.Document.Lookup
import BlockDoc.Document.Outline
import BlockDoc.Dump.Line
import BlockDoc.Dump.Reader
import BlockDoc.Dump.Writer
import BlockDoc.Error
import BlockDoc.Files.Document
import BlockDoc.Files.Path
import BlockDoc.Files.Reader
import BlockDoc.Files.Store
import BlockDoc.Keystream
import BlockDoc.Listing
import BlockDoc.Main
import BlockDoc.Multimap.Arena
import BlockDoc.Multimap.Basic
import BlockDoc.Multimap.Cursor
import BlockDoc.Multimap.Forest
import BlockDoc.Outcome
import BlockDoc.Proofs.Archive.Lock
import BlockDoc.Proofs.Archive.RoundTrip
import BlockDoc.Proofs.Binary.Accepted
import BlockDoc.Proofs.Binary.Descent
import BlockDoc.Proofs.Binary.Encoding
import BlockDoc.Proofs.Binary.Groups
import BlockDoc.Proofs.Binary.Parts
import BlockDoc.Proofs.Binary.RoundTrip
import BlockDoc.Proofs.Binary.Truncation
import BlockDoc.Proofs.Binary.Walk
import BlockDoc.Proofs.Charset.Marks
import BlockDoc.Proofs.Charset.RoundTrip
import BlockDoc.Proofs.Charset.Wide
import BlockDoc.Proofs.Checksum.Burst
import BlockDoc.Proofs.Command.Cycle
import BlockDoc.Proofs.Command.Failure
import BlockDoc.Proofs.Command.Lossless
import BlockDoc.Proofs.Command.Overwriting
import BlockDoc.Proofs.Command.SixteenBit
import BlockDoc.Proofs.Document.Built
import BlockDoc.Proofs.Document.Equality
import BlockDoc.Proofs.Document.Limits
import BlockDoc.Proofs.Document.Path
import BlockDoc.Proofs.Document.Sequence
import BlockDoc.Proofs.Document.Tree
import BlockDoc.Proofs.Document.Views
import BlockDoc.Proofs.Dump.Advance
import BlockDoc.Proofs.Dump.Budget
import BlockDoc.Proofs.Dump.Closing
import BlockDoc.Proofs.Dump.Course
import BlockDoc.Proofs.Dump.Failure
import BlockDoc.Proofs.Dump.Faithful
import BlockDoc.Proofs.Dump.Heredoc
import BlockDoc.Proofs.Dump.Image
import BlockDoc.Proofs.Dump.Inclusion
import BlockDoc.Proofs.Dump.Indentation
import BlockDoc.Proofs.Dump.Inlining
import BlockDoc.Proofs.Dump.Joining
import BlockDoc.Proofs.Dump.Layout
import BlockDoc.Proofs.Dump.Line
import BlockDoc.Proofs.Dump.RoundTrip
import BlockDoc.Proofs.Dump.WriterForm
import BlockDoc.Proofs.Files.Dump
import BlockDoc.Proofs.Files.Store
import BlockDoc.Proofs.Keystream.Chunks
import BlockDoc.Proofs.Keystream.Cipher
import BlockDoc.Proofs.Keystream.Period
import BlockDoc.Proofs.Keystream.Range
import BlockDoc.Proofs.Keystream.Residue
import BlockDoc.Proofs.Listing.Dump
import BlockDoc.Proofs.Listing.Nesting
import BlockDoc.Proofs.Multimap.Bunch
import BlockDoc.Proofs.Multimap.Chain
import BlockDoc.Proofs.Multimap.Deletion
import BlockDoc.Proofs.Multimap.Faults
import BlockDoc.Proofs.Multimap.Insertion
import BlockDoc.Proofs.Multimap.Layout
import BlockDoc.Proofs.Multimap.Reading
import BlockDoc.Proofs.Multimap.Recycling
import BlockDoc.Proofs.Multimap.Refinement
import BlockDoc.Proofs.Multimap.Relink
import BlockDoc.Proofs.Multimap.Search
import BlockDoc.Proofs.Multimap.Sound
import BlockDoc.Proofs.Multimap.StableSort
import BlockDoc.Proofs.Multimap.Stores
import BlockDoc.Proofs.Multimap.Traversal
import BlockDoc.Proofs.Multimap.Tree
import BlockDoc.Proofs.Text.Cutting
import BlockDoc.Proofs.Zlib.Stored
import BlockDoc.Sequence
import BlockDoc.Text.Blank
import BlockDoc.Text.Hex
import BlockDoc.Text.Hidden
import BlockDoc.Text.Quoted
import BlockDoc.Text.Split
import BlockDoc.Text.Utf16
import BlockDoc.Zlib.Bits
import BlockDoc.Zlib.Inflate
import BlockDoc.Zlib.PrefixCode
import BlockDoc.Zlib.Store
