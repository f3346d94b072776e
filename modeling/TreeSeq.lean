import TreeSeq.Batch.Basic
import TreeSeq.Batch.Conversion
import TreeSeq.Batch.Run
import TreeSeq.Batch.Schedule
import TreeSeq.Batch.Source
import TreeSeq.CommandLine.Arguments
import TreeSeq.CommandLine.Command
import TreeSeq.CommandLine.Failure
import TreeSeq.CommandLine.Run
import TreeSeq.Decimal.Shortest
import TreeSeq.Disk
import TreeSeq.Error
import TreeSeq.Features.Basic
import TreeSeq.Features.Json
import TreeSeq.Fields
import TreeSeq.Files
import TreeSeq.Glob
import TreeSeq.Json.Fault
import TreeSeq.Json.Numerals
import TreeSeq.Json.Parser
import TreeSeq.Json.Printer
import TreeSeq.Json.Reader
import TreeSeq.Json.Record
import TreeSeq.Json.Strings
import TreeSeq.Json.Value
import TreeSeq.Main
import TreeSeq.Manifest
import TreeSeq.Path
import TreeSeq.Proofs.Disk
import TreeSeq.Proofs.Fields
import TreeSeq.Proofs.Json.Numerals
import TreeSeq.Proofs.Json.Printer
import TreeSeq.Proofs.Json.Reading
import TreeSeq.Proofs.Json.Record
import TreeSeq.Proofs.Json.Strings
import TreeSeq.Proofs.Json.Values
import TreeSeq.Proofs.Sequence.Congruence
import TreeSeq.Proofs.Sequence.DepthFirst
import TreeSeq.Proofs.Sequence.File
import TreeSeq.Proofs.Sequence.Forest
import TreeSeq.Proofs.Sequence.Intervals
import TreeSeq.Proofs.Sequence.Links
import TreeSeq.Proofs.Sequence.Reencoding
import TreeSeq.Proofs.Sequence.Refusal
import TreeSeq.Proofs.Sequence.Renumbering
import TreeSeq.Proofs.Sequence.RoundTrip
import TreeSeq.Proofs.Sequence.Unfolding
import TreeSeq.Proofs.Slots
import TreeSeq.Proofs.Text.Document
import TreeSeq.Proofs.Tree.Children
import TreeSeq.Proofs.Tree.Equality
import TreeSeq.Proofs.Tree.Export
import TreeSeq.Proofs.Tree.File
import TreeSeq.Proofs.Tree.Import
import TreeSeq.Proofs.Tree.Inverse
import TreeSeq.Proofs.Tree.Reads
import TreeSeq.Proofs.Tree.Reimport
import TreeSeq.Proofs.Tree.SlotOrder
import TreeSeq.Proofs.Vocabulary.Growth
import TreeSeq.Proofs.Vocabulary.Inversion
import TreeSeq.Sequence.Basic
import TreeSeq.Sequence.Decoding
import TreeSeq.Sequence.Encoding
import TreeSeq.Sequence.Json
import TreeSeq.Sequence.Stats
import TreeSeq.Settings
import TreeSeq.Stage
import TreeSeq.Text.Blank
import TreeSeq.Text.Case
import TreeSeq.Text.Document
import TreeSeq.Text.Lines
import TreeSeq.Text.Lowercase
import TreeSeq.Text.Numeral
import TreeSeq.Text.Quoted
import TreeSeq.Text.Ranges
import TreeSeq.Text.Unprintable
import TreeSeq.TokenStream
import TreeSeq.Toml.Numerals
import TreeSeq.Toml.Parser
import TreeSeq.Toml.Scanner
import TreeSeq.Toml.Strings
import TreeSeq.Toml.Tables
import TreeSeq.Toml.Value
import TreeSeq.Tree.Basic
import TreeSeq.Tree.Equality
import TreeSeq.Tree.Export
import TreeSeq.Tree.Import
import TreeSeq.Verbosity
import TreeSeq.Vocabulary.Basic
import TreeSeq.Vocabulary.File
import TreeSeq.Vocabulary.Inverse
import TreeSeq.Proofs.Text.Lines
import TreeSeq.Proofs.Text.Words
import TreeSeq.Proofs.Vocabulary.DoubleInversion
import TreeSeq.Proofs.Vocabulary.Enumeration
import TreeSeq.Proofs.Vocabulary.File
import TreeSeq.Proofs.Hasher.Streams
import TreeSeq.Proofs.Hasher.Growth
import TreeSeq.Proofs.Disk.Frame
import TreeSeq.Proofs.Batch.Conversion
import TreeSeq.Proofs.Hasher.Files
import TreeSeq.Proofs.Disk.WellFormed
import TreeSeq.Proofs.Batch.Source
import TreeSeq.Proofs.Batch.Run
import TreeSeq.Proofs.Features.Columns
import TreeSeq.Proofs.Features.File
import TreeSeq.Proofs.CommandLine.Vectors
import TreeSeq.Proofs.Batch.Vectors
import TreeSeq.Proofs.Disk.Ways
import TreeSeq.Proofs.Disk.Changes
import TreeSeq.Proofs.Disk.Agreement
import TreeSeq.Proofs.Batch.Steps
import TreeSeq.Proofs.Manifest
import TreeSeq.Proofs.Batch.Task
import TreeSeq.Proofs.Batch.Manifest
import TreeSeq.Proofs.Batch.Schedule
import TreeSeq.Proofs.Batch.Outputs
import TreeSeq.Proofs.Batch.Order
import TreeSeq.Proofs.Tree.Loading
import TreeSeq.Proofs.Sequence.Storage
import TreeSeq.Proofs.Glob
import TreeSeq.Proofs.Disk.Vacant
import TreeSeq.Proofs.Batch.Names
import TreeSeq.Proofs.Batch.Fresh
import TreeSeq.Proofs.Batch.Stored
import TreeSeq.Proofs.Batch.RoundTrip
import TreeSeq.Proofs.Tree.Depth
import TreeSeq.Proofs.Sequence.Depth
import TreeSeq.Proofs.Sequence.Stats
import TreeSeq.Proofs.Disk.Guarded
import TreeSeq.Proofs.Hasher.Acceptance
import TreeSeq.Proofs.Batch.Contents
import TreeSeq.Proofs.CommandLine.Traces
import TreeSeq.Proofs.Sequence.Preorder
import TreeSeq.Proofs.Sequence.Recursion
import TreeSeq.Proofs.Sequence.Relabelling
import TreeSeq.Proofs.Tree.Normal
import TreeSeq.Proofs.Sequence.Walk
import TreeSeq.Proofs.Sequence.Measures
import TreeSeq.Proofs.Tree.Counting
import TreeSeq.Proofs.Tree.Grammar
import TreeSeq.Proofs.Tree.FieldOrder
import TreeSeq.Proofs.Hasher.Numerals
import TreeSeq.Proofs.Hasher.Unhashing
import TreeSeq.Proofs.Vocabulary.Reading
import TreeSeq.Proofs.Vocabulary.Corpus
import TreeSeq.Proofs.Features.Counts
import TreeSeq.Proofs.Features.SinglePass
import TreeSeq.Proofs.Features.Snapshots
import TreeSeq.Proofs.Features.Separation
import TreeSeq.Proofs.Sequence.Termination
