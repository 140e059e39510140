import Sieve.Text.Basic
import Sieve.Text.Utf8
import Sieve.Decimal.Layout
import Sieve.Decimal.Reading
import Sieve.Json.Reader
import Sieve.Json.Writer
import Sieve.Json.Merge
import Sieve.Instant.Text
import Sieve.Filter.Compiler
import Sieve.Schema.Form
import Sieve.Filter.ModelFields
import Sieve.Toml.Reader
import Sieve.Source.Registry
import Sieve.Settings.Load
import Sieve.Logging
import Sieve.Files.Change
import Sieve.Command.Run
import Sieve.Main
import Sieve.Proofs.Json.Lookup
import Sieve.Proofs.Json.Distinct
import Sieve.Proofs.Filter.Overlay
import Sieve.Proofs.Filter.UnsafeKeys
import Sieve.Proofs.Filter.Independence
import Sieve.Proofs.Filter.Faults
import Sieve.Proofs.Filter.FlatKeys
import Sieve.Proofs.Filter.Reordering
import Sieve.Proofs.Filter.Shape
import Sieve.Proofs.Source.Origins
import Sieve.Proofs.Source.Answers
import Sieve.Proofs.Schema.AttributeWords
import Sieve.Proofs.Schema.Placement
import Sieve.Proofs.Schema.Rendering
import Sieve.Proofs.Schema.BlockOrder
import Sieve.Proofs.Json.Merging
import Sieve.Proofs.Filter.Simulation
import Sieve.Proofs.Filter.Frame
import Sieve.Proofs.Filter.Associativity
import Sieve.Proofs.Schema.BareBlocks
import Sieve.Proofs.Schema.CommentWords
import Sieve.Proofs.Schema.Comments
import Sieve.Proofs.Text.Runs
import Sieve.Proofs.Text.Bytes
import Sieve.Proofs.Schema.ByteScan
import Sieve.Proofs.Schema.ByteBlocks
import Sieve.Proofs.Schema.ByteWords
import Sieve.Proofs.Schema.ByteParse
import Sieve.Proofs.Filter.KeySpellings
import Sieve.Proofs.Schema.FoundBlocks
import Sieve.Proofs.Decimal.Numerals
import Sieve.Proofs.Schema.AttributeTokens
import Sieve.Proofs.Schema.ArgumentText
import Sieve.Proofs.Schema.AttributeRoundTrip
import Sieve.Proofs.Schema.FirstArgument
import Sieve.Proofs.Schema.AttributeSteps
import Sieve.Proofs.Schema.DefaultReaders
import Sieve.Proofs.Schema.JoinedTexts
import Sieve.Proofs.Decimal.WholeDoubles
import Sieve.Proofs.Filter.PassedValues
import Sieve.Proofs.Instant.Calendar
import Sieve.Proofs.Instant.RoundTrip
import Sieve.Proofs.Filter.Coercion
import Sieve.Proofs.Schema.FieldTypes
import Sieve.Proofs.Schema.FirstBlocks
import Sieve.Proofs.Schema.Declarations
import Sieve.Proofs.Schema.TokenPlaces
import Sieve.Proofs.Schema.FieldPlaces
import Sieve.Proofs.Schema.Coherence
import Sieve.Proofs.Command.Layers
import Sieve.Proofs.Filter.QueryPairs
import Sieve.Proofs.Filter.ListedValues
import Sieve.Proofs.Filter.KeyGrammar
import Sieve.Proofs.Source.ListingOrder
import Sieve.Proofs.Schema.AttributeNames
