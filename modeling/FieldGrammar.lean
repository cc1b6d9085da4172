import FieldGrammar.Bits.Reader
import FieldGrammar.Data.Display
import FieldGrammar.Draft.Conversion
import FieldGrammar.Interchange.Draft
import FieldGrammar.Interchange.SchemaFile
import FieldGrammar.Interchange.Value
import FieldGrammar.Node.Build
import FieldGrammar.Node.Defaults
import FieldGrammar.Packing.Checked
import FieldGrammar.Same
import FieldGrammar.SchemaToken.Tagged
import FieldGrammar.Proofs.BitStreams
import FieldGrammar.Proofs.CanonicalData
import FieldGrammar.Proofs.CheckedArithmetic
import FieldGrammar.Proofs.CompressedRoundTrip
import FieldGrammar.Proofs.Conversions
import FieldGrammar.Proofs.DataRoundTrip
import FieldGrammar.Proofs.Declared
import FieldGrammar.Proofs.DecodedSchemas
import FieldGrammar.Proofs.DecodingErrors
import FieldGrammar.Proofs.DefaultData
import FieldGrammar.Proofs.DepthBounds
import FieldGrammar.Proofs.Description
import FieldGrammar.Proofs.DescriptionFaults
import FieldGrammar.Proofs.Encodable
import FieldGrammar.Proofs.ExactNumbers
import FieldGrammar.Proofs.FittingData
import FieldGrammar.Proofs.FixedBounds
import FieldGrammar.Proofs.GivenVariants
import FieldGrammar.Proofs.Grids
import FieldGrammar.Proofs.Identifiers
import FieldGrammar.Proofs.InflateLimits
import FieldGrammar.Proofs.IntegerPositions
import FieldGrammar.Proofs.Interning
import FieldGrammar.Proofs.Invariants
import FieldGrammar.Proofs.JsonText
import FieldGrammar.Proofs.LaidOutText
import FieldGrammar.Proofs.Layout
import FieldGrammar.Proofs.Lookup
import FieldGrammar.Proofs.Magnitude
import FieldGrammar.Proofs.MetaSchemas
import FieldGrammar.Proofs.NodeJson
import FieldGrammar.Proofs.NormalDescription
import FieldGrammar.Proofs.NumberOrder
import FieldGrammar.Proofs.Numerals
import FieldGrammar.Proofs.Octets
import FieldGrammar.Proofs.PackedRoundTrip
import FieldGrammar.Proofs.PointerBudgets
import FieldGrammar.Proofs.PointerTargets
import FieldGrammar.Proofs.Projection
import FieldGrammar.Proofs.ReadBack
import FieldGrammar.Proofs.ReadValues
import FieldGrammar.Proofs.Readers
import FieldGrammar.Proofs.Reading
import FieldGrammar.Proofs.Rebuilding
import FieldGrammar.Proofs.Recognition
import FieldGrammar.Proofs.Restored
import FieldGrammar.Proofs.Results
import FieldGrammar.Proofs.Rewriting
import FieldGrammar.Proofs.RoundedOperations
import FieldGrammar.Proofs.Rounding
import FieldGrammar.Proofs.Sameness
import FieldGrammar.Proofs.SchemaFiles
import FieldGrammar.Proofs.StoredBlocks
import FieldGrammar.Proofs.StringTables
import FieldGrammar.Proofs.SymbolTexts
import FieldGrammar.Proofs.TableHistories
import FieldGrammar.Proofs.TaggedErrors
import FieldGrammar.Proofs.TextOctets
import FieldGrammar.Proofs.Trees
import FieldGrammar.Proofs.Truncation
import FieldGrammar.Proofs.UnrolledLevels
import FieldGrammar.Proofs.ValueJson
import FieldGrammar.Proofs.VariantOrder
import FieldGrammar.Proofs.Writing
import FieldGrammar.Proofs.WritingErrors
