import Fluent.Bundle.Format
import Fluent.Bundle.Json
import Fluent.Format.Cldr
import Fluent.Store.Basic
import Fluent.Cursor.Resource
import Fluent.Proofs.Reader
import Fluent.Proofs.Token
import Fluent.Proofs.Transcription.Basic
import Fluent.Proofs.Transcription.Token
import Fluent.Proofs.Pattern
import Fluent.Proofs.Transcription.Pattern
import Fluent.Proofs.Placeable
import Fluent.Proofs.Transcription.Placeable
import Fluent.Proofs.Resource
import Fluent.Proofs.Transcription.Entry
import Fluent.Proofs.Progress
import Fluent.Proofs.Items
import Fluent.Proofs.Transcription.Resource
import Fluent.Proofs.Recovery
import Fluent.Proofs.Table
import Fluent.Proofs.Pieces
import Fluent.Proofs.Restart
import Fluent.Proofs.LineEnds
import Fluent.Proofs.Rendering.Basic
import Fluent.Proofs.Rendering.Token
import Fluent.Proofs.Rendering.Pattern
import Fluent.Proofs.Rendering.Inline
import Fluent.Proofs.Rendering.Placeable
import Fluent.Proofs.Rendering.Resource
import Fluent.Proofs.Evaluation.Derivation
import Fluent.Proofs.Evaluation.Balance
import Fluent.Proofs.Evaluation.Termination
import Fluent.Proofs.Extension.Token
import Fluent.Proofs.Extension.Pattern
import Fluent.Proofs.Extension.Placeable
import Fluent.Proofs.Extension.Entry
import Fluent.Proofs.Concatenation
import Fluent.Proofs.Evaluation.Unguarded
import Fluent.Proofs.Number.Binary64
import Fluent.Proofs.Delimited
import Fluent.Proofs.Number.Shortest
import Fluent.Proofs.Number.MarkedText
import Fluent.Proofs.CacheKey
import Fluent.Proofs.Formatters
import Fluent.Proofs.Evaluation.Requests
import Fluent.Proofs.Evaluation.Transparency
import Fluent.Proofs.History
import Fluent.Proofs.Nesting
import Fluent.Proofs.Soundness.Basic
import Fluent.Proofs.Soundness.Token
import Fluent.Proofs.Soundness.Pattern
import Fluent.Proofs.Soundness.Placeable
import Fluent.Proofs.Soundness.Resource
import Fluent.Proofs.Soundness.Depth
import Fluent.Proofs.Evaluation.Marks
import Fluent.Proofs.Evaluation.Choices
import Fluent.Proofs.Evaluation.Transform
import Fluent.Proofs.Settings
import Fluent.Proofs.Store
import Fluent.Proofs.Addition
import Fluent.Proofs.Evaluation.Enlargement
import Fluent.Proofs.Cursor.Encoding
import Fluent.Proofs.Cursor.Basic
import Fluent.Proofs.Cursor.Token
import Fluent.Proofs.Cursor.Pattern
import Fluent.Proofs.Cursor.Placeable
import Fluent.Proofs.Cursor.Entry
import Fluent.Proofs.Cursor.Resource
import Fluent.Proofs.Evaluation.Reports
import Fluent.Proofs.Cursor.Rounds
import Fluent.Proofs.VariantLines.Entry
import Fluent.Proofs.Evaluation.Length
import Fluent.Proofs.SharedKeys
import Fluent.Proofs.Number.Fewest
import Fluent.Proofs.TextLines
import Fluent.Proofs.DecimalText
import Fluent.Proofs.Separators
import Fluent.Proofs.Indentation
import Fluent.Proofs.FractionLimit
import Fluent.Proofs.Locale.Tag
import Fluent.Proofs.Locale.Lookup
import Fluent.Proofs.Locale.PluralRules
import Fluent.Proofs.Locale.Canonical
import Fluent.Proofs.Translation
import Fluent.Proofs.LastLine.Basic
import Fluent.Proofs.LastLine.Token
import Fluent.Proofs.LastLine.Pattern
import Fluent.Proofs.LastLine.Placeable
import Fluent.Proofs.LastLine.Resource
import Fluent.Proofs.FlushText
import Fluent.Proofs.Returns.Resource
import Fluent.Proofs.Braces.Entry
import Fluent.Proofs.OneLine
import Fluent.Proofs.Cursor.OneLine
