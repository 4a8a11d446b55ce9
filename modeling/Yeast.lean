import Yeast.Main
import Yeast.Proofs.Bracket
import Yeast.Proofs.Forest
import Yeast.Proofs.Moves
import Yeast.Proofs.Legal
import Yeast.Proofs.Trace
import Yeast.Proofs.Marker
import Yeast.Proofs.Markup
import Yeast.Proofs.Elements
import Yeast.Proofs.Panes
import Yeast.Proofs.Vocabulary
import Yeast.Proofs.Outline
import Yeast.Proofs.SourceText
import Yeast.Proofs.Upkeep
import Yeast.Proofs.Events
import Yeast.Proofs.Spelling
import Yeast.Proofs.Parity
import Yeast.Proofs.ShownAgain
import Yeast.Proofs.Respelling
import Yeast.Proofs.Rebuild
import Yeast.Proofs.Ending
import Yeast.Proofs.LineBreaks
import Yeast.Proofs.Ids
import Yeast.Proofs.Transcript
import Yeast.Proofs.Templates
import Yeast.Proofs.Output
import Yeast.Proofs.Blocks
import Yeast.Proofs.Insertion
import Yeast.Proofs.Comments
import Yeast.Proofs.JsonReader
import Yeast.Proofs.JsonLexemes
import Yeast.Proofs.Dump
import Yeast.Proofs.Decoding
import Yeast.Proofs.ByteRecords
import Yeast.Proofs.Boundaries
import Yeast.Proofs.Terminators
import Yeast.Proofs.Diagnostic
import Yeast.Proofs.Runs
import Yeast.Proofs.Refusal
import Yeast.Proofs.StreamNumbers
import Yeast.Proofs.Writable
import Yeast.Proofs.WritablePaths
import Yeast.Proofs.Delivery
import Yeast.Proofs.Provenance
import Yeast.Proofs.FileFaults
import Yeast.Proofs.Conclusion
import Yeast.Proofs.ClassNames
import Yeast.Proofs.OpenCount
import Yeast.Proofs.Encoding
import Yeast.Proofs.StoredText
import Yeast.Proofs.Clock
import Yeast.Proofs.OptionOrder
