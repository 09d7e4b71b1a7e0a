import Scriptlet.Text.Bytes
import Scriptlet.Text.Decimal
import Scriptlet.Text.Glyph
import Scriptlet.Text.Quoted
import Scriptlet.Token.Basic
import Scriptlet.Token.Scan
import Scriptlet.Program.Basic
import Scriptlet.Program.Reading
import Scriptlet.Program.Read
import Scriptlet.Program.Render
import Scriptlet.Translate
import Scriptlet.Outline
import Scriptlet.Sha256
import Scriptlet.Json
import Scriptlet.FileTree.Basic
import Scriptlet.FileTree.Access
import Scriptlet.FileTree.Glob
import Scriptlet.Fixture
import Scriptlet.Tool
import Scriptlet.Command.Flags
import Scriptlet.Command.Repl
import Scriptlet.Command.Basic
import Scriptlet.Main
import Scriptlet.Proofs.Grammar
import Scriptlet.Proofs.Recognition
import Scriptlet.Proofs.Locality
import Scriptlet.Proofs.Incomplete
import Scriptlet.Proofs.Encoding
import Scriptlet.Proofs.Scanning
import Scriptlet.Proofs.Concatenation
import Scriptlet.Proofs.Session
import Scriptlet.Proofs.JsonStrings
import Scriptlet.Proofs.JsonValues
import Scriptlet.Proofs.FileWrites
import Scriptlet.Proofs.StorePersistence
import Scriptlet.Proofs.Lexical
import Scriptlet.Proofs.EarliestError
import Scriptlet.Proofs.Built
import Scriptlet.Proofs.NormalForm
import Scriptlet.Proofs.Readability
import Scriptlet.Proofs.OpenFunction
import Scriptlet.Proofs.Spelling
import Scriptlet.Proofs.ReadBack
import Scriptlet.Proofs.TranslateCommand
import Scriptlet.Proofs.Remainder
import Scriptlet.Proofs.BlankLines
import Scriptlet.Proofs.ScriptLines
import Scriptlet.Proofs.Declarations
import Scriptlet.Proofs.OutlineText
import Scriptlet.Proofs.CanonicalStore
import Scriptlet.Proofs.SealedStore
import Scriptlet.Proofs.IntegerLiterals
import Scriptlet.Proofs.Leftovers
import Scriptlet.Proofs.Progress
import Scriptlet.Proofs.ValidText
import Scriptlet.Proofs.FixtureNames
