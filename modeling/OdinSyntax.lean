import OdinSyntax.Span
import OdinSyntax.Text.Blank
import OdinSyntax.Text.Source
import OdinSyntax.Text.Snapshot
import OdinSyntax.Text.Reader
import OdinSyntax.Lexicon.Words
import OdinSyntax.Lexicon.Symbols
import OdinSyntax.Token.Basic
import OdinSyntax.Token.Word
import OdinSyntax.Scan.State
import OdinSyntax.Scan.Step
import OdinSyntax.Scan.Tokenize
import OdinSyntax.Lexeme.Basic
import OdinSyntax.Lexeme.Tokens
import OdinSyntax.Painting.Category
import OdinSyntax.Painting.Palette
import OdinSyntax.Painting.Painter
import OdinSyntax.Workspace.FileType
import OdinSyntax.Workspace.Edit
import OdinSyntax.Workspace.Registry
import OdinSyntax.Workspace.Service
import OdinSyntax.Proofs.Text.Suffix
import OdinSyntax.Proofs.Lexicon.Characters
import OdinSyntax.Proofs.Token.LookAhead
import OdinSyntax.Proofs.Scan.Reach
import OdinSyntax.Proofs.Scan.Invariant
import OdinSyntax.Proofs.Lexeme.Extent
import OdinSyntax.Proofs.Lexeme.Pieces
import OdinSyntax.Proofs.Scan.Lexemes
import OdinSyntax.Proofs.Text.Lines
import OdinSyntax.Proofs.Scan.Lines
import OdinSyntax.Proofs.Painting.Lines
import OdinSyntax.Proofs.Scan.Coverage
import OdinSyntax.Proofs.Scan.Parallel
import OdinSyntax.Proofs.Scan.Locality
import OdinSyntax.Proofs.Scan.LineState
import OdinSyntax.Proofs.Text.Encoding
import OdinSyntax.Proofs.Text.LineIndex
import OdinSyntax.Proofs.Text.LineEndings
import OdinSyntax.Proofs.Scan.LineEndings
import OdinSyntax.Proofs.Lexeme.Neighbours
import OdinSyntax.Proofs.Scan.Spelling
import OdinSyntax.Proofs.Workspace.Outcome
import OdinSyntax.Proofs.Workspace.Identity
import OdinSyntax.Proofs.Workspace.Deliveries
import OdinSyntax.Proofs.Lexeme.CommentTree
import OdinSyntax.Proofs.Scan.Nesting
import OdinSyntax.Proofs.Scan.Quoting
import OdinSyntax.Proofs.Lexeme.Alone
import OdinSyntax.Proofs.Scan.Words
import OdinSyntax.Proofs.Scan.Alone
import OdinSyntax.Proofs.Scan.Progress
import OdinSyntax.Proofs.Scan.Tails
import OdinSyntax.Proofs.Workspace.FilePath
import OdinSyntax.Proofs.Scan.Modes
import OdinSyntax.Proofs.Text.Reader
