import LosslessCss.Text.Blank
import LosslessCss.Text.Letters
import LosslessCss.Text.Location
import LosslessCss.Text.CharStream
import LosslessCss.Text.EncodedStream
import LosslessCss.Text.Quoted
import LosslessCss.Number.Decimal
import LosslessCss.Number.Binary32
import LosslessCss.Number.Shortest
import LosslessCss.Token
import LosslessCss.Token.Describe
import LosslessCss.Lexer.Lexeme
import LosslessCss.Lexer.Escape
import LosslessCss.Lexer.Name
import LosslessCss.Lexer.Numeral
import LosslessCss.Lexer.Quotation
import LosslessCss.Lexer.Url
import LosslessCss.Lexer.Scan
import LosslessCss.Lexer
import LosslessCss.Lexer.Reader
import LosslessCss.Source.Basic
import LosslessCss.Source.TokenList
import LosslessCss.Source.TokenBuffer
import LosslessCss.Source.TokenSlice
import LosslessCss.Source.PulledText
import LosslessCss.Json
import LosslessCss.Tree.Piece
import LosslessCss.Tree.AtRule
import LosslessCss.Tree.Node
import LosslessCss.Tree.Render
import LosslessCss.Tree.Outline
import LosslessCss.Tree.Export
import LosslessCss.Tree.Edit
import LosslessCss.SyntaxError
import LosslessCss.Settings
import LosslessCss.Trace
import LosslessCss.Grammar.Parser
import LosslessCss.Grammar.Run
import LosslessCss.Grammar.Span
import LosslessCss.Grammar.Fragment
import LosslessCss.Grammar.Selectors
import LosslessCss.Grammar.Declaration
import LosslessCss.Grammar.AtRule
import LosslessCss.Grammar.Item
import LosslessCss.Grammar.RuleList
import LosslessCss.Grammar.Document
import LosslessCss.Parse
import LosslessCss.Text.Lines
import LosslessCss.CommandLine.Snippet
import LosslessCss.CommandLine
import LosslessCss.Main
import LosslessCss.Proofs.Passing
import LosslessCss.Proofs.Loops
import LosslessCss.Proofs.Yielding
import LosslessCss.Proofs.Form
import LosslessCss.Proofs.Views
import LosslessCss.Proofs.TokenKinds
import LosslessCss.Proofs.Recognition
import LosslessCss.Proofs.ItemRecognition
import LosslessCss.Proofs.DocumentRecognition
import LosslessCss.Proofs.FormText
import LosslessCss.Proofs.LexedTokens
import LosslessCss.Proofs.RoundTrip
import LosslessCss.Proofs.Acceptance
import LosslessCss.Proofs.Following
import LosslessCss.Proofs.Agreement
import LosslessCss.Proofs.Failing
import LosslessCss.Proofs.Scopes
import LosslessCss.Proofs.Sessions
import LosslessCss.Proofs.Placement
import LosslessCss.Proofs.Partition
import LosslessCss.Proofs.StartLocation
import LosslessCss.Proofs.ErrorLocality
import LosslessCss.Proofs.ItemLists
import LosslessCss.Proofs.SingleItems
import LosslessCss.Proofs.Composition
import LosslessCss.Proofs.Segments
import LosslessCss.Proofs.CoveredForms
import LosslessCss.Proofs.Structure
import LosslessCss.Proofs.Blanks
import LosslessCss.Proofs.Formatting
import LosslessCss.Proofs.Fences
import LosslessCss.Proofs.Locality
import LosslessCss.Proofs.Reparse
import LosslessCss.Proofs.FinalErrors
import LosslessCss.Proofs.JsonTexts
import LosslessCss.Proofs.ExportedTrees
import LosslessCss.Proofs.Nesting
import LosslessCss.Proofs.SelectorSplitting
import LosslessCss.Proofs.DeclarationValues
import LosslessCss.Proofs.Spelling
import LosslessCss.Proofs.NumberPattern
import LosslessCss.Proofs.TokenShapes
import LosslessCss.Proofs.TokenValues
import LosslessCss.Proofs.TokenBoundaries
import LosslessCss.Proofs.Pulling
import LosslessCss.Proofs.Editing
import LosslessCss.Proofs.Visits
import LosslessCss.Proofs.AtRulePieces
import LosslessCss.Proofs.CursorLoops
import LosslessCss.Proofs.PartReading
import LosslessCss.Proofs.StreamReading
import LosslessCss.Proofs.OpenStreams
import LosslessCss.Proofs.EncodedStreams
import LosslessCss.Proofs.TokenBuffers
import LosslessCss.Proofs.LiveBuffers
import LosslessCss.Proofs.SpanStack
import LosslessCss.Proofs.ErrorSnippets
