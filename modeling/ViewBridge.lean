import ViewBridge.Cache
import ViewBridge.Calendar.Date
import ViewBridge.Calendar.Format
import ViewBridge.Calendar.Instant
import ViewBridge.CommandLine
import ViewBridge.CommandLine.Argument
import ViewBridge.CommandLine.Usage
import ViewBridge.Config.Basic
import ViewBridge.Config.Reading
import ViewBridge.Config.Schema
import ViewBridge.Dialect
import ViewBridge.Digest
import ViewBridge.Directive.Assignment
import ViewBridge.Directive.Basic
import ViewBridge.Directive.Call
import ViewBridge.Directive.Loop
import ViewBridge.Engine
import ViewBridge.Error
import ViewBridge.Expression
import ViewBridge.FileTree
import ViewBridge.FilterName
import ViewBridge.Helper
import ViewBridge.Helper.Argument
import ViewBridge.Helper.Call
import ViewBridge.Html
import ViewBridge.Json.Basic
import ViewBridge.Json.Pretty
import ViewBridge.Json.Reader
import ViewBridge.Lookup.Name
import ViewBridge.Lookup.Resolver
import ViewBridge.Lookup.SearchPath
import ViewBridge.Main
import ViewBridge.Number.Binary
import ViewBridge.Number.Reading
import ViewBridge.Number.Rounding
import ViewBridge.Number.Shortest
import ViewBridge.Number.Style
import ViewBridge.Path
import ViewBridge.Table
import ViewBridge.Template.Basic
import ViewBridge.Template.Escaping
import ViewBridge.Template.Evaluation
import ViewBridge.Template.Filter
import ViewBridge.Template.Filter.Collection
import ViewBridge.Template.Filter.Text
import ViewBridge.Template.Literal
import ViewBridge.Template.Reader
import ViewBridge.Template.Rendering
import ViewBridge.Template.Scanner
import ViewBridge.Template.Scope
import ViewBridge.Template.Test
import ViewBridge.Template.Token
import ViewBridge.Text.Basic
import ViewBridge.Text.Case
import ViewBridge.Text.Class
import ViewBridge.Text.FormEncoded
import ViewBridge.Text.Part
import ViewBridge.Text.Quoted
import ViewBridge.Text.Substitution
import ViewBridge.Translator
import ViewBridge.Translator.Balance
import ViewBridge.Translator.Emit
import ViewBridge.Translator.Shelf
import ViewBridge.Translator.Stage
import ViewBridge.Value.Basic
import ViewBridge.Value.Coerce
import ViewBridge.Value.Document
import ViewBridge.Value.Operator
import ViewBridge.Value.Order
import ViewBridge.Value.Print
import ViewBridge.Value.Slice
import ViewBridge.Yaml.Basic
import ViewBridge.Yaml.Inline
import ViewBridge.Yaml.Line
import ViewBridge.Yaml.Reader
import ViewBridge.Proofs.Pass
import ViewBridge.Proofs.Shelf
import ViewBridge.Proofs.Tag
import ViewBridge.Proofs.Frame
import ViewBridge.Proofs.Exposure
import ViewBridge.Proofs.Calm
import ViewBridge.Proofs.Lookup.Confinement
import ViewBridge.Proofs.Lookup.Priority
import ViewBridge.Proofs.SharedCache
import ViewBridge.Proofs.Item.Translation
import ViewBridge.Proofs.Fixpoint
import ViewBridge.Proofs.Idempotence
import ViewBridge.Proofs.Lookup.Sharing
import ViewBridge.Proofs.Lookup.Alias
import ViewBridge.Proofs.Template.Run
import ViewBridge.Proofs.Template.Linking
import ViewBridge.Proofs.Template.Simulation
import ViewBridge.Proofs.Engine.Snapshot
import ViewBridge.Proofs.Template.Tokens
import ViewBridge.Proofs.Template.Reading
import ViewBridge.Proofs.Template.Scanning
import ViewBridge.Proofs.Engine.Basic
import ViewBridge.Proofs.Engine.Block
import ViewBridge.Proofs.Loop.Basic
import ViewBridge.Proofs.Loop.Translation
import ViewBridge.Proofs.Loop.Reading
import ViewBridge.Proofs.Loop.Rendering
import ViewBridge.Proofs.Engine.Loop
import ViewBridge.Proofs.Balance.Bracket
import ViewBridge.Proofs.Balance.Visible
import ViewBridge.Proofs.Balance.Line
import ViewBridge.Proofs.Balance.Escaped
import ViewBridge.Proofs.Balance.Depth
import ViewBridge.Proofs.Call.Arguments
import ViewBridge.Proofs.Call.Translation
import ViewBridge.Proofs.Call.Scanning
import ViewBridge.Proofs.Call.Reading
import ViewBridge.Proofs.Call.Rendering
import ViewBridge.Proofs.Call.Agreement
import ViewBridge.Proofs.Template.Unread
import ViewBridge.Proofs.Template.Secrecy
import ViewBridge.Proofs.Engine.Spelling
import ViewBridge.Proofs.Break.Trace
import ViewBridge.Proofs.Phrase.Scanning
import ViewBridge.Proofs.Phrase.Exchange
import ViewBridge.Proofs.Phrase.LastOperand
import ViewBridge.Proofs.Phrase.Reading
import ViewBridge.Proofs.Phrase.FirstOperand
import ViewBridge.Proofs.Phrase.Joining
import ViewBridge.Proofs.Phrase.Operand
import ViewBridge.Proofs.Engine.Interpolation
import ViewBridge.Proofs.Engine.Compound
import ViewBridge.Proofs.Grammar.Translation
import ViewBridge.Proofs.Call.Comma
import ViewBridge.Proofs.Counting.Range
import ViewBridge.Proofs.Counting.Rendering
import ViewBridge.Proofs.Engine.Counting
import ViewBridge.Proofs.Entity
import ViewBridge.Proofs.Inclusion
import ViewBridge.Proofs.Call.Modifier
import ViewBridge.Proofs.Recoding.Pass
import ViewBridge.Proofs.Break.Ended
import ViewBridge.Proofs.Break.Tidy
import ViewBridge.Proofs.Relabeling
import ViewBridge.Proofs.Lookup.Precedence
import ViewBridge.Proofs.Lookup.Stability
import ViewBridge.Proofs.Lookup.Key
import ViewBridge.Proofs.FilterChain
import ViewBridge.Proofs.Part.Position
import ViewBridge.Proofs.Part.Separator
import ViewBridge.Proofs.Part.Search
import ViewBridge.Proofs.Markup.Segment
import ViewBridge.Proofs.Markup.Name
import ViewBridge.Proofs.Markup.Stripping
import ViewBridge.Proofs.Number.Format
import ViewBridge.Proofs.CommandLine.Argument
import ViewBridge.Proofs.CommandLine.Outcome
import ViewBridge.Proofs.Markup.LineBreak
import ViewBridge.Proofs.Collection
import ViewBridge.Proofs.Calendar.Date
import ViewBridge.Proofs.Calendar.Succession
import ViewBridge.Proofs.Calendar.Layout
import ViewBridge.Proofs.Calendar.Format
