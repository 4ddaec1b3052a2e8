import Stencil.CommandLine
import Stencil.Engine
import Stencil.Main
import Stencil.Proofs.Directory
import Stencil.Proofs.Except
import Stencil.Proofs.Identifier
import Stencil.Proofs.Json
import Stencil.Proofs.Markup.Attribute
import Stencil.Proofs.Markup.Borders
import Stencil.Proofs.Markup.Course
import Stencil.Proofs.Markup.Cursor
import Stencil.Proofs.Markup.Edges
import Stencil.Proofs.Markup.Insertion
import Stencil.Proofs.Markup.LocalTemplate
import Stencil.Proofs.Markup.Nesting
import Stencil.Proofs.Markup.Reads
import Stencil.Proofs.Markup.Scanner
import Stencil.Proofs.Markup.Sweep
import Stencil.Proofs.Markup.TagScan
import Stencil.Proofs.Markup.Verbatim
import Stencil.Proofs.Markup.Within
import Stencil.Proofs.Outline
import Stencil.Proofs.Render.Callees
import Stencil.Proofs.Render.Literal
import Stencil.Proofs.Resolution.Closure
import Stencil.Proofs.Resolution.DepthFirst
import Stencil.Proofs.Resolution.Descent
import Stencil.Proofs.Resolution.Failure
import Stencil.Proofs.Resolution.Image
import Stencil.Proofs.Resolution.Reachable
import Stencil.Proofs.Resolution.Reuse
import Stencil.Proofs.Resolution.Roster
import Stencil.Proofs.Resolution.Walk
import Stencil.Proofs.Scope
import Stencil.Proofs.Session
import Stencil.Proofs.Session.Copy
import Stencil.Proofs.Session.Entries
import Stencil.Proofs.Session.Fetching
import Stencil.Proofs.Session.Frame
import Stencil.Proofs.Session.Instances
import Stencil.Proofs.Session.Isolation
import Stencil.Proofs.Session.Quiet
import Stencil.Proofs.Session.Record
import Stencil.Proofs.Session.Registry
import Stencil.Proofs.Session.Rejection
import Stencil.Proofs.Session.Remote
import Stencil.Proofs.Session.Renewal
import Stencil.Proofs.Session.Snapshot
import Stencil.Proofs.Session.Sound
import Stencil.Proofs.Session.Tasks
import Stencil.Proofs.Settings
import Stencil.Proofs.Syntax.Concatenation
import Stencil.Proofs.Syntax.Delimiters
import Stencil.Proofs.Syntax.Lexer
import Stencil.Proofs.Syntax.Offence
import Stencil.Proofs.Syntax.Place
import Stencil.Proofs.Syntax.Position
import Stencil.Proofs.Syntax.RawBlock
import Stencil.Proofs.Syntax.Stream
import Stencil.Proofs.Syntax.Tag
import Stencil.Proofs.Syntax.Tiling
import Stencil.Proofs.Table
import Stencil.Proofs.Template.Computed
import Stencil.Proofs.Template.Expression
import Stencil.Proofs.Template.Harvest
import Stencil.Proofs.Template.Inline
import Stencil.Proofs.Template.Invocations
import Stencil.Proofs.Template.Layers
import Stencil.Proofs.Template.Lowering
import Stencil.Proofs.Template.Names
import Stencil.Proofs.Template.Pairing
import Stencil.Proofs.Template.Places
import Stencil.Proofs.Template.Recorded
import Stencil.Proofs.Template.Spans
import Stencil.Proofs.Template.Spelling
import Stencil.Proofs.Template.Splice
import Stencil.Proofs.Text.Bytes
import Stencil.Proofs.Text.Cut
import Stencil.Proofs.Text.Utf8
import Stencil.Render
import Stencil.Report
import Stencil.Settings.Load
