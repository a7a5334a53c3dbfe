import Stencil.Batch.Diagnostic
import Stencil.Batch.Discovery
import Stencil.Batch.Options
import Stencil.Batch.Run
import Stencil.Block
import Stencil.Cli.Arguments
import Stencil.Cli.Command
import Stencil.Compile.Hosts
import Stencil.Compile.Monad
import Stencil.Compile.Template
import Stencil.Compiled.Artifact
import Stencil.Compiled.Basic
import Stencil.Config
import Stencil.Directive
import Stencil.Document.Basic
import Stencil.Document.Edit
import Stencil.Error
import Stencil.Fault
import Stencil.Files.Access
import Stencil.Files.Glob
import Stencil.Files.Path
import Stencil.Files.Tree
import Stencil.Json.Basic
import Stencil.Json.Reader
import Stencil.Log
import Stencil.Main
import Stencil.Marker
import Stencil.Markup.Char
import Stencil.Markup.Entity
import Stencil.Markup.TagRules
import Stencil.Markup.Token
import Stencil.Markup.Tree
import Stencil.Number.Binary
import Stencil.Number.Shortest
import Stencil.Number.Text
import Stencil.Proofs.Batch.Accounting
import Stencil.Proofs.Batch.AllOrNothing
import Stencil.Proofs.Batch.Artifact
import Stencil.Proofs.Batch.Discovery
import Stencil.Proofs.Block.Containers
import Stencil.Proofs.Block.Fusing
import Stencil.Proofs.Block.Identities
import Stencil.Proofs.Block.Matching
import Stencil.Proofs.Block.Nested
import Stencil.Proofs.Block.Spelling
import Stencil.Proofs.Block.Splitting
import Stencil.Proofs.Compile.Alike
import Stencil.Proofs.Compile.Bench
import Stencil.Proofs.Compile.Blocks
import Stencil.Proofs.Compile.Emission
import Stencil.Proofs.Compile.Emitted
import Stencil.Proofs.Compile.Growing
import Stencil.Proofs.Compile.Identity
import Stencil.Proofs.Compile.Kinds
import Stencil.Proofs.Compile.Ledger
import Stencil.Proofs.Compile.Located
import Stencil.Proofs.Compile.Pieces
import Stencil.Proofs.Compile.Plan
import Stencil.Proofs.Compile.Readings
import Stencil.Proofs.Compile.Refused
import Stencil.Proofs.Compile.Rereading
import Stencil.Proofs.Compile.Static
import Stencil.Proofs.Compile.Sturdy
import Stencil.Proofs.Compile.Table
import Stencil.Proofs.Compile.Template
import Stencil.Proofs.Compile.Texts
import Stencil.Proofs.Compile.Upkeep
import Stencil.Proofs.Compile.Walk
import Stencil.Proofs.Compiled.Artifact
import Stencil.Proofs.Compiled.Compaction
import Stencil.Proofs.Directive.Matching
import Stencil.Proofs.Directive.Scanning
import Stencil.Proofs.Document.Confinement
import Stencil.Proofs.Document.Content
import Stencil.Proofs.Document.Copying
import Stencil.Proofs.Document.Forest
import Stencil.Proofs.Document.Insertion
import Stencil.Proofs.Document.Lasting
import Stencil.Proofs.Document.Moving
import Stencil.Proofs.Document.Numbers
import Stencil.Proofs.Document.Operation
import Stencil.Proofs.Document.Placement
import Stencil.Proofs.Document.Planting
import Stencil.Proofs.Document.Reclaiming
import Stencil.Proofs.Document.Refusal
import Stencil.Proofs.Document.Releasing
import Stencil.Proofs.Document.Running
import Stencil.Proofs.Document.Slots
import Stencil.Proofs.Document.Soundness
import Stencil.Proofs.Document.Standing
import Stencil.Proofs.Document.Surgery
import Stencil.Proofs.Document.Tending
import Stencil.Proofs.Document.WritingBack
import Stencil.Proofs.Files.Tree
import Stencil.Proofs.Json.Reading
import Stencil.Proofs.Markup.Abbreviation
import Stencil.Proofs.Markup.Element
import Stencil.Proofs.Markup.Enclosing
import Stencil.Proofs.Markup.Escaping
import Stencil.Proofs.Markup.Foreword
import Stencil.Proofs.Markup.Growth
import Stencil.Proofs.Markup.Joining
import Stencil.Proofs.Markup.Lexemes
import Stencil.Proofs.Markup.Lexing
import Stencil.Proofs.Markup.Listing
import Stencil.Proofs.Markup.Names
import Stencil.Proofs.Markup.Parsed
import Stencil.Proofs.Markup.Printable
import Stencil.Proofs.Markup.Reading
import Stencil.Proofs.Markup.References
import Stencil.Proofs.Markup.Relabelling
import Stencil.Proofs.Markup.RoundTrip
import Stencil.Proofs.Markup.Tiling
import Stencil.Proofs.Render.Binding
import Stencil.Proofs.Render.Building
import Stencil.Proofs.Render.Casting
import Stencil.Proofs.Render.Chronicle
import Stencil.Proofs.Render.Clarity
import Stencil.Proofs.Render.Containment
import Stencil.Proofs.Render.Copies
import Stencil.Proofs.Render.Drawing
import Stencil.Proofs.Render.Dressing
import Stencil.Proofs.Render.Escaped
import Stencil.Proofs.Render.Expansion
import Stencil.Proofs.Render.Forgetting
import Stencil.Proofs.Render.Hosting
import Stencil.Proofs.Render.Hosts
import Stencil.Proofs.Render.Inking
import Stencil.Proofs.Render.Making
import Stencil.Proofs.Render.Meaning
import Stencil.Proofs.Render.Mold
import Stencil.Proofs.Render.Playing
import Stencil.Proofs.Render.Refinement
import Stencil.Proofs.Render.Script
import Stencil.Proofs.Render.Settling
import Stencil.Proofs.Render.Shown
import Stencil.Proofs.Render.Staging
import Stencil.Proofs.Render.Tidiness
import Stencil.Proofs.Render.Visiting
import Stencil.Proofs.Render.Wiring
import Stencil.Proofs.Render.Writing
import Stencil.Proofs.Script.Expression
import Stencil.Proofs.Script.Literal
import Stencil.Proofs.Script.Module
import Stencil.Proofs.Text.Cut
import Stencil.Proofs.Text.Locations
import Stencil.Proofs.Text.Replacing
import Stencil.Proofs.Text.Tiles
import Stencil.Render.Environment
import Stencil.Render.Handler
import Stencil.Render.Iteration
import Stencil.Render.Rendering
import Stencil.Render.Scope
import Stencil.Render.Template
import Stencil.RenderKind
import Stencil.Script.Lines
import Stencil.Script.Module
import Stencil.Source
import Stencil.Text.Blank
import Stencil.Text.Cut
import Stencil.Text.Printable
import Stencil.Text.Quoted
import Stencil.Text.Tiles
import Stencil.Text.WordChar
import Stencil.Value
