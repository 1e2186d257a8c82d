import GoSplit.Bucket
import GoSplit.Bucket.Writer
import GoSplit.CommandLine
import GoSplit.CommandLine.Run
import GoSplit.CommandLine.Words
import GoSplit.Config
import GoSplit.Config.File
import GoSplit.Digest
import GoSplit.Draft
import GoSplit.Edit
import GoSplit.Error
import GoSplit.ImportPath
import GoSplit.Job
import GoSplit.JsonValue
import GoSplit.Log
import GoSplit.Main
import GoSplit.Manifest
import GoSplit.Manifest.File
import GoSplit.Path
import GoSplit.Position
import GoSplit.Program
import GoSplit.Proofs.Bucket.Constraints
import GoSplit.Proofs.Bucket.Imports
import GoSplit.Proofs.Bucket.Outcome
import GoSplit.Proofs.Bucket.Partition
import GoSplit.Proofs.Bucket.Pruning
import GoSplit.Proofs.Bucket.Writing
import GoSplit.Proofs.Checked
import GoSplit.Proofs.Checked.Analysis
import GoSplit.Proofs.Checked.Bytes
import GoSplit.Proofs.Checked.Extents
import GoSplit.Proofs.Draft.Comments
import GoSplit.Proofs.Draft.Echoes
import GoSplit.Proofs.Draft.FixedPoint
import GoSplit.Proofs.Draft.Headers
import GoSplit.Proofs.Draft.ImportOrder
import GoSplit.Proofs.Draft.Imports
import GoSplit.Proofs.Draft.Remarks
import GoSplit.Proofs.Draft.RoundTrip
import GoSplit.Proofs.Edit
import GoSplit.Proofs.Edit.Outcome
import GoSplit.Proofs.ImportPath
import GoSplit.Proofs.ImportPath.Names
import GoSplit.Proofs.ImportPath.Order
import GoSplit.Proofs.Job.Confined
import GoSplit.Proofs.Job.Errors
import GoSplit.Proofs.Job.Reruns
import GoSplit.Proofs.Layout
import GoSplit.Proofs.Manifest
import GoSplit.Proofs.Manifest.Offences
import GoSplit.Proofs.Position
import GoSplit.Proofs.Relocation
import GoSplit.Proofs.Relocation.SideBySide
import GoSplit.Proofs.Selector.Agreement
import GoSplit.Proofs.Selector.Beside
import GoSplit.Proofs.Selector.Code
import GoSplit.Proofs.Selector.Declared
import GoSplit.Proofs.Selector.Files
import GoSplit.Proofs.Selector.Forms
import GoSplit.Proofs.Selector.Inside
import GoSplit.Proofs.Selector.Lines
import GoSplit.Proofs.Selector.Moved
import GoSplit.Proofs.Selector.Nesting
import GoSplit.Proofs.Selector.Repeated
import GoSplit.Proofs.Selector.Signatures
import GoSplit.Proofs.Selector.Switch
import GoSplit.Proofs.Selector.Values
import GoSplit.Proofs.Shading
import GoSplit.Proofs.Shading.Files
import GoSplit.Proofs.Shading.Finished
import GoSplit.Proofs.Shading.Policies
import GoSplit.Proofs.Shading.Workers
import GoSplit.Proofs.Signature.Declarations
import GoSplit.Proofs.Site
import GoSplit.Proofs.Sorted
import GoSplit.Proofs.SourceFile.Accounting
import GoSplit.Proofs.SourceFile.Alike
import GoSplit.Proofs.SourceFile.Complete
import GoSplit.Proofs.SourceFile.Endings
import GoSplit.Proofs.SourceFile.Extents
import GoSplit.Proofs.SourceFile.Found
import GoSplit.Proofs.SourceFile.Items
import GoSplit.Proofs.SourceFile.PackageName
import GoSplit.Proofs.SourceFile.Parsed
import GoSplit.Proofs.SourceFile.Printable
import GoSplit.Proofs.SourceFile.Twin
import GoSplit.Proofs.Text.Lines
import GoSplit.Proofs.Token.Alike
import GoSplit.Proofs.Token.Chained
import GoSplit.Proofs.Token.Delimited
import GoSplit.Proofs.Token.Fills
import GoSplit.Proofs.Token.LineBreaks
import GoSplit.Proofs.Token.Moved
import GoSplit.Proofs.Token.Quiet
import GoSplit.Proofs.Token.Quoted
import GoSplit.Proofs.Token.Reads
import GoSplit.Proofs.Token.Scan
import GoSplit.Proofs.Token.Tiling
import GoSplit.Proofs.Token.Trimmed
import GoSplit.Proofs.Token.Twin
import GoSplit.Proofs.Tree.Confined
import GoSplit.Proofs.Tree.Directories
import GoSplit.Proofs.Tree.Entries
import GoSplit.Proofs.Tree.Moved
import GoSplit.Proofs.Tree.Moving
import GoSplit.Proofs.Tree.Paths
import GoSplit.Proofs.Tree.Walking
import GoSplit.Proofs.Tree.Ways
import GoSplit.Proofs.Tree.Writing
import GoSplit.Proofs.Vendoring
import GoSplit.Proofs.Workspace
import GoSplit.Pruner
import GoSplit.Pruning
import GoSplit.Relocation
import GoSplit.Report
import GoSplit.Selector
import GoSplit.Selector.Signature
import GoSplit.Shading
import GoSplit.Shading.Tree
import GoSplit.Site
import GoSplit.SourceFile
import GoSplit.SourceFile.Extent
import GoSplit.SourceFile.Fault
import GoSplit.SourceFile.Header
import GoSplit.SourceFile.Heading
import GoSplit.SourceFile.Import
import GoSplit.SourceFile.Parser
import GoSplit.Text
import GoSplit.Text.CodePoints
import GoSplit.Text.Letter
import GoSplit.Text.Quoted
import GoSplit.Text.Utf8
import GoSplit.Text.Visible
import GoSplit.Token
import GoSplit.Token.Lexer
import GoSplit.Toml
import GoSplit.Toml.Document
import GoSplit.Toml.Scalar
import GoSplit.Toolchain
import GoSplit.Toolchain.Script
import GoSplit.Tree
import GoSplit.Tree.Files
import GoSplit.Tree.Move
import GoSplit.Vendoring
