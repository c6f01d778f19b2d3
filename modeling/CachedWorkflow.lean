import CachedWorkflow.Checkout.Cone
import CachedWorkflow.Checkout.Script
import CachedWorkflow.Command.Options
import CachedWorkflow.Command.Run
import CachedWorkflow.Configuration
import CachedWorkflow.Configuration.Reader
import CachedWorkflow.Error
import CachedWorkflow.FileTree
import CachedWorkflow.Job.Graph
import CachedWorkflow.Job.KeyScript
import CachedWorkflow.Job.Order
import CachedWorkflow.Job.Settings
import CachedWorkflow.Json.Basic
import CachedWorkflow.Json.Leaves
import CachedWorkflow.Json.Reader
import CachedWorkflow.Json.Shape
import CachedWorkflow.Json.Writer
import CachedWorkflow.Main
import CachedWorkflow.Number.Binary64
import CachedWorkflow.Number.Decimal
import CachedWorkflow.Number.Shortest
import CachedWorkflow.Number.Width
import CachedWorkflow.Path
import CachedWorkflow.Pipeline.Binding
import CachedWorkflow.Pipeline.CallSite
import CachedWorkflow.Pipeline.Expansion
import CachedWorkflow.Pipeline.Library
import CachedWorkflow.Pipeline.Normal
import CachedWorkflow.ShellWord
import CachedWorkflow.Template.Format
import CachedWorkflow.Template.Renaming
import CachedWorkflow.Template.Token
import CachedWorkflow.Template.Value
import CachedWorkflow.Text
import CachedWorkflow.Text.Alphanumeric
import CachedWorkflow.Text.Blank
import CachedWorkflow.Text.Digits
import CachedWorkflow.Toml.Atom
import CachedWorkflow.Toml.Document
import CachedWorkflow.Toml.Quoted
import CachedWorkflow.Workflow.Compile
import CachedWorkflow.Workflow.Gate
import CachedWorkflow.Workflow.InitJob
import CachedWorkflow.Workflow.PipelineJob
import CachedWorkflow.Yaml.Construction
import CachedWorkflow.Yaml.Cursor
import CachedWorkflow.Yaml.Lexeme
import CachedWorkflow.Yaml.Merge
import CachedWorkflow.Yaml.Node
import CachedWorkflow.Yaml.Plain
import CachedWorkflow.Yaml.Reader
import CachedWorkflow.Yaml.Scalar
import CachedWorkflow.Yaml.Style
import CachedWorkflow.Yaml.Tag
import CachedWorkflow.Yaml.Value
import CachedWorkflow.Yaml.Writer
import CachedWorkflow.Proofs.Json.Leaves
import CachedWorkflow.Proofs.Template.Renaming
import CachedWorkflow.Proofs.Pipeline.Binding
import CachedWorkflow.Proofs.Job.Graph
import CachedWorkflow.Proofs.Workflow.Gate
import CachedWorkflow.Proofs.Workflow.InitJob
import CachedWorkflow.Proofs.Workflow.PipelineJob
import CachedWorkflow.Proofs.Workflow.Cache
import CachedWorkflow.Proofs.Job.KeyScript
import CachedWorkflow.Proofs.Shell.Running
import CachedWorkflow.Proofs.Job.Sensitivity
import CachedWorkflow.Proofs.Pipeline.Splicing
import CachedWorkflow.Proofs.Pipeline.Needs
import CachedWorkflow.Proofs.Pipeline.CallSite
import CachedWorkflow.Proofs.Pipeline.Expansion
import CachedWorkflow.Proofs.Job.Decision
import CachedWorkflow.Proofs.Job.Nonces
import CachedWorkflow.Proofs.Pipeline.Outputs
import CachedWorkflow.Proofs.Workflow.Outputs
import CachedWorkflow.Proofs.Workflow.Needs
import CachedWorkflow.Proofs.Pipeline.JobNames
import CachedWorkflow.Proofs.Path.Normal
import CachedWorkflow.Proofs.Path.Action
import CachedWorkflow.Proofs.Pipeline.Failures
import CachedWorkflow.Proofs.Pipeline.Cycles
import CachedWorkflow.Proofs.Workflow.Frame
import CachedWorkflow.Proofs.Job.Reordering
import CachedWorkflow.Proofs.Workflow.Classification
import CachedWorkflow.Proofs.Workflow.Declaration
import CachedWorkflow.Proofs.Pipeline.Expanded
import CachedWorkflow.Proofs.Template.Scannable
import CachedWorkflow.Proofs.Pipeline.Normal
import CachedWorkflow.Proofs.Workflow.Acceptance
import CachedWorkflow.Proofs.Job.KeyInputs
import CachedWorkflow.Proofs.Workflow.KeyInputs
import CachedWorkflow.Proofs.Template.Evaluation
import CachedWorkflow.Proofs.Template.Embedding
import CachedWorkflow.Proofs.Template.JsonText
import CachedWorkflow.Proofs.Job.Force
import CachedWorkflow.Proofs.Template.Lexemes
import CachedWorkflow.Proofs.Template.Rewriting
import CachedWorkflow.Proofs.Pipeline.References
import CachedWorkflow.Proofs.Pipeline.Prefix
import CachedWorkflow.Proofs.Checkout.Rules
import CachedWorkflow.Proofs.Checkout.Cone
import CachedWorkflow.Proofs.Checkout.Regions
import CachedWorkflow.Proofs.Expression.Tree
import CachedWorkflow.Proofs.Expression.Composition
import CachedWorkflow.Proofs.Workflow.Condition
import CachedWorkflow.Proofs.Expression.Inlining
import CachedWorkflow.Proofs.Expression.Replacing
import CachedWorkflow.Proofs.Pipeline.Inlining
import CachedWorkflow.Proofs.Json.Traversal
import CachedWorkflow.Proofs.Job.Arguments
import CachedWorkflow.Proofs.Path.Spans
