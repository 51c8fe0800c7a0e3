import PawnScope.Compiler.Command
import PawnScope.Declaration.Globals
import PawnScope.Proofs.Compiler.Command
import PawnScope.Proofs.Compiler.Log
import PawnScope.Proofs.Config.Setting
import PawnScope.Proofs.Cursor.Strings
import PawnScope.Proofs.Declaration.Enclosed
import PawnScope.Proofs.Declaration.Globals
import PawnScope.Proofs.Declaration.Labels
import PawnScope.Proofs.Declaration.Seam
import PawnScope.Proofs.Graph.Collection
import PawnScope.Proofs.Graph.History
import PawnScope.Proofs.Graph.Sweeping
import PawnScope.Proofs.Include.Resolving
import PawnScope.Proofs.Parameter.Rejoining
import PawnScope.Proofs.Path.Expansion
import PawnScope.Proofs.Path.Location
import PawnScope.Proofs.Path.Spelling
import PawnScope.Proofs.Query.Arguments
import PawnScope.Proofs.Query.Commas
import PawnScope.Proofs.Query.Completion
import PawnScope.Proofs.Query.Named
import PawnScope.Proofs.Query.Target
import PawnScope.Proofs.Scope.Reordering
import PawnScope.Proofs.Source.Bodies
import PawnScope.Proofs.Source.Braces
import PawnScope.Proofs.Source.Comments
import PawnScope.Proofs.Source.Concat
import PawnScope.Proofs.Source.Continuations
import PawnScope.Proofs.Source.Declared
import PawnScope.Proofs.Source.Documentation
import PawnScope.Proofs.Source.Globals
import PawnScope.Proofs.Source.Names
import PawnScope.Proofs.Source.Prototype
import PawnScope.Proofs.Source.Statics
import PawnScope.Proofs.Symbol.Selection
import PawnScope.Proofs.Text.Offsets
import PawnScope.Proofs.Token.Patterns
import PawnScope.Proofs.Workspace.Buffers
import PawnScope.Proofs.Workspace.Closing
import PawnScope.Proofs.Workspace.Definition
import PawnScope.Proofs.Workspace.FromScratch
import PawnScope.Proofs.Workspace.Isolation
import PawnScope.Proofs.Workspace.Loading
import PawnScope.Proofs.Workspace.References
import PawnScope.Proofs.Workspace.Retyping
import PawnScope.Proofs.Workspace.Statics
import PawnScope.Query.Basic
