import Regraft.Rewriter
import Regraft.Graph.Eval
import Regraft.Graph.Json
import Regraft.Script.Library
import Regraft.Search.Text
import Regraft.Proofs.Term.Constant
import Regraft.Proofs.Term.Tree
import Regraft.Proofs.Term.Store
import Regraft.Proofs.Subst.Acyclic
import Regraft.Proofs.Subst.Tree
import Regraft.Proofs.Subst.Bind
import Regraft.Proofs.Subst.Reify
import Regraft.Proofs.Term.Alike
import Regraft.Proofs.Meaning.Interpretation
import Regraft.Proofs.Subst.Advance
import Regraft.Proofs.Unify.Sound
import Regraft.Proofs.Match.Enumeration
import Regraft.Proofs.Match.Chain
import Regraft.Proofs.Match.Groups
import Regraft.Proofs.Search.Meets
import Regraft.Proofs.Search.Goal
import Regraft.Proofs.Match.Sound
import Regraft.Proofs.Meaning.Matching
import Regraft.Proofs.Term.Equal
import Regraft.Proofs.Search.Finds
import Regraft.Proofs.Match.Toward
import Regraft.Proofs.Match.Splits
import Regraft.Proofs.Match.Complete
import Regraft.Proofs.Match.Exact
import Regraft.Proofs.Term.Same
import Regraft.Proofs.Rewriting.Anywhere
import Regraft.Proofs.Rewriting.Pattern
import Regraft.Proofs.Rewriting.Correlated
import Regraft.Proofs.Rewriting.Walk
import Regraft.Proofs.Rewriting.Fixpoint
import Regraft.Proofs.Meaning.Identities
import Regraft.Proofs.Graph.Check
import Regraft.Proofs.Graph.Unfold
import Regraft.Proofs.Graph.Terms
import Regraft.Proofs.Graph.Types
import Regraft.Proofs.Rebuild.Steps
import Regraft.Proofs.Rebuild.Faithful
import Regraft.Proofs.Rebuild.Valid
import Regraft.Proofs.Rebuild.Attributes
import Regraft.Proofs.Rebuild.Accepts
import Regraft.Proofs.Rebuild.Own
import Regraft.Proofs.Rebuild.Again
import Regraft.Proofs.Rebuild.Literal
import Regraft.Proofs.Meaning.Graph
import Regraft.Proofs.Meaning.Rewriter
import Regraft.Proofs.Meaning.Marks
import Regraft.Proofs.Meaning.Recenter
import Regraft.Proofs.Match.Gives
import Regraft.Proofs.Match.Lighter
import Regraft.Proofs.Rewriting.Effects
import Regraft.Proofs.Rewriting.Exactly
import Regraft.Proofs.Rewriting.Positions
import Regraft.Proofs.Search.Derivation
import Regraft.Proofs.Search.Fair
import Regraft.Proofs.Search.Process
import Regraft.Proofs.Search.Emissions
import Regraft.Proofs.Rewriting.Explored
import Regraft.Proofs.Rewriting.Normal
import Regraft.Proofs.Rewriting.Stepping
import Regraft.Proofs.Unify.Requirements
import Regraft.Proofs.Search.Conjunction
import Regraft.Proofs.Script.Built
import Regraft.Proofs.Search.Distinct
import Regraft.Proofs.Rewriting.Multisite
import Regraft.Proofs.Renaming.Terms
import Regraft.Proofs.Renaming.Sessions
import Regraft.Proofs.Renaming.Subst
import Regraft.Proofs.Renaming.Unify
import Regraft.Proofs.Renaming.Search
import Regraft.Proofs.Renaming.Chain
import Regraft.Proofs.Renaming.Matching
import Regraft.Proofs.Renaming.Goals
import Regraft.Proofs.Renaming.Rules
import Regraft.Proofs.Renaming.Script
import Regraft.Proofs.Rewriting.Growing
import Regraft.Proofs.Renaming.Walk
import Regraft.Proofs.Renaming.Fixpoint
import Regraft.Proofs.Renaming.Graph
import Regraft.Proofs.Renaming.Rewriter
import Regraft.Proofs.Rewriting.Idle
import Regraft.Proofs.Rebuild.NoMatch
import Regraft.Proofs.Renaming.Settled
import Regraft.Proofs.Tensor.Broadcast
import Regraft.Proofs.Graph.Eval
import Regraft.Proofs.Graph.Build
import Regraft.Proofs.Graph.Equal
import Regraft.Proofs.Graph.Json
import Regraft.Proofs.Match.Instances
import Regraft.Proofs.Rewriting.Identities
import Regraft.Proofs.Rewriting.Reduced
import Regraft.Proofs.Unify.Stepwise
import Regraft.Proofs.Unify.AnyOrder
import Regraft.Proofs.Match.InOrder
import Regraft.Proofs.Search.Halts
import Regraft.Proofs.Match.Pairing
import Regraft.Proofs.Match.Decides
import Regraft.Proofs.Match.EitherWay
import Regraft.Proofs.Rebuild.Origins
import Regraft.Proofs.Match.Nesting
import Regraft.Proofs.Match.Parted
import Regraft.Proofs.Rewriting.InChain
import Regraft.Proofs.Match.Counts
import Regraft.Proofs.Rewriting.Shrinking
import Regraft.Proofs.Rewriting.Ending
import Regraft.Proofs.Rewriting.Descent
import Regraft.Proofs.Rewriting.Bounded
import Regraft.Proofs.Symbol.Exported
import Regraft.Proofs.Term.Arena
import Regraft.Proofs.Subst.Loops
import Regraft.Proofs.Tensor.Sweep
import Regraft.Proofs.Graph.Chains
import Regraft.Proofs.Match.Flattening
import Regraft.Proofs.Match.Orders
import Regraft.Proofs.Match.Groupings
