import Routing.Main
import Routing.Session
import Routing.Proofs.Pattern.Words
import Routing.Proofs.Route.RoundTrip
import Routing.Proofs.Route.WrittenWords
import Routing.Proofs.Tree.Pruning
import Routing.Proofs.Router.Visit
import Routing.Proofs.Regex.Context
import Routing.Proofs.Pattern.Splicing
import Routing.Proofs.Route.Runs
import Routing.Proofs.Regex.Free
import Routing.Proofs.Pattern.Alignment
import Routing.Proofs.Pattern.Filling
import Routing.Proofs.Route.Values
import Routing.Proofs.Pattern.Printing
import Routing.Proofs.Route.Reassign
import Routing.Proofs.Route.Splitting
import Routing.Proofs.Tree.Patterns
import Routing.Proofs.Query
import Routing.Proofs.Tree.Precedence
import Routing.Proofs.Tree.History
import Routing.Proofs.Router.Links
import Routing.Proofs.Router.Sharing
import Routing.Proofs.Tree.Rules
import Routing.Proofs.Tree.Assignments
import Routing.Proofs.Route.Relinking
import Routing.Proofs.Tree.Newcomer
import Routing.Proofs.Router.ChainQuery
import Routing.Proofs.Table.Active
import Routing.Proofs.Table.Order
import Routing.Proofs.Table.Redirections
import Routing.Proofs.Router.Shortcut
import Routing.Proofs.Pattern.Acceptance
import Routing.Proofs.Route.Failing
import Routing.Proofs.Tree.Adding
import Routing.Proofs.Route.Tuples
import Routing.Proofs.Route.Delimiter
import Routing.Proofs.Route.Incomplete
import Routing.Proofs.Router.Reentry
import Routing.Proofs.Tree.Seams
import Routing.Proofs.Router.Rooting
import Routing.Proofs.Query.Arguments
import Routing.Proofs.Query.Rereading
import Routing.Proofs.Query.Values
import Routing.Proofs.Command.Listing
import Routing.Proofs.Highlight.Variables
import Routing.Proofs.Command.Reports
import Routing.Proofs.Pattern.Fragments
