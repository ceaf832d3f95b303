import Scriptlet.Main
import Scriptlet.Proofs.Host.Pure
import Scriptlet.Proofs.Host.Sparing
import Scriptlet.Proofs.Store.Lookups
import Scriptlet.Proofs.Session.Statements
import Scriptlet.Proofs.Store.Capture
import Scriptlet.Proofs.Store.Marking
import Scriptlet.Proofs.Store.Clients
import Scriptlet.Proofs.Host.Anchors
import Scriptlet.Proofs.Host.Unobservable
import Scriptlet.Proofs.Host.Sweeps
import Scriptlet.Proofs.Host.Accounts
import Scriptlet.Proofs.Grammar.Written
import Scriptlet.Proofs.Compact.Canonical
import Scriptlet.Proofs.Token.Tiling
import Scriptlet.Proofs.Host.Traces
import Scriptlet.Proofs.Store.Unplaced
import Scriptlet.Proofs.Value.Unplaced
import Scriptlet.Proofs.Machine.Unplaced
import Scriptlet.Proofs.Token.Newline
import Scriptlet.Proofs.Grammar.Newline
import Scriptlet.Proofs.Grammar.Nesting
import Scriptlet.Proofs.Grammar.Misfits
import Scriptlet.Proofs.Grammar.Successive
import Scriptlet.Proofs.Machine.Sequel
import Scriptlet.Proofs.Machine.Echoes
import Scriptlet.Proofs.Host.Newline
import Scriptlet.Proofs.Value.Bisimilar
import Scriptlet.Proofs.Session.Limit
import Scriptlet.Proofs.Session.Layout
import Scriptlet.Proofs.Token.Munch
import Scriptlet.Proofs.Grammar.Beside
import Scriptlet.Proofs.Grammar.Beside.Productions
import Scriptlet.Proofs.Token.Literals
import Scriptlet.Proofs.Machine.Counting
import Scriptlet.Proofs.Host.Divisors
import Scriptlet.Proofs.Machine.Comparisons
import Scriptlet.Proofs.Host.Resweep
import Scriptlet.Proofs.Store.Orders
import Scriptlet.Proofs.Value.Unfolding
import Scriptlet.Proofs.Host.Indexing
import Scriptlet.Proofs.Text.Carets
