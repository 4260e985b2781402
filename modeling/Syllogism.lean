import Syllogism.Bindings
import Syllogism.Catalogue
import Syllogism.Catalogue.Standard
import Syllogism.CommandLine
import Syllogism.Database
import Syllogism.Decimal.Shortest
import Syllogism.Encoding.Fact
import Syllogism.Encoding.Proof
import Syllogism.Encoding.Rule
import Syllogism.Encoding.Settings
import Syllogism.Engine
import Syllogism.Error
import Syllogism.Instant
import Syllogism.Instant.Text
import Syllogism.Json.Mismatch
import Syllogism.Json.Node
import Syllogism.Json.Numeral
import Syllogism.Json.Reader
import Syllogism.Json.Tagged
import Syllogism.Json.Token
import Syllogism.Json.Value
import Syllogism.Labels
import Syllogism.Main
import Syllogism.Matching
import Syllogism.Policy
import Syllogism.Problem
import Syllogism.Proof
import Syllogism.Proof.Verifier
import Syllogism.Proofs.Accounting
import Syllogism.Proofs.Agreement
import Syllogism.Proofs.Answers
import Syllogism.Proofs.Application
import Syllogism.Proofs.Calls
import Syllogism.Proofs.Citation
import Syllogism.Proofs.Closure
import Syllogism.Proofs.ClosureOperator
import Syllogism.Proofs.Eagerness
import Syllogism.Proofs.Entailment
import Syllogism.Proofs.Exhaustion
import Syllogism.Proofs.Growth
import Syllogism.Proofs.Height
import Syllogism.Proofs.JsonText
import Syllogism.Proofs.Lifecycle
import Syllogism.Proofs.Opacity
import Syllogism.Proofs.Paths
import Syllogism.Proofs.Placeholders
import Syllogism.Proofs.Preorder
import Syllogism.Proofs.Registration
import Syllogism.Proofs.Renaming
import Syllogism.Proofs.Reordering
import Syllogism.Proofs.Rollback
import Syllogism.Proofs.RoundLimit
import Syllogism.Proofs.RoundTrip
import Syllogism.Proofs.Rounds
import Syllogism.Proofs.Substitution
import Syllogism.Proofs.TomlText
import Syllogism.Proofs.Trace
import Syllogism.Proofs.Transcript
import Syllogism.Proofs.Unification
import Syllogism.Proofs.Verification
import Syllogism.Proofs.WellFormed
import Syllogism.Provenance
import Syllogism.Rule
import Syllogism.Session
import Syllogism.Settings
import Syllogism.Settings.Toml
import Syllogism.Statement
import Syllogism.Text.Blank
import Syllogism.Text.Printable
import Syllogism.Text.Quoted
import Syllogism.Toml.Reader
import Syllogism.Toml.Value
