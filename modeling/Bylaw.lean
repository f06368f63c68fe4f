import Bylaw.Rule.Source
import Bylaw.Engine
import Bylaw.Handlers
import Bylaw.Gateway.Admin
import Bylaw.Gateway.Edge
import Bylaw.Gateway.Router
import Bylaw.Gateway.Virtual
import Bylaw.Proofs.Rule.Joining
import Bylaw.Proofs.Rule.RoundTrip
import Bylaw.Proofs.Rule.Seam
import Bylaw.Proofs.Rule.Statements
import Bylaw.Proofs.Rule.Stuck
import Bylaw.Proofs.Engine.Batch
import Bylaw.Proofs.Engine.Frame
import Bylaw.Proofs.Engine.Loading
import Bylaw.Proofs.Engine.Order
import Bylaw.Proofs.Engine.Reloading
import Bylaw.Proofs.Engine.Stopping
import Bylaw.Proofs.Engine.Termination
import Bylaw.Proofs.Gateway.Entity
import Bylaw.Proofs.Gateway.Footprint
import Bylaw.Proofs.Gateway.Secrecy
import Bylaw.Proofs.Gateway.Uniqueness
import Bylaw.Proofs.Gateway.Creation
import Bylaw.Proofs.Gateway.Forwarding
import Bylaw.Proofs.Gateway.Listing
import Bylaw.Proofs.Gateway.Weekly
import Bylaw.Proofs.Engine.Relevance
import Bylaw.Proofs.Reply.Steps
import Bylaw.Proofs.Engine.Detachment
import Bylaw.Proofs.Store.Contract
import Bylaw.Proofs.Store.Identity
import Bylaw.Proofs.Rule.Annotated
import Bylaw.Proofs.Rule.Events
import Bylaw.Proofs.Rule.Absorption
import Bylaw.Proofs.Rule.Patterns
import Bylaw.Proofs.Rule.Precedence
import Bylaw.Proofs.Rule.Literals
import Bylaw.Proofs.Rule.ErrorLine
import Bylaw.Proofs.Rule.Excerpt
import Bylaw.Proofs.Rule.Names
import Bylaw.Proofs.Condition.Order
import Bylaw.Proofs.Condition.Integers
import Bylaw.Proofs.Condition.Equality
import Bylaw.Proofs.Arithmetic.Dates
import Bylaw.Proofs.Condition.Today
import Bylaw.Proofs.FieldPath.Lens
import Bylaw.Proofs.Run.Failing
import Bylaw.Proofs.Run.Visits
import Bylaw.Proofs.Json.Users
import Bylaw.Proofs.Store.InPlace
import Bylaw.Proofs.Token.Slices
import Bylaw.Proofs.Template.Collected
