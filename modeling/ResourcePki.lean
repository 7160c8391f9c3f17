import ResourcePki.Authority.Basic
import ResourcePki.Authority.Identity
import ResourcePki.Authority.Publishers
import ResourcePki.Authority.Request
import ResourcePki.Authority.TrustAnchor
import ResourcePki.Certificate.Incoming
import ResourcePki.Certificate.Outgoing
import ResourcePki.Certificate.Published
import ResourcePki.Certificate.Signed
import ResourcePki.Command
import ResourcePki.Command.Record
import ResourcePki.CommandLine.Memory
import ResourcePki.CommandLine.Options
import ResourcePki.CommandLine.Run
import ResourcePki.Config.Basic
import ResourcePki.Config.Toml
import ResourcePki.Dispatch.Engine
import ResourcePki.Dispatch.Session
import ResourcePki.Error
import ResourcePki.Error.Record
import ResourcePki.Event
import ResourcePki.Invariant.Check
import ResourcePki.Invariant.Violation
import ResourcePki.Issuance.Certify
import ResourcePki.Issuance.Handlers
import ResourcePki.Issuance.Services
import ResourcePki.Issuance.Timing
import ResourcePki.Issuance.Update
import ResourcePki.Json.Form
import ResourcePki.Json.Reader
import ResourcePki.Json.Value
import ResourcePki.Key.Pair
import ResourcePki.Key.Ring
import ResourcePki.Logging
import ResourcePki.Main
import ResourcePki.Metrics
import ResourcePki.Proofs.Authority.Views
import ResourcePki.Proofs.Certificate.Life
import ResourcePki.Proofs.Certificate.Record
import ResourcePki.Proofs.Dispatch.Action
import ResourcePki.Proofs.Dispatch.Agreement
import ResourcePki.Proofs.Dispatch.Allocating
import ResourcePki.Proofs.Dispatch.Outcome
import ResourcePki.Proofs.Invariant.Certifying
import ResourcePki.Proofs.Invariant.Check
import ResourcePki.Proofs.Invariant.Models
import ResourcePki.Proofs.Invariant.Observing
import ResourcePki.Proofs.Invariant.Revoking
import ResourcePki.Proofs.Invariant.Verdict
import ResourcePki.Proofs.Invariant.Watching
import ResourcePki.Proofs.Issuance.Activating
import ResourcePki.Proofs.Issuance.Alignment
import ResourcePki.Proofs.Issuance.Attempts
import ResourcePki.Proofs.Issuance.Certification
import ResourcePki.Proofs.Issuance.Commands
import ResourcePki.Proofs.Issuance.Commuting
import ResourcePki.Proofs.Issuance.Courses
import ResourcePki.Proofs.Issuance.Effects
import ResourcePki.Proofs.Issuance.Establishing
import ResourcePki.Proofs.Issuance.Growing
import ResourcePki.Proofs.Issuance.Histories
import ResourcePki.Proofs.Issuance.Leftovers
import ResourcePki.Proofs.Issuance.Linked
import ResourcePki.Proofs.Issuance.Locality
import ResourcePki.Proofs.Issuance.Matching
import ResourcePki.Proofs.Issuance.Numbering
import ResourcePki.Proofs.Issuance.Performing
import ResourcePki.Proofs.Issuance.Places
import ResourcePki.Proofs.Issuance.Plain
import ResourcePki.Proofs.Issuance.Refusals
import ResourcePki.Proofs.Issuance.Repeating
import ResourcePki.Proofs.Issuance.Reporting
import ResourcePki.Proofs.Issuance.Requesting
import ResourcePki.Proofs.Issuance.Retiring
import ResourcePki.Proofs.Issuance.Settled
import ResourcePki.Proofs.Issuance.Settling
import ResourcePki.Proofs.Issuance.Shares
import ResourcePki.Proofs.Issuance.Signing
import ResourcePki.Proofs.Issuance.Trying
import ResourcePki.Proofs.Issuance.Updating
import ResourcePki.Proofs.Json.Printing
import ResourcePki.Proofs.Json.RoundTrips
import ResourcePki.Proofs.Key.Editing
import ResourcePki.Proofs.Key.Expiring
import ResourcePki.Proofs.Key.Issuing
import ResourcePki.Proofs.Key.Lapsing
import ResourcePki.Proofs.Key.Places
import ResourcePki.Proofs.Key.Replacing
import ResourcePki.Proofs.Key.Ring
import ResourcePki.Proofs.Publishing.Calls
import ResourcePki.Proofs.Publishing.Clients
import ResourcePki.Proofs.Publishing.Deleting
import ResourcePki.Proofs.Publishing.Interleaving
import ResourcePki.Proofs.Publishing.Listing
import ResourcePki.Proofs.Publishing.Provisioning
import ResourcePki.Proofs.Publishing.Records
import ResourcePki.Proofs.Reconciliation.AnyOrder
import ResourcePki.Proofs.Reconciliation.Budget
import ResourcePki.Proofs.Reconciliation.Containment
import ResourcePki.Proofs.Reconciliation.Convergence
import ResourcePki.Proofs.Reconciliation.Passes
import ResourcePki.Proofs.Reconciliation.Running
import ResourcePki.Proofs.Reconciliation.Stepping
import ResourcePki.Proofs.Reconciliation.Sweep
import ResourcePki.Proofs.Reconciliation.Unlisted
import ResourcePki.Proofs.Resources.Excess
import ResourcePki.Proofs.Resources.Order
import ResourcePki.Proofs.Tree.Descendants
import ResourcePki.Proofs.Tree.Restoring
import ResourcePki.Proofs.Tree.Saved
import ResourcePki.Proofs.Tree.Searching
import ResourcePki.Proofs.Tree.Undoing
import ResourcePki.Proofs.Tree.WellFormed
import ResourcePki.Publication.Exchange
import ResourcePki.Publication.Uri
import ResourcePki.Publication.Uuid
import ResourcePki.Publishing.Documents
import ResourcePki.Publishing.Repositories
import ResourcePki.Publishing.Service
import ResourcePki.Reconciliation.Job
import ResourcePki.Reconciliation.Round
import ResourcePki.Registry
import ResourcePki.Resources.Blocks
import ResourcePki.Resources.Json
import ResourcePki.Resources.Set
import ResourcePki.Resources.Text
import ResourcePki.Server
import ResourcePki.Simulation.Deployment
import ResourcePki.Simulation.Handlers
import ResourcePki.Simulation.Names
import ResourcePki.Simulation.Plan
import ResourcePki.SortedMap
import ResourcePki.Text.Base64
import ResourcePki.Text.Scan
import ResourcePki.Time.Basic
import ResourcePki.Time.Calendar
import ResourcePki.Time.Text
import ResourcePki.Toml.Quoted
import ResourcePki.Toml.Reader
import ResourcePki.Toml.Scalar
import ResourcePki.Toml.Value
import ResourcePki.Toml.Writer
import ResourcePki.Tree.Basic
import ResourcePki.Tree.UnitOfWork
import ResourcePki.Xml.Node
import ResourcePki.Xml.Reader
