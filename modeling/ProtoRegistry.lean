import ProtoRegistry.Theory.Dict
import ProtoRegistry.Theory.Grounded
import ProtoRegistry.Theory.Program
import ProtoRegistry.Theory.Fallible
import ProtoRegistry.Model.Descriptor
import ProtoRegistry.Model.Snapshot
import ProtoRegistry.Model.Compat
import ProtoRegistry.Model.Compiler
import ProtoRegistry.Model.Store
import ProtoRegistry.Model.Namespace
import ProtoRegistry.Model.Registry
import ProtoRegistry.Model.Sample
import ProtoRegistry.Model.Transaction
import ProtoRegistry.Verify.Calls
import ProtoRegistry.Verify.Hierarchy
import ProtoRegistry.Verify.Reparenting
import ProtoRegistry.Verify.Pointers
import ProtoRegistry.Verify.Mirroring
import ProtoRegistry.Verify.Gate
import ProtoRegistry.Verify.Sessions
import ProtoRegistry.Verify.Restore
import ProtoRegistry.Verify.Shadowing
import ProtoRegistry.Model.ClientSnapshot
import ProtoRegistry.Theory.Stateful
import ProtoRegistry.Model.Client
import ProtoRegistry.Theory.Indexed
import ProtoRegistry.Verify.TypesIndex
import ProtoRegistry.Verify.FilesIndex
import ProtoRegistry.Verify.Compiled
import ProtoRegistry.Verify.Populated
import ProtoRegistry.Verify.Collisions
import ProtoRegistry.Verify.Origins
import ProtoRegistry.Verify.Aggregates
import ProtoRegistry.Verify.Refreshing
import ProtoRegistry.Verify.FailedRefresh
import ProtoRegistry.Model.Cache
import ProtoRegistry.Verify.Caching
import ProtoRegistry.Theory.Matched
import ProtoRegistry.Verify.Compatible
import ProtoRegistry.Verify.FilesRuns
import ProtoRegistry.Verify.TypesRuns
import ProtoRegistry.Verify.Failures
import ProtoRegistry.Verify.Allocation
import ProtoRegistry.Verify.Gathering
import ProtoRegistry.Verify.Recovery
import ProtoRegistry.Verify.Transparency
import ProtoRegistry.Verify.Staging
import ProtoRegistry.Verify.Rebasing
import ProtoRegistry.Verify.Idempotence
import ProtoRegistry.Model.Server
import ProtoRegistry.Verify.Sources
import ProtoRegistry.Verify.Mediation
import ProtoRegistry.Verify.Builtins
import ProtoRegistry.Verify.AuditLog
import ProtoRegistry.Verify.Chains
import ProtoRegistry.Model.Resolve
import ProtoRegistry.Verify.Promotion
import ProtoRegistry.Verify.Resolution
import ProtoRegistry.Theory.Paging
import ProtoRegistry.Verify.Listing
import ProtoRegistry.Verify.Lookup
import ProtoRegistry.Verify.Enumeration
import ProtoRegistry.Verify.Reregistration
import ProtoRegistry.Verify.Withdrawal
import ProtoRegistry.Verify.Tiers
import ProtoRegistry.Verify.Redefinition
import ProtoRegistry.Model.Load
import ProtoRegistry.Verify.Loading
import ProtoRegistry.Verify.Storing
import ProtoRegistry.Verify.Uploads
import ProtoRegistry.Theory.Ordering
import ProtoRegistry.Verify.Closure
import ProtoRegistry.Model.Path
import ProtoRegistry.Verify.Filenames
import ProtoRegistry.Theory.Framing
import ProtoRegistry.Verify.Fingerprints
import ProtoRegistry.Verify.LoadOrder
import ProtoRegistry.Model.Bootstrap
import ProtoRegistry.Verify.Bootstrap
import ProtoRegistry.Verify.RegistrationOrder
import ProtoRegistry.Model.Walks
import ProtoRegistry.Verify.Walks
import ProtoRegistry.Model.Connection
import ProtoRegistry.Verify.Connections
import ProtoRegistry.Verify.OwnFiles
import ProtoRegistry.Verify.Provenance
import ProtoRegistry.Verify.SourceOwners
import ProtoRegistry.Theory.Delimited
import ProtoRegistry.Verify.Canonical
import ProtoRegistry.Theory.Isolation
import ProtoRegistry.Verify.Tenants
import ProtoRegistry.Verify.Lifetimes
import ProtoRegistry.Verify.Admission
import ProtoRegistry.Model.CacheFiles
import ProtoRegistry.Verify.SharedCache
import ProtoRegistry.Verify.Clients
import ProtoRegistry.Model.Auth
import ProtoRegistry.Verify.Access
import ProtoRegistry.Verify.DuringRefresh
