import PolyCache.Codec
import PolyCache.Storable
import PolyCache.Collection
import PolyCache.Config
import PolyCache.Registry
import PolyCache.Backend.Null
import PolyCache.Backend.Memory
import PolyCache.Backend.Mock
import PolyCache.ReadThrough
import PolyCache.Relational.Cache
import PolyCache.Leader.Pool
import PolyCache.Leader.Election
import PolyCache.Proofs.Leader.Succession
import PolyCache.Proofs.Leader.Contest
import PolyCache.Proofs.Leader.Elector
import PolyCache.Proofs.Codec
import PolyCache.Proofs.Json.Grammar
import PolyCache.Proofs.Json.Skip
import PolyCache.Proofs.Json.Reader
import PolyCache.Proofs.Registry
import PolyCache.Proofs.Registry.Runs
import PolyCache.Proofs.Backend.Shelf
import PolyCache.Proofs.History
import PolyCache.Proofs.Duration
import PolyCache.Proofs.Relational.Server
import PolyCache.Proofs.Backend.Memory
import PolyCache.Proofs.Relational.Cache
import PolyCache.Proofs.Relational.Sweeping
import PolyCache.Proofs.Relational.Runs
import PolyCache.Proofs.Relational.Naming
import PolyCache.Proofs.Interchange
import PolyCache.Proofs.Json.Form
import PolyCache.Proofs.Storable
import PolyCache.Proofs.Leader.Custody
import PolyCache.Proofs.Leader.Departure
import PolyCache.Proofs.Backend.Mock
import PolyCache.Proofs.Backend.Agreement
import PolyCache.Proofs.ReadThrough
import PolyCache.Proofs.Relational.Link
import PolyCache.Proofs.Relational.Ticks
import PolyCache.Proofs.Relational.Reapers
import PolyCache.Proofs.Relational.Crew
import PolyCache.Proofs.Relational.Authority
import PolyCache.Proofs.Relational.Isolation
import PolyCache.Proofs.Independence
import PolyCache.Proofs.Backend.Displacement
import PolyCache.Proofs.Relational.Failures
import PolyCache.Background
import PolyCache.Relational.Detached
import PolyCache.Proofs.Relational.Detached
import PolyCache.Proofs.Background
import PolyCache.Proofs.Json.Real
import PolyCache.Proofs.Json.Layout
import PolyCache.Proofs.Json.Legible
import PolyCache.Proofs.ReadBack
import PolyCache.Proofs.Relational.Relations
import PolyCache.Proofs.Mistyped
import PolyCache.Proofs.Leader.Calm
import PolyCache.Proofs.Leader.Recovery
import PolyCache.Proofs.Leader.Ownership
import PolyCache.Proofs.Leader.LockRows
import PolyCache.Proofs.Leader.Reports
import PolyCache.Proofs.Acceptance
import PolyCache.Proofs.Backend.Injection
import PolyCache.Proofs.Config
import PolyCache.Proofs.Leader.Servers
