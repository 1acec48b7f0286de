import Tazamun.Lib.Run
import Tazamun.Lib.Cut
import Tazamun.Lib.Codec
import Tazamun.Lib.Amortized
import Tazamun.Lib.Glob
import Tazamun.Basic.Types
import Tazamun.Locks.Table
import Tazamun.Locks.Mesh
import Tazamun.Locks.Pair
import Tazamun.Locks.Handlers
import Tazamun.Locks.Exclusion
import Tazamun.Locks.Votes
import Tazamun.Locks.Race
import Tazamun.Locks.Gossip
import Tazamun.Locks.Plane
import Tazamun.Net.Handshake
import Tazamun.Session.Grant
import Tazamun.Session.Roles
import Tazamun.Sync.VClock
import Tazamun.Sync.Record
import Tazamun.Daemon.Actor
import Tazamun.Daemon.Pull
import Tazamun.Daemon.Watch
import Tazamun.Daemon.Ipc
import Tazamun.Daemon.Peers
import Tazamun.Daemon.Run
import Tazamun.Locks.Silent
import Tazamun.Locks.Renewal
import Tazamun.Index.Split
import Tazamun.Turn.Aside
import Tazamun.Turn.Desk
import Tazamun.Turn.Operations
import Tazamun.Turn.Basic
import Tazamun.Turn.Leases
import Tazamun.Turn.Pull
import Tazamun.Turn.Reconcile
import Tazamun.Turn.Watch
import Tazamun.Turn.Requests
import Tazamun.Turn.Index
import Tazamun.Turn.Handlers
import Tazamun.Turn.Runs
import Tazamun.Turn.Books
import Tazamun.Turn.Marks
import Tazamun.Turn.Bookkeeping
import Tazamun.Turn.Covered
import Tazamun.Turn.Deletions
import Tazamun.Turn.Clocks
import Tazamun.Turn.Apply
import Tazamun.Turn.Slots
import Tazamun.Turn.Running
import Tazamun.Turn.Retry
import Tazamun.Turn.Upkeep
import Tazamun.Index.Exchange
import Tazamun.Index.Reconnect
import Tazamun.Net.Duplicates
import Tazamun.Sync.Manifest
import Tazamun.Sync.Chunker
import Tazamun.Sync.Pipeline
import Tazamun.Sync.Interleaving
import Tazamun.Sync.Transfer
import Tazamun.Sync.Postcard
import Tazamun.Sync.Staging
import Tazamun.Sync.Publish
import Tazamun.Sync.RateLimit
import Tazamun.Sync.Swarm
import Tazamun.Oneshot.Transfer
import Tazamun.Oneshot.Resume
import Tazamun.Oneshot.Offer
import Tazamun.Store.Gc
import Tazamun.Store.Protect
import Tazamun.World.Basic
import Tazamun.Turn.Guard
import Tazamun.Turn.Walk
import Tazamun.Turn.Dispatch
import Tazamun.Turn.Steady
import Tazamun.Turn.Schedule
import Tazamun.Turn.Observers
import Tazamun.Turn.Boundary
import Tazamun.Turn.Casefold
import Tazamun.Index.Sizes
import Tazamun.Turn.Advertise
import Tazamun.Turn.Release
import Tazamun.Turn.Startup
import Tazamun.Turn.Spares
import Tazamun.Turn.Held
import Tazamun.Turn.SparedDispatch
import Tazamun.Turn.Alone
import Tazamun.Paths.Sanitize
import Tazamun.Paths.Contain
import Tazamun.Oneshot.Publish
import Tazamun.Oneshot.AllOrNothing
import Tazamun.Conflicts.Names
import Tazamun.Versions.Diff
import Tazamun.Versions.History
import Tazamun.Conflicts.Quarantine
import Tazamun.Conflicts.Listing
import Tazamun.Session.Rekey
import Tazamun.Query.Pattern
import Tazamun.Query.Matching
import Tazamun.Lib.Paging
import Tazamun.Query.Page
import Tazamun.Lib.Json
import Tazamun.Query.Snapshot
import Tazamun.Lib.Calendar
import Tazamun.Locks.Bound
import Tazamun.Conflicts.Calendar
import Tazamun.Audit.Text
import Tazamun.Audit.Follow
import Tazamun.Audit.CappedLog
import Tazamun.Lib.Lines
import Tazamun.Lib.Base32
import Tazamun.Session.TicketText
import Tazamun.Config.Values
import Tazamun.Config.Settings
import Tazamun.Lib.Frames
import Tazamun.Wire.Message
import Tazamun.Wire.Framing
import Tazamun.Wire.Link
import Tazamun.Wire.Index
import Tazamun.Lib.Durable
import Tazamun.State.Save
import Tazamun.Lib.Rules
import Tazamun.Scope.Ignore
import Tazamun.Scope.Configured
import Tazamun.Supervisor.Registry
import Tazamun.Supervisor.Device
import Tazamun.Dashboard.Http
import Tazamun.Dashboard.Route
import Tazamun.Lib.EditDistance
import Tazamun.Cli.Suggest
import Tazamun.Ipc.Line
import Tazamun.Ipc.Hub
import Tazamun.Conflicts.Center
import Tazamun.Net.Dialer
import Tazamun.Net.Redial
