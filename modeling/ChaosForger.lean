import ChaosForger.Machine
import ChaosForger.Http.Feed
import ChaosForger.Http.Bounds
import ChaosForger.Http.Client
import ChaosForger.Http.Progress
import ChaosForger.Http.Message
import ChaosForger.Http.Decode
import ChaosForger.Http.Segments
import ChaosForger.Http.Truncation
import ChaosForger.Http.Boundaries
import ChaosForger.Config
import ChaosForger.Discovery
import ChaosForger.Shutdown
import ChaosForger.Chaos
import ChaosForger.Engine
import ChaosForger.Gates
import ChaosForger.Engine.Strikes
import ChaosForger.Engine.Accounting
import ChaosForger.Engine.Halting
import ChaosForger.Engine.Budget
import ChaosForger.Http.OneShot
import ChaosForger.Http.RoundTrip
import ChaosForger.Http.HeaderOrder
import ChaosForger.Http.LengthValues
import ChaosForger.Docker.Client
import ChaosForger.Docker.Outcome
import ChaosForger.Scheduler
import ChaosForger.Json
import ChaosForger.Json.Grammar
import ChaosForger.Trim
import ChaosForger.Validate
import ChaosForger.Validate.Accepted
import ChaosForger.Docker.Listing
import ChaosForger.Docker.Wire
import ChaosForger.Docker.Armed
import ChaosForger.Json.Scan
import ChaosForger.Json.Strings
import ChaosForger.Json.Containers
import ChaosForger.Json.Values
import ChaosForger.Json.Lexical
import ChaosForger.Json.Rfc
import ChaosForger.Discovery.Matching
import ChaosForger.Docker.Entries
import ChaosForger.Shutdown.Concurrent
import ChaosForger.Shutdown.WakeUps
import ChaosForger.Shutdown.Reasons
import ChaosForger.Json.Checked
import ChaosForger.Json.Nesting
import ChaosForger.Validate.Conversions
import ChaosForger.Handles
import ChaosForger.Http.UnixSocket
import ChaosForger.Http.Live
import ChaosForger.Http.Connection
import ChaosForger.Lines
import ChaosForger.Log
import ChaosForger.Docker.Live
import ChaosForger.Engine.Live
import ChaosForger.Engine.Audit
import ChaosForger.Engine.Wire
import ChaosForger.Main
import ChaosForger.Main.Arguments
import ChaosForger.Main.Runs
import ChaosForger.Main.Wire
import ChaosForger.Main.Report
import ChaosForger.Main.Exit
import ChaosForger.Main.Lifecycle
import ChaosForger.Log.Threads
import ChaosForger.Http.TrailerCuts
