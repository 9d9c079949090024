import TracciaRuntime.Proof.ToolCalls
import TracciaRuntime.Proof.Driver
import TracciaRuntime.Planning.Planners
import TracciaRuntime.Policies.Engine
import TracciaRuntime.Runtime.System
import TracciaRuntime.Proof.History
import TracciaRuntime.Proof.Denial
import TracciaRuntime.Proof.Calls
import TracciaRuntime.Proof.Approval
import TracciaRuntime.Proof.Outcome
import TracciaRuntime.Semantics.Contracts
import TracciaRuntime.Py.Result
import TracciaRuntime.Semantics.Layer
import TracciaRuntime.Semantics.Statement
import TracciaRuntime.Semantics.Compiler
import TracciaRuntime.Semantics.ProductionCompiler
import TracciaRuntime.Proof.Query
import TracciaRuntime.Proof.Filters
import TracciaRuntime.Proof.Joins
import TracciaRuntime.Proof.SemiAdditive
import TracciaRuntime.Proof.Placeholders
import TracciaRuntime.Proof.Parameters
import TracciaRuntime.Proof.Loop
import TracciaRuntime.Async.Follows
import TracciaRuntime.Proof.Events
import TracciaRuntime.Proof.Definitions
import TracciaRuntime.Models.OpenAiCompatible
import TracciaRuntime.Proof.Requested
import TracciaRuntime.Text.Separators
import TracciaRuntime.Persistence.Redis
import TracciaRuntime.Retrieval.Ingestion
import TracciaRuntime.Proof.Keys
import TracciaRuntime.Proof.Stores
import TracciaRuntime.Proof.CacheKeys
import TracciaRuntime.Events.Bus
import TracciaRuntime.Proof.Sequences
import TracciaRuntime.Events.Subscribe
import TracciaRuntime.Proof.Delivery
import TracciaRuntime.Retrieval.Memory
import TracciaRuntime.Proof.Tenants
import TracciaRuntime.Async.Trace
import TracciaRuntime.Cache.Calls
import TracciaRuntime.Proof.Flights
import TracciaRuntime.Proof.SingleFlight
import TracciaRuntime.Proof.Cancellation
import TracciaRuntime.Proof.Conduct
import TracciaRuntime.Distributed.Queue
import TracciaRuntime.Proof.Leases
import TracciaRuntime.Proof.Queues
import TracciaRuntime.Cache.Stores
import TracciaRuntime.Proof.CacheStores
import TracciaRuntime.Proof.TagInvalidation
import TracciaRuntime.Dag.Search
import TracciaRuntime.Analytics.Contracts
import TracciaRuntime.Analytics.Engine
import TracciaRuntime.Analytics.Driver
import TracciaRuntime.Analytics.Sessions
import TracciaRuntime.Proof.Works
import TracciaRuntime.Proof.Drives
import TracciaRuntime.Proof.Checkpoints
import TracciaRuntime.Proof.Fleets
import TracciaRuntime.Distributed.Worker
import TracciaRuntime.Proof.Deduplication
import TracciaRuntime.Proof.Fencing
import TracciaRuntime.Py.Json
import TracciaRuntime.Models.ChatCompletions
import TracciaRuntime.Models.Router
import TracciaRuntime.Proof.Fallback
import TracciaRuntime.Models.Anthropic
import TracciaRuntime.Proof.Truncation
import TracciaRuntime.Models.Chunks
import TracciaRuntime.Proof.Streaming
import TracciaRuntime.Models.Circuit
import TracciaRuntime.Proof.Circuit
import TracciaRuntime.Conversations.Contracts
import TracciaRuntime.Conversations.Service
import TracciaRuntime.Conversations.System
import TracciaRuntime.Proof.Turns
import TracciaRuntime.Proof.Submits
import TracciaRuntime.Proof.Replies
import TracciaRuntime.Proof.Answers
import TracciaRuntime.Async.Ended
import TracciaRuntime.Proof.Evidence
import TracciaRuntime.Proof.Reingestion
import TracciaRuntime.Proof.Decisions
import TracciaRuntime.Proof.Sidecar
import TracciaRuntime.Proof.Recoveries
import TracciaRuntime.Proof.Courses
import TracciaRuntime.Proof.Allowance
import TracciaRuntime.Proof.Screening
import TracciaRuntime.Proof.Repairs
import TracciaRuntime.Proof.Validation
import TracciaRuntime.Proof.Chunks
import TracciaRuntime.Models.RateLimiter
import TracciaRuntime.Proof.RateLimiter
import TracciaRuntime.Proof.Context
import TracciaRuntime.Proof.Copies
import TracciaRuntime.Proof.Nearest
import TracciaRuntime.Proof.Deadlines
import TracciaRuntime.Retrieval.Lazy
import TracciaRuntime.Proof.Pending
import TracciaRuntime.Analytics.Handlers
import TracciaRuntime.Proof.RowJoins
import TracciaRuntime.Proof.Comparisons
import TracciaRuntime.Proof.Rankings
import TracciaRuntime.Proof.Robustness
import TracciaRuntime.Proof.Subscribers
import TracciaRuntime.Proof.Packing
import TracciaRuntime.Proof.Charts
import TracciaRuntime.Proof.Claims
import TracciaRuntime.Proof.References
import TracciaRuntime.Proof.Errors
import TracciaRuntime.Proof.Citations
import TracciaRuntime.Proof.Redactions
import TracciaRuntime.Proof.Versions
import TracciaRuntime.Proof.Payloads
import TracciaRuntime.Proof.Documents
import TracciaRuntime.Proof.Fragments
import TracciaRuntime.Proof.Batches
import TracciaRuntime.Proof.Aliases
import TracciaRuntime.Proof.Evaluations
import TracciaRuntime.Config.Settings
import TracciaRuntime.Proof.Environment
import TracciaRuntime.Proof.Clarification
import TracciaRuntime.Listing.Pages
import TracciaRuntime.Conversations.Stores
import TracciaRuntime.Proof.Pages
import TracciaRuntime.Persistence.Memory
import TracciaRuntime.Proof.Windows
import TracciaRuntime.Tools.Subagent
import TracciaRuntime.Proof.Delegation
import TracciaRuntime.Governance.Executor
import TracciaRuntime.Proof.Transparency
import TracciaRuntime.Proof.Waves
import TracciaRuntime.Proof.Scheduling
import TracciaRuntime.Proof.Interruptions
import TracciaRuntime.Proof.Confluence
import TracciaRuntime.Proof.Endings
import TracciaRuntime.Governance.Engine
import TracciaRuntime.Proof.Governance
import TracciaRuntime.Listing.Top
import TracciaRuntime.Proof.Search
import TracciaRuntime.Api.Streams
import TracciaRuntime.Proof.Reconnections
import TracciaRuntime.Proof.Ratings
import TracciaRuntime.Semantics.Planner
import TracciaRuntime.Proof.Plans
