import MemoryOS.Accounts.Proofs.Encryption
import MemoryOS.Accounts.Proofs.LoginLimit
import MemoryOS.Accounts.Proofs.Replay
import MemoryOS.Accounts.Proofs.Sessions
import MemoryOS.Agent.Proofs.Guardrail
import MemoryOS.Agent.Proofs.Library
import MemoryOS.Agent.Proofs.Planner
import MemoryOS.Chat.Proofs.Agreement
import MemoryOS.Chat.Proofs.Shredding
import MemoryOS.Chunking.Proofs.Blanks
import MemoryOS.Chunking.Proofs.Ceiling
import MemoryOS.Context.Proofs.Relevance
import MemoryOS.Corpus.Proofs.Export
import MemoryOS.Corpus.Proofs.Pages
import MemoryOS.Corpus.Proofs.Runs
import MemoryOS.Corpus.Proofs.Scope
import MemoryOS.Corpus.Proofs.Watcher
import MemoryOS.Corpus.Tags
import MemoryOS.Decisions.Proofs.Alternatives
import MemoryOS.Decisions.Proofs.AssumptionGroups
import MemoryOS.Decisions.Proofs.Candidates
import MemoryOS.Decisions.Proofs.ReviewedOnce
import MemoryOS.Domain.Proofs.Canonical
import MemoryOS.Domain.Proofs.Debounce
import MemoryOS.Domain.Proofs.MessageIntent
import MemoryOS.Domain.Proofs.Patterns
import MemoryOS.Entities.Proofs.Candidates
import MemoryOS.Entities.Proofs.LlmExtractor
import MemoryOS.Entities.Proofs.Truthful
import MemoryOS.Entities.Proofs.Undo
import MemoryOS.Events.Proofs.Delivered
import MemoryOS.Evolution.Proofs.Affected
import MemoryOS.Evolution.Proofs.Evidence
import MemoryOS.Evolution.Proofs.Summaries
import MemoryOS.Graph.Proofs.Verify
import MemoryOS.Jobs.Proofs.Dedupe
import MemoryOS.LiveBus.Proofs.Lossless
import MemoryOS.Patterns.Proofs.Discovery
import MemoryOS.Patterns.Proofs.Missing
import MemoryOS.Patterns.Proofs.Verdicts
import MemoryOS.Patterns.Proofs.Wilson
import MemoryOS.Pipeline.Proofs.Owed
import MemoryOS.Replay.Proofs.Partial
import MemoryOS.Replay.Proofs.Sweep
import MemoryOS.Search.Proofs.Expand
import MemoryOS.Search.Proofs.Explanation
import MemoryOS.Search.Proofs.Tuning
import MemoryOS.Surfacing.Proofs.Bar
import MemoryOS.Surfacing.Proofs.Quiet
import MemoryOS.Temporal.Proofs.AsOf
import MemoryOS.Temporal.Proofs.Timeline
import MemoryOS.UserModel.Proofs.Derived
import MemoryOS.UserModel.Proofs.History
