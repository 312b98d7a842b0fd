import LegalLens.Agents.Memory
import LegalLens.Ingestion.Convergence
import LegalLens.Ingestion.CrashConsistency
import LegalLens.Ingestion.SharedStore
import LegalLens.Orchestration.Contention
import LegalLens.Orchestration.Departure
import LegalLens.Workers.Routing
import LegalLens.Ingestion.VectorQuery
import LegalLens.Coordination.ConcurrentRefresh
import LegalLens.Coordination.JoinEvents
import LegalLens.Orchestration.Heartbeat
import LegalLens.Orchestration.Serving
import LegalLens.Orchestration.Shutdown
import LegalLens.Agents.EventProtocol
import LegalLens.Retrieval.Tools
import LegalLens.Retrieval.RiskCache
import LegalLens.Retrieval.OrphanVectors
import LegalLens.Orchestration.LoopRefinement
import LegalLens.Agents.Endings
import LegalLens.Api.ErrorFrame
import LegalLens.Ingestion.Batching
import LegalLens.Ingestion.ParsedClauses
import LegalLens.Library.Grouping
import LegalLens.Orchestration.BatchDispatch
import LegalLens.Retrieval.SearchLimit
import LegalLens.Workers.Ownership
import LegalLens.Workers.RaisingCalls
import LegalLens.Coordination.SentinelClient
import LegalLens.Ingestion.CategoryTags
import LegalLens.Ingestion.Embedder
import LegalLens.Ingestion.Deployment
import LegalLens.Ingestion.IngestDriver
import LegalLens.Retrieval.ExtractClauses
import LegalLens.Coordination.DepartedWorkers
import LegalLens.Ingestion.Transactions
import LegalLens.Workers.Rebalancing
import LegalLens.Retrieval.SearchAfterIngest
import LegalLens.Ingestion.IngestPayload
import LegalLens.Ingestion.ManifestText
import LegalLens.Orchestration.PubSub
import LegalLens.Orchestration.Draining
import LegalLens.Ingestion.CuadFile
