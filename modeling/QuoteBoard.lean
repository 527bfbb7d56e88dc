import QuoteBoard.Board
import QuoteBoard.Decimal
import QuoteBoard.Inconsistency
import QuoteBoard.Json.Printer
import QuoteBoard.Json.Reader
import QuoteBoard.Metrics.Latency
import QuoteBoard.Proofs.CacheHistory
import QuoteBoard.Proofs.Tracks
import QuoteBoard.Proofs.WatchedBoard
import QuoteBoard.Replay.Simulation
import QuoteBoard.Wire.Config
import QuoteBoard.Wire.Replay
import QuoteBoard.Wire.Snapshot
import QuoteBoard.Wire.Update
import QuoteBoard.Proofs.BatchNotices
import QuoteBoard.Proofs.TwoFeeds
import QuoteBoard.Proofs.Fidelity
import QuoteBoard.Proofs.Scenes
import QuoteBoard.Proofs.Sequence
import QuoteBoard.Proofs.Outcomes
import QuoteBoard.Proofs.Abreast
import QuoteBoard.Proofs.Framing
import QuoteBoard.Proofs.Isolation
import QuoteBoard.Proofs.Balance
import QuoteBoard.Proofs.Registration
import QuoteBoard.Proofs.Asks
import QuoteBoard.Proofs.Interference
import QuoteBoard.Proofs.Showings
import QuoteBoard.Proofs.Seats
import QuoteBoard.Proofs.Performance
import QuoteBoard.Proofs.Commits
import QuoteBoard.Proofs.ForeignFeeds
import QuoteBoard.Proofs.Refusals
import QuoteBoard.Proofs.JsonText
import QuoteBoard.Proofs.Records
import QuoteBoard.Proofs.Documents
import QuoteBoard.Proofs.Insertions
import QuoteBoard.Proofs.LatestQuote
import QuoteBoard.Proofs.SnapshotContent
import QuoteBoard.Proofs.DecimalPrices
import QuoteBoard.Proofs.Phases
import QuoteBoard.Proofs.BatchOrder
import QuoteBoard.Proofs.Latencies
import QuoteBoard.Proofs.Edits
