import OrderDecoding.Candidate
import OrderDecoding.CommandLine.Arguments
import OrderDecoding.CommandLine.Run
import OrderDecoding.Constraint
import OrderDecoding.Decimal.Numeral
import OrderDecoding.Decimal.Shortest
import OrderDecoding.Decoder
import OrderDecoding.Error
import OrderDecoding.Evaluation
import OrderDecoding.Format.Order
import OrderDecoding.Format.Request
import OrderDecoding.Format.Settings
import OrderDecoding.Json.Fault
import OrderDecoding.Json.Number
import OrderDecoding.Json.Reader
import OrderDecoding.Json.Record
import OrderDecoding.Json.Text
import OrderDecoding.Json.Value
import OrderDecoding.Json.Writer
import OrderDecoding.Main
import OrderDecoding.Order
import OrderDecoding.Pool
import OrderDecoding.Position
import OrderDecoding.Random
import OrderDecoding.Score
import OrderDecoding.Score.Draw
import OrderDecoding.Score.Row
import OrderDecoding.Scorer
import OrderDecoding.Sequence
import OrderDecoding.Settings
import OrderDecoding.Strategy.Beam
import OrderDecoding.Strategy.Greedy
import OrderDecoding.Strategy.Sample
import OrderDecoding.UnitList
import OrderDecoding.Vocabulary
import OrderDecoding.Vocabulary.Vector
import OrderDecoding.Word
import OrderDecoding.Workers
import OrderDecoding.Proofs.Binary64.Rounding
import OrderDecoding.Proofs.Binary64.Reading
import OrderDecoding.Proofs.Binary64.Order
import OrderDecoding.Proofs.Binary64.Normalizing
import OrderDecoding.Proofs.Binary64.Packing
import OrderDecoding.Proofs.Binary64.Arithmetic
import OrderDecoding.Proofs.Lawful
import OrderDecoding.Proofs.Binary64.Lawful
import OrderDecoding.Proofs.Binary64.Quotients
import OrderDecoding.Proofs.Runs
import OrderDecoding.Proofs.Forking
import OrderDecoding.Proofs.Claims
import OrderDecoding.Proofs.Masking
import OrderDecoding.Proofs.LogSoftmax
import OrderDecoding.Proofs.Ranking
import OrderDecoding.Proofs.Picking
import OrderDecoding.Proofs.Replaying
import OrderDecoding.Proofs.Reached
import OrderDecoding.Proofs.Stark
import OrderDecoding.Proofs.Pooling
import OrderDecoding.Proofs.Uniqueness
import OrderDecoding.Proofs.Rescoring
import OrderDecoding.Proofs.Survival
import OrderDecoding.Proofs.Survivors
import OrderDecoding.Proofs.Sharing
import OrderDecoding.Proofs.Crowding
import OrderDecoding.Proofs.Width
import OrderDecoding.Proofs.Streams
import OrderDecoding.Proofs.Frontier
import OrderDecoding.Proofs.Composition
import OrderDecoding.Proofs.Faults
import OrderDecoding.Proofs.Exactness
import OrderDecoding.Proofs.Encoding
import OrderDecoding.Proofs.Relaxing
import OrderDecoding.Proofs.Narrowest
import OrderDecoding.Proofs.BestScores
import OrderDecoding.Proofs.Optimality
import OrderDecoding.Proofs.Histories
import OrderDecoding.Proofs.Agreement
import OrderDecoding.Proofs.Causality
import OrderDecoding.Proofs.Growth
import OrderDecoding.Proofs.Padding
import OrderDecoding.Proofs.Building
import OrderDecoding.Proofs.Contest
import OrderDecoding.Proofs.Selection
import OrderDecoding.Proofs.Unhindered
import OrderDecoding.Proofs.Retaining
import OrderDecoding.Proofs.Drawing
import OrderDecoding.Proofs.Degenerate
import OrderDecoding.Proofs.Peaks
import OrderDecoding.Proofs.Hits
import OrderDecoding.Proofs.Asking
import OrderDecoding.Proofs.Judging
import OrderDecoding.Proofs.Signatures
import OrderDecoding.Proofs.Canonical
import OrderDecoding.Proofs.Grouping
import OrderDecoding.Proofs.Grammar
import OrderDecoding.Proofs.Numerals
import OrderDecoding.Proofs.Records
import OrderDecoding.Proofs.Writing
import OrderDecoding.Proofs.Overriding
import OrderDecoding.Proofs.Sparing
import OrderDecoding.Proofs.Layering
import OrderDecoding.Proofs.Bookkeeping
import OrderDecoding.Proofs.PartialSort
import OrderDecoding.Proofs.InclusiveCut
import OrderDecoding.Proofs.InverseTransform
