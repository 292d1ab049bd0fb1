import RowGraph.Proofs.Expectations
import RowGraph.Proofs.IndexMirror
import RowGraph.Proofs.NoLostUpdate
import RowGraph.Proofs.OwnWrites
import RowGraph.Proofs.Routing
import RowGraph.Session.Run
import RowGraph.Session.Solo
import RowGraph.Settings.Document
import RowGraph.Storage.Rehearsal
import RowGraph.Proofs.KeySequences
import RowGraph.Proofs.KeyReading
import RowGraph.Proofs.JsonLexemes
import RowGraph.Proofs.SharedColumns
import RowGraph.Proofs.DecimalText
import RowGraph.Proofs.StoredRelations
import RowGraph.Proofs.KeySpace
import RowGraph.Proofs.OrderedReads
import RowGraph.Proofs.SimpleReads
import RowGraph.Proofs.PartitionedAnswers
import RowGraph.Proofs.LeaseTable
import RowGraph.Proofs.LiveLocks
import RowGraph.Proofs.TransactedWork
import RowGraph.Proofs.AfterEnding
import RowGraph.Proofs.OwnLocks
import RowGraph.Proofs.PointExpansion
import RowGraph.Proofs.ConsistentTables
import RowGraph.Proofs.SeparateCommits
import RowGraph.Proofs.CoveredReads
import RowGraph.Proofs.RearrangedAnswers
import RowGraph.Proofs.NormalForms
import RowGraph.Proofs.DistinctAnswers
import RowGraph.Proofs.Consolidation
import RowGraph.Proofs.WholeCommits
import RowGraph.Proofs.AdjacentVertices
import RowGraph.Proofs.DistinctFanOut
import RowGraph.Proofs.ReportedFailures
import RowGraph.Proofs.InvalidCalls
import RowGraph.Proofs.CompileRefusals
import RowGraph.Proofs.Rereading
import RowGraph.Proofs.PrefixBounds
import RowGraph.Proofs.BestLayouts
import RowGraph.Proofs.InflatedLimits
