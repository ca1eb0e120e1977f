import Fugue.Engine.Subscription
import Fugue.Engine.WorkCancel
import Fugue.Engine.RoutingRun
import Fugue.Il.ECode.CompactUses
import Fugue.Storage.Segments.Backends
import Fugue.Lifter.ContextRun
import Fugue.Project.Coalescing
import Fugue.Project.ProblemResolution
import Fugue.Queries.ChangeIndexRun
import Fugue.Project.CommitOrder
import Fugue.Storage.Entities.WriteBackRun
import Fugue.Ir.SymbolPublication
import Fugue.Analysis.Switch.EvaluatorSpec
import Fugue.Il.ECode.LivenessSpec
import Fugue.Il.ECode.IntervalsSpec
import Fugue.Bv.Encoding
import Fugue.Ir.AddressDifference
import Fugue.Il.Common.Register
import Fugue.Il.ECode.LiftProvenance
import Fugue.Project.ReadHistory
import Fugue.Engine.ViewReads
import Fugue.Storage.Segments.Cache
import Fugue.Storage.Segments.PrepareWrite
import Fugue.Storage.Segments.PackRoundTrip
import Fugue.Ir.ReferenceRuns
import Fugue.Specs.SearchSpec
import Fugue.Analysis.BlockContexts
import Fugue.Storage.Segments.OverlayRun
