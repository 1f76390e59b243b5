import Ratel.Row.JsonExists
import Ratel.Sql.DirectUpdatePlan
import Ratel.Server.StageServer
import Ratel.Server.ActorSql
import Ratel.Storage.StatsRuns
import Ratel.Kvcoord.Savepoints
import Ratel.Interval.RangeGroupRuns
import Ratel.Spans.FrontierRuns
import Ratel.Rangefeed.ResolvedRuns
import Ratel.EngineKeys.Comparer
import Ratel.Keys.LockTable
import Ratel.Hlc.ClockRuns
import Ratel.Opt.ConstraintSets
import Ratel.Opt.FuncDepOuter
import Ratel.Spanlatch.ManagerRuns
import Ratel.Json.InvertedKeys
import Ratel.Encoding.DecimalNonsorting
import Ratel.Server.WorkerRouter
