import HybridSE.Base.MemPool
import HybridSE.Base.RefCountedSlice
import HybridSE.Codec.BuilderSafety
import HybridSE.Codec.EncoderAgree
import HybridSE.Codec.InnerLists
import HybridSE.Codec.Layouts
import HybridSE.Codec.ViewGetters
import HybridSE.Codegen.FusedAggregates
import HybridSE.Node.FrameBounds
import HybridSE.Passes.JoinConditionSound
import HybridSE.Passes.KeysOptimizedSound
import HybridSE.Passes.SimpleProjectOptimized
import HybridSE.Passes.WindowColumnPruningSound
import HybridSE.Udf.CategoryAggregates
import HybridSE.Udf.ConditionalAggregates
import HybridSE.Udf.Dates
import HybridSE.Udf.StringCast
import HybridSE.Udf.StringSplit
import HybridSE.Vm.BatchRequestExact
import HybridSE.Vm.BinaryTask
import HybridSE.Vm.ColumnIdentityExact
import HybridSE.Vm.CompileCache
import HybridSE.Vm.DependentTables
import HybridSE.Vm.FrameMerge
import HybridSE.Vm.IndexSeek
import HybridSE.Vm.InstanceRows
import HybridSE.Vm.LastJoinExact
import HybridSE.Vm.LateRows
import HybridSE.Vm.PartitionGenerator
import HybridSE.Vm.PostRequestUnion
import HybridSE.Vm.SortGenerator
import HybridSE.Vm.TableFilter
import HybridSE.Vm.UnionConsistency
import HybridSE.Vm.WindowBounds
import HybridSE.Udf.TopKAvgCate
