import Settle.Data.OrdMap
import Settle.Data.UndoLog
import Settle.Data.StableSort
import Settle.Types
import Settle.Change
import Settle.Change.Index
import Settle.Change.FlushLaw
import Settle.Storage.Batch
import Settle.Storage.Codec
import Settle.Engine.Blocks
import Settle.Engine.Aggregation
import Settle.Engine.AggregationFold
import Settle.Engine.Evict
import Settle.Engine.View
import Settle.Engine.ViewFold
import Settle.Engine.ViewCheckpoint
import Settle.Engine.ViewRuns
import Settle.Engine.BlockTimes
import Settle.Engine.Window
import Settle.Engine.WindowBlocks
import Settle.Engine.WindowFold
import Settle.Engine.WindowStore
import Settle.Engine.WindowRuns
import Settle.Engine.WindowTimes
import Settle.Runtime.StateMaps
import Settle.Engine.Reducer
import Settle.Engine.ReducerFold
import Settle.Engine.ReducerGroups
import Settle.Engine.ReducerBlocks
import Settle.Engine.ReducerProcess
import Settle.Engine.ReducerEmits
import Settle.Engine.ReducerStore
import Settle.Engine.ReducerRuns
import Settle.Engine.RawTable
import Settle.Storage.RawReads
import Settle.Storage.Format
import Settle.Engine.DagOpen
import Settle.Db.InputRows
import Settle.Db.CallSteps
import Settle.Db.History
import Settle.Db.Open
import Settle.Db.Retention
import Settle.Db.Reopen
import Settle.Db.HashRecord
import Settle.Data.ByteKeys
import Settle.Storage.Rocks
import Settle.Engine.DagMarks
import Settle.Db.Calls
import Settle.Db.Prepare
import Settle.Db.Ledger
import Settle.Db.CommitOrder
import Settle.Db.Sequences
import Settle.Db.Journal
import Settle.Db.Recovery
import Settle.Engine.Dag
import Settle.Engine.DagRollback
import Settle.Db.ForkDetection
import Settle.Db.ForkCall
import Settle.Data.Wire
import Settle.Storage.Journal
import Settle.Storage.ValueCodec
import Settle.Engine.GroupKeys
import Settle.Runtime.MapFields
import Settle.Runtime.MapCopies
import Settle.Engine.ReducerPaths
import Settle.Engine.EmitColumns
import Settle.Engine.ChainEmits
import Settle.Engine.EmitReopen
import Settle.Db.PositionalRows
import Settle.Schema.Validate
import Settle.Schema.ColumnTypes
import Settle.Schema.Pipeline
import Settle.Schema.ViewKeys
import Settle.Pipeline.ViewSql
import Settle.Storage.JsonText
import Settle.Storage.Layouts
import Settle.Storage.FormatCheck
import Settle.Schema.ReducerParser
import Settle.Schema.Defaults
import Settle.Pipeline.ReducerSql
import Settle.JsCodec.Decoder
import Settle.JsCodec.Writer
import Settle.JsCodec.RoundTrip
import Settle.JsCodec.Encoder
import Settle.JsCodec.EncodeBatch
import Settle.JsCodec.ReadBatch
import Settle.Engine.BlocksMap
import Settle.Engine.RunningFolds
import Settle.Engine.ReducerEvict
import Settle.Schema.Intervals
import Settle.Engine.PipelineNodes
import Settle.Engine.BlockBounds
import Settle.Engine.BlockCalls
import Settle.Engine.BlockLimits
import Settle.Engine.AggregationSteps
import Settle.Engine.ViewRecords
import Settle.Engine.ReplayOrder
import Settle.Engine.Dataflow
import Settle.Engine.Wiring
import Settle.Engine.PipelineRuns
import Settle.Engine.PipelineReducers
import Settle.Engine.ReplayChain
import Settle.Db.InstanceRuns
