import LustreTools.Lib.Runs
import LustreTools.Lib.Words
import LustreTools.Lib.Text
import LustreTools.Lib.BinaryHeap
import LustreTools.Lib.OutputBuffer
import LustreTools.Lib.Spacing
import LustreTools.Lib.RunningAverage
import LustreTools.ServerThrottle
import LustreTools.TimeWindow
import LustreTools.SscdtPolicy
import LustreTools.SscdtRegister
import LustreTools.Tbf.Policy
import LustreTools.Tbf.Comparators
import LustreTools.Tbf.Queues
import LustreTools.Lib.TokenBucket
import LustreTools.Tbf.Tokens
import LustreTools.Tbf.Order
import LustreTools.Tbf.Throttling
import LustreTools.Tbf.Instances
import LustreTools.Tbf.CommandText
import LustreTools.Tbf.Writers
import LustreTools.Qos.Rules
import LustreTools.Qos.Adjust
import LustreTools.Qos.Table
import LustreTools.Qos.Reads
import LustreTools.Qos.UpdateRate
import LustreTools.Qos.Ewma
import LustreTools.Qos.RuleStats
import LustreTools.Qos.RoundTrip
import LustreTools.Qos.Printing
import LustreTools.Qos.Parser
import LustreTools.Qos.Window
import LustreTools.Qos.Control
import LustreTools.Qos.Rtt
import LustreTools.Qos.Pacing
import LustreTools.Qos.GapFile
import LustreTools.Qos.Bandwidth
import LustreTools.Batch.Barrier
import LustreTools.Batch.Options
import LustreTools.Batch.Install
import LustreTools.Stats.Counters
import LustreTools.Stats.Placement
import LustreTools.Stats.Peaks
import LustreTools.Stats.Service
import LustreTools.Stats.Averages
import LustreTools.Client.RequestSlots
import LustreTools.Client.ModifySlots
import LustreTools.Lib.SearchTree
import LustreTools.Osc.Extents
import LustreTools.Osc.ExtentShape
import LustreTools.Osc.ExtentTree
import LustreTools.Osc.ExtentOps
import LustreTools.Osc.ExtentHolders
import LustreTools.Osc.ExtentRuns
import LustreTools.Tbf.RuleTable
import LustreTools.Tbf.RuleReferences
import LustreTools.Tbf.ClientReferences
import LustreTools.Tbf.RuleCalls
import LustreTools.Tbf.RuleSteps
import LustreTools.Tbf.RuleLifetime
import LustreTools.Tbf.RuleFreshness
import LustreTools.Tbf.RuleRates
import LustreTools.Tbf.RuleWalks
import LustreTools.Osc.Grant
import LustreTools.Osc.GrantBooks
import LustreTools.Osc.GrantRuns
import LustreTools.Osc.GrantLedger
import LustreTools.Osc.DirtyLimit
