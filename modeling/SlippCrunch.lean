import SlippCrunch.Basis.Blocks
import SlippCrunch.Basis.ByteMemory
import SlippCrunch.Basis.Collector
import SlippCrunch.Basis.CongruentialGenerator
import SlippCrunch.Basis.EscapeCode
import SlippCrunch.Basis.FairRuns
import SlippCrunch.Basis.Floats
import SlippCrunch.Basis.IntegerParts
import SlippCrunch.Basis.LockstepCodec
import SlippCrunch.Basis.NamedTree
import SlippCrunch.Basis.Outcomes
import SlippCrunch.Basis.Regrouping
import SlippCrunch.Basis.RoundRobin
import SlippCrunch.Basis.ScatteredBits
import SlippCrunch.Basis.Seats
import SlippCrunch.Basis.Sections
import SlippCrunch.Basis.SeenList
import SlippCrunch.Basis.SingleFloats
import SlippCrunch.Basis.StepMachine
import SlippCrunch.Basis.SymbolCode
import SlippCrunch.Basis.Utf8
import SlippCrunch.Combo.Combo
import SlippCrunch.Combo.DamageLaws
import SlippCrunch.Combo.FilterLaws
import SlippCrunch.Combo.FindCombos
import SlippCrunch.Combo.Noninterference
import SlippCrunch.Combo.Openings
import SlippCrunch.Combo.ScanLaws
import SlippCrunch.Combo.Segmentation
import SlippCrunch.Combo.Statistics
import SlippCrunch.Cruncher.BatchSingle
import SlippCrunch.Cruncher.Completion
import SlippCrunch.Cruncher.Counters
import SlippCrunch.Cruncher.Discovery
import SlippCrunch.Cruncher.Effects
import SlippCrunch.Cruncher.Entries
import SlippCrunch.Cruncher.Failures
import SlippCrunch.Cruncher.Invariant
import SlippCrunch.Cruncher.Machine
import SlippCrunch.Cruncher.MainLaws
import SlippCrunch.Cruncher.Positions
import SlippCrunch.Cruncher.Progress
import SlippCrunch.Cruncher.Queues
import SlippCrunch.Cruncher.Report
import SlippCrunch.Cruncher.Results
import SlippCrunch.Cruncher.Termination
import SlippCrunch.Cruncher.WorkerLaws
import SlippCrunch.Slippc.Analysis
import SlippCrunch.Slippc.Base64
import SlippCrunch.Slippc.ColumnLaws
import SlippCrunch.Slippc.ColumnPass
import SlippCrunch.Slippc.ColumnPassLaws
import SlippCrunch.Slippc.ColumnRoundTrip
import SlippCrunch.Slippc.Columns
import SlippCrunch.Slippc.Compressor
import SlippCrunch.Slippc.EventCodec
import SlippCrunch.Slippc.FieldLaws
import SlippCrunch.Slippc.FrameRng
import SlippCrunch.Slippc.ItemGrouping
import SlippCrunch.Slippc.ItemIds
import SlippCrunch.Slippc.ItemReplaying
import SlippCrunch.Slippc.Items
import SlippCrunch.Slippc.JsonEscape
import SlippCrunch.Slippc.Parser
import SlippCrunch.Slippc.ReplayCodec
import SlippCrunch.Slippc.ReplayLaws
import SlippCrunch.Slippc.ShiftJis
import SlippCrunch.Slippc.Util
