import UprobeTests.Lib.ByteMem
import UprobeTests.Uinfo
import UprobeTests.ProbeHandler
import UprobeTests.ProbeHandlerFaults
import UprobeTests.Lib.Pool
import UprobeTests.Lib.ProgPool
import UprobeTests.Lib.PoolVerdicts
import UprobeTests.Lib.PoolRank
import UprobeTests.ProbeFun
import UprobeTests.SlotCount
import UprobeTests.SlotRuns
import UprobeTests.Uthread
import UprobeTests.CallLoop
import UprobeTests.SlotSpill
import UprobeTests.Departures
import UprobeTests.Unreg
import UprobeTests.Lib.Children
import UprobeTests.ForkThread
import UprobeTests.ForkThreadLimits
import UprobeTests.ForkChild
import UprobeTests.KernelApi
import UprobeTests.Symbols
import UprobeTests.Udbgfs
import UprobeTests.ProbeModule
import UprobeTests.Blink
import UprobeTests.BlinkFlag
import UprobeTests.Kunreg
import UprobeTests.RegisterLoop
import UprobeTests.Lib.Ledger
import UprobeTests.Probe6
import UprobeTests.Lib.Calls
import UprobeTests.ProbeReports
import UprobeTests.Probe5ag
import UprobeTests.Lib.Activations
import UprobeTests.Lib.Increments
import UprobeTests.HitCounts
import UprobeTests.Lib.Race
import UprobeTests.Lib.Racing
import UprobeTests.HitTotals
import UprobeTests.ModuleLife
import UprobeTests.BufferUses
import UprobeTests.WriteCleanup
import UprobeTests.Probe5lim
import UprobeTests.Probe5limOnce
import UprobeTests.Lib.Loop
import UprobeTests.Probeme
import UprobeTests.ProbemeRuns
import UprobeTests.Pong
import UprobeTests.PongWa7
import UprobeTests.PongPasses
import UprobeTests.PrintBuffer
import UprobeTests.ReadData
import UprobeTests.Lib.Text
import UprobeTests.Mksym
import UprobeTests.FindVaddr
import UprobeTests.UprobesDiff
import UprobeTests.Lib.Regsub
import UprobeTests.Normalise
import UprobeTests.DataLines
import UprobeTests.Probe6Tests
import UprobeTests.Probe5Tests
import UprobeTests.ModuleTests
import UprobeTests.UnregTest
import UprobeTests.SuicideTest
import UprobeTests.DataRead
import UprobeTests.ModuleReads
import UprobeTests.RunTest
import UprobeTests.RunTestNeg
import UprobeTests.RunScript
