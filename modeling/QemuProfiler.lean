import QemuProfiler.Lib.Bytes
import QemuProfiler.Lib.Utf8Lossy
import QemuProfiler.Lib.Tally
import QemuProfiler.Lib.Tlv
import QemuProfiler.Lib.Runs
import QemuProfiler.Lib.Trace
import QemuProfiler.Lib.Stamps
import QemuProfiler.Plugin.Output
import QemuProfiler.Plugin.OutputSpec
import QemuProfiler.Plugin.Decoder
import QemuProfiler.Plugin.EdgeStorage
import QemuProfiler.Plugin.State
import QemuProfiler.Plugin.Instrument
import QemuProfiler.Plugin.Exit
import QemuProfiler.Edges.Accounting
import QemuProfiler.Edges.FallThrough
import QemuProfiler.Convert.Native
import QemuProfiler.Format.RecordLaws
import QemuProfiler.Format.RoundTrip
import QemuProfiler.Format.CrashTolerance
import QemuProfiler.Edges.Streaming
import QemuProfiler.Edges.Pruning
import QemuProfiler.Qemu.Machine
import QemuProfiler.Qemu.ExecSpec
import QemuProfiler.Qemu.Invariant
import QemuProfiler.Qemu.EdgeTrace
import QemuProfiler.Qemu.CallTrace
import QemuProfiler.Qemu.ExecCount
import QemuProfiler.Qemu.FallThroughTrace
import QemuProfiler.Qemu.FirstSeen
import QemuProfiler.Format.Acceptance
import QemuProfiler.Format.Compatibility
import QemuProfiler.Format.Totals
import QemuProfiler.Lib.SortedIndex
import QemuProfiler.Plugin.CallWeights
import QemuProfiler.Convert.ElfIndex
import QemuProfiler.Convert.Emitters
import QemuProfiler.Convert.TextRoundTrip
import QemuProfiler.Convert.Temporal
import QemuProfiler.Edges.RunLog
import QemuProfiler.Plugin.Sections
import QemuProfiler.Threads.System
import QemuProfiler.Threads.Effects
import QemuProfiler.Threads.Invariant
import QemuProfiler.Threads.Log
import QemuProfiler.Threads.ExecCount
import QemuProfiler.Threads.Sequence
import QemuProfiler.Threads.WriterStart
import QemuProfiler.Threads.Slots
import QemuProfiler.Convert.Cgprof
import QemuProfiler.Qemu.RunProfile
import QemuProfiler.Qemu.CallGraph
import QemuProfiler.Threads.SlotSafety
import QemuProfiler.Edges.FlowConservation
import QemuProfiler.Format.MergedEdges
import QemuProfiler.Convert.ElfFile
import QemuProfiler.Convert.SymbolIndex
import QemuProfiler.Convert.SymbolLookup
import QemuProfiler.Edges.TopN
import QemuProfiler.Lib.BitFields
import QemuProfiler.Plugin.Encodings
import QemuProfiler.Plugin.RiscvIsa
import QemuProfiler.Lib.Interning
import QemuProfiler.Plugin.Interning
import QemuProfiler.Convert.ElfArithmetic
import QemuProfiler.Convert.ElfSafety
import QemuProfiler.Qemu.Symbols
import QemuProfiler.Lib.Observer
import QemuProfiler.Lib.Watch
import QemuProfiler.Plugin.Resources
import QemuProfiler.Threads.Refinement
import QemuProfiler.Threads.Account
import QemuProfiler.Threads.CallAccount
import QemuProfiler.Threads.FallThroughs
import QemuProfiler.Threads.Killed
import QemuProfiler.Threads.ResourceFile
import QemuProfiler.Threads.ResourceFlags
import QemuProfiler.Convert.Main
import QemuProfiler.Lib.Options
import QemuProfiler.Plugin.Install
import QemuProfiler.Threads.Opened
import QemuProfiler.Threads.Pipeline
import QemuProfiler.Convert.Dump
import QemuProfiler.Plugin.DecoderLaws
import QemuProfiler.Threads.CodeTables
import QemuProfiler.Threads.Reports
import QemuProfiler.Threads.Schedules
import QemuProfiler.Threads.SlotOwners
import QemuProfiler.Threads.CallGraph
