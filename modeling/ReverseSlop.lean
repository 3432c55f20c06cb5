import ReverseSlop.Core.Debugger.Restoration
import ReverseSlop.Core.Debugger.Rearm
import ReverseSlop.Core.Debugger.Transparency
import ReverseSlop.Core.Analysis.Imgpatch.AntiDebugCalls
import ReverseSlop.Core.Memory.Watch.Values
import ReverseSlop.Core.Memory.Watch.Freeze
import ReverseSlop.App.Store.Replay
import ReverseSlop.App.Store.Mirror
import ReverseSlop.App.Store.Shown
import ReverseSlop.Core.Infra.Jobs
import ReverseSlop.Core.Infra.WorkQueue.Waiting
import ReverseSlop.Core.Infra.WorkQueue.Lifetime
import ReverseSlop.Core.Infra.WorkQueue.Coverage
import ReverseSlop.Core.Infra.Lifecycle.Persistence
import ReverseSlop.Core.Infra.Lifecycle.Ownership
import ReverseSlop.Core.Runtime.Handles
import ReverseSlop.Core.Disasm.Decompile
import ReverseSlop.Core.Re.Persistence
import ReverseSlop.Core.Network.Pcap
import ReverseSlop.Core.Emu.TaintFlow
import ReverseSlop.Core.Disasm.PeExports
import ReverseSlop.Core.Re.Failures
import ReverseSlop.Core.Re.Rejects
import ReverseSlop.Core.Analysis.Devirt
import ReverseSlop.Core.Process.Readable
import ReverseSlop.Core.Analysis.LibsigHits
import ReverseSlop.Core.Mcp.ImageReads
import ReverseSlop.Core.Memory.PointerScan.Chains
import ReverseSlop.Core.Memory.Memscan.Exactness
import ReverseSlop.Core.Analysis.Imgpatch.VaWrites
import ReverseSlop.Core.Analysis.Imgpatch.Accounting
import ReverseSlop.Core.Disasm.PePlace
import ReverseSlop.Core.Network.Paging
import ReverseSlop.Core.Disasm.ImageOpen
import ReverseSlop.Core.Mcp.Cancellation
import ReverseSlop.Core.Debugger.GuardFaults
import ReverseSlop.Core.Disasm.FunctionAt
import ReverseSlop.Core.Mcp.Enrichment
import ReverseSlop.Core.Memory.Memscan.ThreadCount
import ReverseSlop.Core.Memory.Memscan.ValueText
import ReverseSlop.Core.Memory.Memscan.Strides
import ReverseSlop.Core.Emu.TaintRanges
import ReverseSlop.Core.Mcp.SiggenUnique
import ReverseSlop.Core.Analysis.Xray.Syscalls
import ReverseSlop.Core.Network.Sni
import ReverseSlop.Core.Network.ProxyTargets
import ReverseSlop.Core.Disasm.FunctionSweep
import ReverseSlop.Core.Memory.Snapshot
import ReverseSlop.Core.Disasm.Strings
import ReverseSlop.Core.Frida.Teardown
import ReverseSlop.Core.Analysis.Packer
import ReverseSlop.Core.Analysis.Magicmida
import ReverseSlop.Core.Infra.TextFormat
import ReverseSlop.Core.Infra.EventBus.Backlog
import ReverseSlop.Core.Infra.Deferred.Accounting
import ReverseSlop.Core.Debugger.Condition.Language
import ReverseSlop.Core.Infra.McpOnboard
import ReverseSlop.Core.Debugger.Callstack
import ReverseSlop.Core.Re.Rtti
import ReverseSlop.Core.Disasm.Plists
import ReverseSlop.Hyperion.Decompiler.Dce
import ReverseSlop.Hyperion.Decompiler.SsaMeaning
import ReverseSlop.Hyperion.Analysis.Loops
