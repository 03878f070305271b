import VmplApps.Words
import VmplApps.Spans
import VmplApps.ByteMemory
import VmplApps.TrapFrame
import VmplApps.AppRegion
import VmplApps.StringExtent
import VmplApps.SyscallParams
import VmplApps.FirewallRules
import VmplApps.FirewallSubnet
import VmplApps.FirewallMonitor
import VmplApps.CText
import VmplApps.FirewallParse
import VmplApps.FirewallReject
import VmplApps.FirewallPieces
import VmplApps.FirewallPorts
import VmplApps.FirewallInherit
import VmplApps.SandboxAccesses
import VmplApps.HostPrograms
import VmplApps.IovecCheck
import VmplApps.TwoEnded
import VmplApps.Umm
import VmplApps.UmmAccounting
import VmplApps.UmmConfinement
import VmplApps.UmmAcceptance
import VmplApps.UmmPaths
import VmplApps.UmmMaps
import VmplApps.UmmAgreement
import VmplApps.UmmRollback
import VmplApps.UmmGap
import VmplApps.UmmBreak
import VmplApps.UmmResize
import VmplApps.UmmBig
import VmplApps.SharedPrograms
import VmplApps.SharedLocks
import VmplApps.ProgramEmbedding
import VmplApps.UmmConcurrent
import VmplApps.UmmSerial
import VmplApps.CloneHandshake
import VmplApps.LeafTable
import VmplApps.Sthread
import VmplApps.SthreadMachine
import VmplApps.SthreadSteps
import VmplApps.SthreadTags
import VmplApps.SthreadIdentity
import VmplApps.SthreadEvents
import VmplApps.SthreadCr3
import VmplApps.SthreadReads
import VmplApps.SthreadTables
import VmplApps.SthreadIsolation
import VmplApps.SthreadBuffers
import VmplApps.SthreadSlots
import VmplApps.SthreadRecycle
import VmplApps.SthreadAnswers
import VmplApps.SthreadPolicies
import VmplApps.SthreadDescriptors
import VmplApps.PolicyRights
import VmplApps.PolicyTables
import VmplApps.SthreadHandles
import VmplApps.SthreadJoins
import VmplApps.MemoryMaps
import VmplApps.CheckpointSize
import VmplApps.CheckpointLayout
import VmplApps.ByteBlocks
import VmplApps.ElfLoader
import VmplApps.InitialStack
import VmplApps.ExecScript
import VmplApps.ExecShebang
import VmplApps.ExecArguments
import VmplApps.ExecFlow
import VmplApps.SandboxHandler
import VmplApps.SandboxRuns
import VmplApps.FirewallRuns
import VmplApps.TrapLocks
import VmplApps.SthreadPairs
import VmplApps.SthreadRecords
import VmplApps.HttpdServer
import VmplApps.HttpdWorker
import VmplApps.HttpdSite
import VmplApps.BoxerMain
