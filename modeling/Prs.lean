import Prs.Lib.Align
import Prs.Lib.Amd64
import Prs.Lib.BitScan
import Prs.Lib.Bytes
import Prs.Lib.Cells
import Prs.Lib.Links
import Prs.Lib.Priority
import Prs.Lib.RoundRobin
import Prs.Lib.System
import Prs.Lib.Threads
import Prs.Lib.Wheel
import Prs.Lib.Writes
import Prs.Model.AddTask
import Prs.Model.Bitops
import Prs.Model.Cmdline
import Prs.Model.Contexts
import Prs.Model.Dllist
import Prs.Model.ElfImage
import Prs.Model.ElfLoad
import Prs.Model.Event
import Prs.Model.Excp
import Prs.Model.Frame
import Prs.Model.God
import Prs.Model.GodSeq
import Prs.Model.Idllist
import Prs.Model.Log
import Prs.Model.Mpmcq
import Prs.Model.MpmcqSeq
import Prs.Model.Mpsciq
import Prs.Model.Mpscq
import Prs.Model.Msgq
import Prs.Model.Name
import Prs.Model.NameSeq
import Prs.Model.Pd
import Prs.Model.PdSteps
import Prs.Model.PdWords
import Prs.Model.PoolSteps
import Prs.Model.PoolWords
import Prs.Model.Proc
import Prs.Model.ProcGc
import Prs.Model.ProcSvc
import Prs.Model.RingByteSteps
import Prs.Model.RingBytes
import Prs.Model.RingSeq
import Prs.Model.RingSteps
import Prs.Model.SchedLife
import Prs.Model.SchedThreads
import Prs.Model.Sem
import Prs.Model.SemCalls
import Prs.Model.Stack
import Prs.Model.Str
import Prs.Model.Swap
import Prs.Model.SwapSteps
import Prs.Model.Swcoop
import Prs.Model.Swprio
import Prs.Model.SwprioSteps
import Prs.Model.SwprioWorker
import Prs.Model.Task
import Prs.Model.TaskPrio
import Prs.Model.Ticks
import Prs.Model.Timer
import Prs.Model.TimerSteps
import Prs.Model.UserText
import Prs.Model.UserTextSteps
import Prs.Model.Worker
import Prs.Model.WorkerStop
import Prs.Proof.AddTaskId
import Prs.Proof.BitopsScan
import Prs.Proof.CmdlineMain
import Prs.Proof.CmdlineQuotes
import Prs.Proof.CmdlineWords
import Prs.Proof.ContextsSafe
import Prs.Proof.DllistList
import Prs.Proof.ElfCopy
import Prs.Proof.ElfLinks
import Prs.Proof.ElfLoadFits
import Prs.Proof.EventOnce
import Prs.Proof.EventRefs
import Prs.Proof.EventSync
import Prs.Proof.ExcpLifo
import Prs.Proof.FrameAdd
import Prs.Proof.FrameLayout
import Prs.Proof.GodFull
import Prs.Proof.GodIds
import Prs.Proof.GodLife
import Prs.Proof.GodObjects
import Prs.Proof.GodTable
import Prs.Proof.IdllistSeqs
import Prs.Proof.LogLine
import Prs.Proof.MpmcqCalls
import Prs.Proof.MpmcqEmpty
import Prs.Proof.MpmcqFifo
import Prs.Proof.MpmcqLeak
import Prs.Proof.MpmcqList
import Prs.Proof.MpmcqRefs
import Prs.Proof.MpsciqList
import Prs.Proof.MpscqList
import Prs.Proof.MsgqEvents
import Prs.Proof.MsgqOwner
import Prs.Proof.MsgqReceive
import Prs.Proof.MsgqSearch
import Prs.Proof.MsgqWake
import Prs.Proof.NameFind
import Prs.Proof.NameFree
import Prs.Proof.NameUnique
import Prs.Proof.PdLinear
import Prs.Proof.PdMap
import Prs.Proof.PdRegistered
import Prs.Proof.PoolAlone
import Prs.Proof.PoolCapacity
import Prs.Proof.PoolLife
import Prs.Proof.PoolOnce
import Prs.Proof.PoolShared
import Prs.Proof.PoolTable
import Prs.Proof.ProcGcFrees
import Prs.Proof.ProcGcLife
import Prs.Proof.ProcMembers
import Prs.Proof.ProcSvcCalls
import Prs.Proof.ProcSvcMessages
import Prs.Proof.ProcSvcProgress
import Prs.Proof.RingApart
import Prs.Proof.RingCalls
import Prs.Proof.RingFifo
import Prs.Proof.RingLinks
import Prs.Proof.RingOverlap
import Prs.Proof.RingQueue
import Prs.Proof.RingRefs
import Prs.Proof.RingRuns
import Prs.Proof.RingSafe
import Prs.Proof.RingStepsApart
import Prs.Proof.RingTurn
import Prs.Proof.SchedOnce
import Prs.Proof.SchedThreads
import Prs.Proof.SemCredit
import Prs.Proof.SemWakeups
import Prs.Proof.StackSizes
import Prs.Proof.StrCopy
import Prs.Proof.SwapInterrupt
import Prs.Proof.SwapRestore
import Prs.Proof.SwapTurns
import Prs.Proof.SwcoopAgree
import Prs.Proof.SwprioCover
import Prs.Proof.SwprioLife
import Prs.Proof.SwprioMoves
import Prs.Proof.SwprioOrder
import Prs.Proof.SwprioPreempt
import Prs.Proof.SwprioStop
import Prs.Proof.TaskPrioMatch
import Prs.Proof.TaskToken
import Prs.Proof.TicksExact
import Prs.Proof.TimerLife
import Prs.Proof.TimerPunctual
import Prs.Proof.TimerShare
import Prs.Proof.TimerTick
import Prs.Proof.UserTextRaces
import Prs.Proof.UserTextTable
import Prs.Proof.WorkerIdle
import Prs.Proof.WorkerInterrupt
import Prs.Proof.WorkerJoin
import Prs.Proof.WorkerSane
