import Coursework.Lib.Machine
import Coursework.Lib.Component
import Coursework.Lib.Threads
import Coursework.Lib.Untouched
import Coursework.Lib.WaitSet
import Coursework.Lib.Chain
import Coursework.Lib.TwoWay
import Coursework.Lib.Queue
import Coursework.Lib.Ring
import Coursework.Lib.Rotation
import Coursework.Lib.Slots
import Coursework.Lib.CInt
import Coursework.Lib.Memory
import Coursework.Lib.Allotment
import Coursework.Lib.History
import Coursework.Lib.Placement
import Coursework.Lib.Agenda
import Coursework.Lib.Spans
import Coursework.Lib.Waiting
import Coursework.Lib.Answers
import Coursework.Lib.BoundedMap
import Coursework.Lib.Preorder
import Coursework.Lib.CString
import Coursework.Lib.Strtok
import Coursework.Lib.Bits
import Coursework.Lib.Mips
import Coursework.Lib.Graft
import Coursework.Nachos.Semaphore
import Coursework.Nachos.Monitor
import Coursework.Nachos.Monitor.Invariants
import Coursework.Nachos.Monitor.Client
import Coursework.Nachos.Monitor.Critical
import Coursework.Nachos.Monitor.Credit
import Coursework.Nachos.Monitor.QueueClient
import Coursework.Nachos.Monitor.Wakeup
import Coursework.Nachos.Lock
import Coursework.Nachos.SleepLock
import Coursework.Nachos.Signal
import Coursework.Nachos.Broadcast
import Coursework.Nachos.GuardedSignal
import Coursework.Nachos.LinkedList
import Coursework.Nachos.LinkedList.Sorted
import Coursework.Nachos.LinkedList.Keyed
import Coursework.Nachos.SynchList
import Coursework.Nachos.DLList
import Coursework.Nachos.DLList.Release
import Coursework.Nachos.DLList.Cells
import Coursework.Nachos.DLList.Queue
import Coursework.Nachos.DLList.Insert
import Coursework.Nachos.DLList.Sequence
import Coursework.Nachos.DLList.SortedRemove
import Coursework.Nachos.DLList.Links
import Coursework.Nachos.DLList.Keys
import Coursework.Nachos.DLList.SortedInsert
import Coursework.Nachos.BoundedBuffer
import Coursework.Nachos.BoundedBuffer.Fifo
import Coursework.Nachos.BoundedBuffer.Stranded
import Coursework.Nachos.BoundedBuffer.Print
import Coursework.Nachos.Table
import Coursework.Nachos.Table.Exclusive
import Coursework.Nachos.Table.Stranded
import Coursework.Nachos.Table.Search
import Coursework.Nachos.Interrupt
import Coursework.Nachos.Interrupt.Clock
import Coursework.Nachos.Interrupt.Outstanding
import Coursework.Nachos.SleepCondition
import Coursework.Nachos.SleepCondition.Places
import Coursework.Nachos.SleepCondition.Exact
import Coursework.Nachos.Scheduler
import Coursework.Nachos.Scheduler.Modes
import Coursework.Nachos.Scheduler.Place
import Coursework.Nachos.Scheduler.Dispatch
import Coursework.Nachos.Scheduler.Reclaim
import Coursework.Nachos.Disk
import Coursework.Nachos.Disk.Latency
import Coursework.Nachos.Devices
import Coursework.Nachos.Devices.TimeSlice
import Coursework.Nachos.Devices.DiskTime
import Coursework.Nachos.FileSystem.BitMap
import Coursework.Nachos.FileSystem.FileHeader
import Coursework.Nachos.FileSystem.Allocation
import Coursework.Nachos.FileSystem.OpenFile
import Coursework.Nachos.FileSystem.Directory
import Coursework.Nachos.FileSystem
import Coursework.Nachos.FileSystem.Mounted
import Coursework.Nachos.FileSystem.Consistent
import Coursework.Nachos.FileSystem.Isolation
import Coursework.Nachos.FileSystem.Transfer
import Coursework.Nachos.FileSystem.Request
import Coursework.Nachos.FileSystem.Outcome
import Coursework.Nachos.FileSystem.Copy
import Coursework.Nachos.FileSystem.Names
import Coursework.Nachos.FileSystem.Listing
import Coursework.Lib.Service
import Coursework.Nachos.FileSystem.Store
import Coursework.Nachos.FileSystem.Store.Room
import Coursework.Nachos.FileSystem.Store.Shows
import Coursework.Nachos.FileSystem.Store.Names
import Coursework.Nachos.FileSystem.Store.Transfers
import Coursework.Nachos.FileSystem.Store.Mount
import Coursework.Nachos.FileSystem.Store.Refinement
import Coursework.Nachos.Driver
import Coursework.Nachos.Driver.Rounds
import Coursework.Nachos.Driver.Answers
import Coursework.Nachos.SynchDisk
import Coursework.Nachos.Network
import Coursework.Nachos.PostOffice
import Coursework.Nachos.PostOffice.Letters
import Coursework.Nachos.PostOffice.Steps
import Coursework.Nachos.PostOffice.Worker
import Coursework.Nachos.PostOffice.Delivery
import Coursework.Nachos.PostOffice.MailTest
import Coursework.Nachos.PostOffice.MailTest.Letters
import Coursework.Nachos.PostOffice.MailTest.Agreement
import Coursework.Nachos.Mipssim
import Coursework.Nachos.Mipssim.ByteOrder
import Coursework.Nachos.Mipssim.OneInstruction
import Coursework.Nachos.Mipssim.Translate
import Coursework.Nachos.Mipssim.Memory
import Coursework.Nachos.Mipssim.Steps
import Coursework.Nachos.Mipssim.Decode
import Coursework.Nachos.Mipssim.Mult
import Coursework.Nachos.Mipssim.Arithmetic
import Coursework.Nachos.Mipssim.Pending
import Coursework.Nachos.Mipssim.DelayedLoad
import Coursework.Nachos.Mipssim.Exceptions
import Coursework.Nachos.Mipssim.Confined
import Coursework.Nachos.Mipssim.Crash
import Coursework.Nachos.Bin.Execute
import Coursework.Nachos.Bin.Execute.Runprogram
import Coursework.Nachos.Bin.Execute.Architecture
import Coursework.Nachos.Bin.Execute.Lockstep
import Coursework.Nachos.Bin.Execute.Shared
import Coursework.Nachos.Bin.Execute.Follows
import Coursework.Nachos.Bin.Noff
import Coursework.Nachos.Bin.Coff2noff
import Coursework.Nachos.Bin.Coff2noff.Sections
import Coursework.Nachos.Bin.Coff2noff.Faithful
import Coursework.Nachos.AddrSpace
import Coursework.Nachos.AddrSpace.FromCoff
import Coursework.Nachos.AddrSpace.StartProcess
import Coursework.Nachos.Console
import Coursework.Nachos.Console.ConsoleTest
import Coursework.Lib.I386
import Coursework.Nachos.Switch
import Coursework.Unix.Philosopher
import Coursework.Unix.Myfind
import Coursework.Unix.Myfind.Walk
import Coursework.Unix.Myfind.Statistics
import Coursework.Unix.Myfind.Names
import Coursework.Unix.Myfind.Descriptors
import Coursework.Unix.Myfind.Compare
import Coursework.Unix.Myfind.Visits
import Coursework.Unix.MyfindGlob
import Coursework.Unix.MyfindGlob.Walk
import Coursework.Unix.MyfindGlob.Agreement
import Coursework.Unix.MyfindGlob.Plain
import Coursework.Unix.Shell
import Coursework.Unix.Shell.Parse
import Coursework.Unix.Shell.RoundTrip
import Coursework.Unix.Shell.EndOfFile
import Coursework.Unix.Timewrite
import Coursework.Cn.Echo
import Coursework.Cn.ForkingServer
import Coursework.Lib.Wire
import Coursework.Ros.Person
import Coursework.Ros.PersonLisp
