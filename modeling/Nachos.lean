import Nachos.Lib.Prog
import Nachos.Lib.Rendezvous
import Nachos.Lib.Run
import Nachos.Lib.Store
import Nachos.Lib.Buffer
import Nachos.Lib.Slots
import Nachos.Lib.Insert
import Nachos.Lib.Chain
import Nachos.Machine.Basic
import Nachos.Machine.Translate
import Nachos.Machine.Cpu
import Nachos.Machine.Mipssim
import Nachos.Machine.Exceptions
import Nachos.Machine.Mult
import Nachos.Machine.Mips
import Nachos.Machine.Interrupt
import Nachos.Machine.OneTick
import Nachos.Machine.CheckIfDue
import Nachos.Threads.LinkedList
import Nachos.Threads.Synch
import Nachos.Filesys.Stub
import Nachos.Filesys.SynchDisk
import Nachos.Machine.Disk
import Nachos.Userprog.BitMap
import Nachos.Filesys.FileHdr
import Nachos.Filesys.OpenFile
import Nachos.Filesys.ByteTransfer
import Nachos.Filesys.SeekPosition
import Nachos.Filesys.Directory
import Nachos.Filesys.FileSystem
import Nachos.Filesys.Layout
import Nachos.Filesys.Operations
import Nachos.Filesys.Format
import Nachos.Filesys.Session
import Nachos.Filesys.FileMap
import Nachos.Filesys.Simulation
import Nachos.Filesys.Consistency
import Nachos.Filesys.FileContents
import Nachos.Filesys.Restart
import Nachos.Filesys.Create
import Nachos.Userprog.BitMapSet
import Nachos.Userprog.AddrSpace
import Nachos.Machine.Isolation
import Nachos.Userprog.Loader
import Nachos.Userprog.SpaceSize
import Nachos.Userprog.Frames
import Nachos.Userprog.AddrLock
import Nachos.Userprog.PTable
import Nachos.Userprog.PTableInv
import Nachos.Userprog.PTableActs
import Nachos.Userprog.Multex
import Nachos.Userprog.Handshake
import Nachos.Userprog.JoinSafe
import Nachos.Userprog.ExecUpdate
import Nachos.Userprog.Kernel
import Nachos.Userprog.Exception
import Nachos.Userprog.Calls
import Nachos.Userprog.ReturnPath
import Nachos.Userprog.Outcome
import Nachos.Userprog.Processes
import Nachos.Userprog.ProcessExit
import Nachos.Userprog.ExecFailure
import Nachos.Lib.Places
import Nachos.Threads.Semaphores
import Nachos.Threads.IntLevel
import Nachos.Threads.Scheduler
import Nachos.Threads.Finish
import Nachos.Userprog.Switch
import Nachos.Userprog.SemTable
import Nachos.Threads.SynchConsole
import Nachos.Userprog.Files
import Nachos.Userprog.OpenTable
import Nachos.Userprog.UserMemory
import Nachos.Userprog.MemoryLaws
import Nachos.Userprog.Transfer
import Nachos.Userprog.ConsoleWrite
import Nachos.Userprog.StringCopy
import Nachos.Userprog.ConsoleInt
import Nachos.Userprog.ConsoleRead
import Nachos.Userprog.ReadString
import Nachos.Userprog.Pcb
import Nachos.Userprog.ReadOnly
import Nachos.Userprog.Seek
import Nachos.Test.Programs
import Nachos.Test.TurnTaking
import Nachos.Lib.Follow
import Nachos.Test.Texts
import Nachos.Test.FileStack
import Nachos.Test.Sequence
import Nachos.Test.Rounds
import Nachos.Network.Delivery
import Nachos.Network.Mail
import Nachos.Network.Post
import Nachos.Test.FileCalls
import Nachos.Test.StackModel
import Nachos.Test.WaterTap
import Nachos.Lib.Tiling
import Nachos.Bin.Coff2noff
