import AcademyLab.Chat.Readiness
import AcademyLab.Chat.Kernel
import AcademyLab.Chat.Watch
import AcademyLab.Chat.Refinement
import AcademyLab.Chat.Session
import AcademyLab.Chat.Cooldown
import AcademyLab.Chat.Framing
import AcademyLab.Chat.Notices
import AcademyLab.Chat.Survival
import AcademyLab.Chat.Refusal
import AcademyLab.Chat.Origin
import AcademyLab.Shm.Alternation
import AcademyLab.Echo.Reaping
import AcademyLab.Led.Control
import AcademyLab.Shm.Startup
import AcademyLab.Led.Loading
import AcademyLab.Cells
import AcademyLab.Led.Sharing
import AcademyLab.Echo.Udp
import AcademyLab.Echo.Tcp
import AcademyLab.Fifo.Records
import AcademyLab.Fifo.Chat
import AcademyLab.Led.Writing
import AcademyLab.Locks
import AcademyLab.Thread.TwoLocks
import AcademyLab.Chain
import AcademyLab.Data.LinkedList
import AcademyLab.Thread.Condition
import AcademyLab.Shm.Interrupt
import AcademyLab.Shm.Untimely
import AcademyLab.Chat.Stores
import AcademyLab.Chat.Names
import AcademyLab.Chat.Chatting
import AcademyLab.Chat.FailedAccept
import AcademyLab.Led.RoundTrip
import AcademyLab.Fifo.Printing
import AcademyLab.Echo.Server
import AcademyLab.Fifo.Names
import AcademyLab.CInt
import AcademyLab.Data.DynArray
import AcademyLab.Thread.Counter
import AcademyLab.Data.SumToN
import AcademyLab.Asm
import AcademyLab.Calls.Routines
import AcademyLab.Thread.Race
import AcademyLab.Thread.Exclusion
import AcademyLab.Descriptors
import AcademyLab.Process.Pipe
import AcademyLab.Echo.Accepting
import AcademyLab.Thread.Message
import AcademyLab.Data.Workers
import AcademyLab.Chat.Shutdown
import AcademyLab.Process.MsgQueue
import AcademyLab.Echo.Clients
import AcademyLab.Thread.Watchdog
import AcademyLab.Fifo.Presence
import AcademyLab.Fifo.Waiting
import AcademyLab.Segments
import AcademyLab.Shm.Pointer
import AcademyLab.Process.Family
import AcademyLab.Process.Lineage
import AcademyLab.Process.Labs
import AcademyLab.Fifo.Opening
import AcademyLab.Echo.Address
