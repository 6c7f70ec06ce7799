import Csci4061.Lib.CArray
import Csci4061.Lib.CInt
import Csci4061.Lib.CMemory
import Csci4061.Lib.Tokens
import Csci4061.Lib.Strtok
import Csci4061.Lib.TokenArray
import Csci4061.Lib.Heap
import Csci4061.Lib.Ownership
import Csci4061.Lib.LexicalPath
import Csci4061.Lib.Bracket
import Csci4061.Lib.Attempts
import Csci4061.Lib.History
import Csci4061.Lib.Transition
import Csci4061.Lib.Fifo
import Csci4061.Lib.Ring
import Csci4061.Lib.Rules
import Csci4061.Lib.Pipe
import Csci4061.Lib.Tickets
import Csci4061.Lib.Progress
import Csci4061.Lib.CondVar
import Csci4061.Lib.Lfu
import Csci4061.Lib.Lines
import Csci4061.Lib.StringBuffer
import Csci4061.Lib.Descriptor
import Csci4061.Lib.Decoder
import Csci4061.Lib.CriticalSection
import Csci4061.Lib.Cancellation
import Csci4061.WebServer.RequestQueue
import Csci4061.WebServer.Monitor
import Csci4061.WebServer.Drain
import Csci4061.WebServer.Cache
import Csci4061.WebServer.Worker
import Csci4061.WebServer.CacheDistinct
import Csci4061.WebServer.CacheCoherence
import Csci4061.WebServer.Provenance
import Csci4061.WebServer.CacheLfu
import Csci4061.WebServer.CacheHeap
import Csci4061.WebServer.WorkerHeap
import Csci4061.WebServer.WorkerHolders
import Csci4061.WebServer.WorkerLedger
import Csci4061.WebServer.GetRequest
import Csci4061.WebServer.Argv
import Csci4061.WebServer.RequestHeap
import Csci4061.WebServer.Confinement
import Csci4061.WebServer.ConcurrentRequests
import Csci4061.WebServer.Service
import Csci4061.WebServer.ServedOnce
import Csci4061.WebServer.FileBytes
import Csci4061.WebServer.WorkerBuffers
import Csci4061.WebServer.RequestLine
import Csci4061.WebServer.Connections
import Csci4061.WebServer.HttpResponse
import Csci4061.WebServer.LogFile
import Csci4061.WebServer.LockedWorkers
import Csci4061.WebServer.Shutdown
import Csci4061.Make.Target
import Csci4061.Make.Build
import Csci4061.Make.Evaluation
import Csci4061.Make.Termination
import Csci4061.Make.Marking
import Csci4061.Make.Rebuild
import Csci4061.Make.Stale
import Csci4061.Make.Timestamps
import Csci4061.Make.SecondBuild
import Csci4061.Make.Order
import Csci4061.Make.Logged
import Csci4061.Make.Failure
import Csci4061.Make.Parse
import Csci4061.Make.Grammar
import Csci4061.Make.RuleTable
import Csci4061.Make.Recognition
import Csci4061.Make.TableBounds
import Csci4061.Make.Blanks
import Csci4061.Make.Comments
import Csci4061.Make.Recipe
import Csci4061.Make.Main
import Csci4061.Make.Resume
import Csci4061.Make.Edits
import Csci4061.Make.Printing
import Csci4061.Chat.Message
import Csci4061.Chat.TokenArrays
import Csci4061.Chat.PrivateMessage
import Csci4061.Chat.UserTable
import Csci4061.Chat.Commands
import Csci4061.Chat.Broadcast
import Csci4061.Chat.Server
import Csci4061.Chat.Removal
import Csci4061.Chat.Signals
import Csci4061.Chat.Admission
import Csci4061.Chat.TableInvariant
import Csci4061.Chat.Relay
import Csci4061.Chat.Session
import Csci4061.Chat.Framing
import Csci4061.Chat.Notices
import Csci4061.Chat.Ledger
import Csci4061.Chat.Processes
import Csci4061.Chat.PipeEnds
import Csci4061.Chat.EndOfFile
import Csci4061.Chat.Postings
import Csci4061.Chat.Network
import Csci4061.Chat.UserStreams
import Csci4061.Chat.SenderIdentity
import Csci4061.Chat.ReadBytes
import Csci4061.Chat.Registration
import Csci4061.Chat.Classification
import Csci4061.Chat.TextBounds
