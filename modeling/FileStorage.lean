import FileStorage.Lib.Program
import FileStorage.Lib.CodeTree
import FileStorage.Lib.OptimalCode
import FileStorage.Lib.Trace
import FileStorage.Lib.Decimal
import FileStorage.Lib.Threads
import FileStorage.Lib.Getopt
import FileStorage.Basic
import FileStorage.DataStructures.MinHeap
import FileStorage.DataStructures.PriorityQueue
import FileStorage.DataStructures.TernarySearchTree
import FileStorage.DataStructures.DeadBranches
import FileStorage.DataStructures.Queue
import FileStorage.DataStructures.BoundedQueue
import FileStorage.DataStructures.HuffmanTree
import FileStorage.DataStructures.HuffmanDictionary
import FileStorage.DataStructures.HuffmanRoundTrip
import FileStorage.DataStructures.HuffmanCodes
import FileStorage.DataStructures.HuffmanOptimal
import FileStorage.Simfs.Codec
import FileStorage.Simfs.Inode
import FileStorage.Simfs.FileTable
import FileStorage.Simfs.FileDescriptorTable
import FileStorage.Simfs.Destroy
import FileStorage.Simfs.FirstFit
import FileStorage.Simfs.FileSystem
import FileStorage.Simfs.View
import FileStorage.Simfs.Effects
import FileStorage.Simfs.Calls
import FileStorage.Simfs.Run
import FileStorage.Simfs.Generations
import FileStorage.Simfs.References
import FileStorage.Simfs.Sessions
import FileStorage.Simfs.Locks
import FileStorage.Simfs.Contents
import FileStorage.Simfs.Appends
import FileStorage.Simfs.Frames
import FileStorage.Simfs.FailedWrite
import FileStorage.Simfs.MemoryLimit
import FileStorage.Simfs.Evictions
import FileStorage.Simfs.Outcomes
import FileStorage.Simfs.Room
import FileStorage.Simfs.Changes
import FileStorage.Simfs.FileCounts
import FileStorage.Simfs.Monitoring
import FileStorage.Simfs.Regular
import FileStorage.Simfs.FailedCalls
import FileStorage.Simfs.LockStates
import FileStorage.Simfs.Waiting
import FileStorage.Simfs.PendingLocks
import FileStorage.Simfs.WakeUps
import FileStorage.Simfs.Refusals
import FileStorage.Simfs.FreeSpace
import FileStorage.Simfs.Times
import FileStorage.Simfs.Victims
import FileStorage.Simfs.Births
import FileStorage.Simfs.Uses
import FileStorage.Simfs.Policies
import FileStorage.Simfs.EvictionLoop
import FileStorage.Simfs.Faithful
import FileStorage.Helpers.Txtenv
import FileStorage.Message.Text
import FileStorage.Message.Layouts
import FileStorage.Message.Narrow
import FileStorage.Socket.Request
import FileStorage.Socket.Response
import FileStorage.Socket.Service
import FileStorage.Socket.Sending
import FileStorage.Socket.Untrusted
import FileStorage.Server.WaitingList
import FileStorage.Server.Requests
import FileStorage.Server.Master
import FileStorage.Server.Server
import FileStorage.Server.Connections
import FileStorage.Server.Lockstep
import FileStorage.Server.Calls
import FileStorage.Server.Pool
import FileStorage.Server.Parking
import FileStorage.Server.Broadcast
import FileStorage.Server.Process
import FileStorage.Server.Shutdown
import FileStorage.Server.Conduct
import FileStorage.Server.Talks
import FileStorage.Client.Api
import FileStorage.Client.ReadFiles
import FileStorage.Client.Descriptors
import FileStorage.Client.Agreement
import FileStorage.Client.OptHandler
import FileStorage.Client.OptRts
import FileStorage.Client.OptArg
import FileStorage.Client.CommandLine
import FileStorage.Client.Commands
import FileStorage.Client.Brackets
import FileStorage.Client.Closing
import FileStorage.Client.Careful
import FileStorage.Server.Programs
