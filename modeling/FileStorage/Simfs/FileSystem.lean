import FileStorage.Simfs.FileTable
import FileStorage.Simfs.FileDescriptorTable

/-! # The file system

The state behind `struct gnl_simfs_file_system`, the monitor of
`gnl_simfs_monitor.c`, the runtime support of `gnl_simfs_file_system_rts.c` and
the calls of `gnl_simfs_file_system.c`. A call holds the mutex of the file system
from its beginning to its end, so it is one program on the state. The exception
is a call that waits for a file to be lockable: it gives the mutex back, stays in
`blocked` and goes on when it wakes up.

A file descriptor is an `int` that the table takes as an `unsigned int`. The
sizes follow the conversions between `int`, `unsigned int` and `unsigned long
long` of the source.
-/

namespace FileStorage

/-- `struct gnl_simfs_monitor`. -/
structure Monitor where
  filePeak : Int
  bytesPeak : Nat
  fileEvictions : Int
  fileCounter : Int
  bytesCounter : Nat
  deriving DecidableEq

namespace Monitor

def init : Monitor :=
  { filePeak := 0, bytesPeak := 0, fileEvictions := 0, fileCounter := 0, bytesCounter := 0 }

def fileAdded (m : Monitor) : Monitor :=
  { m with
    fileCounter := m.fileCounter + 1
    filePeak := if m.filePeak < m.fileCounter + 1 then m.fileCounter + 1 else m.filePeak }

def fileRemoved (m : Monitor) : Except Errno Monitor :=
  if m.fileCounter = 0 then .error .EPERM else .ok { m with fileCounter := m.fileCounter - 1 }

def bytesAdded (m : Monitor) (bytes : Nat) : Monitor :=
  let counter := toUnsigned64 (m.bytesCounter + bytes)
  { m with
    bytesCounter := counter
    bytesPeak := if m.bytesPeak < counter then counter else m.bytesPeak }

/-- `gnl_simfs_monitor_bytes_removed`: the unsigned difference it tests is never
    negative. -/
def bytesRemoved (m : Monitor) (bytes : Nat) : Except Errno Monitor :=
  if m.bytesCounter = 0 then .error .EPERM
  else .ok { m with bytesCounter := toUnsigned64 (m.bytesCounter - bytes) }

def evictionStarted (m : Monitor) : Monitor := { m with fileEvictions := m.fileEvictions + 1 }

end Monitor

/-- `enum gnl_simfs_replacement_policy`. -/
inductive ReplacementPolicy where
  | none | fifo | lifo | lru | mru | lfu
  deriving DecidableEq

def maxOpenFiles : Nat := 10240

/-- The two calls that can wait for a file to be lockable. -/
inductive WaitingCall where
  | open | lock
  deriving DecidableEq

/-- A thread inside `pthread_cond_wait`: it holds a pointer to the inode that the
    name led to when the call began. -/
structure Waiter where
  pid : Pid
  name : Filename
  generation : Nat
  call : WaitingCall
  deriving DecidableEq

structure EvictedFile where
  name : Filename
  bytes : List UInt8
  deriving DecidableEq

/-- `struct gnl_simfs_file_system` with the memory of the coder, the threads that
    wait inside a call and the number of files created so far. -/
structure FileSystem (codec : Codec) where
  fileTable : FileTable
  filesLimit : Int
  memoryLimit : Nat
  fileDescriptorTable : { t : FileDescriptorTable // t.limit = maxOpenFiles }
  replacementPolicy : ReplacementPolicy
  monitor : Monitor
  memory : Memory codec
  blocked : List Waiter
  created : Nat

abbrev Call (codec : Codec) (α : Type) := Program Errno Fault (FileSystem codec) α

namespace FileSystem

open Program

variable {codec : Codec}

def init (memoryLimit filesLimit : UInt32) (replacementPolicy : ReplacementPolicy) :
    FileSystem codec where
  fileTable := .init
  filesLimit := toInt32 filesLimit.toNat
  memoryLimit := memoryLimit.toNat * 1048576
  fileDescriptorTable := ⟨.init maxOpenFiles (by decide), rfl⟩
  replacementPolicy
  monitor := .init
  memory := []
  blocked := []
  created := 0

def file (fs : FileSystem codec) (name : Filename) : Option Inode := fs.fileTable.get name

def slot (fs : FileSystem codec) (fd : Nat) : Option Entry := fs.fileDescriptorTable.1.slot fd

def updateFile (fs : FileSystem codec) (name : Filename) (f : Inode → Inode) : FileSystem codec :=
  { fs with fileTable := fs.fileTable.update name f }

def updateSlot (fs : FileSystem codec) (fd : Nat) (f : Inode → Inode) : FileSystem codec :=
  { fs with fileDescriptorTable :=
      ⟨fs.fileDescriptorTable.1.update fd f, fs.fileDescriptorTable.2⟩ }

/-- The state after an inode function has worked on an original inode. -/
def putFile (name : Filename) (s : InodeState codec) (fs : FileSystem codec) : FileSystem codec :=
  { fs.updateFile name (fun _ => s.inode) with memory := s.memory }

/-- The state after an inode function has worked on the copy of a descriptor. -/
def putSlot (fd : Nat) (s : InodeState codec) (fs : FileSystem codec) : FileSystem codec :=
  { fs.updateSlot fd (fun _ => s.inode) with memory := s.memory }

def ofExcept {α : Type} : Except Errno α → Call codec α
  | .ok a => pure a
  | .error code => throw code

/-- Run a function of the inode module on an original inode. -/
def onFile {α : Type} (name : Filename) (p : Program Errno Fault (InodeState codec) α) :
    Call codec α := do
  let fs ← get
  match fs.file name with
  | none => fault .nullPointer
  | some inode =>
      zoom (fun fs => { inode, memory := fs.memory }) (putFile name) p

/-- Run a function of the inode module on the inode copy of a descriptor. -/
def onSlot {α : Type} (fd : Nat) (p : Program Errno Fault (InodeState codec) α) :
    Call codec α := do
  let fs ← get
  match fs.slot fd with
  | none => fault .nullPointer
  | some entry =>
      zoom (fun fs => { inode := entry.inode, memory := fs.memory }) (putSlot fd) p

/-- Replace an original inode by the result of a function on it. -/
def changeFile (name : Filename) (f : Inode → Except Errno Inode) : Call codec Unit := do
  let fs ← get
  match fs.file name with
  | none => fault .nullPointer
  | some inode =>
      let inode ← ofExcept (f inode)
      modify fun fs => fs.updateFile name fun _ => inode

/-! ## Runtime support -/

/-- `gnl_simfs_file_table_size`, stored in an `int` by all callers, which take -1
    for an error. -/
def fileTableSize : Call codec Int := do
  let fs ← get
  let size := toInt32 fs.fileTable.size
  failIf (size = -1) .bubbled
  pure size

def rtsGetInode (name : Filename) : Call codec Inode := do
  failIf (name = []) .EINVAL
  let fs ← get
  orFail (fs.file name) .ENOENT

def rtsCreateInode (name : Filename) (now : Int) : Call codec Unit := do
  failIf (name = []) .EINVAL
  let fs ← get
  failIf (fs.fileTable.count = -1) .bubbled
  failIf (fs.fileTable.count = fs.filesLimit) .EDQUOT
  let size ← fileTableSize
  failIf (toUnsigned64 size = fs.memoryLimit) .EDQUOT
  let fileTable ← ofExcept (fs.fileTable.create name fs.created now)
  modify fun fs => { fs with fileTable, created := fs.created + 1 }
  failIf (fileTable.count = -1) .bubbled
  modify fun fs => { fs with monitor := fs.monitor.fileAdded }

/-- The original inode and the file table take over a flushed copy. -/
def takeOver (flushed : Inode) (bytesAdded : Int) (fs : FileSystem codec) : FileSystem codec :=
  let updated := fs.updateFile flushed.name fun inode => { inode with
    directPtr := flushed.directPtr
    size := toUnsigned32 (inode.size + bytesAdded) }
  { updated with fileTable := { updated.fileTable with
      size := toUnsigned64 (updated.fileTable.size + bytesAdded) } }

/-- What `gnl_simfs_file_table_fflush` does when bytes were added to the copy at
    `fd`: flush it and move the result into the original. -/
def fileTableFflushBytes (fd : Nat) (copy : Inode) (now : Int) : Call codec Unit := do
  onSlot fd (InodeState.fflush now)
  let fs ← get
  let flushed ← orFail (fs.slot fd) .EINVAL
  modify (takeOver flushed.inode (toInt32 (flushed.inode.size - toInt32 copy.size)))

/-- `gnl_simfs_file_table_fflush` of the copy at `fd`, which is never the original. -/
def fileTableFflush (fd : Nat) (now : Int) : Call codec Unit := do
  let fs ← get
  let entry ← orFail (fs.slot fd) .EINVAL
  let copy := entry.inode
  failIf (fs.file copy.name = none) .ENOENT
  if 0 < copy.buffer.length then fileTableFflushBytes fd copy now
  let fs ← get
  let entry ← orFail (fs.slot fd) .EINVAL
  modify fun fs => fs.updateFile copy.name fun inode => { inode with
    atime := entry.inode.atime, mtime := entry.inode.mtime, ctime := now }

def rtsFflushInode (fd : Nat) (now : Int) : Call codec Unit := do
  let fs ← get
  let entry ← orFail (fs.slot fd) .EINVAL
  fileTableFflush fd now
  let fs ← get
  let flushed ← orFail (fs.slot fd) .EINVAL
  let bytesAdded := toUnsigned32 (flushed.inode.size - toInt32 entry.inode.size)
  modify fun fs => { fs with monitor := fs.monitor.bytesAdded bytesAdded }
  let _ ← fileTableSize
  pure ()

/-- `gnl_simfs_rts_read_inode`: the file with the name of the given inode. -/
def rtsReadInode (name : Filename) (now : Int) : Call codec (List UInt8) := do
  let fs ← get
  failIf (fs.file name = none) .ENOENT
  onFile name (InodeState.read now)

/-- `gnl_huffman_tree_destroy_artifact` on the pointer of an original inode. -/
def destroyArtifact (inode : Inode) : Call codec Unit := do
  let fs ← get
  match inode.directPtr with
  | .null => pure ()
  | .bytes _ => fault .notArtifact
  | .artifact id =>
      match fs.memory.getD id none with
      | none => fault .destroyFreed
      | some _ => modify fun fs => { fs with memory := fs.memory.set id none }

def fileTableRemove (name : Filename) : Call codec Unit := do
  let fs ← get
  let inode ← orFail (fs.file name) .ENOENT
  destroyArtifact inode
  let fileTable ← orFail (fs.fileTable.remove name) .bubbled
  modify fun fs => { fs with fileTable }

def rtsRemoveInode (name : Filename) : Call codec Unit := do
  let inode ← rtsGetInode name
  fileTableRemove name
  let fs ← get
  let monitor ← ofExcept (fs.monitor.bytesRemoved (toUnsigned64 (toInt32 inode.size)))
  modify fun fs => { fs with monitor }
  let monitor ← ofExcept monitor.fileRemoved
  modify fun fs => { fs with monitor }
  let _ ← fileTableSize
  pure ()

/-- The condition of the loop in `gnl_simfs_rts_wait_file_to_be_lockable`. -/
def mustWait (inode : Inode) (pid : Pid) : Bool :=
  inode.hasRefs && inode.hasOtherPidRefs pid = some true

/-- What follows the wait in `gnl_simfs_rts_lock_inode`. -/
def grantLock (name : Filename) (pid : Pid) (now : Int) : Call codec Unit := do
  changeFile name fun inode => inode.fileLock pid now
  changeFile name fun inode => inode.decreasePendingLocks now

/-- A call that has returned a value, or one that waits to be woken up. -/
inductive Progress (α : Type) where
  | done (value : α)
  | waiting
  deriving DecidableEq

/-- `gnl_simfs_rts_lock_inode` with `gnl_simfs_rts_wait_file_to_be_lockable`, up
    to the point where it has to wait. -/
def rtsLockInode (name : Filename) (pid : Pid) (call : WaitingCall) (now : Int) :
    Call codec (Progress Unit) := do
  let inode ← rtsGetInode name
  failIf inode.hasPendingLocks .EDEADLK
  changeFile name fun inode => .ok (inode.increasePendingLocks now)
  failIf (inode.isFileLocked = -1) .bubbled
  failIf (0 < inode.isFileLocked) .EPERM
  if mustWait inode pid then
    modify fun fs => { fs with blocked :=
      fs.blocked ++ [{ pid, name, generation := inode.generation, call }] }
    pure .waiting
  else
    grantLock name pid now
    pure (.done ())

def rtsGetInodeByFd (fd : Int) (pid : Pid) : Call codec Inode := do
  let fs ← get
  ofExcept (fs.fileDescriptorTable.1.get (toUnsigned32 fd) pid)

/-- `gnl_simfs_rts_available_bytes`; an error is the value -1 as well. -/
def rtsAvailableBytes (fs : FileSystem codec) : Int :=
  let size := toInt32 fs.fileTable.size
  if size = -1 then -1 else toInt32 (fs.memoryLimit - size)

def victimKey (policy : ReplacementPolicy) (inode : Inode) : Except Errno Int :=
  match policy with
  | .fifo => .ok (toInt32 inode.btime)
  | .lifo => .ok (toInt32 (-1 * inode.btime))
  | .lru => .ok (toInt32 inode.ctime)
  | .mru => .ok (toInt32 (-1 * inode.ctime))
  | .lfu => .ok (toInt32 inode.referenceCount)
  | .none => .error .EINVAL

/-- The body of the loop of `gnl_simfs_rts_build_victim_heap`. -/
def insertVictim (fs : FileSystem codec) (heap : MinHeap Inode) (name : Filename) :
    Except Errno (MinHeap Inode) := do
  match fs.file name with
  | none => .error .ENOENT
  | some inode =>
      let key ← victimKey fs.replacementPolicy inode
      match heap.insert inode key with
      | none => .error .EINVAL
      | some heap => .ok heap

def rtsBuildVictimHeap (fs : FileSystem codec) (list : List Filename) :
    Except Errno (MinHeap Inode) :=
  list.foldlM (insertVictim fs) MinHeap.init

def victim (fs : FileSystem codec) : Except Errno Inode := do
  if fs.fileTable.presenceList = [] then .error .bubbled
  else
    let heap ← rtsBuildVictimHeap fs fs.fileTable.presenceList
    match heap.extractMin with
    | none => .error .EPERM
    | some (inode, _) => .ok inode

end FileSystem

/-- The state of a write: the file system and the list of the evicted files,
    which belongs to the caller. -/
structure WriteState (codec : Codec) where
  fileSystem : FileSystem codec
  evictedList : List EvictedFile

namespace WriteState

open Program FileSystem

variable {codec : Codec}

def onFileSystem {α : Type} (p : Call codec α) : Program Errno Fault (WriteState codec) α :=
  zoom WriteState.fileSystem (fun fs s => { s with fileSystem := fs }) p

def rtsEvict (now : Int) : Program Errno Fault (WriteState codec) Unit := do
  onFileSystem (modify fun fs => { fs with monitor := fs.monitor.evictionStarted })
  let s ← get
  let inode ← onFileSystem (ofExcept (FileSystem.victim s.fileSystem))
  let bytes ← onFileSystem (rtsReadInode inode.name now)
  modify fun s => { s with evictedList := { name := inode.name, bytes } :: s.evictedList }
  onFileSystem (rtsRemoveInode inode.name)

/-- The loop of `gnl_simfs_file_system_write` that makes room for the bytes to be
    written. Every turn takes a file away, which bounds their number. -/
def makeRoom (finalCount : Int) (now : Int) :
    (bound : Nat) → Program Errno Fault (WriteState codec) Unit
  | 0 => fault .unbounded
  | bound + 1 => do
      let s ← get
      let available := rtsAvailableBytes s.fileSystem
      if available < finalCount then
        failIf (available = -1) .bubbled
        failIf (s.fileSystem.replacementPolicy = .none) .EDQUOT
        rtsEvict now
        makeRoom finalCount now bound

end WriteState

namespace FileSystem

open Program

variable {codec : Codec}

/-! ## The calls -/

/-- The end of `gnl_simfs_file_system_open`: the descriptor and the reference. -/
def openDescriptor (name : Filename) (pid : Pid) (now : Int) : Call codec Nat := do
  let fs ← get
  let inode ← orFail (fs.file name) .ENOENT
  let (fd, table) ← ofExcept (fs.fileDescriptorTable.1.put inode pid now)
  modify fun fs => { fs with fileDescriptorTable :=
    if same : table.limit = maxOpenFiles then ⟨table, same⟩ else fs.fileDescriptorTable }
  changeFile name fun inode => .ok (inode.increaseRefs pid now)
  pure fd

def openInode (name : Filename) (create : Bool) (now : Int) : Call codec Unit := do
  failIf (name = []) .EINVAL
  let fs ← get
  failIf (fs.fileDescriptorTable.1.size = maxOpenFiles) .ENFILE
  if create then
    failIf (fs.file name ≠ none) .EEXIST
    rtsCreateInode name now
  else
    failIf (fs.file name = none) .ENOENT

/-- `gnl_simfs_file_system_open`. Bit 0 of the flags is `GNL_SIMFS_O_CREATE`, bit
    1 is `GNL_SIMFS_O_LOCK`. -/
def fileSystemOpen (name : Filename) (flags : Nat) (pid : Pid) (now : Int) :
    Call codec (Progress Nat) := do
  openInode name (flags.testBit 0) now
  let inode ← rtsGetInode name
  failIf (inode.isFileLocked = -1) .bubbled
  failIf (0 < inode.isFileLocked ∧ inode.isFileLocked ≠ asInt pid) .EBUSY
  if flags.testBit 1 then
    if inode.isFileLocked = asInt pid then
      let fd ← openDescriptor name pid now
      pure (.done fd)
    else
      match ← rtsLockInode name pid .open now with
      | .waiting => pure .waiting
      | .done _ =>
          let fd ← openDescriptor name pid now
          pure (.done fd)
  else
    failIf inode.hasPendingLocks .EBUSY
    let fd ← openDescriptor name pid now
    pure (.done fd)

/-- `gnl_huffman_tree_encode` on the buffer of a write; from 2^31 bytes on the
    counters of the coder overflow. -/
def encodeBuffer (buf : Option (List UInt8)) : Call codec codec.Artifact := do
  let bytes ← orFail buf .EINVAL
  if 2 ^ 31 ≤ bytes.length then fault .overflow
  orFail (codec.encode bytes) .EPERM

/-- The end of `gnl_simfs_file_system_write`, once there is room. -/
def writeDescriptor (fd : Int) (buf : Option (List UInt8)) (pid : Pid) (now : Int) :
    Call codec Unit := do
  let copy ← rtsGetInodeByFd fd pid
  failIf (copy.isFileLocked = -1) .bubbled
  failIf (0 < copy.isFileLocked ∧ copy.isFileLocked ≠ asInt pid) .EBUSY
  let copy ← ofExcept (copy.write buf now)
  modify fun fs => fs.updateSlot (toUnsigned32 fd) fun _ => copy
  rtsFflushInode (toUnsigned32 fd) now

/-- `gnl_simfs_file_system_write`. -/
def fileSystemWrite (fd : Int) (buf : Option (List UInt8)) (pid : Pid) (now : Int) :
    Program Errno Fault (WriteState codec) Unit := do
  let artifact ← WriteState.onFileSystem (encodeBuffer buf)
  let s ← get
  failIf (s.fileSystem.memoryLimit < codec.size artifact) .E2BIG
  WriteState.makeRoom (codec.size artifact) now (s.fileSystem.fileTable.presenceList.length + 1)
  WriteState.onFileSystem (writeDescriptor fd buf pid now)

def fileSystemRead (fd : Int) (pid : Pid) (now : Int) : Call codec (List UInt8) := do
  let copy ← rtsGetInodeByFd fd pid
  failIf (copy.isFileLocked = -1) .bubbled
  failIf (0 < copy.isFileLocked ∧ copy.isFileLocked ≠ asInt pid) .EBUSY
  let buf ← rtsReadInode copy.name now
  rtsFflushInode (toUnsigned32 fd) now
  pure buf

def fileSystemClose (fd : Int) (pid : Pid) (now : Int) : Call codec Unit := do
  let copy ← rtsGetInodeByFd fd pid
  let fs ← get
  let table ← ofExcept (fs.fileDescriptorTable.1.remove (toUnsigned32 fd) pid)
  modify fun fs => { fs with fileDescriptorTable :=
    if same : table.limit = maxOpenFiles then ⟨table, same⟩ else fs.fileDescriptorTable }
  failIf (copy.name = []) .EINVAL
  let fs ← get
  -- a file that is not found was deleted, which is no error here
  if fs.file copy.name ≠ none then
    changeFile copy.name fun inode => inode.decreaseRefs pid now

def fileSystemRemove (name : Filename) (pid : Pid) : Call codec Unit := do
  failIf (name = []) .EINVAL
  let inode ← rtsGetInode name
  failIf (inode.isFileLocked = -1) .bubbled
  failIf (inode.isFileLocked = 0 ∨ inode.isFileLocked ≠ asInt pid) .EPERM
  rtsRemoveInode name

def fileSystemLock (fd : Int) (pid : Pid) (now : Int) : Call codec (Progress Unit) := do
  let copy ← rtsGetInodeByFd fd pid
  let inode ← rtsGetInode copy.name
  failIf (inode.isFileLocked = -1) .bubbled
  if 0 < inode.isFileLocked then
    failIf (inode.isFileLocked ≠ asInt pid) .EBUSY
    pure (.done ())
  else rtsLockInode copy.name pid .lock now

def fileSystemUnlock (fd : Int) (pid : Pid) (now : Int) : Call codec Unit := do
  let copy ← rtsGetInodeByFd fd pid
  let inode ← rtsGetInode copy.name
  failIf (inode.isFileLocked = -1) .bubbled
  failIf (inode.isFileLocked = 0) .EPERM
  failIf (inode.isFileLocked ≠ asInt pid) .EBUSY
  changeFile copy.name fun inode => inode.fileUnlock pid now

def decreaseRefsTimes (name : Filename) (pid : Pid) (now : Int) : Nat → Call codec Unit
  | 0 => pure ()
  | times + 1 => do
      changeFile name fun inode => inode.decreaseRefs pid now
      decreaseRefsTimes name pid now times

/-- The body of the loop of `gnl_simfs_file_system_remove_session`. -/
def leaveFile (pid : Pid) (now : Int) (name : Filename) : Call codec Unit := do
  let _ ← rtsGetInode name
  let fs ← get
  decreaseRefsTimes name pid now (fs.fileDescriptorTable.1.pidInodeSize name pid)
  let inode ← rtsGetInode name
  if inode.isFileLocked = asInt pid then
    changeFile name fun inode => inode.fileUnlock pid now

def leaveFiles (pid : Pid) (now : Int) : List Filename → Call codec Unit
  | [] => pure ()
  | name :: names => do
      leaveFile pid now name
      leaveFiles pid now names

/-- `gnl_simfs_file_system_remove_session`; an empty list is a null pointer and
    taken for an error. -/
def fileSystemRemoveSession (pid : Pid) (now : Int) : Call codec Unit := do
  let fs ← get
  failIf (fs.fileTable.presenceList = []) .bubbled
  leaveFiles pid now fs.fileTable.presenceList
  modify fun fs => { fs with fileDescriptorTable :=
    ⟨fs.fileDescriptorTable.1.removePid pid,
      (fs.fileDescriptorTable.1.removePid_spec pid).1.trans fs.fileDescriptorTable.2⟩ }

/-- A thread wakes up inside `gnl_simfs_rts_wait_file_to_be_lockable` and goes on:
    it waits again, or it takes the lock and ends its call. The pointer to the
    inode is dangling if the file has been removed meanwhile. -/
def wakeUp (waiter : Waiter) (now : Int) : Call codec (Progress (Option Nat)) := do
  let fs ← get
  match fs.file waiter.name with
  | none => fault .inodeFreed
  | some inode =>
      if inode.generation ≠ waiter.generation then fault .inodeFreed
      else if mustWait inode waiter.pid then pure .waiting
      else
        modify fun fs => { fs with blocked := fs.blocked.erase waiter }
        grantLock waiter.name waiter.pid now
        match waiter.call with
        | .lock => pure (.done none)
        | .open =>
            let fd ← openDescriptor waiter.name waiter.pid now
            pure (.done (some fd))

end FileSystem

end FileStorage
