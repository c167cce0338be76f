import FileStorage.Simfs.Codec
import FileStorage.Lib.Program

/-! # Inodes

`gnl_simfs_inode.c`. The original inodes live in the file table, their copies in
the file descriptor table; the functions here are used on both. An artifact is an
index into the memory of the coder: a fresh one for every artifact made, emptied
when a decode or the destruction of an original inode frees it.

The clock is an argument, `now`. Allocations succeed, except those whose size is
negative as an `int` and so far too big as a `size_t`.
-/

namespace FileStorage

abbrev Memory (codec : Codec) := List (Option codec.Artifact)

/-- What `direct_ptr` points to. -/
inductive DirectPtr where
  | null
  | artifact (id : Nat)
  | bytes (raw : List UInt8)
  deriving DecidableEq

namespace DirectPtr

/-- The pointer the decoder returns: null if it decoded nothing. -/
def ofBytes : List UInt8 → DirectPtr
  | [] => .null
  | byte :: rest => .bytes (byte :: rest)

def raw : DirectPtr → List UInt8
  | .bytes content => content
  | _ => []

@[simp] theorem raw_ofBytes (bytes : List UInt8) : (ofBytes bytes).raw = bytes := by
  cases bytes <;> rfl

end DirectPtr

/-- `struct gnl_simfs_inode`. The buffer carries its size. `generation` is not in
    the source: it numbers the files in the order of their creation, so that two
    files of the same name can be told apart. -/
structure Inode where
  btime : Int
  mtime : Int
  atime : Int
  ctime : Int
  size : Nat
  name : Filename
  directPtr : DirectPtr
  buffer : List UInt8
  locked : Pid
  referenceCount : Nat
  referenceList : List Pid
  pendingLocks : Nat
  generation : Nat
  deriving DecidableEq

namespace Inode

def init (name : Filename) (generation : Nat) (now : Int) : Inode where
  btime := now
  mtime := 0
  atime := 0
  ctime := now
  size := 0
  name
  directPtr := .null
  buffer := []
  locked := 0
  referenceCount := 0
  referenceList := []
  pendingLocks := 0
  generation

def copy (inode : Inode) (now : Int) : Inode :=
  { inode with referenceList := [], buffer := [], ctime := now }

/-! ## References -/

def increaseRefs (inode : Inode) (pid : Pid) (now : Int) : Inode :=
  { inode with
    referenceList := pid :: inode.referenceList
    referenceCount := inode.referenceCount + 1
    ctime := now }

/-- `gnl_simfs_inode_decrease_refs`. It also signals the condition variable of
    the inode; a thread may wake up without a signal too. -/
def decreaseRefs (inode : Inode) (pid : Pid) (now : Int) : Except Errno Inode :=
  if inode.referenceCount = 0 then .error .EPERM
  else if pid ∉ inode.referenceList then .error .EPERM
  else .ok { inode with
    referenceList := inode.referenceList.erase pid
    referenceCount := inode.referenceCount - 1
    ctime := now }

def hasRefs (inode : Inode) : Bool := 0 < inode.referenceCount

/-- `gnl_simfs_inode_has_other_pid_refs`; `none` is the return value -1. -/
def hasOtherPidRefs (inode : Inode) (pid : Pid) : Option Bool :=
  if pid ∉ inode.referenceList then none
  else some (inode.referenceList.any fun other => other ≠ pid)

/-! ## Locks -/

/-- `gnl_simfs_inode_is_file_locked`: the owner of the lock as an `int`. -/
def isFileLocked (inode : Inode) : Int := asInt inode.locked

def fileLock (inode : Inode) (pid : Pid) (now : Int) : Except Errno Inode :=
  if inode.locked = pid then .ok inode
  else if inode.locked ≠ 0 then .error .EACCES
  else .ok { inode with locked := pid, ctime := now }

def fileUnlock (inode : Inode) (pid : Pid) (now : Int) : Except Errno Inode :=
  if inode.locked = 0 then .ok inode
  else if inode.locked ≠ pid then .error .EACCES
  else .ok { inode with locked := 0, ctime := now }

def increasePendingLocks (inode : Inode) (now : Int) : Inode :=
  { inode with pendingLocks := inode.pendingLocks + 1, ctime := now }

def decreasePendingLocks (inode : Inode) (now : Int) : Except Errno Inode :=
  if inode.pendingLocks = 0 then .error .EPERM
  else .ok { inode with pendingLocks := inode.pendingLocks - 1, ctime := now }

def hasPendingLocks (inode : Inode) : Bool := 0 < inode.pendingLocks

/-! ## Reading and writing -/

/-- `gnl_simfs_inode_write`: `count` is the length of the buffer, `none` a null
    pointer. From 2^31 on the new size is negative and `realloc` fails. -/
def write (inode : Inode) (buf : Option (List UInt8)) (now : Int) : Except Errno Inode :=
  match buf with
  | none => .error .EINVAL
  | some bytes =>
      if bytes = [] then .error .EINVAL
      else if 2 ^ 31 ≤ inode.buffer.length + bytes.length then .error .ENOMEM
      else .ok { inode with buffer := inode.buffer ++ bytes, ctime := now }

end Inode

structure InodeState (codec : Codec) where
  inode : Inode
  memory : Memory codec

namespace InodeState

open Program

variable {codec : Codec}

/-- `compress`. The size of an artifact is a number of words, never -1. -/
def compress : Program Errno Fault (InodeState codec) Unit := do
  let s ← get
  match s.inode.directPtr with
  | .null => throw .EINVAL
  | .artifact _ => fault .notArtifact
  | .bytes raw =>
      match codec.encode raw with
      | none => throw .EPERM
      | some artifact => modify fun s => {
          inode := { s.inode with
            size := codec.size artifact, directPtr := .artifact s.memory.length }
          memory := s.memory ++ [some artifact] }

/-- `decompress`: the artifact is decoded and freed. -/
def decompress : Program Errno Fault (InodeState codec) Unit := do
  let s ← get
  match s.inode.directPtr with
  | .null => throw .EINVAL
  | .bytes _ => fault .notArtifact
  | .artifact id =>
      match s.memory.getD id none with
      | none => fault .decodeFreed
      | some artifact => modify fun s => {
          inode := { s.inode with
            size := (codec.decode artifact).length
            directPtr := .ofBytes (codec.decode artifact) }
          memory := s.memory.set id none }

def read (now : Int) : Program Errno Fault (InodeState codec) (List UInt8) := do
  decompress
  let s ← get
  let buf := s.inode.directPtr.raw
  modify fun s => { s with inode := { s.inode with atime := now, ctime := now } }
  compress
  pure buf

/-- The second half of `gnl_simfs_inode_fflush`: the buffer is moved behind the
    decompressed bytes. A null pointer comes with the size 0. -/
def appendBuffer (now : Int) : Program Errno Fault (InodeState codec) Unit := do
  let s ← get
  let newSize := s.inode.size + s.inode.buffer.length
  failIf (2 ^ 31 ≤ newSize) .ENOMEM
  modify fun s => { s with
    inode := { s.inode with
      directPtr := .bytes (s.inode.directPtr.raw ++ s.inode.buffer)
      size := newSize, buffer := [], mtime := now, ctime := now } }
  compress

def fflush (now : Int) : Program Errno Fault (InodeState codec) Unit := do
  let s ← get
  if s.inode.directPtr ≠ .null then decompress
  appendBuffer now

end InodeState

end FileStorage
