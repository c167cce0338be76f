import FileStorage.Client.OptRts

/-! # The commands of the client

`gnl_opt_arg.c`: what each option does with its argument. All commands about a file open
it, do their work, close it whatever has failed, and then report the first failure.
-/

namespace FileStorage

open Program

namespace Client

variable {σ : Type} (m : Machine σ)

/-- The error of a call whose result was only looked at later. -/
def reportError {α : Type} : Except ApiError α → Api σ α
  | .ok a => pure a
  | .error code => throw code

/-- The calls between the open and the close of a file, each made whatever the others
    have returned. -/
def attemptAll : List (Api σ Unit) → Api σ (List (Except ApiError Unit))
  | [] => pure []
  | step :: steps => do
      let result ← attempt step
      let results ← attemptAll steps
      pure (result :: results)

/-- The first failure among some calls. -/
def reportFirst : List (Except ApiError Unit) → Api σ Unit
  | [] => pure ()
  | result :: results => do
      reportError result
      reportFirst results

/-- A file is opened, something is done with it, and it is closed. -/
def onFile (filename : CString) (flags : Nat) (steps : List (Api σ Unit)) : Api σ Unit := do
  openFile m.toEnvironment (some filename) flags
  let results ← attemptAll steps
  let resClose ← attempt (closeFile m.toEnvironment (some filename))
  reportFirst results
  reportError resClose

def optArgSendFile (storeDirname : Option CString) (filename : CString) : Api σ Unit :=
  onFile m filename (O_CREATE ||| O_LOCK)
    [writeFile m.toEnvironment (some filename) storeDirname,
      unlockFile m.toEnvironment (some filename)]

def optArgRemoveFile (filename : CString) : Api σ Unit :=
  onFile m filename O_LOCK [removeFile m.toEnvironment (some filename)]

def optArgLockFile (filename : CString) : Api σ Unit :=
  onFile m filename 0 [lockFile m.toEnvironment (some filename)]

def optArgUnlockFile (filename : CString) : Api σ Unit :=
  onFile m filename 0 [unlockFile m.toEnvironment (some filename)]

/-- `gnl_opt_arg_read_file`. The file is stored after it has been closed, and only if it
    could be read. -/
def optArgReadFile (storeDirname : Option CString) (filename : CString) : Api σ Unit := do
  openFile m.toEnvironment (some filename) 0
  let resRead ← attempt (readFile m.toEnvironment (some filename))
  let resClose ← attempt (closeFile m.toEnvironment (some filename))
  let (buf, _) ← reportError resRead
  saveFile m.toEnvironment (some filename) storeDirname buf
  reportError resClose

def argToInt (text : List UInt8) : Api σ Int :=
  match toInt text with
  | .ok n => pure n
  | .error code => throw (.errno code)

/-- `arg_w_parse_arg`; an argument without a token is a null pointer to `strlen`. -/
def argWParseArg (arg : List UInt8) : Api σ (CString × Int) :=
  match (Txtenv.strtok 44 arg).1 with
  | none => fault .nullPointer
  | some dirname =>
      match (Txtenv.strtok 44 (Txtenv.strtok 44 arg).2).1 with
      | none => pure (.upToNul dirname, 0)
      | some stringN => do
          let n ← argToInt stringN
          pure (.upToNul dirname, n)

def argw (arg : List UInt8) (storeDirname : Option CString) : Api σ Unit := do
  let (dirname, n) ← argWParseArg arg
  let queue ← optRtsScanDir m dirname n
  walk (optArgSendFile m storeDirname) queue

def argW (arg : List UInt8) (storeDirname : Option CString) : Api σ Unit :=
  filenameArgWalk m arg (optArgSendFile m storeDirname)

def argc (arg : List UInt8) : Api σ Unit := filenameArgWalk m arg (optArgRemoveFile m)

def argl (arg : List UInt8) : Api σ Unit := filenameArgWalk m arg (optArgLockFile m)

def argu (arg : List UInt8) : Api σ Unit := filenameArgWalk m arg (optArgUnlockFile m)

def argr (arg : List UInt8) (storeDirname : Option CString) : Api σ Unit :=
  filenameArgWalk m arg (optArgReadFile m storeDirname)

def argR (arg : List UInt8) (storeDirname : Option CString) : Api σ Unit := do
  let n ← argToInt arg
  let _ ← readNFiles m.toEnvironment n storeDirname
  pure ()

end Client

end FileStorage
