import FileStorage.Client.OptArg
import FileStorage.Client.OptHandler

/-! # The client program

`gnl_opt_handler_handle` runs the queue of commands on one connection. It takes the next
command from the queue before it runs the current one, whose directory may stand there.
-/

namespace FileStorage

open Program

/-- The client, with the name of the socket while its connection is active. -/
structure Connection (σ : Type) where
  client : Client σ
  socketName : Option CString

abbrev CommandLine (σ : Type) := Program ApiError Fault (Connection σ)

namespace CommandLine

variable {σ : Type} (m : Machine σ)

def onClient {α : Type} (p : Api σ α) : CommandLine σ α :=
  zoom Connection.client (fun client s => { s with client }) p

/-- `arg_f_start` with `gnl_fss_api_open_connection`. -/
def argfStart (socketName : Option CString) : CommandLine σ Unit := do
  let name ← orFail socketName (.errno .EINVAL)
  let s ← get
  failIf s.socketName.isSome (.errno .EINVAL)
  let (connected, world) := m.connect name s.client.world
  modify fun s => { s with client := { s.client with world } }
  failIf (connected = false) (.errno .bubbled)
  modify fun s => {
    client := { s.client with fileDescriptorTable := .nil, openWithCreateLockFlags := 0 }
    socketName := some name }

/-- `arg_f_end` with `gnl_fss_api_close_connection`. The descriptors are forgotten whether
    the connection could be closed or not. -/
def argfEnd (socketName : Option CString) : CommandLine σ Unit := do
  let s ← get
  failIf (s.socketName = none ∨ s.socketName ≠ socketName) (.errno .EINVAL)
  let (closed, world) := m.disconnect s.client.world
  modify fun s => { s with client := { s.client with world, fileDescriptorTable := .nil } }
  failIf (closed = false) (.errno .bubbled)
  modify fun s => {
    client := { s.client with openWithCreateLockFlags := 0 }, socketName := none }

/-- What follows a turn of the loop of `gnl_opt_handler_handle`. -/
inductive Turn where
  | goesOn
  | breaks (error : ApiError)
  /-- the function returns, the connection stays open -/
  | returns (error : ApiError)

/-- The argument of an option, if that is the next command. -/
def nextArg (opt : Char) (nextCommand : Option OptHandlerEl) : Option CString :=
  match nextCommand with
  | some el => if el.opt = opt.toUInt8 then some (.upToNul el.arg) else none
  | none => none

def turn (p : Api σ Unit) : Api σ Turn := do
  match ← attempt p with
  | .ok _ => pure .goesOn
  | .error error => pure (.breaks error)

/-- The switch of `gnl_opt_handler_handle`; the pause that `-t` sets is left out. -/
def execute (command : OptHandlerEl) (DArg dArg : Option CString) : Api σ Turn :=
  if command.opt = 't'.toUInt8 then
    match toInt command.arg with
    | .ok _ => pure .goesOn
    | .error code => pure (.returns (.errno code))
  else if command.opt = 'w'.toUInt8 then turn (Client.argw m command.arg DArg)
  else if command.opt = 'W'.toUInt8 then turn (Client.argW m command.arg DArg)
  else if command.opt = 'c'.toUInt8 then turn (Client.argc m command.arg)
  else if command.opt = 'l'.toUInt8 then turn (Client.argl m command.arg)
  else if command.opt = 'r'.toUInt8 then turn (Client.argr m command.arg dArg)
  else if command.opt = 'R'.toUInt8 then turn (Client.argR m command.arg dArg)
  else if command.opt = 'u'.toUInt8 then turn (Client.argu m command.arg)
  else pure .goesOn

/-- The command of the first turn is not assigned yet. -/
def executeAssigned (command : Option OptHandlerEl) (nextCommand : Option OptHandlerEl) :
    Api σ Turn :=
  match command with
  | none => pure .goesOn
  | some command => execute m command (nextArg 'D' nextCommand) (nextArg 'd' nextCommand)

/-- The loop of `gnl_opt_handler_handle`: each turn runs a command, with the one behind it
    in the hand. -/
def handleCommands : (command : Option OptHandlerEl) → List OptHandlerEl → Api σ Turn
  | command, [] => executeAssigned m command none
  | command, nextCommand :: queue => do
      match ← executeAssigned m command (some nextCommand) with
      | .goesOn => handleCommands (some nextCommand) queue
      | ended => pure ended

def handle (h : OptHandler) : CommandLine σ Unit := do
  argfStart m (h.socketFilename.map .upToNul)
  match ← onClient (handleCommands m none h.commandQueue) with
  | .returns error => throw error
  | .breaks error =>
      argfEnd m (h.socketFilename.map .upToNul)
      throw error
  | .goesOn => argfEnd m (h.socketFilename.map .upToNul)

end CommandLine

end FileStorage
