import FileStorage.Message.Layouts

/-! # Requests

`gnl_socket_request.c`: a request is one of eight kinds, each with one of four
message layouts. The decoder does not look at the results of the message
decoders, so a request is built from whatever they have filled in.
-/

namespace FileStorage

/-- `enum gnl_socket_request_type`. -/
inductive RequestType where
  | OPEN | READ | READ_N | WRITE | LOCK | UNLOCK | CLOSE | REMOVE
  deriving DecidableEq, Repr

namespace RequestType

def code : RequestType → Int
  | OPEN => 0
  | READ => 1
  | READ_N => 2
  | WRITE => 3
  | LOCK => 4
  | UNLOCK => 5
  | CLOSE => 6
  | REMOVE => 7

def ofCode (code : Int) : Option RequestType :=
  [OPEN, READ, READ_N, WRITE, LOCK, UNLOCK, CLOSE, REMOVE].find? (·.code = code)

theorem ofCode_code (type : RequestType) : ofCode type.code = some type := by
  cases type <;> rfl

end RequestType

/-- `struct gnl_socket_request`. -/
inductive Request where
  | OPEN (payload : MessageSn)
  | READ (payload : MessageN)
  | READ_N (payload : MessageN)
  | WRITE (payload : MessageNnb)
  | LOCK (payload : MessageN)
  | UNLOCK (payload : MessageN)
  | CLOSE (payload : MessageN)
  | REMOVE (payload : MessageS)
  deriving DecidableEq

namespace Request

def type : Request → RequestType
  | OPEN _ => .OPEN
  | READ _ => .READ
  | READ_N _ => .READ_N
  | WRITE _ => .WRITE
  | LOCK _ => .LOCK
  | UNLOCK _ => .UNLOCK
  | CLOSE _ => .CLOSE
  | REMOVE _ => .REMOVE

def toString : Request → Except Failure (List UInt8)
  | OPEN payload => payload.toString
  | READ payload => payload.toString
  | READ_N payload => payload.toString
  | WRITE payload => payload.toString
  | LOCK payload => payload.toString
  | UNLOCK payload => payload.toString
  | CLOSE payload => payload.toString
  | REMOVE payload => payload.toString

/-- A request with the payload a decoder has filled in, whatever it returned. -/
def decoded {α : Type} (request : α → Request) :
    Except Fault (Option Errno × α) → Except Failure Request
  | .error why => .error (.fault why)
  | .ok (_, payload) => .ok (request payload)

/-- The branches of `gnl_socket_request_from_string`. -/
def ofPayload (garbage : Nat) (message : List UInt8) : RequestType → Except Failure Request
  | .OPEN => decoded OPEN (MessageSn.fromString garbage message)
  | .READ => decoded READ (MessageN.fromString message)
  | .READ_N => decoded READ_N (MessageN.fromString message)
  | .WRITE => decoded WRITE (MessageNnb.fromString message)
  | .LOCK => decoded LOCK (MessageN.fromString message)
  | .UNLOCK => decoded UNLOCK (MessageN.fromString message)
  | .CLOSE => decoded CLOSE (MessageN.fromString message)
  | .REMOVE => decoded REMOVE (MessageS.fromString garbage message)

def fromString (garbage : Nat) (message : Option (List UInt8)) (type : Int) :
    Except Failure Request :=
  match message, RequestType.ofCode type with
  | some message, some type => ofPayload garbage message type
  | _, _ => .error (.errno .EINVAL)

def WellFormed : Request → Prop
  | OPEN payload => payload.WellFormed
  | READ payload | READ_N payload | LOCK payload | UNLOCK payload | CLOSE payload =>
      payload.WellFormed
  | WRITE payload => payload.WellFormed
  | REMOVE payload => payload.WellFormed

theorem fromString_code (garbage : Nat) (message : List UInt8) (type : RequestType) :
    fromString garbage (some message) type.code = ofPayload garbage message type := by
  simp only [fromString, RequestType.ofCode_code]

theorem WellFormed.roundTrip {request : Request} (wellFormed : request.WellFormed) :
    ∃ text, request.toString = .ok text ∧
      ∀ garbage, fromString garbage (some text) request.type.code = .ok request := by
  simp only [fromString_code]
  cases request with
  | OPEN payload =>
      obtain ⟨string, number⟩ := payload
      obtain ⟨⟨string, rfl, small⟩, range⟩ := wellFormed
      refine ⟨_, MessageSn.toString_eq small range, fun garbage => ?_⟩
      simp only [type, ofPayload, MessageSn.fromString_layout small range, decoded]
  | WRITE payload =>
      obtain ⟨number, count, bytes⟩ := payload
      obtain ⟨range, ⟨bytes, rfl, rfl⟩, small⟩ := wellFormed
      refine ⟨_, MessageNnb.toString_eq range small, fun garbage => ?_⟩
      simp only [type, ofPayload, MessageNnb.fromString_layout range small, decoded]
  | REMOVE payload =>
      obtain ⟨string⟩ := payload
      obtain ⟨string, rfl, small⟩ := wellFormed
      refine ⟨_, MessageS.toString_eq small, fun garbage => ?_⟩
      simp only [type, ofPayload, MessageS.fromString_layout small, decoded]
  | READ payload | READ_N payload | LOCK payload | UNLOCK payload | CLOSE payload =>
      refine ⟨_, MessageN.toString_eq wellFormed, fun garbage => ?_⟩
      simp only [type, ofPayload, MessageN.fromString_field wellFormed, decoded]

end Request

end FileStorage
