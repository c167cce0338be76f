import FileStorage.Socket.Request

/-! # Responses

`gnl_socket_response.c`: five kinds of responses. The one without a payload has
no bytes at all, the list of files is taken apart while it is written and put
together again. The decoder gives up when the message decoder reports an error.
-/

namespace FileStorage

/-- `enum gnl_socket_response_type`. -/
inductive ResponseType where
  | OK_FILE_LIST | OK_FILE | OK_FD | OK | ERROR
  deriving DecidableEq, Repr

namespace ResponseType

def code : ResponseType → Int
  | OK_FILE_LIST => 0
  | OK_FILE => 1
  | OK_FD => 2
  | OK => 3
  | ERROR => 4

def ofCode (code : Int) : Option ResponseType :=
  [OK_FILE_LIST, OK_FILE, OK_FD, OK, ERROR].find? (·.code = code)

theorem ofCode_code (type : ResponseType) : ofCode type.code = some type := by
  cases type <;> rfl

end ResponseType

/-- `struct gnl_socket_response`. -/
inductive Response where
  | OK_FILE_LIST (payload : MessageNq)
  | OK_FILE (payload : MessageSnb)
  | OK_FD (payload : MessageN)
  | OK
  | ERROR (payload : MessageN)
  deriving DecidableEq

namespace Response

def type : Response → ResponseType
  | OK_FILE_LIST _ => .OK_FILE_LIST
  | OK_FILE _ => .OK_FILE
  | OK_FD _ => .OK_FD
  | OK => .OK
  | ERROR _ => .ERROR

/-- `gnl_socket_response_to_string`: the bytes, none when the destination stays
    null, and the response afterwards. -/
def toString : Response → Except Failure (Option (List UInt8) × Response)
  | OK_FILE_LIST payload => do
      let (text, payload) ← payload.toString
      return (some text, OK_FILE_LIST payload)
  | OK_FILE payload => do return (some (← payload.toString), OK_FILE payload)
  | OK_FD payload => do return (some (← payload.toString), OK_FD payload)
  | OK => return (none, OK)
  | ERROR payload => do return (some (← payload.toString), ERROR payload)

/-- A response with the payload of a decoder that reports no error. -/
def decoded {α : Type} (response : α → Response) :
    Except Fault (Option Errno × α) → Except Failure Response
  | .error why => .error (.fault why)
  | .ok (some code, _) => .error (.errno code)
  | .ok (none, payload) => .ok (response payload)

def fromString (garbage : Nat → Nat) (message : Option (List UInt8)) (type : Int) :
    Except Failure Response :=
  match ResponseType.ofCode type, message with
  | some .OK, _ => .ok OK
  | some .OK_FILE_LIST, some message =>
      decoded OK_FILE_LIST (MessageNq.fromString garbage message)
  | some .OK_FILE, some message => decoded OK_FILE (MessageSnb.fromString (garbage 0) message)
  | some .OK_FD, some message => decoded OK_FD (MessageN.fromString message)
  | some .ERROR, some message => decoded ERROR (MessageN.fromString message)
  | _, _ => .error (.errno .EINVAL)

def WellFormed : Response → Prop
  | OK_FILE_LIST payload => payload.WellFormed
  | OK_FILE payload => payload.WellFormed
  | OK_FD payload | ERROR payload => payload.WellFormed
  | OK => True

theorem WellFormed.roundTrip {response : Response} (wellFormed : response.WellFormed) :
    ∃ text, response.toString = .ok (text, response) ∧
      ∀ garbage, fromString garbage text response.type.code = .ok response := by
  simp only [fromString, ResponseType.ofCode_code]
  cases response with
  | OK_FILE_LIST payload =>
      obtain ⟨text, written, readBack⟩ := MessageNq.WellFormed.roundTrip wellFormed
      refine ⟨some text, ?_, fun garbage => ?_⟩
      · simp only [toString, written, bind, Except.bind, pure, Except.pure]
      · simp only [type, readBack, decoded]
  | OK_FILE payload =>
      obtain ⟨text, written, -, readBack⟩ := MessageSnb.WellFormed.roundTrip wellFormed
      refine ⟨some text, ?_, fun garbage => ?_⟩
      · simp only [toString, written, bind, Except.bind, pure, Except.pure]
      · have all := readBack (garbage 0) []
        rw [List.append_nil] at all
        simp only [type, all, decoded]
  | OK => exact ⟨none, rfl, fun _ => rfl⟩
  | OK_FD payload | ERROR payload =>
      refine ⟨some (Decimal.format 10 payload.number ++ [0]), ?_, fun garbage => ?_⟩
      · simp only [toString, MessageN.toString_eq wellFormed, bind, Except.bind, pure, Except.pure]
      · simp only [type, MessageN.fromString_field wellFormed, decoded]

end Response

/-- What the encoders write is decoded to the same request or response, and
    writing a response leaves it as it was. -/
theorem wire_round_trip :
    (∀ request : Request, request.WellFormed → ∃ text, request.toString = .ok text ∧
      ∀ garbage, Request.fromString garbage (some text) request.type.code = .ok request) ∧
    ∀ response : Response, response.WellFormed → ∃ text,
      response.toString = .ok (text, response) ∧
        ∀ garbage, Response.fromString garbage text response.type.code = .ok response :=
  ⟨fun _ wellFormed => wellFormed.roundTrip, fun _ wellFormed => wellFormed.roundTrip⟩

def sampleFile : MessageSnb := ⟨some (.upToNul [97, 49]), 3, some [0, 255, 48]⟩

theorem wire_round_trip_sample :
    (∃ text, (Request.WRITE ⟨-7, 2, some [0, 10]⟩).toString = .ok text ∧
      ∀ garbage, Request.fromString garbage (some text) RequestType.WRITE.code =
        .ok (.WRITE ⟨-7, 2, some [0, 10]⟩)) ∧
    ∃ text, (Response.OK_FILE_LIST ⟨2, [sampleFile, sampleFile]⟩).toString =
        .ok (text, .OK_FILE_LIST ⟨2, [sampleFile, sampleFile]⟩) ∧
      ∀ garbage, Response.fromString garbage text ResponseType.OK_FILE_LIST.code =
        .ok (.OK_FILE_LIST ⟨2, [sampleFile, sampleFile]⟩) := by
  have file : sampleFile.WellFormed := ⟨⟨_, rfl⟩, ⟨_, rfl, rfl⟩, by decide⟩
  constructor
  · exact wire_round_trip.1 (.WRITE ⟨-7, 2, some [0, 10]⟩) ⟨by decide, ⟨_, rfl, rfl⟩, by decide⟩
  · apply wire_round_trip.2 (.OK_FILE_LIST ⟨2, [sampleFile, sampleFile]⟩)
    exact ⟨rfl, by simp [file], by decide⟩

end FileStorage
