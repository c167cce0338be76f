import FileStorage.Socket.Response
import FileStorage.Socket.Service

/-! # Sending requests and responses

`gnl_socket_service_send_request` and `gnl_socket_service_send_response`. Both
take any positive count of `gnl_socket_service_writen` for success, so a frame
that is cut off by an error goes out as if it were whole.
-/

namespace FileStorage.Service

/-- What both functions do with a message: `write_protocol_message` and the check of
    its result. The value is what was written when they return 0. -/
def sendMessage (type : Int) (message : List UInt8) (results : List (Except Errno Nat)) :
    Except Failure (List UInt8) := do
  let (nwrite, written) ← writeProtocolMessage type message results
  if nwrite.isNone then .error (.errno .bubbled) else .ok written

/-- `gnl_socket_service_send_request`, given what the `write` calls return. Of the
    connection only the flag that it is active is looked at. -/
def sendRequest (connection : Option Bool) (request : Option Request)
    (results : List (Except Errno Nat)) : Except Failure (List UInt8) :=
  match connection, request with
  | some true, some request => do
      let message ← request.toString
      sendMessage request.type.code message results
  | _, _ => .error (.errno .EINVAL)

def sendResponse (response : Option Response) (results : List (Except Errno Nat)) :
    Except Failure (List UInt8) :=
  match response with
  | some response => do
      let (message, _) ← response.toString
      sendMessage response.type.code (message.getD []) results
  | none => .error (.errno .EINVAL)

/-- The counts that `write` returns before it fails or returns 0, added up. -/
def granted : List (Except Errno Nat) → Nat
  | .ok (n + 1) :: results => n + 1 + granted results
  | _ => 0

theorem writeLoop_length (bytes : List UInt8) (results : List (Except Errno Nat)) :
    (writeLoop bytes results).1.length = min bytes.length (granted results) := by
  fun_induction writeLoop bytes results with
  | case1 => simp
  | case2 => simp [granted]
  | case3 => simp [granted]
  | case4 => simp [granted]
  | case5 bytes n results some_ positive later ih =>
      obtain ⟨k, rfl⟩ := Nat.exists_eq_succ_of_ne_zero positive
      have rest : later.1.length = min (bytes.length - (k + 1)) (granted results) := by
        rw [← List.length_drop]
        exact ih
      rw [List.length_append, List.length_take, rest, granted]
      omega

theorem length_protocolMessage (type : Int) (message : List UInt8) :
    (protocolMessage type message).length = 21 + message.length := by
  rw [protocolMessage, List.length_append, snprintf, List.rightpad, List.length_append,
    List.length_take, List.length_replicate]
  omega

/-- The frame counts as sent as soon as something of it was written. -/
theorem sendMessage_eq_ok {type : Int} {message written : List UInt8}
    {results : List (Except Errno Nat)} :
    sendMessage type message results = .ok written ↔ 21 + message.length < 2 ^ 31 ∧
      written = (writeLoop (protocolMessage type message) results).1 ∧ granted results ≠ 0 := by
  have length := writeLoop_length (protocolMessage type message) results
  rw [length_protocolMessage] at length
  unfold sendMessage writeProtocolMessage sized
  split
  · rename_i small
    simp only [bind, Except.bind, pure, Except.pure, small, true_and]
    split
    · rename_i nothing
      have refused : granted results = 0 := by omega
      simp [refused]
    · rename_i something
      have accepted : granted results ≠ 0 := by omega
      simp [accepted, eq_comm]
  · rename_i large
    simp only [bind, Except.bind, large, false_and, iff_false]
    nofun

theorem sendMessage_whole_iff {type : Int} {message : List UInt8}
    {results : List (Except Errno Nat)} (small : 21 + message.length < 2 ^ 31) :
    (∀ written, sendMessage type message results = .ok written →
        written.length = 21 + message.length) ↔
      granted results = 0 ∨ 21 + message.length ≤ granted results := by
  have length := writeLoop_length (protocolMessage type message) results
  rw [length_protocolMessage] at length
  simp only [sendMessage_eq_ok]
  constructor
  · intro whole
    by_cases nothing : granted results = 0
    · exact .inl nothing
    · have all := whole _ ⟨small, rfl, nothing⟩
      omega
  · rintro granted written ⟨_, rfl, something⟩
    omega

/-- The payload of a request that gets as far as being written: the connection is
    active, the request can be encoded and the length of the frame is an `int`. -/
def requestPayload (connection : Option Bool) (request : Option Request) : Option (List UInt8) :=
  match connection, request with
  | some true, some request =>
      request.toString.toOption.filter fun message => 21 + message.length < 2 ^ 31
  | _, _ => none

/-- The payload of a response that gets as far as being written. -/
def responsePayload (response : Option Response) : Option (List UInt8) :=
  match response with
  | some response =>
      (response.toString.toOption.map fun written => written.1.getD []).filter fun message =>
        21 + message.length < 2 ^ 31
  | none => none

def SendsAs (send : Except Failure (List UInt8)) (payload : Option (List UInt8))
    (results : List (Except Errno Nat)) : Prop :=
  ∃ type, ∀ written, send = .ok written ↔
    ∃ message, payload = some message ∧ sendMessage type message results = .ok written

theorem sendsAs_error (why : Failure) (results : List (Except Errno Nat)) :
    SendsAs (.error why) none results :=
  ⟨0, fun _ => ⟨nofun, nofun⟩⟩

theorem sendsAs_message (type : Int) (message : List UInt8) (results : List (Except Errno Nat)) :
    SendsAs (sendMessage type message results)
      ((some message).filter fun message => 21 + message.length < 2 ^ 31) results := by
  refine ⟨type, fun written => ?_⟩
  constructor
  · intro sent
    have small := (sendMessage_eq_ok.mp sent).1
    exact ⟨message, Option.filter_eq_some_iff.mpr ⟨rfl, decide_eq_true small⟩, sent⟩
  · rintro ⟨other, found, sent⟩
    obtain rfl := Option.some.inj (Option.filter_eq_some_iff.mp found).1
    exact sent

theorem sendRequest_sendsAs (connection : Option Bool) (request : Option Request)
    (results : List (Except Errno Nat)) :
    SendsAs (sendRequest connection request results) (requestPayload connection request)
      results := by
  unfold sendRequest requestPayload
  split
  · rename_i request
    cases request.toString with
    | error why => exact sendsAs_error why results
    | ok message => exact sendsAs_message request.type.code message results
  · exact sendsAs_error _ results

theorem sendResponse_sendsAs (response : Option Response) (results : List (Except Errno Nat)) :
    SendsAs (sendResponse response results) (responsePayload response) results := by
  unfold sendResponse responsePayload
  split
  · rename_i response
    cases response.toString with
    | error why => exact sendsAs_error why results
    | ok written => exact sendsAs_message response.type.code (written.1.getD []) results
  · exact sendsAs_error _ results

theorem SendsAs.whole_iff {send : Except Failure (List UInt8)} {payload : Option (List UInt8)}
    {results : List (Except Errno Nat)} (sends : SendsAs send payload results)
    (small : ∀ message, payload = some message → 21 + message.length < 2 ^ 31) :
    (∀ written, send = .ok written → ∃ message, payload = some message ∧
        written.length = 21 + message.length) ↔
      ∀ message, payload = some message →
        granted results = 0 ∨ 21 + message.length ≤ granted results := by
  obtain ⟨type, sends⟩ := sends
  constructor
  · rintro whole message rfl
    refine (@sendMessage_whole_iff type message results (small message rfl)).mp ?_
    intro written sent
    obtain ⟨other, same, length⟩ := whole written ((sends written).mpr ⟨message, rfl, sent⟩)
    rwa [Option.some.inj same]
  · intro enough written sent
    obtain ⟨message, found, sent⟩ := (sends written).mp sent
    exact ⟨message, found,
      (sendMessage_whole_iff (small message found)).mpr (enough message found) written sent⟩

theorem length_of_filter {payload : Option (List UInt8)} {message : List UInt8}
    (found : payload.filter (fun message => 21 + message.length < 2 ^ 31) = some message) :
    21 + message.length < 2 ^ 31 := by
  rw [Option.filter_eq_some_iff] at found
  simpa using found.2

/-- Whenever one of the two functions returns 0 the whole frame was accepted, exactly
    when `write` accepts all of it or nothing, for each frame that gets as far. -/
theorem send_whole_iff (connection : Option Bool) (request : Option Request)
    (response : Option Response) (results : List (Except Errno Nat)) :
    ((∀ written, sendRequest connection request results = .ok written →
        ∃ message, requestPayload connection request = some message ∧
          written.length = 21 + message.length) ↔
      ∀ message, requestPayload connection request = some message →
        granted results = 0 ∨ 21 + message.length ≤ granted results) ∧
    ((∀ written, sendResponse response results = .ok written →
        ∃ message, responsePayload response = some message ∧
          written.length = 21 + message.length) ↔
      ∀ message, responsePayload response = some message →
        granted results = 0 ∨ 21 + message.length ≤ granted results) := by
  constructor
  · refine (sendRequest_sendsAs connection request results).whole_iff fun message found => ?_
    unfold requestPayload at found
    split at found
    · exact length_of_filter found
    · cases found
  · refine (sendResponse_sendsAs response results).whole_iff fun message found => ?_
    unfold responsePayload at found
    split at found
    · exact length_of_filter found
    · cases found

/-- The connection breaks after five bytes of a request: it is reported as sent. -/
theorem send_short :
    ¬ ∀ (request : Request) (results : List (Except Errno Nat)) (written message : List UInt8),
      request.toString = .ok message →
      sendRequest (some true) (some request) results = .ok written →
      written.length = 21 + message.length := by
  intro whole
  have short := whole (.READ ⟨3⟩) [.ok 5, .error .EPIPE] _ _ rfl rfl
  exact absurd short (by decide)

end FileStorage.Service
