import FileStorage.Message.Layouts

/-! # Frames on a socket

`gnl_socket_service.c`: a message travels behind a header of 21 bytes, the type
and the length in decimal and a NUL. A socket delivers its bytes in pieces of any
size, and a `read` returns at most one piece.
-/

namespace FileStorage

namespace Service

/-! ## Writing -/

/-- The loop of `gnl_socket_service_writen`, given what the successive `write`
    calls return: the bytes that were accepted, and the error that ended it. -/
def writeLoop : List UInt8 → List (Except Errno Nat) → List UInt8 × Option Errno
  | [], _ => ([], none)
  | _, [] => ([], none)
  | _, .error code :: _ => ([], some code)
  | bytes, .ok n :: results =>
      if n = 0 then ([], none)
      else
        let later := writeLoop (bytes.drop n) results
        (bytes.take n ++ later.1, later.2)

def protocolMessage (type : Int) (message : List UInt8) : List UInt8 :=
  snprintf 21 (Decimal.format 10 type ++ Decimal.padded 10 message.length) ++ message

/-- `write_protocol_message`: what it returns, none for -1, and the bytes that the
    peer will read. -/
def writeProtocolMessage (type : Int) (message : List UInt8) (results : List (Except Errno Nat)) :
    Except Failure (Option Nat × List UInt8) := do
  sized (21 + message.length)
  let written := (writeLoop (protocolMessage type message) results).1
  return (if written.length = 0 then none else some written.length, written)

/-! ## Reading -/

inductive Arrival where
  | chunk (bytes : List UInt8)
  | failure (code : Errno)

/-- The loop of `gnl_socket_service_readn`. When nothing is left to arrive the
    peer has closed the connection. A piece that is longer than asked for stays
    for the next `read`. -/
def readLoop : Nat → List Arrival → (List UInt8 × Option Errno) × List Arrival
  | 0, arrivals => (([], none), arrivals)
  | _ + 1, [] => (([], none), [])
  | _ + 1, .failure code :: arrivals => (([], some code), arrivals)
  | nleft + 1, .chunk bytes :: arrivals =>
      if bytes = [] then (([], none), arrivals)
      else if bytes.length ≤ nleft + 1 then
        let later := readLoop (nleft + 1 - bytes.length) arrivals
        ((bytes ++ later.1.1, later.1.2), later.2)
      else ((bytes.take (nleft + 1), none), .chunk (bytes.drop (nleft + 1)) :: arrivals)

/-- `gnl_socket_service_readn`: an error counts only when nothing was read before it. -/
def readn (n : Nat) (arrivals : List Arrival) : Except Errno (List UInt8) × List Arrival :=
  match readLoop n arrivals with
  | (([], some code), arrivals) => (.error code, arrivals)
  | ((bytes, _), arrivals) => (.ok bytes, arrivals)

/-- What `read_protocol_message` reports. A message of length zero leaves the
    destination null. -/
inductive Received where
  | closed
  | message (type : Int) (payload : Option (List UInt8))
  | failed (code : Errno)
  deriving DecidableEq

def readPayload (type : Int) (length : Nat) (arrivals : List Arrival) :
    Received × List Arrival :=
  if length = 0 then (.message type none, arrivals)
  else if callocs length then
    match readn length arrivals with
    | (.error code, arrivals) => (.failed code, arrivals)
    | (.ok payload, arrivals) =>
        if payload.length = length then (.message type (some payload), arrivals)
        else (.failed .EBADMSG, arrivals)
  else (.failed .ENOMEM, arrivals)

/-- `read_protocol_message`. Neither the type nor the length is initialised before
    the header is scanned. -/
def readProtocolMessage (garbage : Int × Nat) (arrivals : List Arrival) :
    Except Fault (Received × List Arrival) :=
  match readn 21 arrivals with
  | (.error code, arrivals) => .ok (.failed code, arrivals)
  | (.ok header, arrivals) =>
      if header = [] then .ok (.closed, arrivals)
      else if header.length = 21 then do
        let text ← stringAt header
        let (type, length) := scanNumberAndCount garbage text
        return readPayload type length arrivals
      else .ok (.failed .EBADMSG, arrivals)

def readMany (garbage : Int × Nat) : Nat → List Arrival →
    Except Fault (List Received × List Arrival)
  | 0, arrivals => .ok ([], arrivals)
  | calls + 1, arrivals => do
      let (received, arrivals) ← readProtocolMessage garbage arrivals
      let (later, arrivals) ← readMany garbage calls arrivals
      return (received :: later, arrivals)

/-! ## Every splitting of the stream gives the same messages -/

def arriving (chunks : List (List UInt8)) : List Arrival := chunks.map .chunk

theorem readLoop_arriving {chunks : List (List UInt8)} (nonempty : ∀ chunk ∈ chunks, chunk ≠ [])
    {data more : List UInt8} (stream : chunks.flatten = data ++ more) :
    ∃ rest, readLoop data.length (arriving chunks) = ((data, none), arriving rest) ∧
      (∀ chunk ∈ rest, chunk ≠ []) ∧ rest.flatten = more := by
  induction chunks generalizing data with
  | nil =>
      obtain ⟨rfl, rfl⟩ := List.append_eq_nil_iff.mp stream.symm
      exact ⟨[], rfl, nonempty, rfl⟩
  | cons chunk chunks ih =>
      cases data with
      | nil => exact ⟨chunk :: chunks, rfl, nonempty, stream⟩
      | cons byte data =>
          have some_ : chunk ≠ [] := nonempty chunk List.mem_cons_self
          have later : ∀ chunk ∈ chunks, chunk ≠ [] := fun chunk member =>
            nonempty chunk (List.mem_cons_of_mem _ member)
          rw [List.flatten_cons] at stream
          rcases List.append_eq_append_iff.mp stream with
            ⟨data', whole, stream⟩ | ⟨chunk', whole, stream⟩
          · -- the piece is used up, the loop goes on
            obtain ⟨rest, read, nonempty, flatten⟩ := ih later stream
            refine ⟨rest, ?_, nonempty, flatten⟩
            have lengths := congrArg List.length whole
            rw [List.length_append, List.length_cons] at lengths
            have fewer : data.length + 1 - chunk.length = data'.length := by omega
            simp only [arriving, List.map_cons, List.length_cons, readLoop, if_neg some_,
              if_pos (show chunk.length ≤ data.length + 1 by omega), fewer]
            rw [← arriving, read, whole]
            rfl
          · -- the piece reaches beyond the data
            by_cases exact_ : chunk' = []
            · refine ⟨chunks, ?_, later, by rw [stream, exact_, List.nil_append]⟩
              rw [exact_, List.append_nil] at whole
              simp only [arriving, List.map_cons, List.length_cons, readLoop, whole,
                if_neg (List.cons_ne_nil byte data), if_pos le_rfl, Nat.sub_self, List.append_nil]
            · refine ⟨chunk' :: chunks, ?_, ?_, stream.symm⟩
              · have long : ¬ chunk.length ≤ data.length + 1 := by
                  have lengths := congrArg List.length whole
                  have positive := List.length_pos_of_ne_nil exact_
                  rw [List.length_append, List.length_cons] at lengths
                  omega
                have taken : chunk.take (data.length + 1) = byte :: data := by
                  rw [whole]
                  exact List.take_left' rfl
                have left : chunk.drop (data.length + 1) = chunk' := by
                  rw [whole]
                  exact List.drop_left' rfl
                simp only [arriving, List.map_cons, List.length_cons, readLoop, if_neg some_,
                  if_neg long, taken, left]
              · exact List.forall_mem_cons.mpr ⟨exact_, later⟩

theorem readn_arriving {chunks : List (List UInt8)} (nonempty : ∀ chunk ∈ chunks, chunk ≠ [])
    {data more : List UInt8} (stream : chunks.flatten = data ++ more) :
    ∃ rest, readn data.length (arriving chunks) = (.ok data, arriving rest) ∧
      (∀ chunk ∈ rest, chunk ≠ []) ∧ rest.flatten = more := by
  obtain ⟨rest, read, facts⟩ := readLoop_arriving nonempty stream
  refine ⟨rest, ?_, facts⟩
  rw [readn, read]
  cases data <;> rfl

/-- A message that is sent: its type, its payload and what the `write` calls return. -/
structure Sent where
  type : Int
  payload : List UInt8
  results : List (Except Errno Nat)

def Sent.written (sent : Sent) : List UInt8 :=
  match writeProtocolMessage sent.type sent.payload sent.results with
  | .ok (_, written) => written
  | .error _ => []

structure Sent.Whole (sent : Sent) : Prop where
  type_range : 0 ≤ sent.type ∧ sent.type ≤ 2147483647
  small : sent.payload.length < 2 ^ 31 - 21
  whole : ∃ written, writeProtocolMessage sent.type sent.payload sent.results =
    .ok (some (21 + sent.payload.length), written)

def Sent.received (sent : Sent) : Received :=
  .message sent.type (if sent.payload = [] then none else some sent.payload)

theorem writeLoop_prefix (bytes : List UInt8) (results : List (Except Errno Nat)) :
    (writeLoop bytes results).1 <+: bytes := by
  fun_induction writeLoop bytes results with
  | case1 => exact List.nil_prefix
  | case2 => exact List.nil_prefix
  | case3 => exact List.nil_prefix
  | case4 => exact List.nil_prefix
  | case5 bytes n results _ _ later ih =>
      calc bytes.take n ++ later.1 <+: bytes.take n ++ bytes.drop n :=
            (List.prefix_append_right_inj _).mpr ih
        _ = bytes := List.take_append_drop n bytes

def header (sent : Sent) : List UInt8 :=
  Decimal.format 10 sent.type ++ Decimal.padded 10 sent.payload.length ++ [0]

variable {sent : Sent}

theorem Sent.Whole.range (whole : sent.Whole) : InRange sent.type := by
  have bounds := whole.type_range
  rw [InRange]
  omega

theorem Sent.Whole.length_header (whole : sent.Whole) : (header sent).length = 21 := by
  have small := whole.small
  rw [header, List.length_append, List.length_append, whole.range.length_format,
    length_padded_ten (by omega)]
  rfl

theorem Sent.Whole.protocolMessage_eq (whole : sent.Whole) :
    protocolMessage sent.type sent.payload = header sent ++ sent.payload := by
  have small := whole.small
  have length := whole.length_header
  rw [header, List.length_append] at length
  rw [protocolMessage, snprintf_of_length (by simpa using length), header]

theorem Sent.Whole.written_eq (whole : sent.Whole) :
    sent.written = header sent ++ sent.payload := by
  obtain ⟨written, returned⟩ := whole.whole
  have small := whole.small
  have length := whole.length_header
  rw [Sent.written, returned]
  simp only [writeProtocolMessage, sized_of_small (show 21 + sent.payload.length < 2 ^ 31 by omega),
    bind, Except.bind, pure, Except.pure, Except.ok.injEq, Prod.mk.injEq] at returned
  obtain ⟨count, rfl⟩ := returned
  have accepted := writeLoop_prefix (protocolMessage sent.type sent.payload) sent.results
  rw [whole.protocolMessage_eq] at accepted count ⊢
  apply accepted.eq_of_length
  split at count
  · cases count
  · rw [Option.some.inj count, List.length_append, length]

theorem Sent.Whole.read {chunks : List (List UInt8)} (whole : sent.Whole)
    (nonempty : ∀ chunk ∈ chunks, chunk ≠ []) {more : List UInt8}
    (stream : chunks.flatten = sent.written ++ more) (garbage : Int × Nat) :
    ∃ rest, readProtocolMessage garbage (arriving chunks) = .ok (sent.received, arriving rest) ∧
      (∀ chunk ∈ rest, chunk ≠ []) ∧ rest.flatten = more := by
  have small := whole.small
  have length := whole.length_header
  rw [whole.written_eq, List.append_assoc] at stream
  obtain ⟨behind, readHeader, nonempty, stream⟩ := readn_arriving nonempty stream
  rw [length] at readHeader
  have some_ : header sent ≠ [] := by
    intro nothing
    rw [nothing] at length
    simp at length
  have text : stringAt (header sent) = .ok (.upToNul (header sent)) :=
    stringAt_of_mem (by simp [header])
  have scanned : scanNumberAndCount garbage (.upToNul (header sent)) =
      (sent.type, sent.payload.length) :=
    scanNumberAndCount_fields whole.range (by omega) garbage [0]
  have read : readProtocolMessage garbage (arriving chunks) =
      .ok (readPayload sent.type sent.payload.length (arriving behind)) := by
    simp only [readProtocolMessage, readHeader, if_neg some_, if_pos length, text, bind,
      Except.bind, scanned, pure, Except.pure]
  rw [read]
  by_cases empty : sent.payload = []
  · refine ⟨behind, ?_, nonempty, by rw [stream, empty, List.nil_append]⟩
    simp only [readPayload, empty, List.length_nil, if_pos, Sent.received]
  · obtain ⟨rest, readRest, facts⟩ := readn_arriving nonempty stream
    refine ⟨rest, ?_, facts⟩
    have positive : sent.payload.length ≠ 0 := by simpa using empty
    have fits : callocs sent.payload.length := by
      rw [callocs]
      omega
    simp only [readPayload, if_neg positive, if_pos fits, readRest, if_pos, Sent.received,
      if_neg empty]

theorem readMany_arriving {messages : List Sent} (whole : ∀ sent ∈ messages, sent.Whole)
    {chunks : List (List UInt8)} (nonempty : ∀ chunk ∈ chunks, chunk ≠ []) {more : List UInt8}
    (stream : chunks.flatten = messages.flatMap Sent.written ++ more) (garbage : Int × Nat) :
    ∃ rest, readMany garbage messages.length (arriving chunks) =
        .ok (messages.map Sent.received, arriving rest) ∧
      (∀ chunk ∈ rest, chunk ≠ []) ∧ rest.flatten = more := by
  induction messages generalizing chunks with
  | nil => exact ⟨chunks, rfl, nonempty, stream⟩
  | cons sent messages ih =>
      rw [List.flatMap_cons, List.append_assoc] at stream
      obtain ⟨behind, first, nonempty, stream⟩ :=
        (whole sent List.mem_cons_self).read nonempty stream garbage
      obtain ⟨rest, later, facts⟩ :=
        ih (fun sent member => whole sent (List.mem_cons_of_mem _ member)) nonempty stream
      refine ⟨rest, ?_, facts⟩
      simp only [List.length_cons, readMany, first, bind, Except.bind, later, pure, Except.pure,
        List.map_cons]

/-- Messages that are written whole, one after the other, are read one by one,
    however the stream is split: after each of them exactly the bytes of the later
    ones are left, and after the last the stream is closed. -/
theorem framing_survives_splitting (messages : List Sent) (whole : ∀ sent ∈ messages, sent.Whole)
    (chunks : List (List UInt8)) (nonempty : ∀ chunk ∈ chunks, chunk ≠ [])
    (stream : chunks.flatten = messages.flatMap Sent.written) (garbage : Int × Nat)
    (first later : List Sent) (split : messages = first ++ later) :
    ∃ rest, readMany garbage first.length (arriving chunks) =
        .ok (first.map Sent.received, arriving rest) ∧
      rest.flatten = later.flatMap Sent.written ∧
      (later = [] → readProtocolMessage garbage (arriving rest) = .ok (.closed, [])) := by
  subst split
  rw [List.flatMap_append] at stream
  obtain ⟨rest, read, nonempty, left⟩ :=
    readMany_arriving (fun sent member => whole sent (List.mem_append_left _ member)) nonempty
      stream garbage
  refine ⟨rest, read, left, ?_⟩
  rintro rfl
  have exhausted : rest = [] := by
    cases rest with
    | nil => rfl
    | cons chunk rest =>
        rw [List.flatten_cons, List.flatMap_nil, List.append_eq_nil_iff] at left
        exact absurd left.1 (nonempty chunk List.mem_cons_self)
  rw [exhausted]
  rfl

/-- Two messages, the first written in two pieces. -/
def sampleMessages : List Sent := [⟨3, [7], [.ok 5, .ok 100]⟩, ⟨0, [], [.ok 21]⟩]

theorem framing_survives_splitting_bytewise :
    ∃ rest, readMany (0, 0) 2 (arriving ((sampleMessages.flatMap Sent.written).map ([·]))) =
        .ok ([.message 3 (some [7]), .message 0 none], arriving rest) ∧
      rest.flatten = [] ∧
      (([] : List Sent) = [] →
        readProtocolMessage (0, 0) (arriving rest) = .ok (.closed, [])) := by
  have whole : ∀ sent ∈ sampleMessages, sent.Whole := by
    intro sent member
    rcases List.mem_cons.mp member with rfl | member
    · exact ⟨by decide, by decide, _, rfl⟩
    · rw [List.mem_singleton.mp member]
      exact ⟨by decide, by decide, _, rfl⟩
  have nonempty : ∀ chunk ∈ (sampleMessages.flatMap Sent.written).map ([·]), chunk ≠ [] := by
    intro chunk member
    obtain ⟨byte, -, rfl⟩ := List.mem_map.mp member
    exact List.cons_ne_nil byte []
  have stream : ((sampleMessages.flatMap Sent.written).map ([·])).flatten =
      sampleMessages.flatMap Sent.written := by
    rw [← List.flatMap_def, List.flatMap_singleton']
  exact framing_survives_splitting sampleMessages whole _ nonempty stream (0, 0)
    sampleMessages [] rfl

end Service

end FileStorage
