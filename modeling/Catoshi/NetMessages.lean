/-
Messages on the wire (`net.cpp`): the queue of buffers to send, and the framing of the bytes
received.
-/
import Catoshi.Lib.ByteOrder
import Catoshi.Lib.Outcome
import Catoshi.CoinsDB

namespace Catoshi

open Outcome List ByteOrder

/-! ### The send queue -/

def headerSize : ℕ := 24

structure CSerializedNetMsg where
  serializedHeader : Bytes
  data : Bytes
  header_size : serializedHeader.length = headerSize

/-- `send` takes up to `count` of the bytes offered, or fails. -/
inductive SendResult where
  | taken (count : ℕ)
  | failed (transient : Bool)

/-- The fields sending uses, and the bytes handed to the socket. -/
structure SendNode where
  vSendMsg : List Bytes
  nSendOffset : ℕ
  nSendSize : ℕ
  fPauseSend : Bool
  connected : Bool
  socket : Bytes

def SendNode.fresh : SendNode := ⟨[], 0, 0, false, true, []⟩

namespace SendNode

/-- The loop of `SocketSendData` from a buffer on; a `send` without a result would block. The
buffers before are erased at the end. -/
def sendFrom (nSendBufferMaxSize : ℕ) :
    SendNode → List Bytes → List SendResult → Except Fault SendNode
  | node, [], _ => do
    require (decide (node.nSendOffset = 0)) (.assertFailed "pnode->nSendOffset == 0")
    require (decide (node.nSendSize = 0)) (.assertFailed "pnode->nSendSize == 0")
    return { node with vSendMsg := [] }
  | node, data :: rest, results => do
    require (decide (node.nSendOffset < data.length))
      (.assertFailed "data.size() > pnode->nSendOffset")
    let stopped := { node with vSendMsg := data :: rest }
    if !node.connected then
      return stopped
    else
      match results with
      | [] => return stopped
      | .failed transient :: _ => return { stopped with connected := transient }
      | .taken count :: results =>
        let nBytes := min count (data.length - node.nSendOffset)
        if nBytes = 0 then
          return stopped
        else
          let socket := node.socket ++ (data.drop node.nSendOffset).take nBytes
          if node.nSendOffset + nBytes = data.length then
            let nSendSize := node.nSendSize - data.length
            sendFrom nSendBufferMaxSize { node with
              nSendOffset := 0
              nSendSize := nSendSize
              fPauseSend := decide (nSendBufferMaxSize < nSendSize)
              socket := socket } rest results
          else
            return { stopped with nSendOffset := node.nSendOffset + nBytes, socket := socket }

def socketSendData (nSendBufferMaxSize : ℕ) (node : SendNode) (results : List SendResult) :
    Except Fault SendNode :=
  node.sendFrom nSendBufferMaxSize node.vSendMsg results

/-- `PushMessage`. An empty payload is not queued; an empty queue is sent at once. -/
def pushMessage (nSendBufferMaxSize : ℕ) (node : SendNode) (msg : CSerializedNetMsg)
    (results : List SendResult) : Except Fault SendNode :=
  let nSendSize := node.nSendSize + (msg.data.length + headerSize)
  let pushed := { node with
    vSendMsg := node.vSendMsg ++ msg.serializedHeader :: if msg.data.isEmpty then [] else [msg.data]
    nSendSize := nSendSize
    fPauseSend := node.fPauseSend || decide (nSendBufferMaxSize < nSendSize) }
  if node.vSendMsg.isEmpty then pushed.socketSendData nSendBufferMaxSize results else .ok pushed

end SendNode

inductive SendCall where
  | pushMessage (msg : CSerializedNetMsg) (results : List SendResult)
  | socketSendData (results : List SendResult)

def SendCall.pushed : SendCall → Bytes
  | .pushMessage msg _ => msg.serializedHeader ++ msg.data
  | .socketSendData _ => []

def SendNode.call (nSendBufferMaxSize : ℕ) (node : SendNode) : SendCall → Except Fault SendNode
  | .pushMessage msg results => node.pushMessage nSendBufferMaxSize msg results
  | .socketSendData results => node.socketSendData nSendBufferMaxSize results

/-- The queue holds what the socket has not been handed. -/
structure Queued (queue : List Bytes) (offset size : ℕ) (socket stream : Bytes) : Prop where
  stream : socket ++ queue.flatten.drop offset = stream
  size : size = queue.flatten.length
  nonempty : [] ∉ queue
  offset : offset < (queue.headD [0]).length

def SendNode.Holds (node : SendNode) (stream : Bytes) : Prop :=
  Queued node.vSendMsg node.nSendOffset node.nSendSize node.socket stream

/-- A queue of nonempty buffers can be sent from its start. -/
theorem headD_length_pos {queue : List Bytes} (hnonempty : [] ∉ queue) :
    0 < (queue.headD [0]).length := by
  cases queue with
  | nil => exact Nat.one_pos
  | cons data rest =>
    apply length_pos_of_ne_nil
    rintro rfl
    exact hnonempty mem_cons_self

section

variable {node : SendNode} {stream socket : Bytes} {queue : List Bytes} {offset size : ℕ}

theorem Queued.append (hqueued : Queued queue offset size socket stream) {added : List Bytes}
    (hadded : [] ∉ added) :
    Queued (queue ++ added) offset (size + added.flatten.length) socket
      (stream ++ added.flatten) := by
  obtain ⟨rfl, rfl, hnonempty, hoffset⟩ := hqueued
  have hall : [] ∉ queue ++ added := by simp [hnonempty, hadded]
  cases queue with
  | nil =>
    obtain rfl : offset = 0 := Nat.lt_one_iff.1 hoffset
    exact ⟨by simp, by simp, hall, headD_length_pos hall⟩
  | cons data rest =>
    have hinside : offset ≤ (data :: rest).flatten.length := by
      rw [flatten_cons, length_append]
      exact hoffset.le.trans (Nat.le_add_right _ _)
    refine ⟨?_, ?_, hall, hoffset⟩
    · rw [flatten_append, drop_append_of_le_length hinside, append_assoc]
    · rw [flatten_append, length_append]

theorem Queued.sendFrom (nSendBufferMaxSize : ℕ)
    (hqueued : Queued queue node.nSendOffset node.nSendSize node.socket stream)
    (results : List SendResult) :
    ∃ next, node.sendFrom nSendBufferMaxSize queue results = .ok next ∧ next.Holds stream := by
  induction queue generalizing node results with
  | nil =>
    have hoffset : node.nSendOffset = 0 := Nat.lt_one_iff.1 hqueued.offset
    have hsize : node.nSendSize = 0 := hqueued.size
    refine ⟨{ node with vSendMsg := [] }, ?_, hqueued⟩
    rw [SendNode.sendFrom, decide_eq_true hoffset, decide_eq_true hsize]
    rfl
  | cons data rest ih =>
    have hoffset : node.nSendOffset < data.length := hqueued.offset
    have hrest : [] ∉ rest := fun hmem => hqueued.nonempty (mem_cons_of_mem data hmem)
    have hstream := hqueued.stream
    rw [flatten_cons, drop_append_of_le_length hoffset.le] at hstream
    have hsize := hqueued.size
    rw [flatten_cons, length_append] at hsize
    rw [SendNode.sendFrom, decide_eq_true hoffset, require_true, ok_bind]
    split
    · exact ⟨_, rfl, hqueued⟩
    · split
      · exact ⟨_, rfl, hqueued⟩
      · exact ⟨_, rfl, hqueued⟩
      · next count results =>
        dsimp only
        split
        · exact ⟨_, rfl, hqueued⟩
        · split_ifs with hall
          · -- the buffer is sent and the next one starts at its first byte
            apply ih
            refine ⟨?_, Nat.sub_eq_of_eq_add' hsize, hrest, headD_length_pos hrest⟩
            rw [← hstream, take_of_length_le (by rw [length_drop]; omega), drop_zero, append_assoc]
          · have hless : node.nSendOffset + min count (data.length - node.nSendOffset) <
                data.length := by omega
            refine ⟨_, rfl, ?_, hqueued.size, hqueued.nonempty, hless⟩
            rw [flatten_cons, drop_append_of_le_length hless.le, ← hstream,
              append_assoc, ← append_assoc (List.take _ _), ← drop_drop,
              take_append_drop]

theorem SendNode.Holds.call (nSendBufferMaxSize : ℕ) (hholds : node.Holds stream)
    (call : SendCall) : ∃ next, node.call nSendBufferMaxSize call = .ok next ∧
      next.Holds (stream ++ call.pushed) := by
  cases call with
  | socketSendData results =>
    rw [SendCall.pushed, append_nil]
    exact Queued.sendFrom nSendBufferMaxSize hholds results
  | pushMessage msg results =>
    let added := msg.serializedHeader :: if msg.data.isEmpty then [] else [msg.data]
    have hflat : added.flatten = msg.serializedHeader ++ msg.data := by
      cases hdata : msg.data <;> simp [added, hdata]
    have hadded : [] ∉ added := by
      have hhead : [] ≠ msg.serializedHeader := by
        intro hempty
        have hsize := msg.header_size
        rw [← hempty] at hsize
        cases hsize
      cases hdata : msg.data <;> simp [added, hdata, hhead]
    have hpushed := Queued.append hholds hadded
    rw [hflat, length_append, msg.header_size, add_comm headerSize] at hpushed
    rw [SendNode.call, pushMessage]
    split
    · exact Queued.sendFrom nSendBufferMaxSize hpushed results
    · exact ⟨_, rfl, hpushed⟩

theorem SendNode.Holds.fresh : SendNode.fresh.Holds [] := ⟨rfl, rfl, not_mem_nil, Nat.one_pos⟩

theorem SendNode.Holds.foldlM_call (nSendBufferMaxSize : ℕ) (hholds : node.Holds stream)
    (calls : List SendCall) :
    ∃ next, calls.foldlM (SendNode.call nSendBufferMaxSize) node = .ok next ∧
      next.Holds (stream ++ calls.flatMap SendCall.pushed) := by
  induction calls generalizing node stream with
  | nil => exact ⟨node, rfl, by simpa using hholds⟩
  | cons call calls ih =>
    obtain ⟨mid, hmid, hheld⟩ := hholds.call nSendBufferMaxSize call
    rw [foldlM_cons, hmid, ok_bind, flatMap_cons, ← append_assoc]
    exact ih hheld

/-- Whatever is pushed and however `send` answers, no assertion fails, the socket has been
handed the beginning of the stream of messages, and the queue holds the rest of it. -/
theorem send_queue_exact (nSendBufferMaxSize : ℕ) (calls : List SendCall) :
    ∃ node, calls.foldlM (SendNode.call nSendBufferMaxSize) .fresh = .ok node ∧
      node.socket ++ node.vSendMsg.flatten.drop node.nSendOffset = calls.flatMap SendCall.pushed ∧
      node.nSendSize = (node.vSendMsg.map List.length).sum ∧
      (∀ data, node.vSendMsg.head? = some data → node.nSendOffset < data.length) ∧
      (node.vSendMsg = [] → node.nSendOffset = 0) := by
  obtain ⟨node, hcalls, hstream, hsize, -, hoffset⟩ :=
    SendNode.Holds.fresh.foldlM_call nSendBufferMaxSize calls
  refine ⟨node, hcalls, hstream, hsize.trans length_flatten, fun data hdata => ?_, fun hempty => ?_⟩
  · rwa [headD_eq_head?_getD, hdata] at hoffset
  · rw [hempty] at hoffset
    exact Nat.lt_one_iff.1 hoffset

end

/-! ### Framing -/

def maxProtocolMessageLength : ℕ := 4 * 1000 * 1000

/-- `nMessageSize` of a header. -/
def nMessageSize (header : Bytes) : ℕ := ofLittleEndian ((header.drop 16).take 4)

/-- A message as far as received. `hdrbuf` is cut at `nHdrPos`, and the hasher is what it was
given. -/
structure CNetMessage where
  inData : Bool
  hdrbuf : Bytes
  vRecv : Bytes
  nDataPos : ℕ
  hasher : Bytes

namespace CNetMessage

def new : CNetMessage := ⟨false, [], [], 0, []⟩

section

variable (msg : CNetMessage) (pch : Bytes)

def complete : Bool :=
  msg.inData && decide (nMessageSize msg.hdrbuf = msg.nDataPos)

/-- `readHeader`, without count for -1. Any 24 bytes are a header. -/
def readHeader : Option ℕ × CNetMessage :=
  let nCopy := min (headerSize - msg.hdrbuf.length) pch.length
  let hdrbuf := msg.hdrbuf ++ pch.take nCopy
  if hdrbuf.length < headerSize then (some nCopy, { msg with hdrbuf })
  else if maxSize < nMessageSize hdrbuf then (none, { msg with hdrbuf })
  else (some nCopy, { msg with hdrbuf, inData := true })

/-- `readData`. The buffer grows by up to 256 KiB too much. -/
def readData : Option ℕ × CNetMessage :=
  let nCopy := min (nMessageSize msg.hdrbuf - msg.nDataPos) pch.length
  let nEnd := msg.nDataPos + nCopy
  let vRecv :=
    if msg.vRecv.length < nEnd then
      msg.vRecv.rightpad (min (nMessageSize msg.hdrbuf) (nEnd + 256 * 1024)) 0
    else msg.vRecv
  (some nCopy, { msg with
    vRecv := vRecv.take msg.nDataPos ++ pch.take nCopy ++ vRecv.drop nEnd
    nDataPos := nEnd
    hasher := msg.hasher ++ pch.take nCopy })

/-- `readData` or `readHeader`. -/
def absorb : Option ℕ × CNetMessage :=
  if msg.inData then msg.readData pch else msg.readHeader pch

def oversized : Bool :=
  msg.inData && decide (maxProtocolMessageLength < nMessageSize msg.hdrbuf)

/-- The message the next bytes belong to, and those before, the last first. -/
def current : List CNetMessage → CNetMessage × List CNetMessage
  | [] => (new, [])
  | back :: others => if back.complete then (new, back :: others) else (back, others)

/-- The loop of `ReceiveMsgBytes`, without result if a round takes no byte and it would not end. -/
def receiveMsgBytes (vRecvMsg : List CNetMessage) (pch : Bytes) :
    Option (Bool × List CNetMessage) :=
  if _hempty : pch = [] then some (true, vRecvMsg)
  else
    let (msg, others) := current vRecvMsg
    let (handled, msg) := msg.absorb pch
    match handled with
    | none => some (false, msg :: others)
    | some nCopy =>
      if msg.oversized then some (false, msg :: others)
      else if _htaken : 0 < nCopy then receiveMsgBytes (msg :: others) (pch.drop nCopy)
      else none
termination_by pch.length
decreasing_by
  rw [length_drop]
  exact Nat.sub_lt (length_pos_of_ne_nil _hempty) _htaken

/-- A connection hands on its chunks until a call returns false. -/
def receiveChunks : List CNetMessage → List Bytes → Option (Bool × List CNetMessage)
  | vRecvMsg, [] => some (true, vRecvMsg)
  | vRecvMsg, chunk :: chunks =>
    match receiveMsgBytes vRecvMsg chunk with
    | some (true, vRecvMsg) => receiveChunks vRecvMsg chunks
    | stopped => stopped

def received : Bytes := msg.hdrbuf ++ msg.vRecv.take msg.nDataPos

end

end CNetMessage

/-- What a stream of bytes consists of. -/
structure Framed (H : Type) where
  messages : List (Bytes × Bytes × H)
  remainder : Bytes
  oversized : Bool

section

variable {H : Type}

def Framed.after (earlier : List (Bytes × Bytes × H)) (framed : Framed H) : Framed H :=
  { framed with messages := earlier ++ framed.messages }

variable (hash : Bytes → H)

/-- Headers and payloads in turn, up to one not there as a whole or a header that announces too
much. -/
def frames (stream : Bytes) : Framed H :=
  let header := stream.take headerSize
  let rest := stream.drop headerSize
  if _hshort : stream.length < headerSize then ⟨[], stream, false⟩
  else if maxProtocolMessageLength < nMessageSize header then ⟨[], header, true⟩
  else if rest.length < nMessageSize header then ⟨[], stream, false⟩
  else
    let payload := rest.take (nMessageSize header)
    (frames (rest.drop (nMessageSize header))).after [(header, payload, hash payload)]
termination_by stream.length
decreasing_by
  simp only [headerSize, length_drop] at _hshort ⊢
  omega

open CNetMessage

/-- The complete messages in order of arrival, with their hashes. -/
def completed (vRecvMsg : List CNetMessage) : List (Bytes × Bytes × H) :=
  (vRecvMsg.filter complete).reverse.map fun msg => (msg.hdrbuf, msg.vRecv, hash msg.hasher)

/-- A message has received the start of a frame. -/
inductive Begun : CNetMessage → Bytes → Prop
  | header {bytes : Bytes} (hshort : bytes.length < headerSize) :
      Begun ⟨false, bytes, [], 0, []⟩ bytes
  | data {header payload ahead : Bytes} (hheader : header.length = headerSize)
      (hmax : nMessageSize header ≤ maxProtocolMessageLength)
      (hroom : (payload ++ ahead).length ≤ nMessageSize header) :
      Begun ⟨true, header, payload ++ ahead, payload.length, payload⟩ (header ++ payload)

/-- The messages make up the stream: the complete ones, and the start of the next. -/
def Received (msgs : List CNetMessage) (stream : Bytes) : Prop :=
  ∃ bytes, Begun (current msgs).1 bytes ∧ (current msgs).1.complete = false ∧
    ∀ rest, frames hash (stream ++ rest) = (frames hash (bytes ++ rest)).after (completed hash msgs)

/-- If the result is false the stream has an oversized message. -/
def Reached (result : Bool × List CNetMessage) (stream : Bytes) : Prop :=
  if result.1 then Received hash result.2 stream
  else ∀ rest, frames hash (stream ++ rest) =
    ⟨completed hash result.2, (current result.2).1.received, true⟩

variable {hash} {msg : CNetMessage} {bytes stream pch : Bytes} {msgs others : List CNetMessage}

theorem frames_header {header rest : Bytes} (hhead : header.length = headerSize) :
    frames hash (header ++ rest) =
      if maxProtocolMessageLength < nMessageSize header then ⟨[], header, true⟩
      else if rest.length < nMessageSize header then ⟨[], header ++ rest, false⟩
      else (frames hash (rest.drop (nMessageSize header))).after [(header,
        rest.take (nMessageSize header), hash (rest.take (nMessageSize header)))] := by
  rw [frames, dif_neg (by rw [length_append, hhead]; omega), take_left' hhead, drop_left' hhead]

theorem Begun.received_eq (hbegun : Begun msg bytes) : msg.received = bytes := by
  cases hbegun with
  | header hshort => exact append_nil bytes
  | data hhead hmax hroom => rw [received, take_left]

theorem Begun.frames_eq (hbegun : Begun msg bytes) (hopen : msg.complete = false) :
    frames hash bytes = ⟨[], bytes, false⟩ := by
  cases hbegun with
  | header hshort => rw [frames, dif_pos hshort]
  | data hhead hmax hroom =>
    have hleft := of_decide_eq_false hopen
    rw [length_append] at hroom
    rw [frames_header hhead, if_neg (not_lt.2 hmax), if_pos (by dsimp only at hleft; omega)]

theorem Begun.frames_append (hbegun : Begun msg bytes) (hcomplete : msg.complete = true)
    (rest : Bytes) : frames hash (bytes ++ rest) =
      (frames hash rest).after [(msg.hdrbuf, msg.vRecv, hash msg.hasher)] := by
  cases hbegun with
  | header hshort => cases hcomplete
  | @data header payload ahead hhead hmax hroom =>
    have hsize : nMessageSize header = payload.length := of_decide_eq_true hcomplete
    obtain rfl : ahead = [] := by
      rw [length_append] at hroom
      exact eq_nil_of_length_eq_zero (by omega)
    rw [append_assoc, frames_header hhead, if_neg (not_lt.2 hmax), hsize, if_neg (by simp),
      take_left, drop_left, append_nil]

theorem completed_cons_of_open (hopen : ¬msg.complete = true) :
    completed hash (msg :: others) = completed hash others := by
  rw [completed, completed, filter_cons_of_neg hopen]

theorem completed_current (msgs : List CNetMessage) :
    completed hash (current msgs).2 = completed hash msgs := by
  cases msgs with
  | nil => rfl
  | cons back others =>
    rw [current]
    split_ifs with hopen
    · rfl
    · exact (completed_cons_of_open hopen).symm

/-- The last message takes in more of its frame. -/
theorem received_cons {taken : Bytes} (hbegun : Begun msg (bytes ++ taken))
    (hframes : ∀ rest, frames hash (stream ++ rest) =
      (frames hash (bytes ++ rest)).after (completed hash others)) :
    Received hash (msg :: others) (stream ++ taken) := by
  rw [Received, current]
  split_ifs with hcomplete
  · refine ⟨[], .header (by decide), rfl, fun rest => ?_⟩
    rw [append_assoc, hframes, ← append_assoc, hbegun.frames_append hcomplete, completed,
      completed, filter_cons_of_pos hcomplete, reverse_cons, map_append]
    simp [Framed.after]
  · refine ⟨bytes ++ taken, hbegun, Bool.eq_false_iff.2 hcomplete, fun rest => ?_⟩
    rw [append_assoc, hframes, append_assoc, completed_cons_of_open hcomplete]

/-- A round takes in bytes unless the header announces too much. -/
theorem Begun.absorb (hash : Bytes → H) (hbegun : Begun msg bytes)
    (hopen : msg.complete = false) (hpch : pch ≠ []) :
    (∃ nCopy, (msg.absorb pch).1 = some nCopy ∧ 0 < nCopy ∧
      Begun (msg.absorb pch).2 (bytes ++ pch.take nCopy) ∧ ¬(msg.absorb pch).2.oversized = true) ∨
    ((msg.absorb pch).1 ≠ none → (msg.absorb pch).2.oversized = true) ∧
      ¬(msg.absorb pch).2.complete = true ∧ ∀ rest, frames hash (bytes ++ (pch ++ rest)) =
        ⟨[], (msg.absorb pch).2.received, true⟩ := by
  have hsome := length_pos_of_ne_nil hpch
  cases hbegun with
  | header hshort =>
    have habsorb : CNetMessage.absorb ⟨false, bytes, [], 0, []⟩ pch =
      readHeader ⟨false, bytes, [], 0, []⟩ pch := rfl
    rw [habsorb, readHeader]
    dsimp only
    generalize hcopy : min (headerSize - bytes.length) pch.length = nCopy
    have htaken : 0 < nCopy := hcopy ▸ lt_min (Nat.sub_pos_of_lt hshort) hsome
    split
    · next hstill => exact .inl ⟨nCopy, rfl, htaken, .header hstill, Bool.false_ne_true⟩
    · next hfull =>
      have hhead : (bytes ++ pch.take nCopy).length = headerSize := by
        rw [length_append, length_take] at hfull ⊢
        omega
      have hover (hlarge : maxProtocolMessageLength < nMessageSize (bytes ++ pch.take nCopy))
          (rest : Bytes) : frames hash (bytes ++ (pch ++ rest)) =
            ⟨[], bytes ++ pch.take nCopy ++ [], true⟩ := by
        rw [← take_append_drop nCopy pch, append_assoc _ _ rest, ← append_assoc bytes,
          frames_header hhead, take_append_drop, if_pos hlarge, append_nil]
      split_ifs with hlarge
      · exact .inr ⟨absurd rfl, Bool.false_ne_true, hover (lt_trans (by decide) hlarge)⟩
      · by_cases hlarge : maxProtocolMessageLength < nMessageSize (bytes ++ pch.take nCopy)
        · refine .inr ⟨fun _ => decide_eq_true hlarge, ?_, hover hlarge⟩
          exact fun hcomplete => absurd (of_decide_eq_true hcomplete) (Nat.ne_zero_of_lt hlarge)
        · refine .inl ⟨nCopy, rfl, htaken, ?_, fun h => hlarge (of_decide_eq_true h)⟩
          have hstarted := @Begun.data _ [] [] hhead (not_lt.1 hlarge) (Nat.zero_le _)
          rwa [append_nil, append_nil] at hstarted
  | @data header payload ahead hhead hmax hroom =>
    have hleft : ¬nMessageSize header = payload.length := of_decide_eq_false hopen
    rw [length_append] at hroom
    refine .inl ⟨_, rfl, lt_min (by dsimp only; omega) hsome, ?_,
      fun h => absurd hmax (not_le.2 (of_decide_eq_true h))⟩
    dsimp only [CNetMessage.absorb, readData, if_true]
    generalize hcopy : min (nMessageSize header - payload.length) pch.length = nCopy
    -- the buffer keeps the payload in front, whether it grows or not
    obtain ⟨ahead', hbuffer, hroom'⟩ : ∃ ahead', (if (payload ++ ahead).length <
        payload.length + nCopy then (payload ++ ahead).rightpad (min (nMessageSize header)
          (payload.length + nCopy + 256 * 1024)) 0 else payload ++ ahead) = payload ++ ahead' ∧
          (payload ++ ahead').length ≤ nMessageSize header := by
      split
      · refine ⟨ahead ++ replicate _ 0, append_assoc payload ahead _, ?_⟩
        rw [length_append, length_append, length_replicate, length_append]
        omega
      · exact ⟨ahead, rfl, length_append ▸ hroom⟩
    have hlen : (payload ++ pch.take nCopy).length = payload.length + nCopy := by
      rw [length_append, length_take]
      omega
    rw [hbuffer, take_left, append_assoc header, ← hlen]
    refine .data hhead hmax ?_
    rw [length_append, length_drop]
    omega

/-- `receiveMsgBytes` ends, with false only at a header that announces too much. -/
theorem Received.receiveMsgBytes (pch : Bytes) (hreceived : Received hash msgs stream) :
    ∃ result, receiveMsgBytes msgs pch = some result ∧ Reached hash result (stream ++ pch) := by
  induction hlen : pch.length using Nat.strong_induction_on generalizing msgs stream pch with
  | h length ih =>
    rw [CNetMessage.receiveMsgBytes]
    split_ifs with hempty
    · exact ⟨(true, msgs), rfl, by rwa [hempty, append_nil]⟩
    · obtain ⟨bytes, hbegun, hopen, hframes⟩ := hreceived
      rw [← completed_current] at hframes
      dsimp only
      rcases hbegun.absorb hash hopen hempty with
        ⟨nCopy, hhandled, htaken, hbegun, hsmall⟩ | ⟨hlarge, hopen, hover⟩
      · have hless := length_drop ▸ Nat.sub_lt (length_pos_of_ne_nil hempty) htaken
        have hnext := ih _ (hlen ▸ hless) (pch.drop nCopy) (received_cons hbegun hframes) rfl
        rw [append_assoc stream, take_append_drop] at hnext
        rw [hhandled]
        dsimp only
        rwa [if_neg hsmall, dif_pos htaken]
      · refine ⟨(false, ((current msgs).1.absorb pch).2 :: (current msgs).2), ?_, fun rest => ?_⟩
        · split
          · rfl
          · next nCopy hhandled => rw [if_pos (hlarge (by rw [hhandled]; nofun))]
        · rw [append_assoc, hframes, hover, completed_cons_of_open hopen, current, if_neg hopen]
          exact congrArg (Framed.mk · _ true) (append_nil _)

theorem Received.receiveChunks (chunks : List Bytes) (hreceived : Received hash msgs stream) :
    ∃ result, receiveChunks msgs chunks = some result ∧
      Reached hash result (stream ++ chunks.flatten) := by
  induction chunks generalizing msgs stream with
  | nil => exact ⟨(true, msgs), rfl, (append_nil stream).symm ▸ hreceived⟩
  | cons chunk chunks ih =>
    obtain ⟨⟨returned, next⟩, hnext, hreached⟩ := hreceived.receiveMsgBytes chunk
    rw [flatten_cons, ← append_assoc, CNetMessage.receiveChunks, hnext]
    cases returned with
    | true => exact ih hreached
    | false =>
      refine ⟨(false, next), rfl, fun rest => ?_⟩
      rw [append_assoc]
      exact hreached _

/-- However a stream is cut into chunks, its messages are received and what is left of it, and
false is returned if a header in it announces too much. -/
theorem chunks_received_as_frames (hash : Bytes → H) (chunks : List Bytes) :
    ∃ returned vRecvMsg, CNetMessage.receiveChunks [] chunks = some (returned, vRecvMsg) ∧
      completed hash vRecvMsg = (frames hash chunks.flatten).messages ∧
      (current vRecvMsg).1.received = (frames hash chunks.flatten).remainder ∧
      (returned = false ↔ (frames hash chunks.flatten).oversized = true) := by
  have hstart : Received hash [] [] := ⟨[], .header (by decide), rfl, fun rest => rfl⟩
  obtain ⟨⟨returned, msgs⟩, hmsgs, hreached⟩ := hstart.receiveChunks chunks
  refine ⟨returned, msgs, hmsgs, ?_⟩
  rw [nil_append] at hreached
  cases returned with
  | false =>
    have hall := hreached []
    rw [append_nil] at hall
    rw [hall]
    exact ⟨rfl, rfl, iff_of_true rfl rfl⟩
  | true =>
    obtain ⟨bytes, hbegun, hopen, hframes⟩ := hreached
    have hall := hframes []
    rw [append_nil, append_nil, hbegun.frames_eq hopen] at hall
    rw [hall]
    exact ⟨(append_nil _).symm, hbegun.received_eq, iff_of_false nofun nofun⟩

end

/-! ### From the queue to the peer -/

open CNetMessage

section

variable (pchMessageStart : BaseBlob 4) (hash : Bytes → Uint256)

/-- The header `PushMessage` writes: the start of the network, the command filled up with zeros,
the size of the payload and the start of its hash. -/
def messageHeader (command data : Bytes) : Bytes :=
  pchMessageStart.data ++ ((command.take 12).rightpad 12 0 ++
    (littleEndian 4 data.length ++ (hash data).data.take 4))

def SendCall.messages : SendCall → List (Bytes × Bytes × Uint256)
  | .pushMessage msg _ => [(msg.serializedHeader, msg.data, hash msg.data)]
  | .socketSendData _ => []

/-- The message has its header, with a printable command, and a payload a peer takes. -/
def SendCall.Proper : SendCall → Prop
  | .pushMessage msg _ => msg.data.length ≤ maxProtocolMessageLength ∧
      ∃ command, msg.serializedHeader = messageHeader pchMessageStart hash command msg.data ∧
        ∀ char ∈ command, 0x20 ≤ char ∧ char ≤ 0x7e
  | .socketSendData _ => True

/-- The command ends with zeros only. -/
def CMessageHeader.isValid (header : Bytes) : Bool :=
  let pchCommand := (header.drop 4).take 12
  let command := pchCommand.takeWhile (· ≠ 0)
  decide (header.take 4 = pchMessageStart.data) &&
    (command.all (fun char => 0x20 ≤ char && char ≤ 0x7e) &&
      (pchCommand.drop command.length).all (· = 0)) &&
    decide (nMessageSize header ≤ maxSize)

/-- What `ProcessMessages` checks of a message before it calls `ProcessMessage`. -/
def passesChecks (msg : Bytes × Bytes × Uint256) : Bool :=
  CMessageHeader.isValid pchMessageStart msg.1 && decide (msg.2.2.data.take 4 = msg.1.drop 20)

variable {pchMessageStart hash} {calls : List SendCall} {command data : Bytes}

theorem messageHeader_parts :
    let header := messageHeader pchMessageStart hash command data
    header.take 4 = pchMessageStart.data ∧
      (header.drop 4).take 12 = (command.take 12).rightpad 12 0 ∧
      (header.drop 16).take 4 = littleEndian 4 data.length ∧
      header.drop 20 = (hash data).data.take 4 := by
  have hpad : ((command.take 12).rightpad 12 (0 : UInt8)).length = 12 := by simp
  rw [messageHeader]
  generalize (command.take 12).rightpad 12 0 = padded at hpad ⊢
  simp [drop_append, drop_eq_nil_of_le, pchMessageStart.size_eq, hpad]

theorem nMessageSize_messageHeader (hdata : data.length ≤ maxProtocolMessageLength) :
    nMessageSize (messageHeader pchMessageStart hash command data) = data.length := by
  rw [nMessageSize, messageHeader_parts.2.2.1, ofLittleEndian_littleEndian]
  exact hdata.trans_lt (by decide)

theorem passesChecks_messageHeader (hdata : data.length ≤ maxProtocolMessageLength)
    (hcommand : ∀ char ∈ command, 0x20 ≤ char ∧ char ≤ 0x7e) :
    passesChecks pchMessageStart
      (messageHeader pchMessageStart hash command data, data, hash data) = true := by
  obtain ⟨hstart, hpadded, -, hsum⟩ := @messageHeader_parts pchMessageStart hash command data
  have hword : ∀ char ∈ command.take 12, 0x20 ≤ char ∧ char ≤ 0x7e :=
    fun char hchar => hcommand char (mem_of_mem_take hchar)
  have htake : ((command.take 12).rightpad 12 0).takeWhile (· ≠ 0) = command.take 12 := by
    rw [rightpad, takeWhile_append_of_pos, takeWhile_replicate]
    · simp
    · intro char hchar
      have hlow := (hword char hchar).1
      grind
  have hsize : data.length ≤ maxSize := hdata.trans (by decide)
  simp only [passesChecks, CMessageHeader.isValid, hstart, hpadded, htake, hsum,
    nMessageSize_messageHeader hdata]
  simpa [hsize, rightpad] using hword

/-- Whole messages one after the other are framed as they are. -/
theorem frames_proper (hcalls : ∀ call ∈ calls, call.Proper pchMessageStart hash) :
    frames hash (calls.flatMap SendCall.pushed) =
      ⟨calls.flatMap (SendCall.messages hash), [], false⟩ := by
  induction calls with
  | nil => rw [flatMap_nil, frames]; rfl
  | cons call calls ih =>
    have ih := ih (forall_mem_cons.1 hcalls).2
    rw [flatMap_cons, flatMap_cons]
    cases call with
    | socketSendData results => exact ih
    | pushMessage msg results =>
      obtain ⟨hdata, command, hheader, -⟩ := hcalls _ mem_cons_self
      have hsize : nMessageSize msg.serializedHeader = msg.data.length := by
        rw [hheader, nMessageSize_messageHeader hdata]
      rw [SendCall.pushed, append_assoc, frames_header msg.header_size, hsize,
        if_neg (not_lt.2 hdata), if_neg (by simp), take_left, drop_left, ih]
      rfl

theorem passesChecks_of_mem (hcalls : ∀ call ∈ calls, call.Proper pchMessageStart hash) :
    ∀ msg ∈ calls.flatMap (SendCall.messages hash), passesChecks pchMessageStart msg = true := by
  intro msg hmsg
  obtain ⟨call, hcall, hof⟩ := mem_flatMap.1 hmsg
  cases call with
  | socketSendData results => exact absurd hof not_mem_nil
  | pushMessage sent results =>
    obtain ⟨hdata, command, hheader, hcommand⟩ := hcalls _ hcall
    rw [mem_singleton.1 hof, hheader]
    exact passesChecks_messageHeader hdata hcommand

/-- However `send` answers and the bytes on the wire are cut, a peer receives the first of the
proper messages pushed, in order and whole, and they pass its checks. With an empty queue it has
all of them. -/
theorem pushed_messages_arrive (nSendBufferMaxSize : ℕ)
    (hcalls : ∀ call ∈ calls, call.Proper pchMessageStart hash) :
    ∃ node, calls.foldlM (SendNode.call nSendBufferMaxSize) .fresh = .ok node ∧
      ∀ chunks : List Bytes, chunks.flatten = node.socket → ∃ vRecvMsg,
        CNetMessage.receiveChunks [] chunks = some (true, vRecvMsg) ∧
        completed hash vRecvMsg <+: calls.flatMap (SendCall.messages hash) ∧
        (node.vSendMsg = [] → completed hash vRecvMsg = calls.flatMap (SendCall.messages hash)) ∧
        ∀ msg ∈ completed hash vRecvMsg, passesChecks pchMessageStart msg = true := by
  obtain ⟨node, hnode, hstream, -⟩ := SendNode.Holds.fresh.foldlM_call nSendBufferMaxSize calls
  have hframes := frames_proper hcalls
  rw [← nil_append (calls.flatMap SendCall.pushed), ← hstream] at hframes
  refine ⟨node, hnode, fun chunks hchunks => ?_⟩
  have hstart : Received hash [] [] := ⟨[], .header (by decide), rfl, fun rest => rfl⟩
  obtain ⟨⟨returned, vRecvMsg⟩, hreceive, hreached⟩ := hstart.receiveChunks chunks
  rw [nil_append, hchunks] at hreached
  cases returned with
  | false =>
    rw [hreached] at hframes
    exact Bool.noConfusion (congrArg Framed.oversized hframes)
  | true =>
    obtain ⟨bytes, hbegun, hopen, hrest⟩ := hreached
    rw [hrest] at hframes
    have hmessages := congrArg Framed.messages hframes
    have hsome : completed hash vRecvMsg <+: calls.flatMap (SendCall.messages hash) :=
      ⟨_, hmessages⟩
    refine ⟨vRecvMsg, hreceive, hsome, fun hempty => ?_,
      fun msg hmsg => passesChecks_of_mem hcalls msg (hsome.subset hmsg)⟩
    rw [hempty, flatten_nil, drop_nil, append_nil, hbegun.frames_eq hopen] at hmessages
    exact (append_nil _).symm.trans hmessages

end

namespace NetMessagesWitness

/-- The magic bytes of the network. -/
def pchMessageStart : BaseBlob 4 := ⟨[0xfc, 0xc1, 0xb7, 0xdc], rfl⟩

def hash : Bytes → Uint256 := fun _ => hashOf 7

def ping : CSerializedNetMsg :=
  ⟨messageHeader pchMessageStart hash [0x70, 0x69, 0x6e, 0x67] [1], [1], rfl⟩

/-- The socket takes a part of the header, and the rest later. -/
def calls : List SendCall :=
  [.pushMessage ping [.taken 9], .socketSendData [.taken 15, .taken 1]]

theorem pushed_messages_arrive_ping : ∃ node,
    calls.foldlM (SendNode.call 1000) .fresh = .ok node ∧
      ∃ vRecvMsg, CNetMessage.receiveChunks [] [node.socket] = some (true, vRecvMsg) ∧
        ∀ msg ∈ completed hash vRecvMsg, passesChecks pchMessageStart msg = true := by
  have hproper : ∀ call ∈ calls, call.Proper pchMessageStart hash := by
    simp only [calls, forall_mem_cons, SendCall.Proper]
    exact ⟨⟨by decide, _, rfl, by simp⟩, trivial, nofun⟩
  obtain ⟨node, hnode, harrive⟩ := pushed_messages_arrive 1000 hproper
  obtain ⟨vRecvMsg, hreceive, -, -, hchecks⟩ := harrive [node.socket] (append_nil _)
  exact ⟨node, hnode, vRecvMsg, hreceive, hchecks⟩

end NetMessagesWitness

end Catoshi
