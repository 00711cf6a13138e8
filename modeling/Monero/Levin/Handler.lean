import Monero.Levin.Message

/-!
# Receiving packets

`async_protocol_handler::handle_recv`: the bytes received are kept in a buffer from
which headers and bodies are carved, and fragments are collected until the last one.
-/

namespace Monero.Levin

open Lib Codec

/-! ## The buffer -/

/-- `net_utils::buffer`: the bytes before `offset` have been consumed. -/
structure Buffer where
  storage : Bytes
  offset : ℕ
  capacity : ℕ

namespace Buffer

variable (b : Buffer)

def size : ℕ := b.storage.length - b.offset

def contents : Bytes := b.storage.drop b.offset

/-- What is left is moved to the front, or copied into a larger vector, or stays where
it is. -/
def append (data : Bytes) : Buffer :=
  if b.capacity - b.storage.length < data.length then
    if b.size + data.length ≤ b.capacity then
      { b with storage := b.storage.drop b.offset ++ data, offset := 0 }
    else
      { storage := b.storage.drop b.offset ++ data, offset := 0,
        capacity := ((b.size + data.length) * 3 / 2 + 4095) / 4096 * 4096 }
  else if b.size ≤ 4096 ∧ 4096 * 16 < b.offset ∧ b.capacity / 2 ≤ b.offset then
    { b with storage := b.storage.drop b.offset ++ data, offset := 0 }
  else { b with storage := b.storage ++ data }

def erase (sz : ℕ) : Buffer :=
  if b.offset + sz = b.storage.length then { b with storage := [], offset := 0 }
  else { b with offset := b.offset + sz }

def carve (sz : ℕ) : Bytes × Buffer := (b.contents.take sz, { b with offset := b.offset + sz })

end Buffer

/-! ## The handler -/

inductive StreamState
  | head
  | body
  deriving DecidableEq

/-- A pending `invoke_response_handler`: whether it is still there, and whether its timer
can be set again. -/
structure ResponseHandler where
  command : ℕ
  alive : Bool
  resetTimer : Bool

inductive Event
  | notify (command : ℕ) (payload : Bytes)
  | invoke (command : ℕ) (payload : Bytes)
  | response (returnCode : ℕ) (payload : Bytes)
  deriving DecidableEq

structure Env where
  handlerSet : Bool
  notify : ℕ → Bytes → ℤ
  /-- Whether the answer to an invocation could be sent. -/
  answer : ℕ → Bytes → Bool
  handshakeCommand : ℕ
  /-- Whether the handshake is complete after an invocation. -/
  handshakeComplete : ℕ → Bytes → Bool
  maxBytes : ℕ → ℕ
  configMaxPacketSize : ℕ

structure Handler where
  closeCalled : Bool
  maxPacketSize : ℕ
  cache : Buffer
  fragments : Bytes
  currentHead : Head
  state : StreamState
  oponentProtocolVer : ℕ
  responseHandlers : List ResponseHandler

def validateResponseCommand (h : Handler) : Bool :=
  if h.oponentProtocolVer ≠ levinProtocolVer1 ∨
      h.currentHead.flags &&& packetResponse = 0 then true
  else
    match h.responseHandlers with
    | [] => false
    | r :: _ => r.alive ∧ h.currentHead.command = r.command

inductive Progress
  | again
  | wait
  | fail
  deriving DecidableEq

def minBytesWanted : ℕ := 512

section

variable (env : Env)

def dispatch (h : Handler) (buff : Bytes) : Handler × List Event × Progress :=
  if h.oponentProtocolVer = levinProtocolVer1 ∧ h.currentHead.flags &&& packetResponse ≠ 0 then
    match h.responseHandlers with
    | [] => (h, [], .fail)
    | r :: rs =>
      ({ h with responseHandlers := rs },
        if r.alive then [.response h.currentHead.returnCode buff] else [], .again)
  else if h.currentHead.haveToReturnData ≠ 0 then
    let h' := if h.currentHead.command = env.handshakeCommand ∧
        env.handshakeComplete h.currentHead.command buff
      then { h with maxPacketSize := env.configMaxPacketSize } else h
    (h', [.invoke h.currentHead.command buff],
      if env.answer h.currentHead.command buff then .again else .fail)
  else
    (h, [.notify h.currentHead.command buff],
      if env.notify h.currentHead.command buff < 0 then .fail else .again)

/-- A fragment is collected; the last one brings a header of its own. -/
def fragmentStep (maxPacketSize : ℕ) (h : Handler) (buff : Bytes) :
    Handler × List Event × Progress :=
  let flags := h.currentHead.flags
  if flags &&& (packetBegin ||| packetEnd) = (packetBegin ||| packetEnd) then (h, [], .again)
  else
    let fragments := (if flags &&& packetBegin ≠ 0 then [] else h.fragments) ++ buff
    if flags &&& packetEnd = 0 then ({ h with fragments := fragments }, [], .again)
    else if fragments.length < headSize then ({ h with fragments := fragments }, [], .fail)
    else
      let h := { h with fragments := [], currentHead := decodeHead (fragments.take headSize) }
      let inner := fragments.drop headSize
      if inner.length < h.currentHead.cb then (h, [], .fail)
      else if ¬ validateResponseCommand h then (h, [], .fail)
      else if min maxPacketSize (env.maxBytes h.currentHead.command) < h.currentHead.cb then
        (h, [], .fail)
      else dispatch env h (inner.take h.currentHead.cb)

def bodyStep (maxPacketSize cb : ℕ) (h : Handler) : Handler × List Event × Progress :=
  if h.cache.size < h.currentHead.cb then
    match h.responseHandlers with
    | [] => (h, [], .wait)
    | r :: _ => (h, [], if minBytesWanted ≤ cb ∧ ¬ (r.alive ∧ r.resetTimer) then .fail else .wait)
  else
    let (buff, cache) := h.cache.carve h.currentHead.cb
    let h := { h with cache := cache, state := .head }
    if h.currentHead.flags &&& (packetRequest ||| packetResponse) = 0 then
      fragmentStep env maxPacketSize h buff
    else dispatch env h buff

def headStep (maxPacketSize : ℕ) (h : Handler) : Handler × List Event × Progress :=
  if h.cache.size < headSize then
    if 8 ≤ h.cache.size ∧ ofLittleEndian (h.cache.contents.take 8) ≠ levinSignature then
      (h, [], .fail)
    else (h, [], .wait)
  else
    let h := { h with currentHead := decodeHead (h.cache.contents.take headSize) }
    if levinSignature ≠ h.currentHead.signature then (h, [], .fail)
    else
      let h := { h with oponentProtocolVer := h.currentHead.protocolVersion }
      if ¬ validateResponseCommand h then (h, [], .fail)
      else
        let h := { h with cache := h.cache.erase headSize, state := .body }
        (h, [], if min maxPacketSize (env.maxBytes h.currentHead.command) < h.currentHead.cb
          then .fail else .again)

def recvStep (maxPacketSize cb : ℕ) (h : Handler) : Handler × List Event × Progress :=
  match h.state with
  | .body => bodyStep env maxPacketSize cb h
  | .head => headStep env maxPacketSize h

/-- The loop; its first argument bounds the turns, and `none` stands for running out of
them. -/
def recvLoop (maxPacketSize cb : ℕ) : ℕ → Handler → Option (Handler × List Event × Bool)
  | 0, _ => none
  | turns + 1, h =>
    match recvStep env maxPacketSize cb h with
    | (h', events, .again) =>
      (recvLoop maxPacketSize cb turns h').map fun r ↦ (r.1, events ++ r.2.1, r.2.2)
    | (h', events, .wait) => some (h', events, true)
    | (h', events, .fail) => some (h', events, false)

/-- Two turns take a header off the buffer, so that these turns are enough. -/
def turnsFor (h : Handler) : ℕ := 2 * h.cache.size + 2

def handleRecv (h : Handler) (data : Bytes) : Option (Handler × List Event × Bool) :=
  if h.closeCalled then some (h, [], false)
  else if ¬ env.handlerSet then some (h, [], false)
  else if h.maxPacketSize < h.cache.size then some (h, [], false)
  else if h.maxPacketSize - h.cache.size < h.fragments.length then some (h, [], false)
  else if h.maxPacketSize - h.cache.size - h.fragments.length < data.length then
    some (h, [], false)
  else
    let h := { h with cache := h.cache.append data }
    recvLoop env h.maxPacketSize data.length (turnsFor h) h

/-- One call for each piece of the stream, until one of them fails. -/
def recvAll : Handler → List Bytes → Option (Handler × List Event × Bool)
  | h, [] => some (h, [], true)
  | h, data :: rest =>
    match handleRecv env h data with
    | none => none
    | some (h', events, false) => some (h', events, false)
    | some (h', events, true) => (recvAll h' rest).map fun r ↦ (r.1, events ++ r.2.1, r.2.2)

end

end Monero.Levin
