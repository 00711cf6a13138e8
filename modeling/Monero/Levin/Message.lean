import Monero.Lib.Codec

/-!
# Levin messages

The header in front of every packet, and the packets made of a message: the message
as it is, noise, or a sequence of fragments of one size.
-/

namespace Monero.Levin

open Lib Codec

abbrev Bytes := List UInt8

/-! ## Headers -/

/-- `bucket_head2`. -/
@[ext]
structure Head where
  signature : ℕ
  cb : ℕ
  haveToReturnData : ℕ
  command : ℕ
  returnCode : ℕ
  flags : ℕ
  protocolVersion : ℕ

def headSize : ℕ := 33

def levinSignature : ℕ := 0x0101010101012101

def packetRequest : ℕ := 1

def packetResponse : ℕ := 2

def packetBegin : ℕ := 4

def packetEnd : ℕ := 8

def levinProtocolVer1 : ℕ := 1

def encodeHead (h : Head) : Bytes :=
  toLittleEndian 8 h.signature ++ (toLittleEndian 8 h.cb ++ (toLittleEndian 1 h.haveToReturnData ++
    (toLittleEndian 4 h.command ++ (toLittleEndian 4 h.returnCode ++
      (toLittleEndian 4 h.flags ++ toLittleEndian 4 h.protocolVersion)))))

def decodeHead (b : Bytes) : Head where
  signature := ofLittleEndian (b.take 8)
  cb := ofLittleEndian ((b.drop 8).take 8)
  haveToReturnData := ofLittleEndian ((b.drop 16).take 1)
  command := ofLittleEndian ((b.drop 17).take 4)
  returnCode := ofLittleEndian ((b.drop 21).take 4)
  flags := ofLittleEndian ((b.drop 25).take 4)
  protocolVersion := ofLittleEndian ((b.drop 29).take 4)

/-- The fields fit their types. -/
def Head.InRange (h : Head) : Prop :=
  h.signature < 256 ^ 8 ∧ h.cb < 256 ^ 8 ∧ h.haveToReturnData < 256 ^ 1 ∧ h.command < 256 ^ 4 ∧
    h.returnCode < 256 ^ 4 ∧ h.flags < 256 ^ 4 ∧ h.protocolVersion < 256 ^ 4

lemma encodeHead_length (h : Head) : (encodeHead h).length = headSize := by
  simp only [encodeHead, List.length_append, toLittleEndian_length]
  rfl

lemma decodeHead_encodeHead {h : Head} (hrange : h.InRange) (rest : Bytes) :
    decodeHead (encodeHead h ++ rest) = h := by
  obtain ⟨h₁, h₂, h₃, h₄, h₅, h₆, h₇⟩ := hrange
  have hsplit : ∀ (n v k : ℕ) (r : Bytes), n ≤ k →
      (toLittleEndian n v ++ r).drop k = r.drop (k - n) := by
    intro n v k r hk
    rw [List.drop_append, toLittleEndian_length, List.drop_eq_nil_of_le, List.nil_append]
    rwa [toLittleEndian_length]
  have htake : ∀ (n v : ℕ) (r : Bytes), (toLittleEndian n v ++ r).take n = toLittleEndian n v :=
    fun n v r ↦ List.take_left' (toLittleEndian_length n v)
  simp only [decodeHead, encodeHead, List.append_assoc, htake]
  simp (disch := omega) only [hsplit, Nat.reduceSub, List.drop_zero, htake,
    ofLittleEndian_toLittleEndian]

def makeHeader (command msgSize flags : ℕ) (expectResponse : Bool) : Head where
  signature := levinSignature
  cb := msgSize
  haveToReturnData := if expectResponse then 1 else 0
  command := command
  returnCode := 0
  flags := flags
  protocolVersion := levinProtocolVer1

/-! ## Messages -/

/-- The buffer of a `message_writer` into which a payload was written: room for the
header comes first. -/
def messageWriter (payload : Bytes) : Bytes := List.replicate headSize 0 ++ payload

/-- The header is written over the first bytes of the buffer. -/
def finalizeNotify (buffer : Bytes) (command : ℕ) : Bytes :=
  encodeHead (makeHeader command (buffer.length - headSize) packetRequest false) ++
    buffer.drop headSize

/-- `none` stands for the empty slice. -/
def makeNoiseNotify (noiseBytes : ℕ) : Option Bytes :=
  if noiseBytes < headSize then none
  else some (encodeHead (makeHeader 0 (noiseBytes - headSize) (packetBegin ||| packetEnd) false) ++
    List.replicate (noiseBytes - headSize) 0)

/-- The loop over the payload that is left; the number of bytes copied last is returned
with what was written.  The first argument bounds the turns. -/
def fragmentLoop (payloadSpace : ℕ) : ℕ → Bytes → ℕ → Bytes × ℕ
  | 0, _, copySize => ([], copySize)
  | turns + 1, payload, copySize =>
    if payload.isEmpty then ([], copySize)
    else
      let copy := payload.take payloadSpace
      let rest := payload.drop payloadSpace
      let flags := if rest.isEmpty then packetEnd else 0
      let r := fragmentLoop payloadSpace turns rest copy.length
      (encodeHead (makeHeader 0 payloadSpace flags false) ++ (copy ++ r.1), r.2)

def makeFragmentedNotify (noiseSize command : ℕ) (message : Bytes) : Option Bytes :=
  if noiseSize < headSize * 2 then none
  else if message.length ≤ noiseSize then
    some (finalizeNotify (message ++ List.replicate (noiseSize - message.length) 0) command)
  else
    let payload := finalizeNotify message command
    let payloadSpace := noiseSize - headSize
    let copy := payload.take payloadSpace
    let r := fragmentLoop payloadSpace payload.length (payload.drop payloadSpace) copy.length
    some (encodeHead (makeHeader 0 payloadSpace packetBegin false) ++ (copy ++ (r.1 ++
      List.replicate (noiseSize - r.2 - headSize) 0)))

end Monero.Levin
