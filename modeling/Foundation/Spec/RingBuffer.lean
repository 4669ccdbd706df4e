import Foundation.Lib.ByteRegion

/-! The ring buffer of length-prefixed messages in a shared buffer (`ring_buffer.rs`, with the
checked accesses of `buffer.rs`). Sums are those of a release build, modulo `2 ^ 32`, and a `usize`
is that of wasm32. -/

namespace Foundation.RingBuffer

def u32 (n : ℕ) : ℕ := n % 2 ^ 32

/-- A step over the bytes of the shared buffer, which keeps what it wrote when it fails. -/
abbrev Buffered (α : Type) := EStateM String Region α

/-! ### `SafeBuffer` -/

def validateRegion (offset length capacity : ℕ) : Except String Unit :=
  if 2 ^ 32 ≤ offset + length then
    .error s!"runtime region offset overflow: {offset} + {length} exceeds addressable space"
  else if capacity < offset + length then
    .error s!"runtime region out of bounds: {offset} + {length} > {capacity}"
  else .ok ()

def readAt (offset length : ℕ) : Buffered (List UInt8) := do
  let m ← get
  match validateRegion offset length m.size with
  | .error e => throw e
  | .ok () => return m.read offset length

def writeAt (offset : ℕ) (bytes : List UInt8) : Buffered Unit := do
  let m ← get
  if 2 ^ 32 ≤ bytes.length then throw "buffer write length exceeds u32"
  else
    match validateRegion offset bytes.length m.size with
    | .error e => throw e
    | .ok () => set (m.write offset bytes)

/-! ### `RuntimeRingBuffer` -/

def headerBytes : ℕ := 8

def frameHeaderBytes : ℕ := 4

structure RuntimeRingBuffer where
  baseOffset : ℕ
  capacity : ℕ
  large : frameHeaderBytes < capacity
  addressable : baseOffset + (capacity + headerBytes) < 2 ^ 32

namespace RuntimeRingBuffer

def new (baseOffset totalBytes : ℕ) : Except String RuntimeRingBuffer :=
  if h : totalBytes ≤ headerBytes + frameHeaderBytes then .error "runtime ring buffer is too small"
  else if h' : 2 ^ 32 ≤ baseOffset + totalBytes then .error "runtime ring buffer offset overflow"
  else .ok ⟨baseOffset, totalBytes - headerBytes, by omega, by omega⟩

variable (r : RuntimeRingBuffer)

def loadHead : Buffered ℕ := return leNat (← readAt r.baseOffset 4)

def storeHead (value : ℕ) : Buffered Unit := writeAt r.baseOffset (leBytes 4 value)

def loadTail : Buffered ℕ := return leNat (← readAt (u32 (r.baseOffset + 4)) 4)

def storeTail (value : ℕ) : Buffered Unit := writeAt (u32 (r.baseOffset + 4)) (leBytes 4 value)

def dataBase : ℕ := u32 (r.baseOffset + headerBytes)

def distance (head tail : ℕ) : ℕ := if head ≤ tail then tail - head else r.capacity - (head - tail)

def freeSpace : Buffered ℕ := do
  let head ← r.loadHead
  let tail ← r.loadTail
  return r.capacity - r.distance head tail - 1

def writeRawAt (offset : ℕ) (payload : List UInt8) : Buffered Unit := do
  let firstLen := min payload.length (r.capacity - offset)
  writeAt (u32 (r.dataBase + offset)) (payload.take firstLen)
  if 0 < payload.length - firstLen then writeAt r.dataBase (payload.drop firstLen)

def readRawAt (offset length : ℕ) : Buffered (List UInt8) := do
  let firstLen := min length (r.capacity - offset)
  let first ← readAt (u32 (r.dataBase + offset)) firstLen
  if 0 < length - firstLen then
    let second ← readAt r.dataBase (length - firstLen)
    return first ++ second
  else return first

def writeMessage (payload : List UInt8) : Buffered Bool := do
  let payloadLen := payload.length
  let frameLen := payloadLen + frameHeaderBytes
  if 2 ^ 32 ≤ payloadLen then throw "runtime ring payload too large"
  else if 2 ^ 32 ≤ frameLen then throw "runtime ring frame length overflow"
  else if r.capacity < frameLen then throw "runtime ring payload exceeds buffer capacity"
  else
    let free ← r.freeSpace
    if free < frameLen then return false
    else
      let tail ← r.loadTail
      r.writeRawAt (u32 (tail + frameHeaderBytes) % r.capacity) payload
      r.writeRawAt tail (leBytes 4 payloadLen)
      r.storeTail (u32 (tail + frameLen) % r.capacity)
      return true

/-- The bytes copied into a target of `targetLen` bytes, if there is a message. -/
def readMessage (targetLen : ℕ) : Buffered (Option (List UInt8)) := do
  let head ← r.loadHead
  let tail ← r.loadTail
  if head = tail then return none
  else
    let payloadLen := leNat (← r.readRawAt head 4)
    if payloadLen = 0 then return none
    else if r.distance head tail - frameHeaderBytes < payloadLen then
      throw "runtime ring frame length exceeds available bytes"
    else if targetLen < payloadLen then
      throw s!"runtime ring target too small: {targetLen} < {payloadLen}"
    else
      let payload ← r.readRawAt (u32 (head + frameHeaderBytes) % r.capacity) payloadLen
      r.writeRawAt head [0, 0, 0, 0]
      r.storeHead (u32 (u32 (head + frameHeaderBytes) + payloadLen) % r.capacity)
      return some payload

/-! ### Sequences of calls -/

/-- The buffer with the payloads that were accepted and those that were read. -/
structure Session where
  memory : Region
  accepted : List (List UInt8) := []
  delivered : List (List UInt8) := []

inductive Call where
  | write (payload : List UInt8)
  | read (targetLen : ℕ)

def call (s : Session) : Call → Session
  | .write payload =>
    match r.writeMessage payload s.memory with
    | .ok true m => { s with memory := m, accepted := s.accepted ++ [payload] }
    | .ok false m | .error _ m => { s with memory := m }
  | .read targetLen =>
    match r.readMessage targetLen s.memory with
    | .ok (some payload) m => { s with memory := m, delivered := s.delivered ++ [payload] }
    | .ok none m | .error _ m => { s with memory := m }

end RuntimeRingBuffer

end Foundation.RingBuffer
