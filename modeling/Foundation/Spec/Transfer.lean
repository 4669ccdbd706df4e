import Foundation.Lib.GoStd
import Foundation.Lib.Reached

/-! Accepting the parts of a bulk transfer (`bulk/manager.go`, identity encoding): the calls of
`AcceptPart` as interleaved steps over one object store and one in-memory state store. Events and
the progress cache are left out: neither touches an object or a receipt. -/

namespace Foundation.Bulk

open Go (equalFold)

inductive Code where
  | validation | conflict | quotaExceeded | dependency
deriving DecidableEq, Repr

structure AppError where
  code : Code
  message : String
deriving DecidableEq, Repr

abbrev Bytes : Type := List UInt8

abbrev Key : Type := List Char

inductive Encoding where
  | identity | gzip | brotli | zstd
deriving DecidableEq, Repr

def maxInt64 : ℤ := 2 ^ 63 - 1

def defaultMaxParts : ℤ := 10000

structure Sha256 where
  hex : Bytes → String
  length : ∀ bs, (hex bs).toList.length = 64
  digits : ∀ bs, ∀ c ∈ (hex bs).toList, c.isDigit ∨ 'a' ≤ c ∧ c ≤ 'f'

/-- What `Initiate` fixed for the transfer, with the bounds it has checked. -/
structure TransferPlan where
  totalSize : ℤ
  chunkSize : ℤ
  maxMemory : ℤ
  maxParts : ℤ
  objectPrefix : Key
  total_nonneg : 0 ≤ totalSize
  total_le : totalSize ≤ maxInt64
  parts_le : maxParts ≤ defaultMaxParts

structure PartDescriptor where
  partNumber : ℤ
  offset : ℤ
  size : ℤ
  expectedRawSHA256 : String
deriving DecidableEq, Repr

structure PartReceipt where
  partNumber : ℤ
  offset : ℤ
  rawSize : ℤ
  encodedSize : ℤ
  rawSHA256 : String
  encodedSHA256 : String
  encoding : Encoding
  objectKey : Key
  idempotentReplay : Bool
deriving DecidableEq, Repr

def checkedAddInt64 (a b : ℤ) : Option ℤ :=
  if a < 0 ∨ b < 0 then none
  else if b > 0 ∧ a > maxInt64 - b then none
  else some (a + b)

def isHexDigit (c : Char) : Bool := c.isDigit || ('a' ≤ c && c ≤ 'f') || ('A' ≤ c && c ≤ 'F')

def validSHA256 (value : String) : Bool := value.toList.length == 64 && value.toList.all isHexDigit

def keyDigit (partNumber width : ℕ) : Char := Char.ofNat (48 + partNumber / width % 10)

/-- Six digits below a million, the plain decimal from there on. -/
def partObjectKey (plan : TransferPlan) (partNumber : ℕ) : Key :=
  plan.objectPrefix ++ ['/', 'p', 'a', 'r', 't', 's', '/'] ++
    if partNumber < 1000000 then [100000, 10000, 1000, 100, 10, 1].map (keyDigit partNumber)
    else (Nat.repr partNumber).toList

def validatePart (plan : TransferPlan) (desc : PartDescriptor) (reader : Option Bytes) :
    Option AppError :=
  if reader.isNone then some ⟨.validation, "part reader is required"⟩
  else if desc.partNumber < 0 ∨ desc.partNumber ≥ plan.maxParts then
    some ⟨.validation, "part_number is outside allowed bounds"⟩
  else if desc.offset < 0 ∨ desc.size < 0 then
    some ⟨.validation, "part offset and size must be non-negative"⟩
  else if desc.size > plan.chunkSize ∨ desc.size > plan.maxMemory then
    some ⟨.quotaExceeded, "part exceeds chunk or memory budget"⟩
  else match checkedAddInt64 desc.offset desc.size with
    | none => some ⟨.validation, "part offset and size overflow"⟩
    | some partEnd =>
      if plan.totalSize ≥ 0 ∧ partEnd > plan.totalSize then
        some ⟨.validation, "part exceeds transfer total_size"⟩
      else if !validSHA256 desc.expectedRawSHA256 then
        some ⟨.validation, "expected raw sha256 is required"⟩
      else none

def replayPart («existing» : PartReceipt) (desc : PartDescriptor) : Except AppError PartReceipt :=
  if desc.expectedRawSHA256 ≠ "" ∧ !equalFold desc.expectedRawSHA256 existing.rawSHA256 then
    .error ⟨.conflict, "part replay hash does not match existing receipt"⟩
  else if desc.size ≥ 0 ∧ desc.size ≠ existing.rawSize then
    .error ⟨.conflict, "part replay size does not match existing receipt"⟩
  else .ok { «existing» with idempotentReplay := true }

def verifyPartDigest (desc : PartDescriptor) (rawSize : ℤ) (digest : String) : Option AppError :=
  if rawSize ≠ desc.size then some ⟨.validation, "part size does not match descriptor"⟩
  else if !equalFold digest desc.expectedRawSHA256 then
    some ⟨.validation, "part sha256 does not match descriptor"⟩
  else none

def newReceipt (desc : PartDescriptor) (objectKey : Key) (rawSize encodedSize : ℤ)
    (rawDigest encodedDigest : String) (encoding : Encoding) : PartReceipt :=
  ⟨desc.partNumber, desc.offset, rawSize, encodedSize, rawDigest, encodedDigest, encoding,
    objectKey, false⟩

/-- An error of the store that already carries a code keeps it. -/
def storePartError (err : Option AppError) (message : String) : AppError :=
  err.getD ⟨.dependency, message⟩

/-! ### Steps -/

/-- Where a call stands: before `PutStream`, with what its hashing reader has seen, before the
cleanup delete that precedes the error, before `SaveReceipt`, or returned. -/
inductive Phase where
  | loaded
  | stored (content : Bytes)
  | cleanup (err : AppError)
  | verified (receipt : PartReceipt)
  | returned (result : Except AppError PartReceipt)

structure Call where
  desc : PartDescriptor
  reader : Option Bytes
  phase : Phase

structure Transfer where
  objects : Key → Option Bytes
  receipts : ℤ → Option PartReceipt
  calls : ℕ → Option Call

/-- One step of one call, with what the object store and the state store answer. A `PutStream` that
fails may leave something at the key, and the error of the cleanup delete is ignored. -/
inductive Act where
  | accept (c : ℕ) (desc : PartDescriptor) (reader : Option Bytes)
  | put (c n : ℕ)
  | putFails (c : ℕ) (left : Option Bytes) (err : Option AppError)
  | verify (c : ℕ)
  | delete (c : ℕ) (removed : Bool)
  | save (c : ℕ) (saved : Bool)

namespace Transfer

variable (sha : Sha256) (plan : TransferPlan)

def setPhase (t : Transfer) (c : ℕ) (call : Call) (phase : Phase) : Transfer :=
  { t with calls := Function.update t.calls c (some { call with phase }) }

def key (call : Call) : Key := partObjectKey plan call.desc.partNumber.toNat

def body (call : Call) : Bytes := call.reader.getD []

def begin (t : Transfer) (desc : PartDescriptor) (reader : Option Bytes) : Phase :=
  match t.receipts desc.partNumber with
  | some «existing» => .returned (replayPart «existing» desc)
  | none =>
    match validatePart plan desc reader with
    | some err => .returned (.error err)
    | none => .loaded

/-- What `storeIdentityPart` does with the count and the digest of its reader. -/
def afterVerify (call : Call) (content : Bytes) : Phase :=
  match verifyPartDigest call.desc content.length (sha.hex content) with
  | some err => .cleanup err
  | none =>
    .verified (newReceipt call.desc (key plan call) content.length content.length (sha.hex content)
      (sha.hex content) .identity)

/-- `none` when the act is not the call's next step. -/
def step (t : Transfer) : Act → Option Transfer
  | .accept c desc reader =>
    match t.calls c with
    | some _ => none
    | none =>
      some { t with
        calls := Function.update t.calls c (some ⟨desc, reader, t.begin plan desc reader⟩) }
  | .put c n =>
    match t.calls c with
    | some ⟨desc, reader, .loaded⟩ =>
      let call : Call := ⟨desc, reader, .loaded⟩
      -- The bounded reader hands out no more than the declared size.
      if (n : ℤ) ≤ desc.size ∧ n ≤ (body call).length then
        some { t.setPhase c call (.stored ((body call).take n)) with
          objects := Function.update t.objects (key plan call) (some ((body call).take n)) }
      else none
    | _ => none
  | .putFails c left err =>
    match t.calls c with
    | some ⟨desc, reader, .loaded⟩ =>
      let call : Call := ⟨desc, reader, .loaded⟩
      some { t.setPhase c call (.cleanup (storePartError err "store transfer part")) with
        objects := Function.update t.objects (key plan call) left }
    | _ => none
  | .verify c =>
    match t.calls c with
    | some ⟨desc, reader, .stored content⟩ =>
      let call : Call := ⟨desc, reader, .stored content⟩
      some (t.setPhase c call (afterVerify sha plan call content))
    | _ => none
  | .delete c removed =>
    match t.calls c with
    | some ⟨desc, reader, .cleanup err⟩ =>
      let call : Call := ⟨desc, reader, .cleanup err⟩
      some { t.setPhase c call (.returned (.error err)) with
        objects := if removed then Function.update t.objects (key plan call) none else t.objects }
    | _ => none
  | .save c saved =>
    match t.calls c with
    | some ⟨desc, reader, .verified receipt⟩ =>
      let call : Call := ⟨desc, reader, .verified receipt⟩
      if saved then
        some { t.setPhase c call (.returned (.ok receipt)) with
          receipts := Function.update t.receipts receipt.partNumber (some receipt) }
      else some (t.setPhase c call (.cleanup ⟨.dependency, "save part receipt"⟩))
    | _ => none

def start (objects : Key → Option Bytes) : Transfer := ⟨objects, fun _ => none, fun _ => none⟩

def running (call : Call) : Bool :=
  match call.phase with
  | .returned _ => false
  | _ => true

def Idle (t : Transfer) : Prop := ∀ c call, t.calls c = some call → running call = false

/-- Every saved receipt's object exists, with the receipt's size and digest. -/
def Described (t : Transfer) : Prop := ∀ p receipt, t.receipts p = some receipt →
  ∃ content, t.objects receipt.objectKey = some content ∧ (content.length : ℤ) = receipt.rawSize ∧
    sha.hex content = receipt.rawSHA256

end Transfer

end Foundation.Bulk
