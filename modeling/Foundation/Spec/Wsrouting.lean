import Foundation.Lib.InvertedIndex
import Foundation.Lib.Reached
import Foundation.Lib.SwapTable

/-! The connection table of `wsrouting.go` with its indexes, and the three ways to enumerate a
delivery target. The router has no Redis client, and a context does not end during a call. -/

namespace Foundation.Wsrouting

open InvertedIndex SwapTable

def defaultTargetBatchSize : ℤ := 1024

def maxTargetBatchSize : ℤ := 16384

def defaultRegistrationBatchSize : ℤ := 256

def maxRegistrationBatchSize : ℤ := 4096

structure AuthState where
  userID : String
  organizationID : String := ""
  role : String := ""
  sessionID : String := ""
deriving DecidableEq

structure ConnectionInfo where
  connectionID : String
  deviceID : String := ""
  auth : AuthState := ⟨"", "", "", ""⟩
deriving DecidableEq

def ConnectionInfo.userID (info : ConnectionInfo) : String := info.auth.userID

structure Router where
  registerBatchSize : ℤ := defaultRegistrationBatchSize
  connections : GoMap String ConnectionInfo := ∅
  order : List String := []
  orderIndex : GoMap String ℕ := ∅
  byDevice : GoMap String String := ∅
  byUser : GoMap String (Finset String) := ∅

/-! ### Order and indexes -/

namespace Router

variable (r : Router)

def addConnectionOrderLocked (connectionID : String) : Router :=
  if connectionID = "" then r
  else if (r.orderIndex.lookup connectionID).isSome then r
  else { r with
    orderIndex := r.orderIndex.insert connectionID r.order.length
    order := r.order ++ [connectionID] }

def removeConnectionOrderLocked (connectionID : String) : Router :=
  match r.orderIndex.lookup connectionID with
  | none => r
  | some index =>
    let lastConnectionID := (r.order[r.order.length - 1]?).getD ""
    { r with
      order := removeOrder r.order index lastConnectionID
      orderIndex := (r.orderIndex.insert lastConnectionID index).erase connectionID }

def userLabels (info : ConnectionInfo) : List String :=
  if info.userID = "" then [] else [info.userID]

def addIndexesLocked (info : ConnectionInfo) : Router :=
  { r with
    byDevice :=
      if info.deviceID = "" then r.byDevice else r.byDevice.insert info.deviceID info.connectionID
    byUser := (userLabels info).foldl (addKey info.connectionID) r.byUser }

def removeIndexesLocked (info : ConnectionInfo) : Router :=
  { r with
    byDevice :=
      if info.deviceID ≠ "" ∧ (r.byDevice.lookup info.deviceID).getD "" = info.connectionID then
        r.byDevice.erase info.deviceID
      else r.byDevice
    byUser := (userLabels info).foldl (removeKey info.connectionID) r.byUser }

/-! ### Registration -/

def normalizeConnectionInfo (info : ConnectionInfo) : Except String ConnectionInfo :=
  if info.connectionID = "" then .error "connection_id is required"
  else if info.deviceID = "" then .ok { info with deviceID := info.connectionID }
  else .ok info

def addLocalConnection (info : ConnectionInfo) : Router :=
  let unindexed :=
    match r.connections.lookup info.connectionID with
    | some existing => r.removeIndexesLocked existing
    | none => r.addConnectionOrderLocked info.connectionID
  { unindexed with
    connections := unindexed.connections.insert info.connectionID info }.addIndexesLocked info

def addLocalConnections (infos : List ConnectionInfo) : Router := infos.foldl addLocalConnection r

end Router

def clampRegistrationBatchSize (size : ℤ) : ℤ :=
  if size ≤ 0 then defaultRegistrationBatchSize
  else if maxRegistrationBatchSize < size then maxRegistrationBatchSize
  else size

/-- The slices `l[start:end]` of a loop that advances by `size`. -/
def batches {α : Type} (size : ℕ) (l : List α) : List (List α) :=
  if l = [] ∨ size = 0 then []
  else l.take size :: batches size (l.drop size)
termination_by l.length
decreasing_by
  rename_i h
  have := List.length_pos_iff.mpr (not_or.mp h).1
  rw [List.length_drop]
  omega

namespace Router

variable (r : Router)

def registerMany (infos : List ConnectionInfo) : Except String Router := do
  let normalized ← infos.mapM normalizeConnectionInfo
  return (batches (clampRegistrationBatchSize r.registerBatchSize).toNat normalized).foldl
    addLocalConnections r

def register (info : ConnectionInfo) : Except String Router := r.registerMany [info]

def unregister (connectionID : String) : Except String Router :=
  if connectionID = "" then .error "connection_id is required"
  else
    match r.connections.lookup connectionID with
    | none => .ok { r with connections := r.connections.erase connectionID }
    | some info =>
      let removed := (r.removeIndexesLocked info).removeConnectionOrderLocked connectionID
      .ok { removed with connections := removed.connections.erase connectionID }

def updateAuthState (connectionID : String) (state : AuthState) : Except String Router :=
  if connectionID = "" then .error "connection_id is required"
  else
    match r.connections.lookup connectionID with
    | none => .ok r
    | some info =>
      let updated := { info with auth := state }
      -- Both indexes are rebuilt, though only the user has changed.
      if info.userID ≠ state.userID then
        let unindexed := r.removeIndexesLocked info
        .ok ({ unindexed with
          connections :=
            unindexed.connections.insert connectionID updated }.addIndexesLocked updated)
      else .ok { r with connections := r.connections.insert connectionID updated }

inductive Call where
  | registerMany (infos : List ConnectionInfo)
  | unregister (connectionID : String)
  | updateAuthState (connectionID : String) (state : AuthState)

/-- A call that fails leaves the table as it is. -/
def call : Call → Router
  | .registerMany infos => (r.registerMany infos).toOption.getD r
  | .unregister connectionID => (r.unregister connectionID).toOption.getD r
  | .updateAuthState connectionID state => (r.updateAuthState connectionID state).toOption.getD r

/-! ### Targets -/

structure TargetedDelivery where
  targetType : String
  targetID : String

inductive TargetKind where
  | connection
  | device
  | user
  | broadcast

def live (connectionID : String) : Bool := (r.connections.lookup connectionID).isSome

def deviceConnection (deviceID : String) : String := (r.byDevice.lookup deviceID).getD ""

def resolveDeviceConnection (deviceID : String) : Option String :=
  if r.live (r.deviceConnection deviceID) then some (r.deviceConnection deviceID) else none

section

variable (toLower : String → String) (o : RangeOrder String) (target : TargetedDelivery)

def targetKind : Option TargetKind :=
  match toLower target.targetType with
  | "connection" => some .connection
  | "device" => some .device
  | "user" => some .user
  | "broadcast" => some .broadcast
  | _ => none

def unknownTarget : String := "unknown target type: " ++ target.targetType

def resolveTargetsInto (dst : List String) : Except String (List String) :=
  match targetKind toLower target with
  | some .connection => .ok (if r.live target.targetID then dst ++ [target.targetID] else dst)
  | some .device =>
    .ok (if r.live (r.deviceConnection target.targetID) then
      dst ++ [r.deviceConnection target.targetID] else dst)
  | some .user => .ok (dst ++ (o.visit (keysAt r.byUser target.targetID)).filter r.live)
  | some .broadcast => .ok (dst ++ r.order)
  | none => .error (unknownTarget target)

def resolveTargets : Except String (List String) := r.resolveTargetsInto toLower o target []

/-- What a callback is given until it answers false. -/
def visitWhile {α : Type} (fn : α → Bool) : List α → List α
  | [] => []
  | x :: rest => x :: if fn x then visitWhile fn rest else []

/-- The identifiers the callback is called with; their number is the count that is returned. -/
def forEachTarget (fn : String → Bool) : Except String (List String) :=
  match targetKind toLower target with
  | some .connection =>
    .ok (visitWhile fn (if r.live target.targetID then [target.targetID] else []))
  | some .device =>
    .ok (visitWhile fn
      (if r.deviceConnection target.targetID ≠ "" then [r.deviceConnection target.targetID]
        else []))
  | some .user => .ok (visitWhile fn (o.visit (keysAt r.byUser target.targetID)))
  | some .broadcast => .ok (visitWhile fn r.order)
  | none => .error (unknownTarget target)

def estimateTargetCountLocked : ℤ :=
  match targetKind toLower target with
  | some .connection => if r.live target.targetID then 1 else 0
  | some .device =>
    if r.deviceConnection target.targetID ≠ "" ∧ r.live (r.deviceConnection target.targetID) then
      1 else 0
  | some .user => (keysAt r.byUser target.targetID).card
  | some .broadcast => r.order.length
  | none => 0

def normalizeTargetBatchSize (batchSize estimated : ℤ) : ℤ :=
  if 0 < batchSize then if maxTargetBatchSize < batchSize then maxTargetBatchSize else batchSize
  else if estimated ≤ 0 then defaultTargetBatchSize
  else if estimated < defaultTargetBatchSize then estimated
  else if 1000000 ≤ estimated then 4096
  else defaultTargetBatchSize

/-- One turn of the loop over a user's connections: the batches before, and the chunk being filled.
-/
def fillChunk (batchSize : ℕ) (filled : List (List String) × List String) (connectionID : String) :
    List (List String) × List String :=
  if (filled.2 ++ [connectionID]).length = batchSize then
    (filled.1 ++ [filled.2 ++ [connectionID]], [])
  else (filled.1, filled.2 ++ [connectionID])

def chunks (batchSize : ℕ) (ids : List String) : List (List String) :=
  let filled := ids.foldl (fillChunk batchSize) ([], [])
  filled.1 ++ [filled.2]

/-- The batches the callback is called with; an empty one is not emitted. -/
def forEachTargetBatch (batchSize : ℤ) (fn : List String → Bool) :
    Except String (List (List String)) :=
  let size :=
    (normalizeTargetBatchSize batchSize (r.estimateTargetCountLocked toLower target)).toNat
  let emit := fun all => visitWhile fn (all.filter (· ≠ []))
  match targetKind toLower target with
  | some .connection => .ok (emit (if r.live target.targetID then [[target.targetID]] else []))
  | some .device =>
    .ok (emit (if r.deviceConnection target.targetID ≠ "" then
      [[r.deviceConnection target.targetID]] else []))
  | some .user => .ok (emit (chunks size (o.visit (keysAt r.byUser target.targetID))))
  | some .broadcast => .ok (emit (batches size r.order))
  | none => .error (unknownTarget target)

end

end Router

end Foundation.Wsrouting
