import Foundation.Lib.Reached
import Foundation.Spec.Gateway

/-! Fan-out of applied mutations (`projectiongw/hub.go` and `onApplied` in
`projectiongw/gateway.go`). A call of `onApplied` takes three steps for each group of mutations: it
counts the subscribers of the topic for either variant of the frame, it encodes the variants that
are wanted, and it broadcasts. -/

namespace Foundation.Projectiongw

open Go

def withoutVectors (mutations : List RecordMutation) : List RecordMutation :=
  mutations.map fun m => if m.vector = [] then m else { m with vector := [] }

/-- The encoded envelopes, as the mutations they carry; empty where a variant was not encoded. -/
structure Frame where
  envelope : Option (List RecordMutation) := none
  envelopeWithoutVectors : Option (List RecordMutation) := none

def encodeFrameVariants (mutations : List RecordMutation) (includeVectors excludeVectors : Bool) :
    Frame :=
  let without := if excludeVectors then some (withoutVectors mutations) else none
  { envelope := if includeVectors then some mutations else without
    envelopeWithoutVectors := without }

inductive FanOut where
  | idle
  | counted (key : String) (mutations : List RecordMutation) (withVectors withoutVectors : ℕ)
  | encoded (key : String) (mutations : List RecordMutation) (withVectors withoutVectors : ℕ)
    (frame : Frame)

structure Delivery where
  applied : List RecordMutation
  envelope : Option (List RecordMutation)

/-- Subscribers are numbered in the order they come. -/
structure Hub (ι : Type) where
  subs : String → List ℕ := fun _ => []
  vectors : ℕ → Bool := fun _ => false
  next : ℕ := 0
  delivered : ℕ → List Delivery := fun _ => []
  fanOut : ι → FanOut := fun _ => .idle

/-- `full` tells the subscribers whose buffers have no room. -/
inductive HubAction (ι : Type) where
  | subscribeKeys (keys : List String) (vectors : Bool)
  | cancel (sub : ℕ)
  | count (i : ι) (key : String) (mutations : List RecordMutation)
  | encode (i : ι) (fails : Bool)
  | broadcast (i : ι) (full : ℕ → Bool)

variable {ι : Type} [DecidableEq ι]

def Hub.vectorSubscriberCounts (h : Hub ι) (key : String) : ℕ × ℕ :=
  ((h.subs key).countP fun sub => h.vectors sub, (h.subs key).countP fun sub => !h.vectors sub)

def deliver (vectors : Bool) (frame : Frame) : Option (List RecordMutation) :=
  if !vectors && frame.envelopeWithoutVectors.isSome then frame.envelopeWithoutVectors
  else frame.envelope

def Hub.step (h : Hub ι) : HubAction ι → Option (Hub ι)
  | .subscribeKeys keys vectors =>
    some { h with
      subs := fun key => if key ∈ dedupeKeys keys then h.subs key ++ [h.next] else h.subs key
      vectors := Function.update h.vectors h.next vectors
      next := h.next + 1 }
  | .cancel sub => some { h with subs := fun key => (h.subs key).filter (· ≠ sub) }
  | .count i key mutations =>
    match h.fanOut i with
    | .idle =>
      let (withVectors, withoutVectors) := h.vectorSubscriberCounts key
      if withVectors = 0 ∧ withoutVectors = 0 then some h
      else some { h with
        fanOut := Function.update h.fanOut i (.counted key mutations withVectors withoutVectors) }
    | _ => none
  | .encode i fails =>
    match h.fanOut i with
    | .counted key mutations withVectors withoutVectors =>
      let frame := encodeFrameVariants mutations (0 < withVectors) (0 < withoutVectors)
      let next := if fails then .idle else .encoded key mutations withVectors withoutVectors frame
      some { h with fanOut := Function.update h.fanOut i next }
    | _ => none
  | .broadcast i full =>
    match h.fanOut i with
    | .encoded key mutations _ _ frame =>
      some { h with
        delivered := fun sub =>
          if sub ∈ h.subs key ∧ full sub = false then
            h.delivered sub ++ [⟨mutations, deliver (h.vectors sub) frame⟩]
          else h.delivered sub
        fanOut := Function.update h.fanOut i .idle }
    | _ => none

end Foundation.Projectiongw
