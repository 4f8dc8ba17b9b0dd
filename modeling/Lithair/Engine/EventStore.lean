import Lithair.Lib.Framing
import Mathlib.Data.String.Basic

/-!
# The event store

What `engine/events.rs` keeps of an event: the envelope with its two hash-chain fields, and the log
that `append_envelope` extends. A line of the log is the JSON text of an envelope, and that text
reads back as the envelope, so the log is the list of the envelopes themselves. SHA-256 is a
parameter.
-/

namespace Lithair.Engine

open Lithair.Lib.Framing

/-- The record of one event. -/
structure EventEnvelope where
  eventType : String
  eventId : String
  timestamp : ℕ
  payload : String
  aggregateId : Option String
  eventHash : Option String
  previousHash : Option String
  deriving DecidableEq

/-- The bytes of a text. -/
def asBytes (s : String) : List UInt8 := s.toUTF8.data.toList

theorem asBytes_append (s t : String) : asBytes (s ++ t) = asBytes s ++ asBytes t := by
  simp [asBytes]

namespace EventEnvelope

/-- The bytes an envelope's hash is computed from: its fields, separated by `|`. -/
def hashInput (envelope : EventEnvelope) : List UInt8 :=
  let separator := asBytes "|"
  asBytes envelope.eventType ++ separator ++ asBytes envelope.eventId ++ separator ++
    leBytes 8 envelope.timestamp ++ separator ++ asBytes envelope.payload ++ separator ++
    (envelope.aggregateId.map asBytes).getD [] ++ separator ++
    (envelope.previousHash.map asBytes).getD []

/-- The hash of an envelope, in hexadecimal. -/
def computeHash (sha256 : List UInt8 → String) (envelope : EventEnvelope) : String :=
  sha256 envelope.hashInput

end EventEnvelope

/-- How an append to the log ends: written; failed with nothing written; or failed after the line
was written, in the flush that follows. -/
inductive AppendOutcome
  | written
  | lost
  | writtenThenFailed
  deriving DecidableEq

/-- The log with the state of its hash chain. -/
structure EventStore where
  events : List EventEnvelope
  lastEventHash : Option String
  enableHashChain : Bool
  deriving DecidableEq

namespace EventStore

/-- The envelope that goes to the log: with the chain enabled, an envelope without a hash is linked
to the event before it. -/
def chained (sha256 : List UInt8 → String) (store : EventStore) (envelope : EventEnvelope) :
    EventEnvelope :=
  if store.enableHashChain ∧ envelope.eventHash.isNone then
    let linked := { envelope with previousHash := store.lastEventHash }
    { linked with eventHash := some (linked.computeHash sha256) }
  else envelope

/-- Append an envelope; the second component says whether the call succeeded. -/
def appendEnvelope (sha256 : List UInt8 → String) (store : EventStore) (envelope : EventEnvelope)
    (outcome : AppendOutcome) : EventStore × Bool :=
  match outcome with
  | .lost => (store, false)
  | .written | .writtenThenFailed =>
    let persisted := store.chained sha256 envelope
    ({ store with
        events := store.events ++ [persisted]
        lastEventHash := if store.enableHashChain then persisted.eventHash
          else store.lastEventHash },
      outcome = .written)

/-- Chaining leaves the payload alone. -/
@[simp] theorem payload_chained (sha256 : List UInt8 → String) (store : EventStore)
    (envelope : EventEnvelope) : (store.chained sha256 envelope).payload = envelope.payload := by
  unfold chained
  split_ifs <;> rfl

end EventStore

end Lithair.Engine
