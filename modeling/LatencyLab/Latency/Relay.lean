import Mathlib.Data.List.ModifyLast
import LatencyLab.Spsc.Pipeline
import LatencyLab.Transition.Exec

/-! What the threaded pipelines do for their timestamps: a relay of stamped envelopes.
The producer stamps a message, stamps the push, again after each failed one, and
publishes the envelope. The consumer is handed the published envelopes in order, and
stamps the pop and the end. How the queue between them works is left to the pipelines.
The readings of the clock are kept apart, by the message they were taken for. -/

namespace LatencyLab

open Transition

/-- A reading of `get_timestamp_ns`, by what it is taken for. -/
inductive ClockRead
  | message (now : UInt64)
  | push (now : UInt64)
  | pop (now : UInt64)
  | finish (now : UInt64)

def ClockRead.now : ClockRead → UInt64
  | .message now | .push now | .pop now | .finish now => now

/-- The clock does not go back from one reading to a later one. -/
def NeverDecreases (reads : List ClockRead) : Prop := (reads.map ClockRead.now).Pairwise (· ≤ ·)

instance (reads : List ClockRead) : Decidable (NeverDecreases reads) :=
  inferInstanceAs (Decidable ((reads.map ClockRead.now).Pairwise (· ≤ ·)))

/-- The readings by the number of their message. `stamps` has the producer's reading
and the last one for a push, which is 0 before the first. -/
structure ClockLog where
  stamps : List (UInt64 × UInt64)
  pops : List UInt64
  ends : List UInt64

namespace ClockLog

def record (log : ClockLog) : ClockRead → ClockLog
  | .message now => { log with stamps := log.stamps ++ [(now, 0)] }
  | .push now => { log with stamps := log.stamps.modifyLast fun stamp => (stamp.1, now) }
  | .pop now => { log with pops := log.pops ++ [now] }
  | .finish now => { log with ends := log.ends ++ [now] }

def ofReads (reads : List ClockRead) : ClockLog := reads.foldl record ⟨[], [], []⟩

theorem ofReads_concat (reads : List ClockRead) (read : ClockRead) :
    ofReads (reads ++ [read]) = (ofReads reads).record read := by
  rw [ofReads, List.foldl_append]
  rfl

end ClockLog

/-- The two timestamps an envelope carries. -/
def MarketMessageEnvelope.stamps (envelope : MarketMessageEnvelope) : UInt64 × UInt64 :=
  (envelope.producerTimestampNs, envelope.queuePushTimestampNs)

/-- What the producer carries; `pushing` once the push is stamped. -/
inductive Carried
  | nothing
  | stamped (envelope : MarketMessageEnvelope)
  | pushing (envelope : MarketMessageEnvelope)

namespace Carried

def envelopes : Carried → List MarketMessageEnvelope
  | .nothing => []
  | .stamped envelope | .pushing envelope => [envelope]

def pushed : Carried → List MarketMessageEnvelope
  | .nothing | .stamped _ => []
  | .pushing envelope => [envelope]

end Carried

/-- What the consumer holds; `waited` once the pop is stamped. -/
inductive Held
  | nothing
  | popped (envelope : MarketMessageEnvelope)
  | waited (envelope : MarketMessageEnvelope)
  | applied (envelope : MarketMessageEnvelope)

namespace Held

def envelopes : Held → List MarketMessageEnvelope
  | .nothing => []
  | .popped envelope | .waited envelope | .applied envelope => [envelope]

def timed : Held → List MarketMessageEnvelope
  | .nothing | .popped _ => []
  | .waited envelope | .applied envelope => [envelope]

def consumed : Held → List MarketMessageEnvelope
  | .nothing | .popped _ | .waited _ => []
  | .applied envelope => [envelope]

end Held

structure Relay where
  rest : List MarketMessage
  carried : Carried
  published : List MarketMessageEnvelope
  returned : List MarketMessageEnvelope
  held : Held
  waits : List UInt64
  latencies : List UInt64
  applied : List MarketMessage

inductive RelayEvent
  | stampMessage (now : UInt64)
  | stampPush (now : UInt64)
  | pushFails
  | publish
  | hand
  | stampPop (now : UInt64)
  | applyMessage
  | stampEnd (now : UInt64)

def RelayEvent.clock? : RelayEvent → Option ClockRead
  | .stampMessage now => some (.message now)
  | .stampPush now => some (.push now)
  | .stampPop now => some (.pop now)
  | .stampEnd now => some (.finish now)
  | _ => none

namespace Relay

def make (messages : List MarketMessage) : Relay where
  rest := messages
  carried := .nothing
  published := []
  returned := []
  held := .nothing
  waits := []
  latencies := []
  applied := []

def step (r : Relay) : RelayEvent → Option Relay
  | .stampMessage now =>
    match r.rest, r.carried with
    | message :: rest, .nothing => some { r with rest := rest, carried := .stamped ⟨message, now, 0⟩ }
    | _, _ => none
  | .stampPush now =>
    match r.carried with
    | .stamped envelope => some { r with carried := .pushing { envelope with queuePushTimestampNs := now } }
    | _ => none
  | .pushFails =>
    match r.carried with
    | .pushing envelope => some { r with carried := .stamped envelope }
    | _ => none
  | .publish =>
    match r.carried with
    | .pushing envelope => some { r with carried := .nothing, published := r.published ++ [envelope] }
    | _ => none
  | .hand =>
    match r.held, r.published[r.returned.length]? with
    | .nothing, some envelope => some { r with held := .popped envelope, returned := r.returned ++ [envelope] }
    | _, _ => none
  | .stampPop now =>
    match r.held with
    | .popped envelope =>
      some { r with held := .waited envelope, waits := r.waits ++ [now - envelope.queuePushTimestampNs] }
    | _ => none
  | .applyMessage =>
    match r.held with
    | .waited envelope => some { r with held := .applied envelope, applied := r.applied ++ [envelope.message] }
    | _ => none
  | .stampEnd now =>
    match r.held with
    | .applied envelope =>
      some { r with held := .nothing, latencies := r.latencies ++ [now - envelope.producerTimestampNs] }
    | _ => none

/-- Some run of the relay has this reading, or none. -/
def Follows (r : Relay) (read : Option ClockRead) (r' : Relay) : Prop :=
  ∃ events, exec step r events = some r' ∧ events.filterMap RelayEvent.clock? = read.toList

variable {r r' : Relay} {read : Option ClockRead}

theorem follows_of_eq (hread : read = none) (h : r' = r) : r.Follows read r' :=
  ⟨[], by rw [h]; rfl, by rw [hread]; rfl⟩

theorem follows_of_step (e : RelayEvent) (he : e.clock? = read) (h : r.step e = some r') :
    r.Follows read r' := by
  refine ⟨[e], (exec_singleton e).trans h, ?_⟩
  rw [List.filterMap_cons, he]
  cases read with
  | none => rfl
  | some read => rfl

end Relay

end LatencyLab
