import CppLin.Lib.Bytes

namespace CppLin.Relay
open Bytes

inductive Protocol where
  | can
  | dds
  | lin
  | mqtt
  | rcp
  | someip
  deriving DecidableEq, Repr

def Protocol.toNat : Protocol → Nat
  | .can => 1
  | .dds => 2
  | .lin => 3
  | .mqtt => 4
  | .rcp => 5
  | .someip => 6

structure Version where
  major : Int := 0
  minor : Int := 0
  patch : Int := 0
  deriving DecidableEq, Repr

/-- `metaData` is the map `meta`; `timestamp` counts the ticks of the system clock. -/
structure Message where
  protocol : Protocol := .lin
  version : Version := {}
  id : CString := []
  payload : Payload := []
  timestamp : Int := 0
  seq : UInt64 := 0
  metaData : AList (fun _ : CString => CString) := ∅

inductive Errc where
  | closed
  | notConnected
  | timeout
  | payloadTooLarge
  deriving DecidableEq, Repr

inductive BackPressurePolicy where
  | dropNewest
  | dropOldest
  | block
  deriving DecidableEq, Repr

structure SubscriberConfig where
  chanDepth : Int := 0
  backPressure : BackPressurePolicy := .dropNewest
  eventId : UInt32 := 0
  topicName : CString := []

inductive HealthStatus where
  | ok
  | degraded
  | down
  deriving DecidableEq, Repr

structure Health where
  status : HealthStatus := .ok
  details : CString := []
  deriving DecidableEq, Repr

structure Metrics where
  writeCount : UInt64 := 0
  deliverCount : UInt64 := 0
  dropCount : UInt64 := 0
  bytesWritten : UInt64 := 0
  bytesDelivered : UInt64 := 0
  errorCount : UInt64 := 0
  deriving DecidableEq, Repr

def SubscriberConfig.effectiveDepth (c : SubscriberConfig) (defaultDepth : Int) : Int :=
  if c.chanDepth > 0 then c.chanDepth else defaultDepth

abbrev SubscriberOption := SubscriberConfig → SubscriberConfig

def withChannelDepth (n : Int) : SubscriberOption := fun c => { c with chanDepth := n }
def withBackPressure (p : BackPressurePolicy) : SubscriberOption :=
  fun c => { c with backPressure := p }
def withEventId (id : UInt32) : SubscriberOption := fun c => { c with eventId := id }
def withTopic (name : CString) : SubscriberOption := fun c => { c with topicName := name }

def applyOptions (opts : List SubscriberOption) : SubscriberConfig :=
  opts.foldl (fun c o => o c) {}

theorem effectiveDepth_pos (c : SubscriberConfig) {d : Int} (h : 0 < d) :
    0 < c.effectiveDepth d := by
  unfold SubscriberConfig.effectiveDepth
  split_ifs with hc
  · exact hc
  · exact h

end CppLin.Relay
