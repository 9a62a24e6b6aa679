import ErlangActors.Monitor.Target

/-!
# A heartbeat watcher in time

`ErlangActors.Monitor.Target` with a clock, in nanoseconds. `timeout(ping_timeout, rrx)` is
armed when the ping has been told and `sleep(ping_interval)` when its outcome is settled, and
neither ends before its time. `due` is since when the watcher's task can run, or from when
on: its timer, or the moment the awaited reply channel resolved.

A runtime polls a task that can run, but not at once. `lag` is how late it may be: the clock
does not get further than that past `due`. The target and everybody else take their time as
they like.
-/

namespace ErlangActors.Monitoring

open Actor (Oneshot)

/-- The arguments of `watch_heartbeat`, and the lateness of the runtime. -/
structure Pace where
  pingTimeout : Nat
  pingInterval : Nat
  missThreshold : UInt32
  lag : Nat
  deriving DecidableEq, Repr

structure Timed where
  watched : Watched
  clock : Nat
  due : Nat

/-- The target and the monitor's task have just been spawned. -/
def Timed.init (capacity : Nat) : Timed := { watched := .init capacity, clock := 0, due := 0 }

def Timed.pc (t : Timed) : HeartbeatPc := t.watched.watcher.pc

/-- The receiver of the channel finds something. -/
def resolved : Option (Oneshot Unit) → Bool
  | some (.sent _) => true
  | some .senderDropped => true
  | some .empty => false
  | none => false

/-- It finds an answer. -/
def holdsAnswer : Option (Oneshot Unit) → Bool
  | some (.sent _) => true
  | _ => false

/-- From when on the watcher's task can run, once it is at `s`. -/
def Timed.rearm (p : Pace) (t : Timed) (s : Watched) : Nat :=
  match s.watcher.pc with
  | .awaiting =>
      if t.pc = .pinging then t.clock + p.pingTimeout
      else if resolved s.replies.getLast? then min t.due t.clock
      else t.due
  | .sleeping => if t.pc = .sleeping then t.due else t.clock + p.pingInterval
  | .pinging => t.due
  | .returned => t.due
  | .overflowed => t.due

/-- The timer behind the event, if there is one, has fired. -/
def Timed.fired (t : Timed) : TargetEvent → Bool
  | .timeOut => t.due ≤ t.clock
  | .wake => t.due ≤ t.clock
  | _ => true

inductive TimedEvent where
  | act (e : TargetEvent)
  /-- Time passes. -/
  | tick (d : Nat)
  deriving DecidableEq, Repr

def Timed.step (p : Pace) (t : Timed) : TimedEvent → Option Timed
  | .act e =>
      if t.fired e then
        (t.watched.step p.missThreshold e).map fun s => { t with watched := s, due := t.rearm p s }
      else none
  | .tick d =>
      if t.pc.live = true → t.clock + d ≤ t.due + p.lag then some { t with clock := t.clock + d }
      else none

end ErlangActors.Monitoring
