import ErlangActors.Actor.System
import ErlangActors.Supervisor.Spec

/-!
# Monitors

`monitor.rs`: the two watcher tasks a `Monitor` can stand for, each cut at its awaits,
and the `Monitor` value itself, which is an `AbortHandle` and nothing more.

A watcher sees its target only through what comes back — the result of `join.await`, of
`addr.tell`, of the wait for a reply — so those results are its events, and a run is an
interleaving with any target at all. `ErlangActors.Monitor.Target` puts a mailbox behind
them.
-/

namespace ErlangActors.Monitoring

open Actor (MailboxFull)
open Supervision (JoinError anyDebug)

/-- Why the monitored actor went down. -/
inductive DownReason where
  | normal
  | panic (payload : String)
  | aborted
  | heartbeatTimeout
  | other (msg : String)
  deriving DecidableEq, Repr

/-! ## `watch_heartbeat` -/

/-- What comes of one ping. -/
inductive PingOutcome where
  | pong
  | replyTimeout
  | mailboxFull (capacity : Nat)
  | replyDropped
  | gone
  deriving DecidableEq, Repr

/-- How an iteration of the loop ends. -/
inductive Verdict where
  /-- On to `sleep(ping_interval)`. -/
  | again (misses : UInt32)
  /-- Send the reason and return. -/
  | down (reason : DownReason)
  /-- `misses += 1` overflows, which panics. -/
  | overflow
  deriving DecidableEq, Repr

/-- `misses += 1; if misses >= miss_threshold { .. }`, the same code in both kinds of miss. -/
def miss (missThreshold misses : UInt32) : Verdict :=
  if misses.toNat + 1 = UInt32.size then .overflow
  else if missThreshold ≤ misses + 1 then .down .heartbeatTimeout
  else .again (misses + 1)

/-- The arms of `match send_outcome`, and of the match on the reply inside it. -/
def judge (missThreshold misses : UInt32) : PingOutcome → Verdict
  | .pong => .again 0
  | .replyDropped => .down (.other "reply channel closed")
  | .replyTimeout => miss missThreshold misses
  | .mailboxFull _ => miss missThreshold misses
  | .gone => .down (.other "actor exited")

/-- Where the heartbeat task is. -/
inductive HeartbeatPc where
  /-- At the top of the loop: it builds a ping and tells it to the target. -/
  | pinging
  /-- At `timeout(ping_timeout, rrx).await`. -/
  | awaiting
  /-- At `sleep(ping_interval).await`. -/
  | sleeping
  | returned
  | overflowed
  deriving DecidableEq, Repr

/-- The task is there. -/
def HeartbeatPc.live : HeartbeatPc → Bool
  | .pinging => true
  | .awaiting => true
  | .sleeping => true
  | .returned => false
  | .overflowed => false

/-- The heartbeat task. `pings` counts the calls of `addr.tell`, `sent` is what has gone out on
`tx`; the code reads neither. -/
structure Heartbeat where
  pc : HeartbeatPc
  misses : UInt32
  pings : Nat
  sent : List DownReason
  deriving DecidableEq, Repr

def Heartbeat.init : Heartbeat := { pc := .pinging, misses := 0, pings := 0, sent := [] }

inductive HeartbeatEvent where
  /-- `addr.tell(msg)` has returned `res`. -/
  | told (res : Except MailboxFull Unit)
  /-- The reply has come. -/
  | replied
  /-- The reply's sender has been dropped. -/
  | replyDropped
  /-- The timer fired first. -/
  | timedOut
  /-- The sleep is over. -/
  | woke
  deriving Repr

/-- The rest of an iteration once the ping has its outcome. -/
def Heartbeat.settle (missThreshold : UInt32) (w : Heartbeat) (outcome : PingOutcome) :
    Heartbeat :=
  match judge missThreshold w.misses outcome with
  | .again misses => { w with misses := misses, pc := .sleeping }
  | .down reason => { w with sent := w.sent ++ [reason], pc := .returned }
  | .overflow => { w with pc := .overflowed }

/-- One step of the loop of `watch_heartbeat`. -/
def Heartbeat.step (missThreshold : UInt32) (w : Heartbeat) :
    HeartbeatEvent → Option Heartbeat
  | .told res =>
      if w.pc = .pinging then
        let w := { w with pings := w.pings + 1 }
        match res with
        | .ok () => some { w with pc := .awaiting }
        | .error (.dropped capacity) => some (w.settle missThreshold (.mailboxFull capacity))
        | .error .gone => some (w.settle missThreshold .gone)
      else none
  | .replied => if w.pc = .awaiting then some (w.settle missThreshold .pong) else none
  | .replyDropped => if w.pc = .awaiting then some (w.settle missThreshold .replyDropped) else none
  | .timedOut => if w.pc = .awaiting then some (w.settle missThreshold .replyTimeout) else none
  | .woke => if w.pc = .sleeping then some { w with pc := .pinging } else none

/-! ## `from_join_handle` -/

/-- The reason the forwarder makes of the result of `join.await`. -/
def downReason : Except JoinError Unit → DownReason
  | .ok () => .normal
  | .error e =>
      if e.isPanic then .panic anyDebug
      else if e.isCancelled then .aborted
      else .other e.display

/-- The forwarder: at `join.await`, or done. -/
structure JoinWatch where
  done : Bool
  sent : List DownReason
  deriving DecidableEq, Repr

def JoinWatch.init : JoinWatch := { done := false, sent := [] }

/-- `join.await` completes with `res`. -/
def JoinWatch.step (w : JoinWatch) (res : Except JoinError Unit) : Option JoinWatch :=
  if w.done then none else some { done := true, sent := w.sent ++ [downReason res] }

/-! ## The `Monitor` value -/

/-- The watcher a `Monitor` was made with, by its constructor. -/
inductive Watcher where
  | fromJoinHandle (w : JoinWatch)
  | watchHeartbeat (missThreshold : UInt32) (w : Heartbeat)

inductive WatcherEvent where
  | joined (res : Except JoinError Unit)
  | heartbeat (e : HeartbeatEvent)

def Watcher.step : Watcher → WatcherEvent → Option Watcher
  | .fromJoinHandle w, .joined res => (w.step res).map .fromJoinHandle
  | .watchHeartbeat n w, .heartbeat e => (w.step n e).map (.watchHeartbeat n)
  | _, _ => none

/-- What the watcher has sent on `tx`. -/
def Watcher.sent : Watcher → List DownReason
  | .fromJoinHandle w => w.sent
  | .watchHeartbeat _ w => w.sent

/-- How many pings it has made. -/
def Watcher.pings : Watcher → Nat
  | .fromJoinHandle _ => 0
  | .watchHeartbeat _ w => w.pings

/-- Its future is suspended, or not polled yet: an abort can drop it. -/
def Watcher.suspended : Watcher → Bool
  | .fromJoinHandle w => !w.done
  | .watchHeartbeat _ w => w.pc = .awaiting ∨ w.pc = .sleeping ∨ w = .init

/-- What has become of the `Monitor`. -/
inductive Owner where
  | held
  | cancelled
  | dropped
  deriving DecidableEq, Repr

/-- A `Monitor` with the watcher task its `AbortHandle` is of. -/
structure Monitor where
  owner : Owner
  watcher : Watcher
  abortRequested : Bool
  /-- The abort has taken effect. -/
  cut : Bool

/-- As the constructors return it. -/
def Monitor.new (watcher : Watcher) : Monitor :=
  { owner := .held, watcher := watcher, abortRequested := false, cut := false }

/-- `Monitor::cancel`: `self.abort.abort()`. -/
def Monitor.cancel (m : Monitor) : Monitor := { m with owner := .cancelled, abortRequested := true }

/-- The `Monitor` is dropped, and its `AbortHandle` with it: that aborts nothing. -/
def Monitor.drop (m : Monitor) : Monitor := { m with owner := .dropped }

inductive Event where
  | watcher (e : WatcherEvent)
  | cancel
  | drop
  /-- The abort takes effect: the watcher's future is dropped. -/
  | cutOff

def step (m : Monitor) : Event → Option Monitor
  | .watcher e =>
      if m.cut then none else (m.watcher.step e).map fun w => { m with watcher := w }
  | .cancel => if m.owner = .held then some m.cancel else none
  | .drop => if m.owner = .held then some m.drop else none
  | .cutOff =>
      if m.abortRequested ∧ m.watcher.suspended ∧ ¬ m.cut then some { m with cut := true } else none

end ErlangActors.Monitoring
