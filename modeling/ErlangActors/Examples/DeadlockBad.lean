import ErlangActors.Actor.System
import Mathlib.Logic.Function.Basic

/-!
# Asking each other out of the handlers: `deadlock_bad.rs`

Two actors whose handlers ask the other one and pass the answer on. Each finds the other's
address in a slot that `main` sets after it has spawned both. What the code does is written
as the events of `ErlangActors.Actor` it amounts to, so every step here is a few steps
there, and the mailboxes, the reply channels and the timers are those of the library.

Clients may ask either actor, at any time, as often as they like. The slots are shared
cells outside both actors, and hold an `Addr` for good.
-/

namespace ErlangActors.DeadlockBad

open Actor Transition

/-- What is asked for: `AMsg::CallB` of A, `BMsg::CallA` of B. -/
inductive Request where
  | callB
  | callA
  deriving DecidableEq, Repr

/-- The two actors, `A2` and `B2`. -/
inductive Who where
  | a
  | b
  deriving DecidableEq, Repr

def Who.id : Who → ActorId
  | .a => 0
  | .b => 1

/-- The actor whose address a handler looks up. -/
def Who.peer : Who → Who
  | .a => .b
  | .b => .a

/-- The request an actor takes. -/
def Who.request : Who → Request
  | .a => .callB
  | .b => .callA

/-- Where `handle` is. -/
inductive Frame where
  /-- It is not running. -/
  | idle
  /-- It has been called, and has the caller's `reply`. -/
  | entered (reply : AskId)
  /-- It awaits its own ask. -/
  | asking (reply call : AskId)
  deriving DecidableEq, Repr

structure Demo where
  sys : System Request String
  /-- `a_slot` and `b_slot` have been set. -/
  slotSet : Who → Bool
  frame : Who → Frame

/-- The bound of both mailboxes. -/
def mailboxBound : Nat := 8

/-- `Duration::from_secs(2)`, of the asks in the handlers. -/
def innerDur : Nat := 2 * 1000000000

/-- The two calls of `spawn_supervised`. -/
def spawns : List (Actor.Event Request String) :=
  [.spawn .outside mailboxBound, .spawn .outside mailboxBound]

/-- Both actors have been spawned. -/
def Demo.init : Demo where
  sys := after Actor.step .init spawns
  slotSet := fun _ => false
  frame := fun _ => .idle

/-- The library takes the steps, and `handle` of `w` gets to `frame`. -/
def Demo.goto (d : Demo) (w : Who) (frame : Frame) (es : List (Actor.Event Request String)) :
    Option Demo :=
  (exec Actor.step d.sys es).map fun s =>
    { d with sys := s, frame := Function.update d.frame w frame }

/-- The events of others. -/
def Demo.lib (d : Demo) (es : List (Actor.Event Request String)) : Option Demo :=
  (exec Actor.step d.sys es).map fun s => { d with sys := s }

/-! ## The handlers -/

/-- `handle` up to its first wait: it looks up the other one's address, and asks. -/
def Demo.askOther (d : Demo) (w : Who) (request : Request) (notReady : String) (reply : AskId) :
    Option Demo :=
  if d.slotSet w.peer then
    d.goto w (.asking reply d.sys.asks.length)
      [.pass .outside (.actor w.id) ⟨[w.peer.id], []⟩,
       .ask (.actor w.id) w.peer.id ⟨request, .empty⟩ innerDur]
  else d.goto w .idle [.reply (.actor w.id) reply notReady, .returns w.id]

/-- `A2::handle`, up to its first wait. -/
def Demo.handleA (d : Demo) (reply : AskId) : Option Demo :=
  d.askOther .a .callA "B not ready" reply

/-- `B2::handle`, up to its first wait. -/
def Demo.handleB (d : Demo) (reply : AskId) : Option Demo :=
  d.askOther .b .callB "A not ready" reply

def Demo.handle (d : Demo) : Who → AskId → Option Demo
  | .a => d.handleA
  | .b => d.handleB

/-- What it does with the result of its ask: an `Ok` goes to the caller, and the caller's `reply` is
dropped otherwise. -/
def passOn (w : Who) (reply : AskId) : Except AskError String → Actor.Event Request String
  | .ok s => .reply (.actor w.id) reply s
  | .error _ => .dropReply (.actor w.id) reply

/-- `handle` after a poll of its ask: to its end, if the ask is over. -/
def Demo.resume (d : Demo) (w : Who) (reply call : AskId) : Option Demo :=
  match (d.sys.asks[call]?).map Ask.stage with
  | some (.done res) =>
      d.goto w .idle
        [passOn w reply res, .dropAddr (.actor w.id) w.peer.id, .returns w.id]
  | _ => some d

/-! ## Steps -/

/-- The polls of an ask that get it further. -/
inductive Poll where
  | sends
  | resolves
  | timesOut
  deriving DecidableEq, Repr

def Poll.event (k : AskId) : Poll → Actor.Event Request String
  | .sends => .askSends k
  | .resolves => .askResolves k
  | .timesOut => .askTimesOut k

inductive Event where
  /-- `started` returns. -/
  | started (w : Who)
  /-- `main` sets the slot that holds the address of `w`. -/
  | set (w : Who)
  /-- A client asks `w`. -/
  | call (w : Who) (dur : Nat)
  /-- Its ask is polled, -/
  | client (k : AskId) (how : Poll)
  /-- or dropped. -/
  | clientDrops (k : AskId)
  /-- `w` receives its next message. -/
  | recv (w : Who)
  /-- Its handler starts. -/
  | handle (w : Who)
  /-- Its handler's ask is polled. -/
  | poll (w : Who) (how : Poll)
  | tick (d : Nat)
  deriving DecidableEq, Repr

/-- The `k`-th call is one of a client. -/
def Demo.clients (d : Demo) (k : AskId) : Bool :=
  (d.sys.asks[k]?).any fun q => q.caller == .outside

/-- The reply sender in the message `w` receives next. -/
def Demo.nextReply (d : Demo) (w : Who) : Option AskId :=
  (d.sys.actors[w.id]?).bind fun t =>
    (t.mailbox.queue.head?).bind fun m => m.carries.replies.head?

/-- One step; `none` where the event is impossible. -/
def step (d : Demo) : Event → Option Demo
  | .started w => if d.frame w = .idle then d.lib [.returns w.id] else none
  | .set w =>
      if d.slotSet w then none
      else
        (d.lib [.cloneAddr .outside w.id]).map fun d =>
          { d with slotSet := Function.update d.slotSet w true }
  | .call w dur => d.lib [.ask .outside w.id ⟨w.request, .empty⟩ dur]
  | .client k how => if d.clients k then d.lib [how.event k] else none
  | .clientDrops k => if d.clients k then d.lib [.dropAsk k] else none
  | .recv w =>
      if d.frame w = .idle then
        (d.nextReply w).bind fun reply => d.goto w (.entered reply) [.recv w.id]
      else none
  | .handle w =>
      match d.frame w with
      | .entered reply => d.handle w reply
      | _ => none
  | .poll w how =>
      match d.frame w with
      | .asking reply call => (d.lib [how.event call]).bind fun d => d.resume w reply call
      | _ => none
  | .tick t => d.lib [.tick t]

end ErlangActors.DeadlockBad
