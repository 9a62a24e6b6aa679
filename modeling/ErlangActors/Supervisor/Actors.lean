import ErlangActors.Actor.System
import ErlangActors.Supervisor.World
import Mathlib.Logic.Function.Basic

/-!
# Supervised actors

A supervisor whose children are actors, as `worker_pool.rs` sets one up: the factory of a
child calls `spawn_supervised`, enters the new `Addr` in a registry under the worker's id,
and hands the `JoinHandle` to the supervisor. Callers look a worker up in the registry.

The supervisor is that of `ErlangActors.Supervisor.World`, and the actors are those of
`ErlangActors.Actor.System`. They meet in two places: a factory call spawns an actor, and
the end of that actor's task is the end of the child. Nobody but the supervisor can abort
the task, for the only other `JoinHandle` is with the forwarder, which awaits it.

The registry is a map behind a mutex. Its `Addr`s are among those held outside all actors,
and whoever panics with the lock in hand poisons it: the next factory call panics too. So
does one with a mailbox bound of 0, or above `maxPermits`, the `Semaphore::MAX_PERMITS` of the
platform.
-/

namespace ErlangActors.Supervised

open Supervision Actor Transition

/-- What a child's factory has captured. -/
structure Factory where
  workerId : Nat
  mailboxBound : Nat
  deriving DecidableEq, Repr

/-- The supervisor, the actors, and what ties them. `actorOf` has the actor each child runs, by
the number the supervisor's record gives the child. -/
structure Pool (μ ρ : Type) where
  world : World Factory
  system : System μ ρ
  actorOf : List ActorId
  registry : Nat → Option ActorId
  poisoned : Bool

variable {μ ρ : Type}

/-- `Supervisor::start`, before any factory was called. -/
def Pool.init (sup : Supervisor Factory) : Pool μ ρ where
  world := .init sup
  system := .init
  actorOf := []
  registry := fun _ => none
  poisoned := false

/-! ## A factory call -/

/-- The factory that is called next, if that is what the supervisor does next. -/
def callee (sup : Supervisor Factory) (w : World Factory) : Option Factory :=
  match w.pc with
  | .starting i => (sup.children[i]?).map ChildSpec.factory
  | .respawning i _ => (w.slots[i]?).map fun slot => slot.spec.factory
  | _ => none

/-- `mpsc::channel` panics on a bound of 0, and on one its semaphore has not the permits for. -/
def channelPanics (maxPermits mailboxBound : Nat) : Bool :=
  mailboxBound == 0 || decide (maxPermits < mailboxBound)

/-- The factory panics, and the supervisor with it. -/
def Pool.factoryPanics (sup : Supervisor Factory) (p : Pool μ ρ) (s : System μ ρ) :
    Option (Pool μ ρ) :=
  (Supervision.step sup p.world .factoryPanics).map fun w => { p with world := w, system := s }

/-- What a factory does with the actors: it spawns one, and the `Addr` the new one replaces in the
registry is dropped. -/
def Pool.spawns (p : Pool μ ρ) (f : Factory) : List (Actor.Event μ ρ) :=
  .spawn .outside f.mailboxBound
    :: (p.registry f.workerId).toList.map fun a => .dropAddr .outside a

/-- `spawn_supervised`, then `reg.lock().unwrap().insert(wid, addr)`, then `join`. -/
def Pool.callFactory (maxPermits : Nat) (sup : Supervisor Factory) (p : Pool μ ρ) (f : Factory) :
    Option (Pool μ ρ) :=
  let a := p.system.actors.length
  if channelPanics maxPermits f.mailboxBound then
    p.factoryPanics sup p.system
  else if p.poisoned then
    -- `unwrap` panics; `addr` and `join` are dropped, but the task is there
    (exec Actor.step p.system [.spawn .outside f.mailboxBound, .dropAddr .outside a]).bind
      (p.factoryPanics sup)
  else
    (exec Actor.step p.system (p.spawns f)).bind fun s =>
      (Supervision.step sup p.world .advance).map fun w =>
        { p with
          world := w
          system := s
          actorOf := p.actorOf ++ [a]
          registry := Function.update p.registry f.workerId (some a) }

/-! ## The end of a task -/

/-- The task an event of the actors brings to its end, and how. -/
def ends (s : System μ ρ) : Actor.Event μ ρ → Option (ActorId × Ending)
  | .returns i =>
      match (s.actors[i]?).map ActorTask.phase with
      | some .stopping => some (i, .returned)
      | _ => none
  | .panics i => some (i, .panicked)
  | .aborted i => some (i, .abortedBySupervisor)
  | _ => none

/-- The child that ends with it. -/
def Pool.childEnds (p : Pool μ ρ) (e : Actor.Event μ ρ) : Option Supervision.Event :=
  (ends p.system e).bind fun (i, how) => (p.actorOf.idxOf? i).map fun c => .childEnds c how

/-- The registry has `a`. -/
def Pool.registered (sup : Supervisor Factory) (p : Pool μ ρ) (a : ActorId) : Bool :=
  sup.children.any fun spec => p.registry spec.factory.workerId == some a

/-- Callers drop `Addr`s of their own, and time passes for everybody. -/
def Pool.allows (sup : Supervisor Factory) (p : Pool μ ρ) : Actor.Event μ ρ → Bool
  | .dropAddr .outside a => !p.registered sup a || decide (1 < p.system.hand.addrs.count a)
  | .tick _ => false
  | _ => true

/-- An actor or a caller goes on. -/
def Pool.act (sup : Supervisor Factory) (p : Pool μ ρ) (e : Actor.Event μ ρ) :
    Option (Pool μ ρ) :=
  if p.allows sup e then
    (exec (Supervision.step sup) p.world (p.childEnds e).toList).bind fun w =>
      (Actor.step p.system e).map fun s => { p with world := w, system := s }
  else none

/-! ## Steps -/

/-- What the supervisor does without the actors. -/
def alone : Supervision.Event → Bool
  | .advance => true
  | .joinNext _ => true
  | .forwarderPanics _ => true
  | .joinNone => true
  | .cutOff => true
  | .factoryPanics => false
  | .childEnds _ _ => false
  | .tick _ => false

inductive Event (μ ρ : Type) where
  /-- The supervisor goes on. -/
  | supervisor (e : Supervision.Event)
  /-- An actor or a caller does. -/
  | actors (e : Actor.Event μ ρ)
  /-- Somebody panics with the lock of the registry in hand. -/
  | poison
  | tick (d : Nat)

/-- The supervisor goes on, and calls the next factory if it has got there. -/
def Pool.supervise (maxPermits : Nat) (sup : Supervisor Factory) (p : Pool μ ρ)
    (e : Supervision.Event) : Option (Pool μ ρ) :=
  if alone e then
    match callee sup p.world, e with
    | some f, .advance => p.callFactory maxPermits sup f
    | _, e => (Supervision.step sup p.world e).map fun w => { p with world := w }
  else none

/-- One step; `none` where the event is impossible. -/
def step (maxPermits : Nat) (sup : Supervisor Factory) (p : Pool μ ρ) :
    Event μ ρ → Option (Pool μ ρ)
  | .supervisor e => p.supervise maxPermits sup e
  | .actors e => p.act sup e
  | .poison => some { p with poisoned := true }
  | .tick d =>
      (Supervision.step sup p.world (.tick d)).bind fun w =>
        (Actor.step p.system (.tick d)).map fun s => { p with world := w, system := s }

end ErlangActors.Supervised
