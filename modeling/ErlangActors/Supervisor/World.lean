import ErlangActors.Supervisor.Spec
import ErlangActors.Lib.Run

/-!
# One supervisor and its children

`run_supervisor` as a step function. Between two awaits the source runs
straight-line code that calls user-supplied factories, and while it runs the
children are other tasks that may end at any moment; so the program counter stops
at every factory call and between the abort and the respawn of each slot, and
child endings interleave with all of it.

Time is a clock in nanoseconds since the supervisor started, and only moves forward.
`Instant::now()` reads it; the code looks at nothing but differences of what it read.

Three fields are ghosts, never read by the step function: `reports` is every
report `join_next` returned, `pushed` the reports that pushed an entry to
`restart_history`, `passes` the reports that started a restart pass. `tasks` is
the runtime's record of every child the supervisor ever started, in the order the
factory calls returned; a child is named by its position there, and the
supervisor only touches that record through `AbortHandle::abort`.
-/

namespace ErlangActors.Supervision

variable {φ : Type}

/-! ## State -/

/-- One incarnation of a slot: a task some call of the slot's factory started. -/
structure Task where
  slot : Nat
  ended : Option Ending
  abortRequested : Bool
  deriving DecidableEq, Repr

/-- Per-slot bookkeeping. `abort` names the task behind the slot's `AbortHandle`. -/
structure Slot (φ : Type) where
  spec : ChildSpec φ
  abort : Option Nat

/-- A forwarder in the `JoinSet`: the slot index it captured and the child it awaits. -/
structure Forwarder where
  idx : Nat
  child : Nat
  deriving DecidableEq, Repr

/-- A report as `join_next` returned it. The code sees only `idx` and `reason`. -/
structure Report where
  idx : Nat
  child : Nat
  reason : ExitReason
  time : Nat
  deriving DecidableEq, Repr

/-- The paths by which `run_supervisor` returns. -/
inductive ReturnPath where
  | allStopped
  | maxRestartsExceeded
  | forwarderPanicked
  deriving DecidableEq, Repr

/-- Why `run_supervisor` unwound. -/
inductive Unwind where
  | factoryPanicked
  | indexOutOfBounds
  deriving DecidableEq, Repr

/-- Where the supervisor's task is. -/
inductive Pc where
  /-- About to spawn initial child `i`. -/
  | starting (i : Nat)
  /-- At `joinset.join_next().await`. -/
  | loopHead
  /-- In a restart pass, about to abort slot `i`; `rest` is still to come. -/
  | restarting (i : Nat) (rest : List Nat)
  /-- In a restart pass, slot `i` aborted, about to call its factory. -/
  | respawning (i : Nat) (rest : List Nat)
  | returned (path : ReturnPath)
  | unwound (cause : Unwind)
  /-- The task was aborted and its future dropped at an await. -/
  | cut
  deriving DecidableEq, Repr

/-- The task is still there: it has neither returned, unwound nor been cut. -/
def Pc.live : Pc → Bool
  | .starting _ => true
  | .loopHead => true
  | .restarting _ _ => true
  | .respawning _ _ => true
  | .returned _ => false
  | .unwound _ => false
  | .cut => false

/-- The `enumerate` loop over the initial children, at index `i` of `n`. -/
def Pc.start (n i : Nat) : Pc := if i < n then .starting i else .loopHead

/-- The `for i in to_restart` loop with `todo` left. -/
def Pc.pass : List Nat → Pc
  | [] => .loopHead
  | i :: rest => .restarting i rest

structure World (φ : Type) where
  pc : Pc
  slots : List (Slot φ)
  joinset : List Forwarder
  restartHistory : List Nat
  clock : Nat
  tasks : List Task
  reports : List Report
  pushed : List Report
  passes : List Report

/-- The supervisor task as `Supervisor::start` spawns it. -/
def World.init (sup : Supervisor φ) : World φ where
  pc := .start sup.children.length 0
  slots := []
  joinset := []
  restartHistory := []
  clock := 0
  tasks := []
  reports := []
  pushed := []
  passes := []

/-! ## The functions of `supervisor.rs` -/

/-- `Duration::from_secs`, in nanoseconds. -/
def fromSecs (secs : UInt64) : Nat := secs.toNat * 1000000000

def Task.requestAbort (t : Task) : Task := { t with abortRequested := true }

/-- `AbortHandle::abort` on each of `hs`, in order: a request, nothing more. -/
def abortTasks (tasks : List Task) (hs : List Nat) : List Task :=
  hs.foldl (fun ts h => ts.modify h Task.requestAbort) tasks

/-- `spawn_child`: call the factory, put a forwarder in the `JoinSet`, record the abort handle. -/
def World.spawnChild (w : World φ) (i : Nat) (spec : ChildSpec φ) : World φ :=
  let h := w.tasks.length
  -- `while slots.len() <= i { slots.push(..) }`
  let slots := w.slots ++ List.replicate (i + 1 - w.slots.length) { spec := spec, abort := none }
  { w with
    tasks := w.tasks ++ [{ slot := i, ended := none, abortRequested := false }]
    joinset := w.joinset ++ [{ idx := i, child := h }]
    slots := slots.set i { spec := spec, abort := some h } }

/-- Control moves on. -/
def World.goto (w : World φ) (pc : Pc) : World φ := { w with pc := pc }

/-- `abort` called on each of `hs`. -/
def World.requestAborts (w : World φ) (hs : List Nat) : World φ :=
  { w with tasks := abortTasks w.tasks hs }

/-- The task is over: its locals go, and dropping the `JoinSet` takes the forwarders with it. -/
def World.finish (w : World φ) (pc : Pc) : World φ := { w with pc := pc, joinset := [] }

/-- `max_restarts` exceeded: abort remaining children and return. -/
def World.escalate (w : World φ) : World φ :=
  let aborted := w.requestAborts (w.slots.filterMap Slot.abort)
  let cleared := { aborted with slots := w.slots.map (fun s : Slot φ => { s with abort := none }) }
  cleared.finish (.returned .maxRestartsExceeded)

/-- What `retain` leaves of `restart_history`, and the entry pushed after it. -/
def World.nextHistory (spec : SupervisorSpec) (w : World φ) : List Nat :=
  w.restartHistory.filter (fun t => w.clock - t < fromSecs spec.withinSecs) ++ [w.clock]

/-- `restart_history.len() as u32 > spec.max_restarts`, once this failure is counted. -/
def World.exceeds (spec : SupervisorSpec) (w : World φ) : Bool :=
  (w.nextHistory spec).length.toUInt32 > spec.maxRestarts

/-- Enter this failure in `restart_history`. -/
def World.pushHistory (spec : SupervisorSpec) (w : World φ) (r : Report) : World φ :=
  { w with restartHistory := w.nextHistory spec, pushed := w.pushed ++ [r] }

/-- Apply the restart strategy. -/
def World.beginPass (spec : SupervisorSpec) (w : World φ) (r : Report) : World φ :=
  { w with
    passes := w.passes ++ [r]
    pc := .pass (toRestart spec.strategy w.slots.length r.idx) }

/-- The rolling-window check, and the strategy pass or the escalation that follows it. -/
def World.restartOrEscalate (spec : SupervisorSpec) (w : World φ) (r : Report) : World φ :=
  if w.exceeds spec then (w.pushHistory spec r).escalate
  else (w.pushHistory spec r).beginPass spec r

/-- `slot.abort = None`, whichever incarnation the report is of. -/
def World.clearAbort (w : World φ) (i : Nat) (slot : Slot φ) : World φ :=
  { w with slots := w.slots.set i { slot with abort := none } }

/-- The body of the loop, for the report `join_next` returned. -/
def World.handleReport (spec : SupervisorSpec) (w : World φ) (r : Report) : World φ :=
  match w.slots[r.idx]? with
  | none => w.finish (.unwound .indexOutOfBounds)
  | some slot =>
      let cleared := w.clearAbort r.idx slot
      let policy := slot.spec.restart
      match r.reason with
      | .normal => cleared
      | .panic _ => if policy = .temporary then cleared else cleared.restartOrEscalate spec r
      | .aborted => if policy = .temporary then cleared else cleared.restartOrEscalate spec r
      | .other _ => if policy = .temporary then cleared else cleared.restartOrEscalate spec r

/-- `if let Some(ah) = slots[i].abort.take() { ah.abort() }`. -/
def World.abortSlot (w : World φ) (i : Nat) (rest : List Nat) : World φ :=
  match w.slots[i]? with
  | none => w.finish (.unwound .indexOutOfBounds)
  | some slot =>
      ((w.clearAbort i slot).requestAborts slot.abort.toList).goto (.respawning i rest)

/-- `let spec_clone = slots[i].spec.clone(); spawn_child(i, spec_clone, ..)`. -/
def World.respawn (w : World φ) (i : Nat) (rest : List Nat) : World φ :=
  match w.slots[i]? with
  | none => w.finish (.unwound .indexOutOfBounds)
  | some slot => (w.spawnChild i slot.spec).goto (.pass rest)

/-- `join_next` returned `None`. -/
def World.joinNone (w : World φ) : World φ :=
  if w.slots.any (fun s => s.abort.isSome) then w
  else w.finish (.returned .allStopped)

/-- How task `c` ended, if it has. -/
def World.endingOf (w : World φ) (c : Nat) : Option Ending := (w.tasks[c]?).bind Task.ended

/-- Take the forwarder's result out of the `JoinSet`. -/
def World.takeReport (w : World φ) (f : Forwarder) (r : Report) : World φ :=
  { w with joinset := w.joinset.erase f, reports := w.reports ++ [r] }

/-- The report forwarder `f` makes of a child that ended by `how`. -/
def World.reportOf (w : World φ) (f : Forwarder) (how : Ending) : Report :=
  { idx := f.idx, child := f.child, reason := how.reason, time := w.clock }

/-- A child comes to its end. -/
def World.endTask (w : World φ) (c : Nat) (how : Ending) : World φ :=
  { w with tasks := w.tasks.modify c (fun t => { t with ended := some how }) }

/-- A running task may end in any way; only a requested abort can be the supervisor's. -/
def Task.mayEnd (t : Task) (how : Ending) : Bool :=
  t.ended.isNone && (how != .abortedBySupervisor || t.abortRequested)

/-! ## Steps -/

inductive Event where
  /-- The supervisor runs on to its next factory call, its next slot or the loop head. -/
  | advance
  /-- The factory about to be called panics. -/
  | factoryPanics
  /-- `join_next` returns the result of forwarder `f`. -/
  | joinNext (f : Forwarder)
  /-- `join_next` returns the panic of forwarder `f`. -/
  | forwarderPanics (f : Forwarder)
  /-- `join_next` finds the `JoinSet` empty. -/
  | joinNone
  /-- The supervisor's task is aborted: its future is dropped at an await, or before its first
  poll. -/
  | cutOff
  /-- Child `c` ends. -/
  | childEnds (c : Nat) (how : Ending)
  /-- Time passes. -/
  | tick (d : Nat)
  deriving DecidableEq, Repr

/-- One step of the supervisor or of its surroundings; `none` where the event is impossible. -/
def step (sup : Supervisor φ) (w : World φ) : Event → Option (World φ)
  | .advance =>
      match w.pc with
      | .starting i =>
          (sup.children[i]?).map fun spec =>
            (w.spawnChild i spec).goto (.start sup.children.length (i + 1))
      | .restarting i rest => some (w.abortSlot i rest)
      | .respawning i rest => some (w.respawn i rest)
      | _ => none
  | .factoryPanics =>
      match w.pc with
      | .starting _ => some (w.finish (.unwound .factoryPanicked))
      | .respawning _ _ => some (w.finish (.unwound .factoryPanicked))
      | _ => none
  | .joinNext f =>
      if w.pc = .loopHead ∧ f ∈ w.joinset then
        (w.endingOf f.child).map fun how =>
          (w.takeReport f (w.reportOf f how)).handleReport sup.spec (w.reportOf f how)
      else none
  | .forwarderPanics f =>
      if w.pc = .loopHead ∧ f ∈ w.joinset then
        (w.endingOf f.child).map fun _ => w.finish (.returned .forwarderPanicked)
      else none
  | .joinNone => if w.pc = .loopHead ∧ w.joinset = [] then some w.joinNone else none
  | .cutOff => if w.pc = .loopHead ∨ w.pc = .starting 0 then some (w.finish .cut) else none
  | .childEnds c how =>
      (w.tasks[c]?).bind fun t => if t.mayEnd how then some (w.endTask c how) else none
  | .tick d => some { w with clock := w.clock + d }

end ErlangActors.Supervision
