import ErlangActors.Supervisor.World

/-!
# Supervision trees

`Supervised::into_child_spec` makes a supervisor the child of another: the child's
factory starts a clone of it. A running tree is a `Forest`, which gives every
supervisor ever started in it a node of its own, and every step of the tree is a
step of one node. A node is found by its path: the number its parent gave the task,
then the parent's number in *its* parent's record, and so on up; the root is `[]`.

Two things tie a node to its parent. When a supervisor's task ends, the parent's
record of it ends, in the way `Supervisor::start` makes of it; and a nested
supervisor can be aborted only once its parent has asked for that, since nobody else
holds its abort handle.
-/

namespace ErlangActors.Supervision

/-- What a child's factory starts: a task of the user's, or a supervisor. -/
inductive Factory where
  | task
  | nested (sup : Supervisor Factory)

/-- Wrap this supervisor as a child of a parent supervisor. -/
def intoChildSpec (sup : Supervisor Factory) (id : String) (restart : RestartPolicy) :
    ChildSpec Factory := { id := id, restart := restart, factory := .nested sup }

abbrev Path := List Nat

structure Node where
  sup : Supervisor Factory
  world : World Factory

abbrev Forest := Path → Option Node

/-- `Supervisor::start` on the root. -/
def Forest.init (sup : Supervisor Factory) : Forest :=
  fun p => if p = [] then some { sup := sup, world := World.init sup } else none

def Forest.set (F : Forest) (p : Path) (n : Node) : Forest :=
  fun q => if q = p then some n else F q

/--
How the task that `Supervisor::start` spawned ends. It awaits `run_supervisor` and
returns `()` whichever path that returned by.
-/
def Pc.ending : Pc → Option Ending
  | .returned _ => some .returned
  | .unwound _ => some .panicked
  | .cut => some .abortedBySupervisor
  | .starting _ => none
  | .loopHead => none
  | .restarting _ _ => none
  | .respawning _ _ => none

/-- The supervisor started between `old` and `new`, if a nested one's factory was called. -/
def startedBy (old new : World Factory) : Option (Supervisor Factory) :=
  (new.tasks[old.tasks.length]?).bind fun t =>
    (new.slots[t.slot]?).bind fun slot =>
      match slot.spec.factory with
      | .task => none
      | .nested sup => some sup

/-- A supervisor started by the node at `p` gets a node below it. -/
def Forest.enter (F : Forest) (p : Path) (old new : World Factory) : Forest :=
  match startedBy old new with
  | none => F
  | some sup => F.set (old.tasks.length :: p) { sup := sup, world := World.init sup }

/-- A supervisor whose task ends in this step ends in its parent's record. -/
def Forest.leave (F : Forest) (p : Path) (old new : World Factory) : Forest :=
  match p with
  | [] => F
  | c :: q =>
      match old.pc.ending, new.pc.ending, F q with
      | none, some how, some m => F.set q { m with world := m.world.endTask c how }
      | _, _, _ => F

/-- The node `n` at `p` goes on to `w`. -/
def Forest.move (F : Forest) (p : Path) (n : Node) (w : World Factory) : Forest :=
  ((F.set p { n with world := w }).enter p n.world w).leave p n.world w

/-- Child `c` of this node has had its abort requested. -/
def Node.requested (n : Node) (c : Nat) : Bool := (n.world.tasks[c]?).any Task.abortRequested

/-- What the rest of the tree lets the node at `p` do. -/
def Forest.allows (F : Forest) (p : Path) : Event → Bool
  -- a nested supervisor ends by its own steps
  | .childEnds c _ => (F (c :: p)).isNone
  -- the owner of the root's `JoinHandle` may abort it; below it only the parent can
  | .cutOff =>
      match p with
      | [] => true
      | c :: q => (F q).any (fun m => m.requested c)
  -- time passes for the whole tree
  | .tick _ => false
  | _ => true

inductive TreeEvent where
  /-- The supervisor at `p`, or one of its children, takes a step. -/
  | act (p : Path) (e : Event)
  /-- Time passes. -/
  | tick (d : Nat)
  deriving DecidableEq, Repr

def treeStep (F : Forest) : TreeEvent → Option Forest
  | .act p e =>
      (F p).bind fun n =>
        if F.allows p e then (step n.sup n.world e).map (F.move p n) else none
  | .tick d =>
      some fun p => (F p).map fun n =>
        { n with world := { n.world with clock := n.world.clock + d } }

end ErlangActors.Supervision
