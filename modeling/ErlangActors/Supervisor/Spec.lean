/-!
# What a supervisor is told

The configuration types of `supervisor.rs`, and `join_outcome`, which turns the
result of awaiting a child's `JoinHandle` into the `ExitReason` the supervisor
matches on.

A child's factory is an opaque closure, so the type it is drawn from is a
parameter `φ`. Plain supervisors take it to be anything at all; the supervision
tree of `ErlangActors.Supervisor.Tree` takes it to be either "some task" or "start
that supervisor".
-/

namespace ErlangActors.Supervision

/-- Restart strategy. -/
inductive Restart where
  /-- Only the failed child restarts. -/
  | oneForOne
  /-- The failed child and every child started after it restarts, in order. -/
  | restForOne
  /-- Every child restarts. -/
  | oneForAll
  deriving DecidableEq, Repr

/-- A child's restart policy. -/
inductive RestartPolicy where
  | permanent
  | transient
  | temporary
  deriving DecidableEq, Repr

/-- Specification for one child. -/
structure ChildSpec (φ : Type) where
  id : String
  restart : RestartPolicy
  factory : φ

/-- Top-level supervisor configuration: `max_restarts` is a `u32`, `within_secs` a `u64`. -/
structure SupervisorSpec where
  name : String
  strategy : Restart
  maxRestarts : UInt32
  withinSecs : UInt64

/-- `one_for_one`, 5 restarts per 10s. -/
def SupervisorSpec.defaultOneForOne (name : String) : SupervisorSpec :=
  { name := name, strategy := .oneForOne, maxRestarts := 5, withinSecs := 10 }

/-- A supervisor instance: its own spec and its children in start order. -/
structure Supervisor (φ : Type) where
  spec : SupervisorSpec
  children : List (ChildSpec φ)

variable {φ : Type}

/-- `Supervisor::new`. -/
def Supervisor.new (spec : SupervisorSpec) : Supervisor φ := { spec := spec, children := [] }

/-- Register a child spec. Children are started in the order they're added. -/
def Supervisor.child (sup : Supervisor φ) (spec : ChildSpec φ) : Supervisor φ :=
  { sup with children := sup.children ++ [spec] }

/-- Why a supervised task ended. -/
inductive ExitReason where
  | normal
  | panic (msg : String)
  | aborted
  | other (msg : String)
  deriving DecidableEq, Repr

/-! ## `join_outcome` -/

/-- What tokio's `JoinError` says: a panic, a cancellation, or something else with a display
text. -/
inductive JoinError where
  | panicked
  | cancelled
  | unknown (display : String)
  deriving DecidableEq, Repr

def JoinError.isPanic : JoinError → Bool
  | .panicked => true
  | _ => false

def JoinError.isCancelled : JoinError → Bool
  | .cancelled => true
  | _ => false

/-- The error's `Display` text. -/
def JoinError.display : JoinError → String
  | .panicked => "task panicked"
  | .cancelled => "task was cancelled"
  | .unknown d => d

/-- The panic payload is a `Box<dyn Any + Send>`, whose `Debug` output never shows what is
inside. -/
def anyDebug : String := "Any \x7b .. \x7d"

/-- Await a `JoinHandle` and produce an `ExitReason`. -/
def joinOutcome : Except JoinError Unit → ExitReason
  | .ok () => .normal
  | .error joinErr =>
      if joinErr.isPanic then .panic anyDebug
      else if joinErr.isCancelled then .aborted
      else .other joinErr.display

/--
How a task came to its end. A cancelled task also says whose `abort` it was: the
exit reason cannot tell, but the restart budget is about exactly that difference.
-/
inductive Ending where
  | returned
  | panicked
  | abortedBySupervisor
  | abortedElsewhere
  | failed (display : String)
  deriving DecidableEq, Repr

/-- What awaiting the task's `JoinHandle` gives. -/
def Ending.result : Ending → Except JoinError Unit
  | .returned => .ok ()
  | .panicked => .error .panicked
  | .abortedBySupervisor => .error .cancelled
  | .abortedElsewhere => .error .cancelled
  | .failed d => .error (.unknown d)

/-- The `ExitReason` the forwarder of a task reports. -/
def Ending.reason (how : Ending) : ExitReason := joinOutcome how.result

/-- Ended by panic, by another join error, or by an abort this supervisor did not issue. -/
def Ending.spontaneous : Ending → Bool
  | .returned => false
  | .abortedBySupervisor => false
  | .panicked => true
  | .abortedElsewhere => true
  | .failed _ => true

/-- Only a task that returned is reported as `Normal`. -/
theorem Ending.reason_eq_normal {how : Ending} : how.reason = .normal ↔ how = .returned := by
  cases how <;> simp [Ending.reason, Ending.result, joinOutcome, JoinError.isPanic,
    JoinError.isCancelled]

/-- A report that is not `Normal` is of a spontaneous failure or of the supervisor's own abort. -/
theorem Ending.spontaneous_iff {how : Ending} :
    how.spontaneous = true ↔ how.reason ≠ .normal ∧ how ≠ .abortedBySupervisor := by
  rw [Ne, Ending.reason_eq_normal]
  cases how <;> simp [Ending.spontaneous]

/-! ## The set a failure restarts -/

/-- `to_restart`, for a supervisor with `n` slots and a report of slot `idx`. -/
def toRestart (strategy : Restart) (n idx : Nat) : List Nat :=
  match strategy with
  | .oneForOne => [idx]
  | .restForOne => List.range' idx (n - idx)
  | .oneForAll => List.range n

/-- A failure of slot `idx` is one the strategy answers by restarting slot `i` too. -/
def Restart.covers (strategy : Restart) (idx i : Nat) : Bool :=
  match strategy with
  | .oneForOne => i == idx
  | .restForOne => idx ≤ i
  | .oneForAll => true

theorem mem_toRestart {strategy : Restart} {n idx i : Nat} (hidx : idx < n) :
    i ∈ toRestart strategy n idx ↔ i < n ∧ strategy.covers idx i = true := by
  cases strategy with
  | oneForOne =>
      simp only [toRestart, Restart.covers, List.mem_singleton, beq_iff_eq]
      exact ⟨fun h => ⟨h ▸ hidx, h⟩, fun h => h.2⟩
  | restForOne =>
      simp only [toRestart, Restart.covers, List.mem_range'_1, decide_eq_true_eq]
      omega
  | oneForAll => simp [toRestart, Restart.covers]

theorem toRestart_nodup (strategy : Restart) (n idx : Nat) :
    (toRestart strategy n idx).Nodup := by
  cases strategy with
  | oneForOne => simp [toRestart]
  | restForOne => exact List.nodup_range'
  | oneForAll => exact List.nodup_range

/-- Every strategy restarts the slot that failed. -/
theorem Restart.covers_self (strategy : Restart) (idx : Nat) :
    strategy.covers idx idx = true := by
  cases strategy <;> simp [Restart.covers]

end ErlangActors.Supervision
