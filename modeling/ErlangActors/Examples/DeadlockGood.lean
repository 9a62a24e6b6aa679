import ErlangActors.Lib.Chan
import ErlangActors.Lib.Run
import Mathlib.Data.List.AList

/-!
# The correlation-ID protocol of `deadlock_good.rs`

A caller sends A a `StartCallB` with the sender of its reply channel. A stashes the sender
under a fresh correlation ID and tells B an `ARequest` with that ID; B works for a while
and tells A a `BResponse`, by whose ID A finds the sender again and answers. Both tells go
through bounded mailboxes and can fail.

Neither actor's task ends here, so neither mailbox closes: each task holds an `Addr` of
itself. A's handler has no await in it and is one step; B sleeps in its handler. Callers
get at A by `tell` or by `ask`, so some wait for a slot of A's mailbox, under the name of
the reply sender they bring.

`taken`, `used` and `issued` are ghosts: the reply senders A has taken out of a message,
what it sent on which, and the correlation IDs generated so far.
-/

namespace ErlangActors.DeadlockGood

open Channel

/-- The sending half of one caller's reply channel. -/
abbrev Reply := Nat

abbrev Uuid := Nat

/-- A's protocol. -/
inductive AMsg where
  | startCallB (reply : Reply)
  | bResponse (correlation : Uuid) (payload : String)
  deriving DecidableEq, Repr

/-- B's protocol. `reply_to` is always A's own `Addr`, and is left out. -/
inductive BMsg where
  | aRequest (correlation : Uuid)
  deriving DecidableEq, Repr

structure System where
  aMailbox : Chan AMsg Reply
  bMailbox : Chan BMsg Reply
  /-- `b_slot` has been set. -/
  bRegistered : Bool
  /-- A's map of callers that wait for B's reply. -/
  pending : AList fun _ : Uuid => Reply
  /-- The message A is about to handle. -/
  aHandling : Option AMsg
  /-- The message B is handling. -/
  bHandling : Option BMsg
  /-- How many reply channels the callers have made. -/
  calls : Nat
  /-- The callers that wait for a slot of A's mailbox. -/
  sending : List Reply
  taken : List Reply
  used : List (Reply × String)
  issued : List Uuid

/-- A and B have been spawned. -/
def System.init (aBound bBound : Nat) : System where
  aMailbox := .new aBound
  bMailbox := .new bBound
  bRegistered := false
  pending := ∅
  aHandling := none
  bHandling := none
  calls := 0
  sending := []
  taken := []
  used := []
  issued := []

/-! ## The handlers -/

/-- `if let Some(r) = self.pending.remove(&correlation) { let _ = r.send(payload); }`. -/
def System.answer (s : System) (correlation : Uuid) (payload : String) : System :=
  match s.pending.lookup correlation with
  | none => s
  | some reply =>
      { s with
        pending := s.pending.erase correlation
        used := s.used ++ [(reply, payload)] }

/-- `A::handle` of a `StartCallB`, with the ID that `Uuid::new_v4()` gives. -/
def System.startCallB (s : System) (reply : Reply) (correlation : Uuid) : System :=
  let s := { s with
    pending := s.pending.insert correlation reply
    taken := s.taken ++ [reply]
    issued := s.issued ++ [correlation] }
  if s.bRegistered then
    match s.bMailbox.trySend (.aRequest correlation) with
    | .ok c => { s with bMailbox := c }
    | .error _ => s.answer correlation "B unreachable"
  else s -- "B not registered yet": the early return

/-- `A::handle`. -/
def System.aHandle (s : System) (correlation : Uuid) : AMsg → System
  | .startCallB reply => s.startCallB reply correlation
  | .bResponse correlation payload => s.answer correlation payload

/-- `B2::handle`, once its sleep is over. -/
def System.bHandle (s : System) : BMsg → System
  | .aRequest correlation =>
      match s.aMailbox.trySend (.bResponse correlation "hello from B") with
      | .ok c => { s with aMailbox := c }
      | .error _ => s -- "B: tell(A) failed"

/-! ## Steps -/

inductive Event where
  /-- `b_slot.set(..)`. -/
  | registerB
  /-- A caller tells A a `StartCallB`. -/
  | callTell
  /-- A caller asks A: its send is polled for the first time, -/
  | callAsk
  /-- or again, -/
  | callSends (reply : Reply)
  /-- or its future is dropped there. -/
  | callCancelled (reply : Reply)
  /-- A receives its next message. -/
  | aReceives
  /-- A handles it; `Uuid::new_v4()`, if it comes to that, gives `correlation`. -/
  | aHandles (correlation : Uuid)
  /-- B receives its next message. -/
  | bReceives
  /-- B handles it. -/
  | bHandles
  deriving DecidableEq, Repr

/-- One step; the IDs `Uuid::new_v4()` gives are fresh. -/
def step (s : System) : Event → Option System
  | .registerB => some { s with bRegistered := true }
  | .callTell =>
      match s.aMailbox.trySend (.startCallB s.calls) with
      | .ok c => some { s with aMailbox := c, calls := s.calls + 1 }
      | .error _ => some { s with calls := s.calls + 1 }
  | .callAsk =>
      match s.aMailbox.startSend s.calls (.startCallB s.calls) with
      | .sent c => some { s with aMailbox := c, calls := s.calls + 1 }
      | .pending c =>
          some { s with aMailbox := c, calls := s.calls + 1, sending := s.sending ++ [s.calls] }
      | .closed => some { s with calls := s.calls + 1 }
  | .callSends reply =>
      if reply ∈ s.sending then
        match s.aMailbox.resumeSend reply (.startCallB reply) with
        | .sent c => some { s with aMailbox := c, sending := s.sending.erase reply }
        | .pending _ => none
        | .closed => some { s with sending := s.sending.erase reply }
      else none
  | .callCancelled reply =>
      if reply ∈ s.sending then
        some { s with
          aMailbox := s.aMailbox.cancel reply
          sending := s.sending.erase reply }
      else none
  | .aReceives =>
      match s.aHandling with
      | none => (s.aMailbox.pop).map fun (m, c) => { s with aMailbox := c, aHandling := some m }
      | some _ => none
  | .aHandles correlation =>
      s.aHandling.bind fun m =>
        if correlation ∉ s.issued then
          some ({ s with aHandling := none }.aHandle correlation m)
        else none
  | .bReceives =>
      match s.bHandling with
      | none => (s.bMailbox.pop).map fun (m, c) => { s with bMailbox := c, bHandling := some m }
      | some _ => none
  | .bHandles => s.bHandling.map fun m => { s with bHandling := none }.bHandle m

end ErlangActors.DeadlockGood
