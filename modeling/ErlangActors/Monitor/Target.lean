import ErlangActors.Lib.Chan
import ErlangActors.Monitor.Watch

/-!
# A heartbeat watcher and its target's mailbox

The loop of `watch_heartbeat` against a bounded FIFO mailbox that others send to as well.
The target takes messages in order and, with a ping's reply sender in its hands, may
answer at any time, in any order, or drop the sender; what it cannot do is answer a ping
it has not taken. Timers are left out: the reply timeout may fire whenever no reply is
there, and the sleep may end at any time, so every timing is among the interleavings.
-/

namespace ErlangActors.Monitoring

open Actor (Oneshot)
open Channel

/-- A message in the target's mailbox: ping number `id` of the watcher, or anybody else's. -/
inductive Mail where
  | ping (id : Nat)
  | foreign
  deriving DecidableEq, Repr

/-- The watcher, the target's mailbox, the reply channel of every ping so far, and the pings
the target has taken and still has the senders of. Others that wait for a slot of the
mailbox do so by number. -/
structure Watched where
  watcher : Heartbeat
  mailbox : Chan Mail Nat
  replies : List (Oneshot Unit)
  taken : List Nat

/-- The target has just been spawned with a mailbox of the given capacity. -/
def Watched.init (capacity : Nat) : Watched :=
  { watcher := .init, mailbox := .new capacity, replies := [], taken := [] }

/-- The number of a message, if it is a ping. -/
def Mail.pingId : Mail → Option Nat
  | .ping id => some id
  | .foreign => none

/-- The pings that wait in a mailbox, oldest first. -/
def pingIds (queue : List Mail) : List Nat := queue.filterMap Mail.pingId

/-- How many pings wait in the mailbox. -/
def Watched.waiting (s : Watched) : Nat := (pingIds s.mailbox.queue).length

/-- The watcher comes to its next ping: `addr.tell(factory(rtx))`. -/
def Watched.tellPing (missThreshold : UInt32) (s : Watched) : Option Watched :=
  match s.mailbox.trySend (.ping s.watcher.pings) with
  | .ok c =>
      (s.watcher.step missThreshold (.told (.ok ()))).map fun w =>
        { s with watcher := w, mailbox := c, replies := s.replies ++ [.empty] }
  -- the message comes back in the `TrySendError` and is dropped, the sender with it
  | .error .full =>
      (s.watcher.step missThreshold (.told (.error (.dropped s.mailbox.capacity)))).map fun w =>
        { s with watcher := w, replies := s.replies ++ [.senderDropped] }
  | .error .closed =>
      (s.watcher.step missThreshold (.told (.error .gone))).map fun w =>
        { s with watcher := w, replies := s.replies ++ [.senderDropped] }

/-- The watcher is polled at `timeout(ping_timeout, rrx).await` and the last ping's channel has
resolved. -/
def Watched.readReply (missThreshold : UInt32) (s : Watched) : Option Watched :=
  (s.replies.getLast?).bind fun reply =>
    match reply with
    | .empty => none
    | .sent _ =>
        (s.watcher.step missThreshold .replied).map fun w => { s with watcher := w }
    | .senderDropped =>
        (s.watcher.step missThreshold .replyDropped).map fun w => { s with watcher := w }

/-- It is polled there after its timer has fired, and there is no reply. -/
def Watched.timeOut (missThreshold : UInt32) (s : Watched) : Option Watched :=
  (s.replies.getLast?).bind fun reply =>
    match reply with
    | .empty =>
        (s.watcher.step missThreshold .timedOut).map fun w => { s with watcher := w }
    | _ => none

/-- The target takes the next message out of its mailbox. -/
def Watched.take (s : Watched) : Option Watched :=
  (s.mailbox.pop).map fun (m, c) =>
    { s with mailbox := c, taken := s.taken ++ m.pingId.toList }

/-- The target uses up the sender of ping `id`, which it has. -/
def Watched.resolve (s : Watched) (id : Nat) (f : Oneshot Unit → Oneshot Unit) : Option Watched :=
  if id ∈ s.taken then
    some { s with taken := s.taken.erase id, replies := s.replies.modify id f }
  else none

/-- The target's task ends: its mailbox closes, and the pings in it lose their senders. -/
def Watched.exit (s : Watched) : Watched :=
  { s with
    mailbox := s.mailbox.close
    replies := s.replies.mapIdx fun id reply =>
      if id ∈ pingIds s.mailbox.queue then reply.dropSender else reply }

inductive TargetEvent where
  | tellPing
  | readReply
  | timeOut
  | wake
  /-- Somebody else calls `tell`. -/
  | foreignTell
  /-- Somebody else's `ask` is polled at its send, for the first time, -/
  | foreignSend (k : Nat)
  /-- or again, -/
  | foreignResume (k : Nat)
  /-- or is dropped there. -/
  | foreignCancel (k : Nat)
  | take
  /-- The target answers ping `id`, -/
  | answer (id : Nat)
  /-- or drops its sender. -/
  | dropReply (id : Nat)
  | exit
  deriving DecidableEq, Repr

def Watched.step (missThreshold : UInt32) (s : Watched) : TargetEvent → Option Watched
  | .tellPing => s.tellPing missThreshold
  | .readReply => s.readReply missThreshold
  | .timeOut => s.timeOut missThreshold
  | .wake => (s.watcher.step missThreshold .woke).map fun w => { s with watcher := w }
  | .foreignTell =>
      match s.mailbox.trySend .foreign with
      | .ok c => some { s with mailbox := c }
      | .error _ => some s
  | .foreignSend k =>
      match s.mailbox.startSend k .foreign with
      | .sent c => some { s with mailbox := c }
      | .pending c => some { s with mailbox := c }
      | .closed => some s
  | .foreignResume k =>
      match s.mailbox.resumeSend k .foreign with
      | .sent c => some { s with mailbox := c }
      | .pending _ => none
      | .closed => some s
  | .foreignCancel k => some { s with mailbox := s.mailbox.cancel k }
  | .take => s.take
  | .answer id => s.resolve id fun _ => .sent ()
  | .dropReply id => s.resolve id Oneshot.dropSender
  | .exit => some s.exit

end ErlangActors.Monitoring
