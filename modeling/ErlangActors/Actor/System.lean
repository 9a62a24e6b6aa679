import ErlangActors.Lib.Chan
import ErlangActors.Lib.Run

/-!
# Actors, their addresses and their callers

`actor.rs` as a step function on a system of actors. What a handler or a client does
with the values it owns is up to it, so the model follows the values: who holds which
`Addr`s and which reply senders. A *party* — an actor in one of its callbacks, or the
code outside all actors — may clone, drop, send and pass on what it holds, and it
cannot make up what it does not hold.

Messages keep their order and their number of slots through the channel of
`ErlangActors.Lib.Chan`. An ask is a future of its own: it waits for a slot of the
mailbox first, and arms its timer once its message is in. Time is a clock in
nanoseconds; a timer that is due fires before the clock goes on.

`accepted` and `handled` are ghosts, never read by the step function.
-/

namespace ErlangActors.Actor

open Channel

abbrev ActorId := Nat

abbrev AskId := Nat

/-! ## State -/

/-- What somebody owns: handles of actors, and the sending halves of asks' reply channels. -/
structure Holding where
  addrs : List ActorId
  replies : List AskId
  deriving DecidableEq, Repr

def Holding.empty : Holding := { addrs := [], replies := [] }

/-- A message: what it says, and what it carries. -/
structure Msg (μ : Type) where
  body : μ
  carries : Holding

/-- The error of a `tell` that could not deliver. -/
inductive MailboxFull where
  | dropped (capacity : Nat)
  | gone
  deriving DecidableEq, Repr

/-- Errors returned by `ask`. -/
inductive AskError where
  | timeout (dur : Nat)
  | mailboxFull
  | closed
  | panic
  deriving DecidableEq, Repr

/-- How an actor's task ended. -/
inductive Exit where
  | returned
  | panicked
  | aborted
  deriving DecidableEq, Repr

/-- Where the task of `spawn` is. -/
inductive Phase (μ : Type) where
  /-- In `started`, or not polled yet. -/
  | starting
  /-- At `rx.recv().await`. -/
  | receiving
  /-- In `handle`. -/
  | handling (msg : Msg μ)
  | stopping
  | ended (how : Exit)

/-- The task is there. -/
def Phase.live {μ : Type} : Phase μ → Bool
  | .ended _ => false
  | _ => true

/-- User code of the actor is running. -/
def Phase.inCallback {μ : Type} : Phase μ → Bool
  | .starting => true
  | .handling _ => true
  | .stopping => true
  | .receiving => false
  | .ended _ => false

/-- An actor's task with all it owns: its mailbox's receiver, `ctx.self_addr`, and in `hand` what
the callbacks keep in the actor's state and in their locals. -/
structure ActorTask (μ : Type) where
  mailbox : Chan (Msg μ) AskId
  selfAddr : ActorId
  hand : Holding
  phase : Phase μ
  accepted : List (Msg μ)
  handled : List (Msg μ)

/-- Who can act. -/
inductive Party where
  | outside
  | actor (i : ActorId)
  deriving DecidableEq, Repr

/-- A reply channel, as its receiver finds it. -/
inductive Oneshot (ρ : Type) where
  | empty
  | sent (r : ρ)
  | senderDropped

/-- Where a call of `ask` is. -/
inductive Stage (μ ρ : Type) where
  /-- At `self.tx.send(..).await`: no slot in the mailbox yet. -/
  | sending (msg : Msg μ)
  /-- At `timeout(dur, rx).await`. -/
  | awaiting (deadline : Nat)
  | done (res : Except AskError ρ)
  /-- The caller dropped the future. -/
  | dropped

structure Ask (μ ρ : Type) where
  caller : Party
  target : ActorId
  dur : Nat
  calledAt : Nat
  stage : Stage μ ρ
  oneshot : Oneshot ρ

/-- The future has neither resolved nor been dropped. -/
def Stage.pending {μ ρ : Type} : Stage μ ρ → Bool
  | .sending _ => true
  | .awaiting _ => true
  | .done _ => false
  | .dropped => false

structure System (μ ρ : Type) where
  actors : List (ActorTask μ)
  asks : List (Ask μ ρ)
  hand : Holding
  clock : Nat

variable {μ ρ : Type}

def System.init : System μ ρ := { actors := [], asks := [], hand := .empty, clock := 0 }

/-! ## Who holds what -/

/-- The `Addr`s in the hands of a task: `ctx.self_addr`, and those the callbacks keep. -/
def ActorTask.held (t : ActorTask μ) : List ActorId :=
  if t.phase.live then t.selfAddr :: t.hand.addrs else []

/-- The `Addr`s travelling in a mailbox. -/
def ActorTask.queued (t : ActorTask μ) : List ActorId :=
  t.mailbox.queue.flatMap fun m => m.carries.addrs

/-- The `Addr`s a call of `ask` has: the one it was made through, and those in its message. -/
def Ask.addrs (q : Ask μ ρ) : List ActorId :=
  match q.stage with
  | .sending m => q.target :: m.carries.addrs
  | .awaiting _ => [q.target]
  | .done _ => []
  | .dropped => []

/-- Every `Addr` there is. -/
def System.allAddrs (s : System μ ρ) : List ActorId :=
  s.hand.addrs ++ s.actors.flatMap (fun t => t.held ++ t.queued) ++ s.asks.flatMap Ask.addrs

/-- The `Addr`s a party can use: none while it is not running. -/
def System.addrsOf (s : System μ ρ) : Party → List ActorId
  | .outside => s.hand.addrs
  | .actor i =>
      match s.actors[i]? with
      | none => []
      | some t => if t.phase.inCallback then t.held else []

/-- The reply senders a party can use. -/
def System.repliesOf (s : System μ ρ) : Party → List AskId
  | .outside => s.hand.replies
  | .actor i =>
      match s.actors[i]? with
      | none => []
      | some t => if t.phase.inCallback then t.hand.replies else []

/-- The party is running. -/
def System.active (s : System μ ρ) : Party → Bool
  | .outside => true
  | .actor i => (s.actors[i]?).any fun t => t.phase.inCallback

def System.updateActor (s : System μ ρ) (i : ActorId) (f : ActorTask μ → ActorTask μ) :
    System μ ρ := { s with actors := s.actors.modify i f }

def System.updateAsk (s : System μ ρ) (k : AskId) (f : Ask μ ρ → Ask μ ρ) : System μ ρ :=
  { s with asks := s.asks.modify k f }

def System.updateHand (s : System μ ρ) (p : Party) (f : Holding → Holding) : System μ ρ :=
  match p with
  | .outside => { s with hand := f s.hand }
  | .actor i => s.updateActor i fun t => { t with hand := f t.hand }

/-- The party may give `c` away: it has the `Addr`s, to clone, and the senders, to move. -/
def System.owns (s : System μ ρ) (p : Party) (c : Holding) : Bool :=
  c.addrs.all (fun a => a ∈ s.addrsOf p) && c.replies.all (fun k => k ∈ s.repliesOf p)
    && decide c.replies.Nodup

def Holding.add (h c : Holding) : Holding :=
  { addrs := h.addrs ++ c.addrs, replies := h.replies ++ c.replies }

/-- Reply senders moved out. -/
def Holding.without (h : Holding) (ks : List AskId) : Holding :=
  { h with replies := h.replies.filter fun k => k ∉ ks }

/-! ## Reply channels -/

def Oneshot.dropSender : Oneshot ρ → Oneshot ρ
  | .empty => .senderDropped
  | .sent r => .sent r
  | .senderDropped => .senderDropped

/-- Dropping reply senders resolves the channels nothing was sent on. -/
def System.dropReplies (s : System μ ρ) (ks : List AskId) : System μ ρ :=
  { s with
    asks := s.asks.mapIdx fun k q =>
      if k ∈ ks then { q with oneshot := q.oneshot.dropSender } else q }

/-- `oneshot::Sender::send`: it fails when the ask is over and its receiver gone. -/
def Ask.reply (q : Ask μ ρ) (r : ρ) : Ask μ ρ :=
  if q.stage.pending then { q with oneshot := .sent r } else q

/-! ## The functions of `actor.rs` -/

/-- The task `spawn` starts for actor `i`: a new mailbox, and an `Addr` of its own. -/
def ActorTask.new (i : ActorId) (mailboxBound : Nat) : ActorTask μ where
  mailbox := .new mailboxBound
  selfAddr := i
  hand := .empty
  phase := .starting
  accepted := []
  handled := []

/-- `spawn`, which gives its caller an `Addr` too. -/
def System.spawn (s : System μ ρ) (p : Party) (mailboxBound : Nat) : System μ ρ :=
  let i := s.actors.length
  let s := { s with actors := s.actors ++ [ActorTask.new i mailboxBound] }
  s.updateHand p fun h => { h with addrs := h.addrs ++ [i] }

/-- The mailbox has taken the message. -/
def ActorTask.accept (m : Msg μ) (c : Chan (Msg μ) AskId) (t : ActorTask μ) : ActorTask μ :=
  { t with mailbox := c, accepted := t.accepted ++ [m] }

/-- `Addr::tell`. A message that is not delivered is dropped. -/
def System.tell (s : System μ ρ) (a : ActorId) (m : Msg μ) :
    Option (System μ ρ × Except MailboxFull Unit) :=
  (s.actors[a]?).map fun t =>
    match t.mailbox.trySend m with
    | .ok c => (s.updateActor a (.accept m c), .ok ())
    | .error .full => (s.dropReplies m.carries.replies, .error (.dropped t.mailbox.capacity))
    | .error .closed => (s.dropReplies m.carries.replies, .error .gone)

/-- `Addr::tell_or_drop`. -/
def System.tellOrDrop (s : System μ ρ) (a : ActorId) (m : Msg μ) : Option (System μ ρ) :=
  (s.tell a m).map Prod.fst

/-- The message of an ask: `make_msg` has put the reply sender in. -/
def Msg.withReply (m : Msg μ) (k : AskId) : Msg μ :=
  { m with carries := { m.carries with replies := m.carries.replies ++ [k] } }

/-- `Addr::ask`, up to its first wait. -/
def System.ask (s : System μ ρ) (p : Party) (a : ActorId) (m : Msg μ) (dur : Nat) :
    Option (System μ ρ) :=
  (s.actors[a]?).map fun t =>
    let k := s.asks.length
    let msg := m.withReply k
    let opened (stage : Stage μ ρ) : System μ ρ :=
      { s with asks := s.asks ++
          [{ caller := p, target := a, dur := dur, calledAt := s.clock, stage := stage,
             oneshot := .empty }] }
    match t.mailbox.startSend k msg with
    | .sent c => (opened (.awaiting (s.clock + dur))).updateActor a (.accept msg c)
    | .pending c => (opened (.sending msg)).updateActor a fun t => { t with mailbox := c }
    -- the message comes back in the `SendError`, and goes
    | .closed => (opened (.done (.error .closed))).dropReplies msg.carries.replies

/-- `ask` polled at its first wait: a slot has come free, or the mailbox has closed. -/
def System.askSends (s : System μ ρ) (k : AskId) : Option (System μ ρ) :=
  (s.asks[k]?).bind fun q =>
    match q.stage with
    | .sending msg =>
        (s.actors[q.target]?).bind fun t =>
          match t.mailbox.resumeSend k msg with
          | .sent c =>
              some ((s.updateAsk k fun q =>
                { q with stage := .awaiting (s.clock + q.dur) }).updateActor
                  q.target (.accept msg c))
          | .pending _ => none
          | .closed =>
              some ((s.updateAsk k fun q => { q with stage := .done (.error .closed) }).dropReplies
                msg.carries.replies)
    | _ => none

/-- `ask` polled at its second wait, when the reply channel has resolved. -/
def System.askResolves (s : System μ ρ) (k : AskId) : Option (System μ ρ) :=
  (s.asks[k]?).bind fun q =>
    match q.stage, q.oneshot with
    | .awaiting _, .sent r => some (s.updateAsk k fun q => { q with stage := .done (.ok r) })
    | .awaiting _, .senderDropped =>
        some (s.updateAsk k fun q => { q with stage := .done (.error .closed) })
    | _, _ => none

/-- `ask` polled at its second wait, when the timer has fired and no reply has come. -/
def System.askTimesOut (s : System μ ρ) (k : AskId) : Option (System μ ρ) :=
  (s.asks[k]?).bind fun q =>
    -- `timeout` looks at the reply before it looks at the timer
    match q.stage, q.oneshot with
    | .awaiting deadline, .empty =>
        if deadline ≤ s.clock then
          some (s.updateAsk k fun q => { q with stage := .done (.error (.timeout q.dur)) })
        else none
    | _, _ => none

/-- The future of a call of `ask` is dropped, and with it a message that was not sent. -/
def System.dropAsk (s : System μ ρ) (k : AskId) : System μ ρ :=
  match s.asks[k]? with
  | none => s
  | some q =>
      let gone := s.updateAsk k fun q => { q with stage := .dropped }
      match q.stage with
      | .sending msg =>
          (gone.updateActor q.target fun t => { t with mailbox := t.mailbox.cancel k }).dropReplies
            msg.carries.replies
      | .awaiting _ => gone
      | .done _ => s
      | .dropped => s

/-- The calls of `ask` that run inside actor `i`'s task. -/
def System.asksOf (s : System μ ρ) (i : ActorId) : List AskId :=
  (List.range s.asks.length).filter fun k =>
    (s.asks[k]?).any fun q => q.caller == .actor i && q.stage.pending

/-- The reply senders in the hands of a task and in its mailbox. -/
def ActorTask.replies (t : ActorTask μ) : List AskId :=
  t.hand.replies ++ t.mailbox.queue.flatMap fun m => m.carries.replies

/-- The task is over: everything it owns is dropped, the receiver of its mailbox included. -/
def System.endActor (s : System μ ρ) (i : ActorId) (how : Exit) : System μ ρ :=
  -- the futures of the callback go first, then the receiver with what is queued
  let s := (s.asksOf i).foldl System.dropAsk s
  match s.actors[i]? with
  | none => s
  | some t =>
      (s.updateActor i fun t =>
        { t with mailbox := t.mailbox.close, hand := .empty, phase := .ended how }).dropReplies
        t.replies

/-- `rx.recv()` returns a message, and `handle` is called with it. -/
def ActorTask.recv (t : ActorTask μ) : Option (ActorTask μ) :=
  match t.phase with
  | .receiving =>
      (t.mailbox.pop).map fun (m, c) =>
        { t with
          mailbox := c
          hand := t.hand.add m.carries
          phase := .handling m
          handled := t.handled ++ [m] }
  | _ => none

/-! ## Steps -/

inductive Event (μ ρ : Type) where
  /-- `p` spawns an actor. -/
  | spawn (p : Party) (mailboxBound : Nat)
  /-- `p` clones an `Addr`. -/
  | cloneAddr (p : Party) (a : ActorId)
  /-- `p` drops an `Addr`. -/
  | dropAddr (p : Party) (a : ActorId)
  /-- A callback of actor `i` replaces `ctx.self_addr` by an `Addr` it holds. -/
  | replaceSelf (i : ActorId) (a : ActorId)
  /-- `p` lets `q` have something other than by a message: a shared cell, a captured variable. -/
  | pass (p q : Party) (c : Holding)
  /-- `p` calls `tell`, `tell_or_drop` or `tell_self`. -/
  | tell (p : Party) (a : ActorId) (m : Msg μ)
  /-- `p` calls `ask`. -/
  | ask (p : Party) (a : ActorId) (m : Msg μ) (dur : Nat)
  | askSends (k : AskId)
  | askResolves (k : AskId)
  | askTimesOut (k : AskId)
  /-- The caller drops the future of a call of `ask`. -/
  | dropAsk (k : AskId)
  /-- `p` sends a reply. -/
  | reply (p : Party) (k : AskId) (r : ρ)
  /-- `p` drops a reply sender. -/
  | dropReply (p : Party) (k : AskId)
  /-- `rx.recv()` returns a message. -/
  | recv (i : ActorId)
  /-- `rx.recv()` returns `None`: the queue is empty and no `Addr` exists. -/
  | recvNone (i : ActorId)
  /-- The callback of actor `i` returns. -/
  | returns (i : ActorId)
  /-- It panics. -/
  | panics (i : ActorId)
  /-- The task of actor `i` is aborted. -/
  | aborted (i : ActorId)
  /-- Time passes. -/
  | tick (d : Nat)

/-- No timer would be overdue at time `t`. -/
def System.timersAllow (s : System μ ρ) (t : Nat) : Bool :=
  s.asks.all fun q =>
    match q.stage with
    | .awaiting deadline => t ≤ deadline
    | _ => true

/-- One step of the system; `none` where the event is impossible. -/
def step (s : System μ ρ) : Event μ ρ → Option (System μ ρ)
  | .spawn p mailboxBound =>
      -- `mpsc::channel` panics on a bound of 0; a bound too large for the platform is let through
      if s.active p ∧ 0 < mailboxBound then some (s.spawn p mailboxBound) else none
  | .cloneAddr p a =>
      if a ∈ s.addrsOf p then
        some (s.updateHand p fun h => { h with addrs := h.addrs ++ [a] })
      else none
  | .dropAddr p a =>
      if s.active p then
        some (s.updateHand p fun h => { h with addrs := h.addrs.erase a })
      else none
  | .replaceSelf i a =>
      (s.actors[i]?).bind fun t =>
        if t.phase.inCallback ∧ a ∈ t.hand.addrs then
          some (s.updateActor i fun t =>
            { t with
              selfAddr := a
              hand := { t.hand with addrs := t.hand.addrs.erase a ++ [t.selfAddr] } })
        else none
  | .pass p q c =>
      if s.active p ∧ s.owns p c ∧ s.active q then
        some ((s.updateHand p fun h => h.without c.replies).updateHand q fun h => h.add c)
      else none
  | .tell p a m =>
      if a ∈ s.addrsOf p ∧ s.owns p m.carries then
        (s.updateHand p fun h => h.without m.carries.replies).tellOrDrop a m
      else none
  | .ask p a m dur =>
      if a ∈ s.addrsOf p ∧ s.owns p m.carries then
        (s.updateHand p fun h => h.without m.carries.replies).ask p a m dur
      else none
  | .askSends k => s.askSends k
  | .askResolves k => s.askResolves k
  | .askTimesOut k => s.askTimesOut k
  | .dropAsk k =>
      (s.asks[k]?).bind fun q => if s.active q.caller then some (s.dropAsk k) else none
  | .reply p k r =>
      if k ∈ s.repliesOf p then
        some ((s.updateHand p fun h => h.without [k]).updateAsk k fun q => q.reply r)
      else none
  | .dropReply p k =>
      if k ∈ s.repliesOf p then
        some ((s.updateHand p fun h => h.without [k]).dropReplies [k])
      else none
  | .recv i =>
      (s.actors[i]?).bind fun t => (t.recv).map fun t' => s.updateActor i fun _ => t'
  | .recvNone i =>
      (s.actors[i]?).bind fun t =>
        match t.phase with
        | .receiving =>
            if t.mailbox.queue.isEmpty ∧ i ∉ s.allAddrs then
              some (s.updateActor i fun t => { t with phase := .stopping })
            else none
        | _ => none
  | .returns i =>
      (s.actors[i]?).bind fun t =>
        if s.asksOf i = [] then
          match t.phase with
          | .starting => some (s.updateActor i fun t => { t with phase := .receiving })
          | .handling _ => some (s.updateActor i fun t => { t with phase := .receiving })
          | .stopping => some (s.endActor i .returned)
          | .receiving => none
          | .ended _ => none
        else none
  | .panics i =>
      (s.actors[i]?).bind fun t =>
        if t.phase.inCallback then some (s.endActor i .panicked) else none
  | .aborted i =>
      (s.actors[i]?).bind fun t => if t.phase.live then some (s.endActor i .aborted) else none
  | .tick d => if s.timersAllow (s.clock + d) then some { s with clock := s.clock + d } else none

end ErlangActors.Actor
