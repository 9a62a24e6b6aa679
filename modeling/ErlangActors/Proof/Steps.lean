import ErlangActors.Actor.System

/-!
# The steps, one by one

`Takes` reads the step function backwards: for every event it says under what condition
the event is possible and what state it leads to. Every proof about a step is a case
analysis of it, so none has to take `step` apart again.
-/

namespace ErlangActors.Proof

open Actor Channel

variable {μ ρ : Type} {s s' : System μ ρ}

/-- The state in which `p` sends `m`: the reply senders `m` carries have been moved into it. -/
def calling (s : System μ ρ) (p : Party) (m : Msg μ) : System μ ρ :=
  s.updateHand p fun h => h.without m.carries.replies

theorem updateHand_asks (s : System μ ρ) (p : Party) (f : Holding → Holding) :
    (s.updateHand p f).asks = s.asks := by cases p <;> rfl

theorem calling_asks (s : System μ ρ) (p : Party) (m : Msg μ) : (calling s p m).asks = s.asks :=
  updateHand_asks s p _

/-- From `s` the event leads to the state given, and the conditions on it are met. -/
inductive Takes (s : System μ ρ) : Event μ ρ → System μ ρ → Prop where
  | spawn (p : Party) (mailboxBound : Nat) (hp : s.active p = true) (hbound : 0 < mailboxBound) :
      Takes s (.spawn p mailboxBound) (s.spawn p mailboxBound)
  | cloneAddr (p : Party) (a : ActorId) (ha : a ∈ s.addrsOf p) :
      Takes s (.cloneAddr p a) (s.updateHand p fun h => { h with addrs := h.addrs ++ [a] })
  | dropAddr (p : Party) (a : ActorId) (hp : s.active p = true) :
      Takes s (.dropAddr p a) (s.updateHand p fun h => { h with addrs := h.addrs.erase a })
  | replaceSelf (i a : ActorId) (t : ActorTask μ) (ht : s.actors[i]? = some t)
      (hin : t.phase.inCallback = true) (ha : a ∈ t.hand.addrs) :
      Takes s (.replaceSelf i a)
        (s.updateActor i fun t =>
          { t with
            selfAddr := a
            hand := { t.hand with addrs := t.hand.addrs.erase a ++ [t.selfAddr] } })
  | pass (p q : Party) (c : Holding) (hp : s.active p = true) (howns : s.owns p c = true)
      (hq : s.active q = true) :
      Takes s (.pass p q c)
        ((s.updateHand p fun h => h.without c.replies).updateHand q fun h => h.add c)
  | tell (p : Party) (a : ActorId) (m : Msg μ) (ha : a ∈ s.addrsOf p)
      (howns : s.owns p m.carries = true) {s' : System μ ρ}
      (h : (calling s p m).tellOrDrop a m = some s') : Takes s (.tell p a m) s'
  | ask (p : Party) (a : ActorId) (m : Msg μ) (dur : Nat) (ha : a ∈ s.addrsOf p)
      (howns : s.owns p m.carries = true) {s' : System μ ρ}
      (h : (calling s p m).ask p a m dur = some s') : Takes s (.ask p a m dur) s'
  | askSends (k : AskId) {s' : System μ ρ} (h : s.askSends k = some s') : Takes s (.askSends k) s'
  | askResolves (k : AskId) {s' : System μ ρ} (h : s.askResolves k = some s') :
      Takes s (.askResolves k) s'
  | askTimesOut (k : AskId) {s' : System μ ρ} (h : s.askTimesOut k = some s') :
      Takes s (.askTimesOut k) s'
  | dropAsk (k : AskId) (q : Ask μ ρ) (hq : s.asks[k]? = some q) (hp : s.active q.caller = true) :
      Takes s (.dropAsk k) (s.dropAsk k)
  | reply (p : Party) (k : AskId) (r : ρ) (hk : k ∈ s.repliesOf p) :
      Takes s (.reply p k r)
        ((s.updateHand p fun h => h.without [k]).updateAsk k fun q => q.reply r)
  | dropReply (p : Party) (k : AskId) (hk : k ∈ s.repliesOf p) :
      Takes s (.dropReply p k) ((s.updateHand p fun h => h.without [k]).dropReplies [k])
  | recv (i : ActorId) (t t' : ActorTask μ) (ht : s.actors[i]? = some t)
      (hrecv : t.recv = some t') : Takes s (.recv i) (s.updateActor i fun _ => t')
  | recvNone (i : ActorId) (t : ActorTask μ) (ht : s.actors[i]? = some t)
      (hph : t.phase = .receiving) (hqueue : t.mailbox.queue = []) (hnone : i ∉ s.allAddrs) :
      Takes s (.recvNone i) (s.updateActor i fun t => { t with phase := .stopping })
  | started (i : ActorId) (t : ActorTask μ) (ht : s.actors[i]? = some t)
      (hph : t.phase = .starting) (hasks : s.asksOf i = []) :
      Takes s (.returns i) (s.updateActor i fun t => { t with phase := .receiving })
  | handled (i : ActorId) (t : ActorTask μ) (m : Msg μ) (ht : s.actors[i]? = some t)
      (hph : t.phase = .handling m) (hasks : s.asksOf i = []) :
      Takes s (.returns i) (s.updateActor i fun t => { t with phase := .receiving })
  | stopped (i : ActorId) (t : ActorTask μ) (ht : s.actors[i]? = some t)
      (hph : t.phase = .stopping) (hasks : s.asksOf i = []) :
      Takes s (.returns i) (s.endActor i .returned)
  | panics (i : ActorId) (t : ActorTask μ) (ht : s.actors[i]? = some t)
      (hin : t.phase.inCallback = true) : Takes s (.panics i) (s.endActor i .panicked)
  | aborted (i : ActorId) (t : ActorTask μ) (ht : s.actors[i]? = some t)
      (hlive : t.phase.live = true) : Takes s (.aborted i) (s.endActor i .aborted)
  | tick (d : Nat) (hallow : s.timersAllow (s.clock + d) = true) :
      Takes s (.tick d) { s with clock := s.clock + d }

theorem step_takes {e : Event μ ρ} (h : step s e = some s') : Takes s e s' := by
  cases e with
  | spawn p mailboxBound =>
      rw [step, Option.ite_none_right_eq_some] at h
      exact Option.some.inj h.2 ▸ .spawn p mailboxBound h.1.1 h.1.2
  | cloneAddr p a =>
      rw [step, Option.ite_none_right_eq_some] at h
      exact Option.some.inj h.2 ▸ .cloneAddr p a h.1
  | dropAddr p a =>
      rw [step, Option.ite_none_right_eq_some] at h
      exact Option.some.inj h.2 ▸ .dropAddr p a h.1
  | replaceSelf i a =>
      rw [step, Option.bind_eq_some_iff] at h
      obtain ⟨t, ht, h⟩ := h
      rw [Option.ite_none_right_eq_some] at h
      exact Option.some.inj h.2 ▸ .replaceSelf i a t ht h.1.1 h.1.2
  | pass p q c =>
      rw [step, Option.ite_none_right_eq_some] at h
      exact Option.some.inj h.2 ▸ .pass p q c h.1.1 h.1.2.1 h.1.2.2
  | tell p a m =>
      rw [step, Option.ite_none_right_eq_some] at h
      exact .tell p a m h.1.1 h.1.2 h.2
  | ask p a m dur =>
      rw [step, Option.ite_none_right_eq_some] at h
      exact .ask p a m dur h.1.1 h.1.2 h.2
  | askSends k => exact .askSends k h
  | askResolves k => exact .askResolves k h
  | askTimesOut k => exact .askTimesOut k h
  | dropAsk k =>
      rw [step, Option.bind_eq_some_iff] at h
      obtain ⟨q, hq, h⟩ := h
      rw [Option.ite_none_right_eq_some] at h
      exact Option.some.inj h.2 ▸ .dropAsk k q hq h.1
  | reply p k r =>
      rw [step, Option.ite_none_right_eq_some] at h
      exact Option.some.inj h.2 ▸ .reply p k r h.1
  | dropReply p k =>
      rw [step, Option.ite_none_right_eq_some] at h
      exact Option.some.inj h.2 ▸ .dropReply p k h.1
  | recv i =>
      rw [step, Option.bind_eq_some_iff] at h
      obtain ⟨t, ht, h⟩ := h
      obtain ⟨t', hrecv, rfl⟩ := Option.map_eq_some_iff.mp h
      exact .recv i t t' ht hrecv
  | recvNone i =>
      rw [step, Option.bind_eq_some_iff] at h
      obtain ⟨t, ht, h⟩ := h
      split at h
      · rename_i hph
        rw [Option.ite_none_right_eq_some] at h
        exact Option.some.inj h.2 ▸ .recvNone i t ht hph (List.isEmpty_iff.mp h.1.1) h.1.2
      · exact absurd h (by simp)
  | returns i =>
      rw [step, Option.bind_eq_some_iff] at h
      obtain ⟨t, ht, h⟩ := h
      rw [Option.ite_none_right_eq_some] at h
      obtain ⟨hasks, h⟩ := h
      split at h
      · rename_i hph
        exact Option.some.inj h ▸ .started i t ht hph hasks
      · rename_i m hph
        exact Option.some.inj h ▸ .handled i t m ht hph hasks
      · rename_i hph
        exact Option.some.inj h ▸ .stopped i t ht hph hasks
      · exact absurd h (by simp)
      · exact absurd h (by simp)
  | panics i =>
      rw [step, Option.bind_eq_some_iff] at h
      obtain ⟨t, ht, h⟩ := h
      rw [Option.ite_none_right_eq_some] at h
      exact Option.some.inj h.2 ▸ .panics i t ht h.1
  | aborted i =>
      rw [step, Option.bind_eq_some_iff] at h
      obtain ⟨t, ht, h⟩ := h
      rw [Option.ite_none_right_eq_some] at h
      exact Option.some.inj h.2 ▸ .aborted i t ht h.1
  | tick d =>
      rw [step, Option.ite_none_right_eq_some] at h
      exact Option.some.inj h.2 ▸ .tick d h.1

end ErlangActors.Proof
