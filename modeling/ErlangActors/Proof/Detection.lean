import ErlangActors.Proof.Pace

/-!
# How long a heartbeat monitor takes

A period of the loop is at most a ping timeout and a ping interval, and the runtime may be
late twice in it. So a target that answers no more has been reported after as many periods
as it takes misses, and one that has ended after a single one: `latestReport` and `latestGone`
are when, and no step moves them back. `earliest` is the same from below: the
first moment at which enough misses in a row can have been counted.
-/

namespace ErlangActors.Proof

open Monitoring Transition Channel

variable {p : Pace} {t t' : Timed} {e : TimedEvent}

/-! ## From above -/

/-- One iteration of the loop, at its longest. -/
def period (p : Pace) : Nat := p.pingTimeout + p.pingInterval + 2 * p.lag

/-- How many misses it can still take without declaring down. -/
def missesLeft (p : Pace) (t : Timed) : Nat :=
  missWindow p.missThreshold - 1 - t.watched.watcher.misses.toNat

/-- When the target is reported at the latest, if it answers no more. -/
def latestReport (p : Pace) (t : Timed) : Nat :=
  match t.pc with
  | .pinging => t.due + p.lag + missesLeft p t * period p + (p.pingTimeout + p.lag)
  | .sleeping => t.due + p.lag + missesLeft p t * period p + (p.pingTimeout + p.lag)
  | .awaiting =>
      -- an answer that is there is read, and the count starts again
      if holdsAnswer t.watched.replies.getLast? then
        t.due + p.lag + missWindow p.missThreshold * period p
      else t.due + p.lag + missesLeft p t * period p
  | .returned => 0
  | .overflowed => 0

theorem latestReport_resting (hpc : t.pc = .pinging ∨ t.pc = .sleeping) :
    latestReport p t = t.due + p.lag + missesLeft p t * period p + (p.pingTimeout + p.lag) := by
  unfold latestReport
  rcases hpc with hpc | hpc
  · rw [hpc]
  · rw [hpc]

theorem latestReport_awaiting (hpc : t.pc = .awaiting) :
    latestReport p t = t.due + p.lag + if holdsAnswer t.watched.replies.getLast? = true then
      missWindow p.missThreshold * period p else missesLeft p t * period p := by
  unfold latestReport
  rw [hpc]
  simp only
  split <;> rfl

/-- A miss uses up an iteration, -/
theorem missesLeft_miss {x : Timed} (d : Nat)
    (hm : x.watched.watcher.misses.toNat = t.watched.watcher.misses.toNat + 1)
    (hlt : x.watched.watcher.misses.toNat < missWindow p.missThreshold) :
    missesLeft p x * d + d = missesLeft p t * d := by
  have hstep : missesLeft p t = missesLeft p x + 1 := by
    unfold missesLeft
    omega
  rw [hstep, Nat.succ_mul]

/-- and there are never more left than the threshold allows. -/
theorem missesLeft_lt (p : Pace) (t : Timed) (d : Nat) :
    missesLeft p t * d + d ≤ missWindow p.missThreshold * d := by
  rw [← Nat.succ_mul]
  refine Nat.mul_le_mul_right d ?_
  have hpos := missWindow_pos p.missThreshold
  unfold missesLeft
  omega

theorem clock_le_latestReport (h : Regular p t) (hlive : t.pc.live = true) :
    t.clock ≤ latestReport p t := by
  have hprompt := h.prompt hlive
  cases hpc : t.pc with
  | pinging => rw [latestReport_resting (Or.inl hpc)]; omega
  | sleeping => rw [latestReport_resting (Or.inr hpc)]; omega
  | awaiting => rw [latestReport_awaiting hpc]; omega
  | returned => rw [hpc] at hlive; exact Bool.noConfusion hlive
  | overflowed => rw [hpc] at hlive; exact Bool.noConfusion hlive

/-- That is as many periods away as it takes misses. -/
theorem latestReport_le (h : Regular p t) (hlive : t.pc.live = true) :
    latestReport p t ≤ t.clock + (missWindow p.missThreshold * period p + p.lag) := by
  have hleft := missesLeft_lt p t (period p)
  have hperiod : period p = p.pingTimeout + p.pingInterval + 2 * p.lag := rfl
  cases hpc : t.pc with
  | pinging =>
      have hdue := h.pinging hpc
      rw [latestReport_resting (Or.inl hpc)]
      omega
  | sleeping =>
      have hdue := h.sleeping hpc
      rw [latestReport_resting (Or.inr hpc)]
      omega
  | awaiting =>
      have hdue := h.awaiting hpc
      rw [latestReport_awaiting hpc]
      split
      · rename_i hans
        have hready := h.resolved hpc (resolved_of_holdsAnswer hans)
        omega
      · omega
  | returned => rw [hpc] at hlive; exact Bool.noConfusion hlive
  | overflowed => rw [hpc] at hlive; exact Bool.noConfusion hlive

/-- The end of an iteration is no later than it could have been. -/
theorem latestReport_settled {s : Watched} {w : Heartbeat} {o : PingOutcome} (h : Regular p t)
    (hlive : t.pc.live = true) (hpc : t.pc ≠ .sleeping)
    (hmisses : w.misses = t.watched.watcher.misses)
    (hs : s.watcher = w.settle p.missThreshold o) (hlive' : s.watcher.pc.live = true) :
    latestReport p { t with watched := s, due := t.rearm p s }
      ≤ t.clock + if o = .pong then missWindow p.missThreshold * period p
        else missesLeft p t * period p := by
  have hend := concluded (n := p.missThreshold) (w := w) (by rw [hmisses]; exact h.within hlive) o
  have hperiod : period p = p.pingTimeout + p.pingInterval + 2 * p.lag := rfl
  rw [← hs] at hend
  cases hend with
  | asleep hsleep _ hlt hcount =>
      have hdue : t.rearm p s = t.clock + p.pingInterval := rearm_asleep hpc hsleep
      have hlatest : latestReport p { t with watched := s, due := t.rearm p s }
          = t.rearm p s + p.lag
            + missesLeft p { t with watched := s, due := t.rearm p s } * period p
            + (p.pingTimeout + p.lag) := latestReport_resting (Or.inr hsleep)
      rcases hcount with ⟨rfl, _⟩ | ⟨hmiss, hup⟩
      · rw [if_pos rfl]
        -- an answer: all misses are left, and a period has gone by
        have := missesLeft_lt p { t with watched := s, due := t.rearm p s } (period p)
        omega
      · -- a miss: one less is left
        have hne : o ≠ .pong := by
          rintro rfl
          exact Bool.noConfusion hmiss
        rw [if_neg hne]
        have := missesLeft_miss (t := t) (x := { t with watched := s, due := t.rearm p s })
          (period p) (hup.trans (by rw [hmisses])) hlt
        omega
  | returned r hover _ _ =>
      rw [hover] at hlive'
      exact Bool.noConfusion hlive'

/-- The step is no answer of the target's. -/
def NoAnswer (e : TimedEvent) : Prop := ∀ id, e ≠ .act (.answer id)

/-- **No step but an answer moves the report back.** -/
theorem latestReport_step (h : Regular p t) (hs : t.step p e = some t') (hsilent : NoAnswer e)
    (hlive : t'.pc.live = true) : latestReport p t' ≤ latestReport p t := by
  have hprompt := h.prompt (live_of_step hs hlive)
  rcases timed_step hs with ⟨ev, s, rfl, hfired, hbeat, rfl⟩ | ⟨d, rfl, _, rfl⟩
  · cases hbeat with
    | told hpc _ hw hlast _ =>
        have hpc' : s.watcher.pc = .awaiting := by rw [hw]
        have hdue : t.rearm p s = t.clock + p.pingTimeout := rearm_told hpc hpc'
        have hleft : missesLeft p { t with watched := s, due := t.rearm p s } = missesLeft p t := by
          unfold missesLeft
          rw [hw]
        have hold := latestReport_resting (p := p) (Or.inl (show t.pc = .pinging from hpc))
        have hnew : latestReport p { t with watched := s, due := t.rearm p s }
            = t.rearm p s + p.lag + missesLeft p t * period p := by
          rw [latestReport_awaiting (t := { t with watched := s, due := t.rearm p s }) hpc',
            if_neg (by rw [hlast]; exact Bool.noConfusion), hleft]
        omega
    | refused o hpc hwhy hw _ =>
        have hpc' : t.pc = .pinging := hpc
        have hbound := latestReport_settled (o := o)
          (w := { t.watched.watcher with pings := t.watched.watcher.pings + 1 }) h
          (by rw [hpc']; rfl) (by rw [hpc']; exact HeartbeatPc.noConfusion) rfl hw hlive
        -- a ping that does not get in is no answer
        have hne : o ≠ .pong := by
          rintro rfl
          rcases hwhy with hgone | ⟨⟨capacity, hfull⟩, _⟩
          · exact PingOutcome.noConfusion hgone
          · exact PingOutcome.noConfusion hfull
        rw [if_neg hne] at hbound
        have hold := latestReport_resting (p := p) (Or.inl hpc')
        omega
    | heard _ o hpc hwhy hw _ =>
        have hpc' : t.pc = .awaiting := hpc
        have hbound := latestReport_settled (o := o) h (by rw [hpc']; rfl)
          (by rw [hpc']; exact HeartbeatPc.noConfusion) rfl hw hlive
        have hleft := missesLeft_lt p t (period p)
        rw [latestReport_awaiting hpc']
        -- an answer that was on its way counts as one; whatever else is read is a miss
        by_cases hans : holdsAnswer t.watched.replies.getLast? = true
        · rw [if_pos hans]
          split at hbound <;> omega
        · have hne : o ≠ .pong := by
            rintro rfl
            rcases hwhy with ⟨_, _, ⟨_, hyes⟩ | hno⟩ | ⟨_, hno, _⟩
            · exact hans hyes
            · exact PingOutcome.noConfusion hno
            · exact PingOutcome.noConfusion hno
          rw [if_neg hans]
          rw [if_neg hne] at hbound
          omega
    | woke hpc hw _ =>
        have hpc' : s.watcher.pc = .pinging := by rw [hw]
        have hdue : t.rearm p s = t.due := rearm_pinging hpc'
        have hleft : missesLeft p { t with watched := s, due := t.rearm p s } = missesLeft p t := by
          unfold missesLeft
          rw [hw]
        have hold := latestReport_resting (p := p) (Or.inr (show t.pc = .sleeping from hpc))
        have hnew : latestReport p { t with watched := s, due := t.rearm p s }
            = t.rearm p s + p.lag + missesLeft p t * period p + (p.pingTimeout + p.lag) := by
          rw [latestReport_resting (t := { t with watched := s, due := t.rearm p s })
            (Or.inl hpc'), hleft]
        omega
    | others _ _ hw _ haged =>
        obtain ⟨hless, _, _, _⟩ := rearm_others (p := p) (s := s) hw
        have hpc' : Timed.pc { t with watched := s, due := t.rearm p s } = t.pc :=
          congrArg Heartbeat.pc hw
        have hleft : missesLeft p { t with watched := s, due := t.rearm p s } = missesLeft p t := by
          unfold missesLeft
          rw [hw]
        have hmost := missesLeft_lt p t (period p)
        -- nobody answers now, so an answer on its way was there before
        have hans : holdsAnswer s.replies.getLast? = true →
            holdsAnswer t.watched.replies.getLast? = true :=
          haged.2.1 fun id hid => hsilent id (congrArg TimedEvent.act hid)
        unfold latestReport
        rw [hpc', hleft]
        cases hpc : t.pc with
        | pinging => simp only; omega
        | sleeping => simp only; omega
        | awaiting =>
            simp only
            by_cases hans' : holdsAnswer s.replies.getLast? = true
            · rw [if_pos hans', if_pos (hans hans')]
              omega
            · rw [if_neg hans']
              split <;> omega
        | returned => exact Nat.le_refl _
        | overflowed => exact Nat.le_refl _
  · exact Nat.le_refl _

/-! ## A target that has ended -/

/-- When it is reported at the latest. -/
def latestGone (p : Pace) (t : Timed) : Nat :=
  match t.pc with
  | .pinging => t.due + p.lag
  | .sleeping => t.due + p.lag
  | .awaiting => t.due + p.lag + (p.pingInterval + p.lag)
  | .returned => 0
  | .overflowed => 0

theorem latestGone_resting (hpc : t.pc = .pinging ∨ t.pc = .sleeping) :
    latestGone p t = t.due + p.lag := by
  unfold latestGone
  rcases hpc with hpc | hpc
  · rw [hpc]
  · rw [hpc]

theorem latestGone_awaiting (hpc : t.pc = .awaiting) :
    latestGone p t = t.due + p.lag + (p.pingInterval + p.lag) := by
  unfold latestGone
  rw [hpc]

theorem clock_le_latestGone (h : Regular p t) (hlive : t.pc.live = true) :
    t.clock ≤ latestGone p t := by
  have hprompt := h.prompt hlive
  cases hpc : t.pc with
  | pinging => rw [latestGone_resting (Or.inl hpc)]; omega
  | sleeping => rw [latestGone_resting (Or.inr hpc)]; omega
  | awaiting => rw [latestGone_awaiting hpc]; omega
  | returned => rw [hpc] at hlive; exact Bool.noConfusion hlive
  | overflowed => rw [hpc] at hlive; exact Bool.noConfusion hlive

/-- That is a period away. -/
theorem latestGone_le (h : Regular p t) (hlive : t.pc.live = true) :
    latestGone p t ≤ t.clock + period p := by
  have hperiod : period p = p.pingTimeout + p.pingInterval + 2 * p.lag := rfl
  cases hpc : t.pc with
  | pinging =>
      have hdue := h.pinging hpc
      rw [latestGone_resting (Or.inl hpc)]
      omega
  | sleeping =>
      have hdue := h.sleeping hpc
      rw [latestGone_resting (Or.inr hpc)]
      omega
  | awaiting =>
      have hdue := h.awaiting hpc
      rw [latestGone_awaiting hpc]
      omega
  | returned => rw [hpc] at hlive; exact Bool.noConfusion hlive
  | overflowed => rw [hpc] at hlive; exact Bool.noConfusion hlive

/-- A mailbox that has closed stays closed. -/
theorem closed_step (hs : t.step p e = some t') (hclosed : t.watched.mailbox.closed = true) :
    t'.watched.mailbox.closed = true := by
  rcases timed_step hs with ⟨ev, s, rfl, _, hbeat, rfl⟩ | ⟨d, rfl, _, rfl⟩
  · cases hbeat with
    | told _ hopen => exact Bool.noConfusion (hopen.symm.trans hclosed)
    | refused _ _ _ _ hmail => exact (congrArg Chan.closed hmail).trans hclosed
    | heard _ _ _ _ _ hmail => exact (congrArg Chan.closed hmail).trans hclosed
    | woke _ _ hmail => exact (congrArg Chan.closed hmail).trans hclosed
    | others _ _ _ hstays => exact hstays hclosed
  · exact hclosed

/-- **And no step moves it back**: a ping to a closed mailbox is the last one. -/
theorem latestGone_step (h : Regular p t) (hclosed : t.watched.mailbox.closed = true)
    (hs : t.step p e = some t') (hlive : t'.pc.live = true) : latestGone p t' ≤ latestGone p t := by
  have hlive₀ := live_of_step hs hlive
  have hprompt := h.prompt hlive₀
  rcases timed_step hs with ⟨ev, s, rfl, _, hbeat, rfl⟩ | ⟨d, rfl, _, rfl⟩
  · have hlive' : s.watcher.pc.live = true := hlive
    cases hbeat with
    | told _ hopen => exact Bool.noConfusion (hopen.symm.trans hclosed)
    | refused o _ hwhy hw _ =>
        -- a closed mailbox answers a ping at once, and that ends the loop
        have hgone : o = .gone := by
          rcases hwhy with hgone | ⟨_, hopen, _⟩
          · exact hgone
          · exact Bool.noConfusion (hopen.symm.trans hclosed)
        have hend := concluded (o := o) (n := p.missThreshold)
          (w := { t.watched.watcher with pings := t.watched.watcher.pings + 1 }) (h.within hlive₀)
        rw [← hw] at hend
        cases hend with
        | asleep _ _ _ hcount =>
            rw [hgone] at hcount
            rcases hcount with ⟨hpong, _⟩ | ⟨hmiss, _⟩
            · exact PingOutcome.noConfusion hpong
            · exact Bool.noConfusion hmiss
        | returned _ hover =>
            rw [hover] at hlive'
            exact Bool.noConfusion hlive'
    | heard _ o hpc _ hw _ =>
        have hend := concluded (o := o) (n := p.missThreshold) (h.within hlive₀)
        rw [← hw] at hend
        cases hend with
        | asleep hsleep =>
            have hdue : t.rearm p s = t.clock + p.pingInterval :=
              rearm_asleep (by rw [show t.pc = .awaiting from hpc]; exact HeartbeatPc.noConfusion)
                hsleep
            have hnew : latestGone p { t with watched := s, due := t.rearm p s }
                = t.rearm p s + p.lag := latestGone_resting (Or.inr hsleep)
            have hold := latestGone_awaiting (p := p) (show t.pc = .awaiting from hpc)
            omega
        | returned _ hover =>
            rw [hover] at hlive'
            exact Bool.noConfusion hlive'
    | woke hpc hw _ =>
        have hpc' : s.watcher.pc = .pinging := by rw [hw]
        have hdue : t.rearm p s = t.due := rearm_pinging hpc'
        have hnew : latestGone p { t with watched := s, due := t.rearm p s }
            = t.rearm p s + p.lag := latestGone_resting (Or.inl hpc')
        have hold := latestGone_resting (p := p) (Or.inr (show t.pc = .sleeping from hpc))
        omega
    | others _ _ hw _ _ =>
        obtain ⟨hless, _, _, _⟩ := rearm_others (p := p) (s := s) hw
        have hpc' : Timed.pc { t with watched := s, due := t.rearm p s } = t.pc :=
          congrArg Heartbeat.pc hw
        unfold latestGone
        rw [hpc']
        cases t.pc with
        | pinging => exact Nat.add_le_add_right hless _
        | sleeping => exact Nat.add_le_add_right hless _
        | awaiting => exact Nat.add_le_add_right (Nat.add_le_add_right hless _) _
        | returned => exact Nat.le_refl _
        | overflowed => exact Nat.le_refl _
  · exact Nat.le_refl _

/-! ## Time goes on -/

/-- Nobody else has taken the step. -/
def Alone : TimedEvent → Prop
  | .act ev => ofWatcher ev = true
  | .tick _ => True

theorem Alone.noAnswer (h : Alone e) : NoAnswer e := by
  rintro id rfl
  exact Bool.noConfusion h

/-- A run of such steps ends `d` later. -/
def Elapses (p : Pace) (t : Timed) (d : Nat) : Prop :=
  ∃ tr t', Run (Timed.step p) t tr t' ∧ (∀ x ∈ tr, Alone x.2) ∧ t'.clock = t.clock + d

theorem elapses_tick (h : t.pc.live = true → t.clock + 1 ≤ t.due + p.lag) : Elapses p t 1 := by
  have hs : t.step p (.tick 1) = some { t with clock := t.clock + 1 } := by
    rw [Timed.step, if_pos h]
  refine ⟨_, _, Run.snoc Run.nil hs, fun x hx => ?_, rfl⟩
  obtain rfl := List.mem_singleton.mp hx
  exact trivial

/-- A step of the watcher's comes first. -/
theorem elapses_cons {d : Nat} (hs : t.step p e = some t') (he : Alone e)
    (hclock : t'.clock = t.clock) (h : Elapses p t' d) : Elapses p t d := by
  obtain ⟨tr, t'', hrun, hown, hend⟩ := h
  refine ⟨_, t'', Run.cons hs hrun, fun x hx => ?_, by rw [hend, hclock]⟩
  rcases List.mem_cons.mp hx with rfl | hx
  · exact he
  · exact hown x hx

/-- Time passes in an iteration that has been settled: the watcher sleeps, or is done. -/
theorem elapses_settled {s : Watched} {w : Heartbeat} {o : PingOutcome} (h : Regular p t)
    (hpace : 0 < p.pingInterval + p.lag) (hlive : t.pc.live = true) (hpc : t.pc ≠ .sleeping)
    (hmisses : w.misses = t.watched.watcher.misses)
    (hw : s.watcher = w.settle p.missThreshold o) :
    Elapses p { t with watched := s, due := t.rearm p s } 1 := by
  refine elapses_tick fun hl => ?_
  have hend := concluded (n := p.missThreshold) (w := w) (by rw [hmisses]; exact h.within hlive) o
  rw [← hw] at hend
  have hl' : s.watcher.pc.live = true := hl
  cases hend with
  | asleep hsleep =>
      have hdue : t.rearm p s = t.clock + p.pingInterval := rearm_asleep hpc hsleep
      show t.clock + 1 ≤ t.rearm p s + p.lag
      omega
  | returned _ hover =>
      rw [hover] at hl'
      exact Bool.noConfusion hl'

theorem elapses_awaiting (h : Regular p t) (hpace : 0 < p.pingInterval + p.lag)
    (hpc : t.pc = .awaiting) (hready : t.due ≤ t.clock) : Elapses p t 1 := by
  have hlive : t.pc.live = true := by rw [hpc]; rfl
  have hne : t.pc ≠ .sleeping := by rw [hpc]; exact HeartbeatPc.noConfusion
  have hpc' : t.watched.watcher.pc = .awaiting := hpc
  obtain ⟨reply, hlast⟩ := Option.isSome_iff_exists.mp
    (List.getLast?_isSome.mpr (h.asked hpc))
  -- however the wait ends, the iteration does, and a sleep follows
  have hread : ∀ (o : PingOutcome) (ev : TargetEvent), ofWatcher ev = true →
      t.fired ev = true → t.watched.step p.missThreshold ev
        = some { t.watched with watcher := t.watched.watcher.settle p.missThreshold o } →
      Elapses p t 1 := by
    intro o ev hown hfired hs
    have hs' : t.step p (.act ev) = some
        { t with
          watched := { t.watched with watcher := t.watched.watcher.settle p.missThreshold o }
          due := t.rearm p
            { t.watched with watcher := t.watched.watcher.settle p.missThreshold o } } := by
      rw [Timed.step, if_pos hfired, hs]
      rfl
    exact elapses_cons hs' hown rfl (elapses_settled h hpace hlive hne rfl rfl)
  cases reply with
  | empty =>
      refine hread .replyTimeout .timeOut rfl (decide_eq_true hready) ?_
      rw [Watched.step, Watched.timeOut, hlast]
      simp only [Option.bind_some, Heartbeat.step, if_pos hpc', Option.map_some]
  | sent r =>
      refine hread .pong .readReply rfl rfl ?_
      rw [Watched.step, Watched.readReply, hlast]
      simp only [Option.bind_some, Heartbeat.step, if_pos hpc', Option.map_some]
  | senderDropped =>
      refine hread .replyDropped .readReply rfl rfl ?_
      rw [Watched.step, Watched.readReply, hlast]
      simp only [Option.bind_some, Heartbeat.step, if_pos hpc', Option.map_some]

theorem elapses_pinging (h : Regular p t) (hpace : 0 < p.pingInterval + p.lag)
    (hpc : t.pc = .pinging) : Elapses p t 1 := by
  have hpc' : t.watched.watcher.pc = .pinging := hpc
  have htell : ∃ s, t.watched.tellPing p.missThreshold = some s := by
    unfold Watched.tellPing
    split
    · exact ⟨_, by rw [Heartbeat.step, if_pos hpc']; rfl⟩
    · exact ⟨_, by rw [Heartbeat.step, if_pos hpc']; rfl⟩
    · exact ⟨_, by rw [Heartbeat.step, if_pos hpc']; rfl⟩
  obtain ⟨s, hs⟩ := htell
  have hs' : t.step p (.act .tellPing) = some { t with watched := s, due := t.rearm p s } := by
    rw [Timed.step, if_pos (show t.fired .tellPing = true from rfl), Watched.step, hs]
    rfl
  refine elapses_cons hs' rfl rfl ?_
  have hreg := regular_step h hs'
  cases beat_tellPing hs with
  | told _ _ hw _ _ =>
      have haw : Timed.pc { t with watched := s, due := t.rearm p s } = .awaiting := by
        show s.watcher.pc = .awaiting
        rw [hw]
      by_cases hready : t.rearm p s ≤ t.clock
      · exact elapses_awaiting hreg hpace haw hready
      · refine elapses_tick fun _ => ?_
        show t.clock + 1 ≤ t.rearm p s + p.lag
        omega
  | refused o _ _ hw _ =>
      refine elapses_settled (w := { t.watched.watcher with pings := t.watched.watcher.pings + 1 })
        h hpace ?_ ?_ rfl hw
      · rw [hpc]; rfl
      · rw [hpc]; exact HeartbeatPc.noConfusion
  | heard _ _ hc => exact HeartbeatPc.noConfusion (hpc'.symm.trans hc)
  | others _ hothers => exact Bool.noConfusion hothers

theorem elapses_one (h : Regular p t) (hpace : 0 < p.pingInterval + p.lag) : Elapses p t 1 := by
  by_cases hroom : t.pc.live = true → t.clock + 1 ≤ t.due + p.lag
  · exact elapses_tick hroom
  · obtain ⟨hlive, hfull⟩ := Classical.not_imp.mp hroom
    have hready : t.due ≤ t.clock := by omega
    cases hpc : t.pc with
    | pinging => exact elapses_pinging h hpace hpc
    | awaiting => exact elapses_awaiting h hpace hpc hready
    | sleeping =>
        have hpc' : t.watched.watcher.pc = .sleeping := hpc
        have hs : t.step p (.act .wake) = some
            { t with
              watched := { t.watched with watcher := { t.watched.watcher with pc := .pinging } }
              due := t.due } := by
          rw [Timed.step, if_pos (show t.fired .wake = true from decide_eq_true hready),
            Watched.step, Heartbeat.step, if_pos hpc']
          rfl
        exact elapses_cons hs rfl rfl (elapses_pinging (regular_step h hs) hpace rfl)
    | returned => rw [hpc] at hlive; exact Bool.noConfusion hlive
    | overflowed => rw [hpc] at hlive; exact Bool.noConfusion hlive

theorem regular_run {tr : List (Timed × TimedEvent)} (h : Regular p t)
    (hr : Run (Timed.step p) t tr t') : Regular p t' :=
  hr.invariant h fun _ _ _ hx hs => regular_step hx hs

/-- **Time goes on**, whatever the others do not do: the watcher's loop is never in its way. -/
theorem elapses_any (h : Regular p t) (hpace : 0 < p.pingInterval + p.lag) (d : Nat) :
    Elapses p t d := by
  induction d with
  | zero => exact ⟨[], t, Run.nil, fun x hx => absurd hx List.not_mem_nil, rfl⟩
  | succ d ih =>
      obtain ⟨tr, t₁, hrun, hown, hclock⟩ := ih
      obtain ⟨tr', t₂, hrun', hown', hclock'⟩ := elapses_one (regular_run h hrun) hpace
      refine ⟨tr ++ tr', t₂, hrun.append hrun', fun x hx => ?_, by omega⟩
      rcases List.mem_append.mp hx with hx | hx
      · exact hown x hx
      · exact hown' x hx

/-! ## From below -/

/-- When so many misses in a row can have come at the earliest that the target is declared
down, if each takes at least `a`. -/
def earliest (p : Pace) (a : Nat) (t : Timed) : Nat :=
  match t.pc with
  | .pinging => t.due + missesLeft p t * (a + p.pingInterval) + a
  | .sleeping => t.due + missesLeft p t * (a + p.pingInterval) + a
  | .awaiting =>
      -- the count starts again; or the ping was told a timeout before the timer
      if resolved t.watched.replies.getLast? then
        t.due + missWindow p.missThreshold * (a + p.pingInterval)
      else t.due + a + missesLeft p t * (a + p.pingInterval) - p.pingTimeout
  | .returned => 0
  | .overflowed => 0

theorem earliest_resting {a : Nat} (hpc : t.pc = .pinging ∨ t.pc = .sleeping) :
    earliest p a t = t.due + missesLeft p t * (a + p.pingInterval) + a := by
  unfold earliest
  rcases hpc with hpc | hpc
  · rw [hpc]
  · rw [hpc]

theorem earliest_awaiting {a : Nat} (hpc : t.pc = .awaiting) :
    earliest p a t = if resolved t.watched.replies.getLast? = true then
      t.due + missWindow p.missThreshold * (a + p.pingInterval)
      else t.due + a + missesLeft p t * (a + p.pingInterval) - p.pingTimeout := by
  unfold earliest
  rw [hpc]

/-- The target has not been declared down for its silence before the time `b`, and will not
be. -/
def NotBefore (p : Pace) (a b : Nat) (t : Timed) : Prop :=
  (t.pc.live = true → b ≤ earliest p a t)
    ∧ (.heartbeatTimeout ∈ t.watched.watcher.sent → b ≤ t.clock)

/-- The end of an iteration is no earlier than it could have been. -/
theorem notBefore_settled {a b : Nat} {s : Watched} {w : Heartbeat} {o : PingOutcome}
    (h : Regular p t) (hlive : t.pc.live = true) (hpc : t.pc ≠ .sleeping)
    (hmisses : w.misses = t.watched.watcher.misses) (hsent : w.sent = t.watched.watcher.sent)
    (hw : s.watcher = w.settle p.missThreshold o)
    (hpong : o = .pong → b ≤ t.clock + missWindow p.missThreshold * (a + p.pingInterval))
    (hmiss : missed (some o) = true → b ≤ t.clock + missesLeft p t * (a + p.pingInterval)) :
    NotBefore p a b { t with watched := s, due := t.rearm p s } := by
  have hend := concluded (n := p.missThreshold) (w := w) (by rw [hmisses]; exact h.within hlive) o
  have hquiet : w.sent = [] := hsent.trans (h.running hlive)
  rw [← hw] at hend
  cases hend with
  | asleep hsleep hsame hlt hcount =>
      have hdue : t.rearm p s = t.clock + p.pingInterval := rearm_asleep hpc hsleep
      have hnew : earliest p a { t with watched := s, due := t.rearm p s }
          = t.rearm p s + missesLeft p { t with watched := s, due := t.rearm p s }
            * (a + p.pingInterval) + a := earliest_resting (Or.inr hsleep)
      refine ⟨fun _ => ?_, fun hdown => ?_⟩
      · rw [hnew]
        rcases hcount with ⟨rfl, hzero⟩ | ⟨hm, hup⟩
        · have hall : missesLeft p { t with watched := s, due := t.rearm p s } + 1
              = missWindow p.missThreshold := by
            have hpos := missWindow_pos p.missThreshold
            unfold missesLeft
            rw [hzero]
            omega
          have hmul := Nat.succ_mul
            (missesLeft p { t with watched := s, due := t.rearm p s }) (a + p.pingInterval)
          rw [Nat.succ_eq_add_one, hall] at hmul
          have hb := hpong rfl
          omega
        · have hmul := missesLeft_miss (t := t) (x := { t with watched := s, due := t.rearm p s })
            (a + p.pingInterval) (hup.trans (by rw [hmisses])) hlt
          have hb := hmiss hm
          omega
      · have hdown' : DownReason.heartbeatTimeout ∈ s.watcher.sent := hdown
        rw [hsame, hquiet] at hdown'
        exact absurd hdown' List.not_mem_nil
  | returned r hover hone hr =>
      refine ⟨fun hl => ?_, fun hdown => ?_⟩
      · have hl' : s.watcher.pc.live = true := hl
        rw [hover] at hl'
        exact Bool.noConfusion hl'
      · have hdown' : DownReason.heartbeatTimeout ∈ s.watcher.sent := hdown
        rw [hone, hquiet] at hdown'
        obtain ⟨hm, hle⟩ := hr (List.mem_singleton.mp hdown').symm
        -- declared down: no miss was left
        have hnone : missesLeft p t = 0 := by
          unfold missesLeft
          rw [hmisses] at hle
          omega
        have hb := hmiss hm
        rw [hnone, Nat.zero_mul] at hb
        exact hb

/-- A ping comes back from no full mailbox. -/
def Roomy (t : Timed) (e : TimedEvent) : Prop :=
  e = .act .tellPing → t.watched.mailbox.full = false

/-- **No step brings the report forward.** -/
theorem notBefore_step {a b : Nat} (h : Regular p t) (hb : NotBefore p a b t)
    (ha : a ≤ p.pingTimeout) (hroom : a = 0 ∨ Roomy t e) (hs : t.step p e = some t') :
    NotBefore p a b t' := by
  rcases timed_step hs with ⟨ev, s, rfl, hfired, hbeat, rfl⟩ | ⟨d, rfl, _, rfl⟩
  · cases hbeat with
    | told hpc _ hw hlast _ =>
        have hlive : t.pc.live = true := by rw [show t.pc = .pinging from hpc]; rfl
        have hpc' : s.watcher.pc = .awaiting := by rw [hw]
        have hdue : t.rearm p s = t.clock + p.pingTimeout := rearm_told hpc hpc'
        have hready := h.pinging hpc
        have hleft : missesLeft p { t with watched := s, due := t.rearm p s } = missesLeft p t := by
          unfold missesLeft
          rw [hw]
        have hold := hb.1 hlive
        rw [earliest_resting (Or.inl hpc)] at hold
        have hnew : earliest p a { t with watched := s, due := t.rearm p s }
            = t.rearm p s + a + missesLeft p t * (a + p.pingInterval) - p.pingTimeout := by
          rw [earliest_awaiting (t := { t with watched := s, due := t.rearm p s }) hpc',
            if_neg (by rw [hlast]; exact Bool.noConfusion), hleft]
        refine ⟨fun _ => by omega, fun hdown => hb.2 ?_⟩
        have hdown' : DownReason.heartbeatTimeout ∈ s.watcher.sent := hdown
        rw [hw] at hdown'
        exact hdown'
    | refused o hpc hwhy hw _ =>
        have hpc' : t.pc = .pinging := hpc
        have hlive : t.pc.live = true := by rw [hpc']; rfl
        have hready := h.pinging hpc
        have hold := hb.1 hlive
        rw [earliest_resting (Or.inl hpc)] at hold
        refine notBefore_settled (o := o)
          (w := { t.watched.watcher with pings := t.watched.watcher.pings + 1 }) h hlive
          (by rw [hpc']; exact HeartbeatPc.noConfusion) rfl rfl hw ?_ ?_
        · rintro rfl
          rcases hwhy with hgone | ⟨⟨capacity, hfull⟩, _⟩
          · exact PingOutcome.noConfusion hgone
          · exact PingOutcome.noConfusion hfull
        · intro hm
          rcases hwhy with rfl | ⟨_, _, hfull⟩
          · exact Bool.noConfusion hm
          · rcases hroom with hzero | hfree
            · omega
            · exact Bool.noConfusion ((hfree rfl).symm.trans hfull)
    | heard _ o hpc hwhy hw _ =>
        have hpc' : t.pc = .awaiting := hpc
        have hlive : t.pc.live = true := by rw [hpc']; rfl
        have hold := hb.1 hlive
        rw [earliest_awaiting hpc'] at hold
        refine notBefore_settled (o := o) h hlive
          (by rw [hpc']; exact HeartbeatPc.noConfusion) rfl rfl hw ?_ ?_
        · rintro rfl
          rcases hwhy with ⟨_, hres, _⟩ | ⟨_, hno, _⟩
          · -- an answer was there, and the account had it at the end of its wait already
            have hready := h.resolved hpc' hres
            rw [if_pos hres] at hold
            omega
          · exact PingOutcome.noConfusion hno
        · intro hm
          rcases hwhy with ⟨_, _, ⟨rfl, _⟩ | rfl⟩ | ⟨rfl, _, hno⟩
          · exact Bool.noConfusion hm
          · exact Bool.noConfusion hm
          · -- nothing had come, so the whole `ping_timeout` has gone by
            have hready : t.due ≤ t.clock := of_decide_eq_true hfired
            rw [if_neg (by rw [hno]; exact Bool.noConfusion)] at hold
            omega
    | woke hpc hw _ =>
        have hlive : t.pc.live = true := by rw [show t.pc = .sleeping from hpc]; rfl
        have hpc' : s.watcher.pc = .pinging := by rw [hw]
        have hdue : t.rearm p s = t.due := rearm_pinging hpc'
        have hleft : missesLeft p { t with watched := s, due := t.rearm p s } = missesLeft p t := by
          unfold missesLeft
          rw [hw]
        have hold := hb.1 hlive
        rw [earliest_resting (Or.inr hpc)] at hold
        have hnew : earliest p a { t with watched := s, due := t.rearm p s }
            = t.rearm p s + missesLeft p t * (a + p.pingInterval) + a := by
          rw [earliest_resting (t := { t with watched := s, due := t.rearm p s }) (Or.inl hpc'),
            hleft]
        refine ⟨fun _ => by omega, fun hdown => hb.2 ?_⟩
        have hdown' : DownReason.heartbeatTimeout ∈ s.watcher.sent := hdown
        rw [hw] at hdown'
        exact hdown'
    | others _ _ hw _ haged =>
        obtain ⟨_, hnow, _, hstays⟩ := rearm_others (p := p) (s := s) hw
        have hpc' : Timed.pc { t with watched := s, due := t.rearm p s } = t.pc :=
          congrArg Heartbeat.pc hw
        have hleft : missesLeft p { t with watched := s, due := t.rearm p s } = missesLeft p t := by
          unfold missesLeft
          rw [hw]
        have hmost := missesLeft_lt p t (a + p.pingInterval)
        refine ⟨fun hl => Nat.le_trans (hb.1 (hpc' ▸ hl)) ?_, fun hdown => hb.2 ?_⟩
        · unfold earliest
          rw [hpc', hleft]
          cases hpc : t.pc with
          | pinging =>
              have hdue := hstays (Or.inl (by rw [hpc]; exact HeartbeatPc.noConfusion))
              simp only
              omega
          | sleeping =>
              have hdue := hstays (Or.inl (by rw [hpc]; exact HeartbeatPc.noConfusion))
              simp only
              omega
          | awaiting =>
              simp only
              by_cases hres' : resolved s.replies.getLast? = true
              · rw [if_pos hres']
                by_cases hres : resolved t.watched.replies.getLast? = true
                · have hready := h.resolved hpc hres
                  rw [if_pos hres]
                  omega
                · have harmed := h.awaiting hpc
                  rw [if_neg hres]
                  omega
              · have hdue := hstays (Or.inr (Bool.eq_false_iff.mpr hres'))
                rw [if_neg hres', if_neg fun hres => hres' (haged.1 hres)]
                omega
          | returned => exact Nat.le_refl _
          | overflowed => exact Nat.le_refl _
        · have hdown' : DownReason.heartbeatTimeout ∈ s.watcher.sent := hdown
          rw [hw] at hdown'
          exact hdown'
  · refine ⟨hb.1, fun hdown => ?_⟩
    exact Nat.le_trans (hb.2 hdown) (Nat.le_add_right ..)

/-! ## What a monitor promises -/

/-- Past its deadline the watcher has sent its reason. -/
theorem reported_of_late {tr : List (Timed × TimedEvent)} {deadline : Timed → Nat}
    {Q : Timed → Prop} {C : TimedEvent → Prop} (hreg : Regular p t)
    (h : Run (Timed.step p) t tr t') (hQ0 : Q t)
    (hQ : ∀ t e t', Q t → t.step p e = some t' → Q t')
    (hd : ∀ t e t', Regular p t → Q t → C e → t.step p e = some t' → t'.pc.live = true →
      deadline t' ≤ deadline t)
    (htime : ∀ t, Regular p t → t.pc.live = true → t.clock ≤ deadline t) (hC : ∀ x ∈ tr, C x.2)
    (hlate : t.pc.live = true → deadline t < t'.clock) : ∃ r, t'.watched.watcher.sent = [r] := by
  refine (regular_run hreg h).reported (Bool.eq_false_iff.mpr ?_)
  by_cases hlive : t.pc.live = true
  · exact Run.overdue (R := fun t => Regular p t ∧ Q t) (C := fun _ e => C e)
      (fun t => t.pc.live = true) Timed.clock deadline h ⟨hreg, hQ0⟩
      (fun _ _ _ hx _ hs => ⟨regular_step hx.1 hs, hQ _ _ _ hx.2 hs⟩)
      (fun _ _ _ hs => live_of_step hs) (fun _ _ _ hx hc hs => hd _ _ _ hx.1 hx.2 hc hs)
      (fun _ hx => htime _ hx.1) hC (hlate hlive)
  · exact h.invariant (P := fun t => ¬ t.pc.live = true) hlive
      fun _ _ _ hx hs hl => hx (live_of_step hs hl)

/--
**A silent target is reported in time.**

From any reachable state of a heartbeat monitor on: in every run in which the target
answers no ping, a reason has been sent once more than `max 1 miss_threshold` periods and
the runtime's lateness have gone by, a period being a ping timeout, a ping interval and
twice that lateness. And if nobody but the watcher takes a step, it does come to that.
-/
theorem silence_reported {capacity : Nat} {tr : List (Timed × TimedEvent)}
    (h : Run (Timed.step p) (.init capacity) tr t) :
    (∀ tr' t', Run (Timed.step p) t tr' t' → (∀ x ∈ tr', NoAnswer x.2) →
        t.clock + (missWindow p.missThreshold * period p + p.lag) < t'.clock →
        ∃ r, t'.watched.watcher.sent = [r])
      ∧ (0 < p.pingInterval + p.lag → ∃ tr' t' r, Run (Timed.step p) t tr' t'
        ∧ (∀ x ∈ tr', Alone x.2) ∧ t'.watched.watcher.sent = [r]) := by
  have hreg := regular_run (regular_init p capacity) h
  have hreported : ∀ tr' t', Run (Timed.step p) t tr' t' → (∀ x ∈ tr', NoAnswer x.2) →
      t.clock + (missWindow p.missThreshold * period p + p.lag) < t'.clock →
      ∃ r, t'.watched.watcher.sent = [r] := by
    intro tr' t' h' hsilent hlate
    exact reported_of_late (Q := fun _ => True) hreg h' trivial (fun _ _ _ _ _ => trivial)
      (fun _ _ _ hx _ hc hs => latestReport_step hx hs hc) (fun _ => clock_le_latestReport) hsilent
      (fun hlive => Nat.lt_of_le_of_lt (latestReport_le hreg hlive) hlate)
  refine ⟨hreported, fun hpace => ?_⟩
  obtain ⟨tr', t', h', halone, hclock⟩ :=
    elapses_any hreg hpace (missWindow p.missThreshold * period p + p.lag + 1)
  obtain ⟨r, hr⟩ := hreported tr' t' h' (fun x hx => (halone x hx).noAnswer) (by omega)
  exact ⟨tr', t', r, h', halone, hr⟩

/-- The monitor of the demo, on a runtime that is never late. -/
def demoPace : Pace :=
  { pingTimeout := 200000000, pingInterval := 100000000, missThreshold := 3, lag := 0 }

/-- A ping that nobody answers, and the sleep after it. -/
def missOnce : List TimedEvent :=
  [.act .tellPing, .tick 200000000, .act .timeOut, .tick 100000000, .act .wake]

/-- The target never takes a message. -/
def neverTakes : List TimedEvent :=
  missOnce ++ missOnce ++ [.act .tellPing, .tick 200000000, .act .timeOut, .tick 100000001]

theorem silence_reported_neverTakes :
    ∃ r, (after (Timed.step demoPace) (.init 16) neverTakes).watched.watcher.sent = [r] := by
  have hstart : Run (Timed.step demoPace) (.init 16) [] (.init 16) := Run.nil
  have hrun : Run (Timed.step demoPace) (.init 16)
      (traceOf (Timed.step demoPace) (.init 16) neverTakes)
      (after (Timed.step demoPace) (.init 16) neverTakes) := Run.after (by decide +kernel)
  refine (silence_reported hstart).1 _ _ hrun ?_ (by decide +kernel)
  intro x hx id hid
  have hmem := mem_of_traceOf hx
  rw [hid] at hmem
  exact absurd hmem (by simp [neverTakes, missOnce])

/--
**A target that has ended is reported within a period**, whatever else happens: from any
reachable state in which its mailbox is closed, a reason has been sent once more than
`ping_timeout + ping_interval` and twice the runtime's lateness have gone by.
-/
theorem exit_reported {capacity : Nat} {tr tr' : List (Timed × TimedEvent)}
    (h : Run (Timed.step p) (.init capacity) tr t) (hclosed : t.watched.mailbox.closed = true)
    (h' : Run (Timed.step p) t tr' t')
    (hlate : t.clock + (p.pingTimeout + p.pingInterval + 2 * p.lag) < t'.clock) :
    ∃ r, t'.watched.watcher.sent = [r] := by
  have hreg := regular_run (regular_init p capacity) h
  exact reported_of_late (Q := fun t => t.watched.mailbox.closed = true) (C := fun _ => True)
    hreg h'
    hclosed (fun _ _ _ hx hs => closed_step hs hx)
    (fun _ _ _ hx hq _ hs => latestGone_step hx hq hs) (fun _ => clock_le_latestGone)
    (fun _ _ => trivial) (fun hlive => Nat.lt_of_le_of_lt (latestGone_le hreg hlive) hlate)

/-- The target answers once, and ends. -/
def answersAndEnds : List TimedEvent :=
  [.act .tellPing, .act .take, .act (.answer 0), .act .exit]

/-- The watcher reads the answer, sleeps, and finds the mailbox closed. -/
def findsItGone : List TimedEvent :=
  [.act .readReply, .tick 100000000, .act .wake, .act .tellPing, .tick 200000001]

def afterEnd : Timed := after (Timed.step demoPace) (.init 16) answersAndEnds

theorem exit_reported_answersAndEnds :
    ∃ r, (after (Timed.step demoPace) afterEnd findsItGone).watched.watcher.sent = [r] := by
  have hend : Run (Timed.step demoPace) (.init 16)
      (traceOf (Timed.step demoPace) (.init 16) answersAndEnds) afterEnd :=
    Run.after (by decide +kernel)
  have hrun : Run (Timed.step demoPace) afterEnd
      (traceOf (Timed.step demoPace) afterEnd findsItGone)
      (after (Timed.step demoPace) afterEnd findsItGone) := Run.after (by decide +kernel)
  exact exit_reported hend (by decide +kernel) hrun (by decide +kernel)

/-- The count starts again with a pong. -/
theorem notBefore_pong {x : Timed} (h : Regular p x)
    (hread : x.step p (.act .readReply) = some t) (a : Nat) :
    NotBefore p a (x.clock + missWindow p.missThreshold * (a + p.pingInterval)) t := by
  rcases timed_step hread with ⟨ev, s, hev, _, hbeat, rfl⟩ | ⟨d, hd, _, _⟩
  · obtain rfl := TimedEvent.act.inj hev
    cases hbeat with
    | heard _ o hpc hwhy hw _ =>
        have hpc' : x.pc = .awaiting := hpc
        refine notBefore_settled (o := o) h (by rw [hpc']; rfl)
          (by rw [hpc']; exact HeartbeatPc.noConfusion) rfl rfl hw (fun _ => Nat.le_refl _) ?_
        intro hm
        rcases hwhy with ⟨_, _, ⟨rfl, _⟩ | rfl⟩ | ⟨htime, _⟩
        · exact Bool.noConfusion hm
        · exact Bool.noConfusion hm
        · exact TargetEvent.noConfusion htime
    | others _ hothers => exact Bool.noConfusion hothers
  · exact TimedEvent.noConfusion hd

/--
**And not before its time.** After the monitor has read a pong, and whatever happens then, it
declares its target down for missing heartbeats only once `max 1 miss_threshold` ping intervals
have gone by; and when no ping meets a full mailbox, as many ping timeouts on top.
-/
theorem never_early {capacity : Nat} {tr tr' : List (Timed × TimedEvent)} {x : Timed}
    (h : Run (Timed.step p) (.init capacity) tr x)
    (hread : x.step p (.act .readReply) = some t) (h' : Run (Timed.step p) t tr' t')
    (hdown : .heartbeatTimeout ∈ t'.watched.watcher.sent) :
    x.clock + missWindow p.missThreshold * p.pingInterval ≤ t'.clock
      ∧ ((∀ y ∈ tr', Roomy y.1 y.2) →
        x.clock + missWindow p.missThreshold * (p.pingTimeout + p.pingInterval) ≤ t'.clock) := by
  have hreg := regular_run (regular_init p capacity) h
  have hreg' := regular_step hreg hread
  have hrun : ∀ a, a ≤ p.pingTimeout → (∀ y ∈ tr', a = 0 ∨ Roomy y.1 y.2) →
      x.clock + missWindow p.missThreshold * (a + p.pingInterval) ≤ t'.clock := by
    intro a ha hroom
    have hkept := h'.guarded (C := fun t e => a = 0 ∨ Roomy t e)
      (P := fun t => Regular p t ∧ NotBefore p a
        (x.clock + missWindow p.missThreshold * (a + p.pingInterval)) t)
      ⟨hreg', notBefore_pong hreg hread a⟩
      (fun _ _ _ hx hc hs => ⟨regular_step hx.1 hs, notBefore_step hx.1 hx.2 ha hc hs⟩) hroom
    exact hkept.2.2 hdown
  refine ⟨?_, fun hroom => hrun p.pingTimeout (Nat.le_refl _) fun y hy => Or.inr (hroom y hy)⟩
  have hzero := hrun 0 (Nat.zero_le _) fun _ _ => Or.inl rfl
  rw [Nat.zero_add] at hzero
  exact hzero

/-- The target answers the first ping, and takes no other. -/
def answersOnce : List TimedEvent := [.act .tellPing, .act .take, .act (.answer 0)]

/-- After that pong it is silent. -/
def silentSince : List TimedEvent :=
  [.tick 100000000, .act .wake] ++ missOnce ++ missOnce
    ++ [.act .tellPing, .tick 200000000, .act .timeOut]

def afterAnswer : Timed := after (Timed.step demoPace) (.init 16) answersOnce

def afterPong : Timed := after (Timed.step demoPace) afterAnswer [.act .readReply]

theorem never_early_silentSince :
    afterAnswer.clock + missWindow demoPace.missThreshold * demoPace.pingInterval
      ≤ (after (Timed.step demoPace) afterPong silentSince).clock := by
  have hanswer : Run (Timed.step demoPace) (.init 16)
      (traceOf (Timed.step demoPace) (.init 16) answersOnce) afterAnswer :=
    Run.after (by decide +kernel)
  have hrun : Run (Timed.step demoPace) afterPong
      (traceOf (Timed.step demoPace) afterPong silentSince)
      (after (Timed.step demoPace) afterPong silentSince) := Run.after (by decide +kernel)
  exact (never_early hanswer rfl hrun (by decide +kernel)).1

end ErlangActors.Proof
