import ErlangActors.Lib.Weigh
import ErlangActors.Proof.Circular

/-!
# Messages on their way

A message is on its way from the call of `tell` or `ask` that the mailbox has not turned
down until `handle` takes it. As long as no task ends, a call of `ask` puts one message on
its way, a receipt takes one off, and so does a caller that gives up while it waits for a
slot; nothing else does.
-/

namespace ErlangActors.Proof

open Actor Channel Transition Weighing

variable {μ ρ : Type}

/-- The messages in mailboxes. -/
def queued (s : System μ ρ) : Nat :=
  weigh (fun t : ActorTask μ => t.mailbox.queue.length) (fun _ => true) s.actors

/-- The messages of calls that wait for a slot. -/
def unsent (s : System μ ρ) : Nat :=
  weigh (fun _ => 1) (fun q : Ask μ ρ => Stage.waitsForSlot q.stage) s.asks

def onWay (s : System μ ρ) : Nat := queued s + unsent s

/-- The `k`-th call waits for a slot. -/
def isUnsent (s : System μ ρ) (k : AskId) : Bool :=
  (s.asks[k]?).any fun q => Stage.waitsForSlot q.stage

/-- The messages a step puts on their way, when the mailboxes are open, -/
def setsOut : Event μ ρ → Nat
  | .ask _ _ _ _ => 1
  | _ => 0

/-- and those it takes off. -/
def arrives (s : System μ ρ) : Event μ ρ → Nat
  | .recv _ => 1
  | .dropAsk k => if isUnsent s k then 1 else 0
  | _ => 0

/-- Every task is there, and not about to end. -/
def Up (s : System μ ρ) : Prop :=
  ∀ (i : ActorId) (t : ActorTask μ), s.actors[i]? = some t →
    t.phase.live = true ∧ t.phase ≠ .stopping

/-- The step calls `tell`, or brings a task to its end. -/
def tellsOrEnds : Event μ ρ → Bool
  | .tell _ _ _ => true
  | .recvNone _ => true
  | .panics _ => true
  | .aborted _ => true
  | _ => false

section
variable {s s' : System μ ρ} {e : Event μ ρ} {k : AskId} {i : ActorId}

theorem Up.open (h : Up s) (hsound : ∀ (i : ActorId) (t : ActorTask μ), s.actors[i]? = some t →
    MailSound t) {t : ActorTask μ} (ht : s.actors[i]? = some t) : t.mailbox.closed ≠ true := by
  rw [(hsound i t ht).closed, (h i t ht).1]
  exact Bool.false_ne_true

theorem up_step (h : Up s) (hs : step s e = some s') (hends : tellsOrEnds e = false) : Up s' := by
  intro i t' ht'
  cases ht : s.actors[i]? with
  | none =>
      rcases (step_born hs ht' ht).phase with hph | hturn
      · rw [hph]
        exact ⟨rfl, by simp⟩
      · obtain ⟨t, ht₁, _⟩ := turn_step hs hturn
        rw [ht] at ht₁
        exact absurd ht₁ (by simp)
  | some t =>
      obtain ⟨hlive, hstop⟩ := h i t ht
      rcases phase_step hs ht ht' with ⟨_, hph⟩ | hmove
      · rw [hph]
        exact ⟨hlive, hstop⟩
      · generalize t.phase = ph at hmove hstop
        generalize t'.phase = ph' at hmove ⊢
        cases hmove with
        | started => exact ⟨rfl, by simp⟩
        | recv m => exact ⟨rfl, by simp⟩
        | handled m => exact ⟨rfl, by simp⟩
        | recvNone => exact Bool.noConfusion hends
        | returned => exact absurd rfl hstop
        | panicked ph _ => exact Bool.noConfusion hends
        | aborted ph _ => exact Bool.noConfusion hends

/-! ## Pieces of a step -/

theorem queued_updateActor {t : ActorTask μ} {f : ActorTask μ → ActorTask μ}
    (ht : s.actors[i]? = some t) : queued (s.updateActor i f) + t.mailbox.queue.length
      = queued s + (f t).mailbox.queue.length := weigh_modify ht

theorem queued_quiet (h : Quiet s s') : queued s' = queued s := by
  refine weigh_same h.1 fun i t t' ht ht' => ⟨?_, rfl⟩
  obtain ⟨t₁, ht₁, hsame, _⟩ := h.2 i t ht
  obtain rfl := Option.some.inj (ht₁.symm.trans ht')
  exact congrArg List.length hsame.queue

theorem queued_updateHand (s : System μ ρ) (p : Party) (f : Holding → Holding) :
    queued (s.updateHand p f) = queued s := queued_quiet (quiet_updateHand s p f)

theorem unsent_updateHand (s : System μ ρ) (p : Party) (f : Holding → Holding) :
    unsent (s.updateHand p f) = unsent s := by
  unfold unsent
  rw [updateHand_asks]

theorem onWay_updateHand (s : System μ ρ) (p : Party) (f : Holding → Holding) :
    onWay (s.updateHand p f) = onWay s := by
  unfold onWay
  rw [queued_updateHand, unsent_updateHand]

theorem unsent_updateAsk {q : Ask μ ρ} {f : Ask μ ρ → Ask μ ρ} (hq : s.asks[k]? = some q) :
    unsent (s.updateAsk k f) + (if Stage.waitsForSlot q.stage then 1 else 0)
      = unsent s + (if Stage.waitsForSlot (f q).stage then 1 else 0) := weigh_modify hq

theorem unsent_dropReplies (s : System μ ρ) (ks : List AskId) :
    unsent (s.dropReplies ks) = unsent s := by
  refine weigh_same (fading_dropReplies s ks).1 fun k q q' hq hq' => ⟨rfl, ?_⟩
  rw [dropReplies_getElem?, hq] at hq'
  rw [← Option.some.inj hq']
  split <;> rfl

theorem onWay_dropReplies (s : System μ ρ) (ks : List AskId) :
    onWay (s.dropReplies ks) = onWay s :=
  congrArg (queued s + ·) (unsent_dropReplies s ks)

/-- A call goes from one wait to another, or is over. -/
theorem onWay_updateAsk {q : Ask μ ρ} {f : Ask μ ρ → Ask μ ρ} (hq : s.asks[k]? = some q)
    (hwaits : Stage.waitsForSlot q.stage = false)
    (hwaits' : Stage.waitsForSlot (f q).stage = false) :
    onWay (s.updateAsk k f) = onWay s := by
  have hsame := unsent_updateAsk (f := f) hq
  rw [hwaits, hwaits'] at hsame
  exact congrArg (queued s + ·) hsame

theorem onWay_phase (s : System μ ρ) (i : ActorId) (ph : Phase μ) :
    onWay (s.updateActor i fun t => { t with phase := ph }) = onWay s := by
  refine congrArg (· + unsent s) (weigh_same (updateActor_length s i _) fun j t t' ht ht' => ?_)
  rw [updateActor_getElem?, ht] at ht'
  rw [← Option.some.inj ht']
  split <;> exact ⟨rfl, rfl⟩

/-- A call just made to an open mailbox has its message there, or with it. -/
theorem onWay_ask {p : Party} {a : ActorId} {m : Msg μ} {dur : Nat}
    (hask : s.ask p a m dur = some s')
    (hopen : ∀ t, s.actors[a]? = some t → t.mailbox.closed ≠ true) : onWay s' = onWay s + 1 := by
  have hnew : ∀ q : Ask μ ρ, unsent { s with asks := s.asks ++ [q] }
      = unsent s + (if Stage.waitsForSlot q.stage then 1 else 0) := fun q => weigh_append
  unfold System.ask at hask
  obtain ⟨t, ht, hask⟩ := Option.map_eq_some_iff.mp hask
  dsimp only at hask
  cases hsend : t.mailbox.startSend s.asks.length (m.withReply s.asks.length) with
  | sent c =>
      rw [hsend] at hask
      rw [← hask]
      have hmore := queued_updateActor (f := .accept (m.withReply s.asks.length) c) ht
      have hqueue := (Chan.startSend_queue _ _ _).1 c hsend
      rw [ActorTask.accept, hqueue, List.length_append, List.length_singleton] at hmore
      have hasks := hnew ⟨p, a, dur, s.clock, .awaiting (s.clock + dur), .empty⟩
      show queued (s.updateActor a _) + unsent { s with asks := s.asks ++ [_] } = _
      rw [hasks]
      unfold onWay
      show queued (s.updateActor a _) + (unsent s + 0) = _
      omega
  | pending c =>
      rw [hsend] at hask
      rw [← hask]
      have hsame := queued_updateActor (f := fun t => { t with mailbox := c }) ht
      rw [(Chan.startSend_queue _ _ _).2 c hsend] at hsame
      have hasks := hnew ⟨p, a, dur, s.clock, .sending (m.withReply s.asks.length), .empty⟩
      show queued (s.updateActor a _) + unsent { s with asks := s.asks ++ [_] } = _
      rw [hasks]
      unfold onWay
      show queued (s.updateActor a _) + (unsent s + 1) = _
      omega
  | closed =>
      unfold Chan.startSend at hsend
      rw [dif_pos (Bool.eq_false_iff.mpr (hopen t ht))] at hsend
      split at hsend <;> exact absurd hsend (by simp)

/-- A message that gets into the mailbox later was on its way before. -/
theorem onWay_askSends (hs : s.askSends k = some s')
    (hopen : ∀ (i : ActorId) (t : ActorTask μ), s.actors[i]? = some t →
      t.mailbox.closed ≠ true) : onWay s' = onWay s := by
  unfold System.askSends at hs
  obtain ⟨q, hq, hs⟩ := Option.bind_eq_some_iff.mp hs
  cases hst : q.stage with
  | sending m =>
      rw [hst] at hs
      obtain ⟨t, ht, hs⟩ := Option.bind_eq_some_iff.mp hs
      cases hsend : t.mailbox.resumeSend k m with
      | sent c =>
          rw [hsend] at hs
          rw [← Option.some.inj hs]
          have hmore := queued_updateActor (f := .accept m c) ht
          rw [ActorTask.accept, Chan.resumeSend_queue hsend, List.length_append,
            List.length_singleton] at hmore
          have hless := unsent_updateAsk (k := k)
            (f := fun q => { q with stage := .awaiting (s.clock + q.dur) }) hq
          rw [hst] at hless
          show queued (s.updateActor q.target _) + unsent (s.updateAsk k _) = _
          simp only [Stage.waitsForSlot, if_true, Bool.false_eq_true, if_false] at hless
          unfold onWay
          omega
      | pending c => rw [hsend] at hs; exact absurd hs (by simp)
      | closed =>
          unfold Chan.resumeSend at hsend
          rw [if_neg (hopen _ t ht)] at hsend
          split at hsend <;> exact absurd hsend (by simp)
  | awaiting d => rw [hst] at hs; exact absurd hs (by simp)
  | done res => rw [hst] at hs; exact absurd hs (by simp)
  | dropped => rw [hst] at hs; exact absurd hs (by simp)

/-- A caller that gives up takes its message along, if it still has it. -/
theorem onWay_dropAsk (s : System μ ρ) (k : AskId) :
    onWay (s.dropAsk k) + (if isUnsent s k then 1 else 0) = onWay s := by
  cases hq : s.asks[k]? with
  | none =>
      have hun : isUnsent s k = false := by unfold isUnsent; rw [hq]; rfl
      unfold System.dropAsk
      rw [hq, hun]
      rfl
  | some q =>
      have hun : isUnsent s k = Stage.waitsForSlot q.stage := by unfold isUnsent; rw [hq]; rfl
      have hover := unsent_updateAsk (f := fun q : Ask μ ρ => { q with stage := .dropped }) hq
      unfold System.dropAsk
      rw [hq, hun]
      dsimp only
      cases hst : q.stage with
      | sending m =>
          rw [hst] at hover
          have hsame : queued (s.updateActor q.target fun t =>
              { t with mailbox := t.mailbox.cancel k }) = queued s :=
            queued_quiet (quiet_updateActor fun t =>
              ⟨⟨Chan.cancel_like _ _, Chan.cancel_queue _ _, rfl, rfl⟩, rfl⟩)
          dsimp only
          rw [onWay_dropReplies]
          show queued (s.updateActor q.target _) + unsent (s.updateAsk k _) + 1 = _
          rw [hsame, Nat.add_assoc]
          exact congrArg (queued s + ·) hover
      | awaiting d => exact onWay_updateAsk hq (by rw [hst]; rfl) rfl
      | done res => rfl
      | dropped => rfl

theorem onWay_recv {t t' : ActorTask μ} (ht : s.actors[i]? = some t) (hrecv : t.recv = some t') :
    onWay (s.updateActor i fun _ => t') + 1 = onWay s := by
  obtain ⟨m, c, _, hpop, rfl⟩ := recv_cases hrecv
  have hless := queued_updateActor (f := fun _ => { t with
    mailbox := c, hand := t.hand.add m.carries, phase := .handling m,
    handled := t.handled ++ [m] }) ht
  rw [Chan.pop_queue hpop, List.length_cons] at hless
  show queued (s.updateActor i _) + unsent s + 1 = queued s + unsent s
  dsimp only at hless
  omega

theorem reply_stage (q : Ask μ ρ) (r : ρ) : (q.reply r).stage = q.stage := by
  unfold Ask.reply
  split <;> rfl

/-- **One step** that neither tells nor ends a task. -/
theorem onWay_step (hs : step s e = some s') (hup : Up s)
    (hsound : ∀ (i : ActorId) (t : ActorTask μ), s.actors[i]? = some t → MailSound t)
    (hends : tellsOrEnds e = false) : onWay s' + arrives s e = onWay s + setsOut e := by
  have hopen : ∀ (i : ActorId) (t : ActorTask μ), s.actors[i]? = some t →
      t.mailbox.closed ≠ true := fun i t ht => hup.open hsound ht
  have hstopping : ∀ (i : ActorId) (t : ActorTask μ), s.actors[i]? = some t →
      t.phase ≠ .stopping := fun i t ht => (hup i t ht).2
  cases step_takes hs with
  | spawn p mailboxBound _ _ =>
      have hnew : queued { s with actors := s.actors
          ++ [ActorTask.new s.actors.length mailboxBound] } = queued s := weigh_append
      unfold System.spawn
      rw [onWay_updateHand]
      exact congrArg (· + unsent s) hnew
  | cloneAddr p a _ => exact onWay_updateHand s p _
  | dropAddr p a _ => exact onWay_updateHand s p _
  | replaceSelf i a t _ _ _ =>
      exact congrArg (· + unsent s) (queued_quiet (quiet_updateActor fun t =>
        ⟨⟨Chan.Like.refl _, rfl, rfl, rfl⟩, rfl⟩))
  | pass p q c _ _ _ => exact (onWay_updateHand _ q _).trans (onWay_updateHand s p _)
  | tell p a m _ _ _ => exact Bool.noConfusion hends
  | ask p a m dur _ _ hask =>
      -- the mailbox asked is open, so the request is queued or waits in line
      have hmore := onWay_ask hask fun t ht => by
        obtain ⟨t₀, ht₀⟩ : ∃ t₀, s.actors[a]? = some t₀ := by
          have hlen := (quiet_updateHand s p fun h => h.without m.carries.replies).1
          exact ⟨_, List.getElem?_eq_getElem (hlen ▸ (List.getElem?_eq_some_iff.mp ht).1)⟩
        obtain ⟨t₁, ht₁, hsame, _⟩ := (quiet_updateHand s p
          fun h => h.without m.carries.replies).2 a t₀ ht₀
        obtain rfl := Option.some.inj (ht₁.symm.trans ht)
        rw [hsame.like.2]
        exact hopen a t₀ ht₀
      have hcall : onWay (calling s p m) = onWay s := onWay_updateHand s p _
      rw [hcall] at hmore
      exact hmore
  | askSends k hsends => exact onWay_askSends hsends hopen
  | askResolves k hres =>
      obtain ⟨q, res, hq, ⟨d, hst⟩, rfl⟩ := askResolves_cases hres
      exact onWay_updateAsk hq (by rw [hst]; rfl) rfl
  | askTimesOut k htime =>
      obtain ⟨q, d, hq, hst, _, rfl⟩ := askTimesOut_cases htime
      exact onWay_updateAsk hq (by rw [hst]; rfl) rfl
  | dropAsk k q _ _ => exact onWay_dropAsk s k
  | reply p k r _ =>
      have hsame : unsent ((s.updateHand p fun h => h.without [k]).updateAsk k fun q => q.reply r)
          = unsent (s.updateHand p fun h => h.without [k]) := by
        -- a reply moves no call to another stage
        refine weigh_same (List.length_modify ..) fun j q q' hq hq' => ⟨rfl, ?_⟩
        have hmod := updateAsk_getElem? (s.updateHand p fun h => h.without [k]) k j
          fun q => q.reply r
        rw [hmod, hq] at hq'
        rw [← Option.some.inj hq']
        dsimp only
        split
        · rw [reply_stage]
        · rfl
      exact (congrArg (queued (s.updateHand p fun h => h.without [k]) + ·) hsame).trans
        (onWay_updateHand s p _)
  | dropReply p k _ => exact (onWay_dropReplies _ _).trans (onWay_updateHand s p _)
  | recv i t t' ht hrecv => exact onWay_recv ht hrecv
  | recvNone i t _ _ _ _ => exact Bool.noConfusion hends
  | started i t _ _ _ => exact onWay_phase s i _
  | handled i t m _ _ _ => exact onWay_phase s i _
  | stopped i t ht hph _ => exact absurd hph (hstopping i t ht)
  | panics i t _ _ => exact Bool.noConfusion hends
  | aborted i t _ _ => exact Bool.noConfusion hends
  | tick d _ => rfl

end

end ErlangActors.Proof
