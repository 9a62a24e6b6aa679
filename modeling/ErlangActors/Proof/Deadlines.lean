import ErlangActors.Proof.Evolution

/-!
# How long an ask can be pending

`ask` waits twice, for a slot of the mailbox and for its reply, and arms its timer
between the two. So the deadline is `dur` after the message went in, which is `dur`
after the call only when the mailbox took the message at once.

One direction is an invariant: while no call waits for a slot as time passes, every
armed deadline is the call's time plus its `dur`, and the clock is not past it. The
other builds a run: with the other timers fired as they come due, time passes as far
as one likes for a call that waits for a slot.
-/

namespace ErlangActors.Proof

open Actor Channel Transition

variable {μ ρ : Type} {s s' : System μ ρ} {e : Event μ ρ} {k : AskId}
  {tr : List (System μ ρ × Event μ ρ)}

/-! ## Asks along a step -/

/-- No call is pending longer than its `dur`. -/
def InTime (s : System μ ρ) : Prop :=
  ∀ (k : AskId) (q : Ask μ ρ), s.asks[k]? = some q → q.stage.pending = true →
    s.clock ≤ q.calledAt + q.dur

/-- Waiting for a slot of the mailbox. -/
def Stage.waitsForSlot : Stage μ ρ → Bool
  | .sending _ => true
  | .awaiting _ => false
  | .done _ => false
  | .dropped => false

/-- The step lets no time pass while a call waits for a slot. -/
def noSlotWait (s : System μ ρ) : Event μ ρ → Bool
  | .tick d => d == 0 || s.asks.all fun q => !Stage.waitsForSlot q.stage
  | _ => true

/-- In every continuation, call `k` is not pending longer than its `dur`. -/
def BoundedFrom (s : System μ ρ) (k : AskId) : Prop :=
  ∀ tr s', Run step s tr s' → ∀ q, s'.asks[k]? = some q → q.stage.pending = true →
    s'.clock ≤ q.calledAt + q.dur

/-- The timer of a call that is pending was armed when the call was made. -/
def OnTime (q : Ask μ ρ) : Prop := q.stage.pending = true → q.stage = .awaiting (q.calledAt + q.dur)

theorem le_deadline {d dl : Nat} {q : Ask μ ρ} (h : s.timersAllow (s.clock + d) = true)
    (hq : s.asks[k]? = some q) (hst : q.stage = .awaiting dl) : s.clock + d ≤ dl := by
  have hall := List.all_eq_true.mp h q (List.mem_of_getElem? hq)
  rw [hst] at hall
  exact of_decide_eq_true hall

/-! ## Every timer is armed between the call and now -/

/-- What holds of every call: it was made in the past, and a timer armed since is not overdue. -/
structure AskDated (now : Nat) (q : Ask μ ρ) : Prop where
  called : q.calledAt ≤ now
  armed : ∀ d, q.stage = .awaiting d → q.calledAt + q.dur ≤ d ∧ now ≤ d

theorem AskNew.askDated {now : Nat} {q : Ask μ ρ} (h : AskNew now q) : AskDated now q where
  called := Nat.le_of_eq h.calledAt
  armed := by
    intro d hd
    rw [h.calledAt]
    rcases h.stage with hover | ⟨m, hm⟩ | haw
    · rw [hd] at hover; exact Bool.noConfusion hover
    · rw [hd] at hm; exact nomatch hm
    · have hd' : now + q.dur = d := Stage.awaiting.inj (haw.symm.trans hd)
      omega

theorem AskMove.askDated {now : Nat} {q q' : Ask μ ρ} (h : AskMove now q q') (hq : AskDated now q) :
    AskDated now q' where
  called := h.terms.calledAt ▸ hq.called
  armed := by
    intro d hd
    rw [h.terms.calledAt, h.terms.dur]
    rcases h.stage with hs | hover | ⟨m, _, hs⟩
    · exact hq.armed d (hs ▸ hd)
    · rw [hd] at hover; exact Bool.noConfusion hover
    · have hd' : now + q.dur = d := Stage.awaiting.inj (hs.symm.trans hd)
      have hcalled := hq.called
      omega

theorem asks_dated (h : Run step System.init tr s) :
    ∀ (k : AskId) (q : Ask μ ρ), s.asks[k]? = some q → AskDated s.clock q := by
  refine h.invariant (P := fun s => ∀ (k : AskId) (q : Ask μ ρ), s.asks[k]? = some q →
    AskDated s.clock q) (fun k q hq => nomatch hq) ?_
  intro s e s' hall hstep k q' hq'
  rcases step_cases hstep with hev | ⟨d, _, hallow, rfl⟩
  · rw [hev.clock]
    cases hq : s.asks[k]? with
    | none => exact (hev.called k q' hq' hq).askDated
    | some q =>
        obtain ⟨q₁, hq₁, hmove⟩ := hev.asks k q hq
        obtain rfl := Option.some.inj (hq₁.symm.trans hq')
        exact hmove.askDated (hall k q hq)
  · have hold := hall k q' hq'
    refine ⟨Nat.le_trans hold.called (Nat.le_add_right ..), fun dl hdl => ?_⟩
    exact ⟨(hold.armed dl hdl).1, le_deadline hallow hq' hdl⟩

/-! ## Calls whose timer is armed at once -/

theorem AskMove.onTime {now : Nat} {q q' : Ask μ ρ} (h : AskMove now q q') (hq : OnTime q) :
    OnTime q' := by
  intro hpend
  rw [h.terms.calledAt, h.terms.dur]
  rcases h.stage with hs | hover | ⟨m, hm, _⟩
  · rw [hs] at hpend ⊢; exact hq hpend
  · rw [hover] at hpend; exact Bool.noConfusion hpend
  · have haw := hq (by rw [hm]; rfl)
    rw [hm] at haw
    exact nomatch haw

/-- Such a call stays bounded. -/
theorem OnTime.bounded (h : Run step System.init tr s) {q : Ask μ ρ} (hq : s.asks[k]? = some q)
    (hon : OnTime q) : BoundedFrom s k := by
  intro tr' s' hrun q' hq' hpend
  have hkeep : ∃ q, s'.asks[k]? = some q ∧ OnTime q := by
    refine hrun.invariant (P := fun s => ∃ q, s.asks[k]? = some q ∧ OnTime q) ⟨q, hq, hon⟩ ?_
    intro s e s' hs hstep
    obtain ⟨q, hq, hon⟩ := hs
    rcases step_cases hstep with hev | ⟨d, _, _, rfl⟩
    · obtain ⟨q₁, hq₁, hmove⟩ := hev.asks k q hq
      exact ⟨q₁, hq₁, hmove.onTime hon⟩
    · exact ⟨q, hq, hon⟩
  obtain ⟨q₁, hq₁, hon₁⟩ := hkeep
  obtain rfl := Option.some.inj (hq₁.symm.trans hq')
  exact ((asks_dated (h.append hrun) k q₁ hq₁).armed _ (hon₁ hpend)).2

/-! ## Runs in which nobody waits for a slot -/

/-- A call that waits for a slot has been made just now; any other pending one is on time. -/
structure Prompt (now : Nat) (q : Ask μ ρ) : Prop where
  slot : ∀ m, q.stage = .sending m → q.calledAt = now
  reply : ∀ d, q.stage = .awaiting d → d = q.calledAt + q.dur ∧ now ≤ d

theorem AskNew.prompt {now : Nat} {q : Ask μ ρ} (h : AskNew now q) : Prompt now q where
  slot := fun _ _ => h.calledAt
  reply := by
    intro d hd
    rw [h.calledAt]
    rcases h.stage with hover | ⟨m, hm⟩ | haw
    · rw [hd] at hover; exact Bool.noConfusion hover
    · rw [hd] at hm; exact nomatch hm
    · have hd' : now + q.dur = d := Stage.awaiting.inj (haw.symm.trans hd)
      omega

theorem AskMove.prompt {now : Nat} {q q' : Ask μ ρ} (h : AskMove now q q') (hq : Prompt now q) :
    Prompt now q' where
  slot := by
    intro m hm
    rw [h.terms.calledAt]
    rcases h.stage with hs | hover | ⟨m', _, hs⟩
    · exact hq.slot m (hs ▸ hm)
    · rw [hm] at hover; exact Bool.noConfusion hover
    · exact nomatch hm.symm.trans hs
  reply := by
    intro d hd
    rw [h.terms.calledAt, h.terms.dur]
    rcases h.stage with hs | hover | ⟨m', hm', hs⟩
    · exact hq.reply d (hs ▸ hd)
    · rw [hd] at hover; exact Bool.noConfusion hover
    · -- the slot came in the instant of the call
      have hd' : now + q.dur = d := Stage.awaiting.inj (hs.symm.trans hd)
      have hcalled := hq.slot m' hm'
      omega

theorem Prompt.inTime {now : Nat} {q : Ask μ ρ} (h : Prompt now q)
    (hpend : q.stage.pending = true) :
    now ≤ q.calledAt + q.dur := by
  cases hst : q.stage with
  | sending m => have hcalled := h.slot m hst; omega
  | awaiting d => have hreply := h.reply d hst; omega
  | done res => rw [hst] at hpend; exact Bool.noConfusion hpend
  | dropped => rw [hst] at hpend; exact Bool.noConfusion hpend

theorem prompt_step (hall : ∀ (k : AskId) (q : Ask μ ρ), s.asks[k]? = some q → Prompt s.clock q)
    (hslot : noSlotWait s e = true) (h : step s e = some s') :
    ∀ (k : AskId) (q : Ask μ ρ), s'.asks[k]? = some q → Prompt s'.clock q := by
  intro k q' hq'
  rcases step_cases h with hev | ⟨d, rfl, hallow, rfl⟩
  · rw [hev.clock]
    cases hq : s.asks[k]? with
    | none => exact (hev.called k q' hq' hq).prompt
    | some q =>
        obtain ⟨q₁, hq₁, hmove⟩ := hev.asks k q hq
        obtain rfl := Option.some.inj (hq₁.symm.trans hq')
        exact hmove.prompt (hall k q hq)
  · have hold := hall k q' hq'
    refine ⟨fun m hm => ?_, fun dl hdl => ⟨(hold.reply dl hdl).1, le_deadline hallow hq' hdl⟩⟩
    -- either no time passed, or nobody was waiting for a slot
    rcases (Bool.or_eq_true ..).mp hslot with hzero | hnone
    · have hd : d = 0 := eq_of_beq hzero
      have hcalled := hold.slot m hm
      show q'.calledAt = s.clock + d
      omega
    · have hno := List.all_eq_true.mp hnone q' (List.mem_of_getElem? hq')
      rw [hm] at hno
      exact Bool.noConfusion hno

/-! ## Time passes while a call waits -/

def Stage.waitsForReply : Stage μ ρ → Bool
  | .sending _ => false
  | .awaiting _ => true
  | .done _ => false
  | .dropped => false

/-- How many calls wait for their replies. -/
def awaiting (s : System μ ρ) : Nat := s.asks.countP fun q => Stage.waitsForReply q.stage

theorem countP_modify_lt {α : Type} {f : α → α} {p : α → Bool} : ∀ {l : List α} {j : Nat} {a : α},
    l[j]? = some a → p a = true → p (f a) = false → (l.modify j f).countP p < l.countP p
  | [], _, _, h, _, _ => nomatch h
  | b :: l, 0, a, h, hp, hf => by
      obtain rfl := Option.some.inj h
      rw [List.modify_zero_cons, List.countP_cons_of_neg (by rw [hf]; exact Bool.noConfusion),
        List.countP_cons_of_pos hp]
      omega
  | b :: l, j + 1, a, h, hp, hf => by
      have ih := countP_modify_lt (f := f) (p := p) (l := l) h hp hf
      rw [List.modify_succ_cons, List.countP_cons, List.countP_cons]
      omega

/-- A timer that is due is answered at once, by the reply or by the timeout. -/
theorem due_fires {j : AskId} {q : Ask μ ρ} {d : Nat} (hq : s.asks[j]? = some q)
    (hst : q.stage = .awaiting d) (hd : d ≤ s.clock) :
    ∃ e answer, step s e = some (s.updateAsk j answer)
      ∧ ∀ q, Stage.waitsForReply (answer q).stage = false := by
  cases ho : q.oneshot with
  | empty =>
      refine ⟨.askTimesOut j, fun q => { q with stage := .done (.error (.timeout q.dur)) }, ?_,
        fun _ => rfl⟩
      simp [step, System.askTimesOut, hq, hst, ho, hd]
  | sent r =>
      refine ⟨.askResolves j, fun q => { q with stage := .done (.ok r) }, ?_, fun _ => rfl⟩
      simp [step, System.askResolves, hq, hst, ho]
  | senderDropped =>
      refine ⟨.askResolves j, fun q => { q with stage := .done (.error .closed) }, ?_, fun _ => rfl⟩
      simp [step, System.askResolves, hq, hst, ho]

/-- **Time goes on to `T`** for a call that is not due before, with all else at rest. Each round
either fires a timer of another call or lets a nanosecond pass. -/
theorem stall {q : Ask μ ρ} {T : Nat} (hT : ∀ d, q.stage = .awaiting d → T ≤ d) :
    ∀ (n : Nat) (s : System μ ρ), s.asks[k]? = some q → s.clock ≤ T →
      T - s.clock + awaiting s ≤ n →
      ∃ tr s', Run step s tr s' ∧ s'.clock = T ∧ s'.asks[k]? = some q := by
  intro n
  induction n with
  | zero =>
      intro s hq hle hn
      exact ⟨[], s, Run.nil, by omega, hq⟩
  | succ n ih =>
      intro s hq hle hn
      -- `n` bounds the nanoseconds left and the timers armed; a round takes off one of either
      by_cases hdone : s.clock = T
      · exact ⟨[], s, Run.nil, hdone, hq⟩
      · by_cases hallow : s.timersAllow (s.clock + 1) = true
        · have htick : step s (.tick 1) = some { s with clock := s.clock + 1 } := by
            rw [step, if_pos hallow]
          have hmeasure : T - (s.clock + 1) + awaiting s ≤ n := by omega
          obtain ⟨tr, s', hrun, hclock, hq'⟩ :=
            ih { s with clock := s.clock + 1 } hq (by dsimp only; omega) hmeasure
          exact ⟨_, s', Run.cons htick hrun, hclock, hq'⟩
        · obtain ⟨q₁, hmem, hdue⟩ : ∃ q₁ ∈ s.asks, ∃ d, q₁.stage = .awaiting d ∧ d ≤ s.clock := by
            by_contra hnone
            refine hallow (List.all_eq_true.mpr fun q₁ hmem => ?_)
            cases hst : q₁.stage with
            | awaiting d =>
                have hlt : s.clock < d := by
                  by_contra hge
                  exact hnone ⟨q₁, hmem, d, hst, Nat.le_of_not_lt hge⟩
                exact decide_eq_true hlt
            | _ => rfl
          obtain ⟨d, hst, hd⟩ := hdue
          obtain ⟨j, hj⟩ := List.mem_iff_getElem?.mp hmem
          obtain ⟨e, answer, hstep, hanswer⟩ := due_fires hj hst hd
          -- the call itself is not due before `T`
          have hjk : j ≠ k := by
            rintro rfl
            obtain rfl := Option.some.inj (hj.symm.trans hq)
            have hTd := hT d hst
            omega
          have hfewer : awaiting (s.updateAsk j answer) < awaiting s :=
            countP_modify_lt hj (by rw [hst]; rfl) (hanswer q₁)
          have hkept : (s.updateAsk j answer).asks[k]? = some q := by
            rw [updateAsk_getElem?, hq]
            exact congrArg some (if_neg hjk)
          have hmeasure : T - s.clock + awaiting (s.updateAsk j answer) ≤ n := by omega
          obtain ⟨tr, s', hrun, hclock, hq'⟩ := ih _ hkept hle hmeasure
          exact ⟨_, s', Run.cons hstep hrun, hclock, hq'⟩

/-- A call stays bounded exactly if it is on time. -/
theorem bounded_iff (h : Run step System.init tr s) {q : Ask μ ρ} (hq : s.asks[k]? = some q) :
    BoundedFrom s k ↔ OnTime q := by
  refine ⟨?_, OnTime.bounded h hq⟩
  intro hbound hpend
  have hdated := asks_dated h k q hq
  by_contra hlate
  -- a timer it armed after waiting for its slot is due later than a timer armed at once
  have hT : ∀ d, q.stage = .awaiting d → q.calledAt + q.dur + 1 ≤ d := by
    intro d hd
    have hle := (hdated.armed d hd).1
    have hne : d ≠ q.calledAt + q.dur := fun heq => hlate (heq ▸ hd)
    omega
  have hnow : s.clock ≤ q.calledAt + q.dur := hbound [] s Run.nil q hq hpend
  obtain ⟨tr', s', hrun, hclock, hq'⟩ := stall hT _ s hq (by omega) (Nat.le_refl _)
  have hle := hbound tr' s' hrun q hq' hpend
  omega

/-! ## What decides it when the call is made -/

/-- The mailbox of `a` answers a send at once: it has a free slot, or it is closed. -/
def takesAtOnce (s : System μ ρ) (a : ActorId) : Bool :=
  ((s.actors[a]?).map ActorTask.mailbox).any fun c => c.closed || !c.full

theorem updateHand_mailbox (s : System μ ρ) (p : Party) (f : Holding → Holding) (a : ActorId) :
    ((s.updateHand p f).actors[a]?).map ActorTask.mailbox
      = (s.actors[a]?).map ActorTask.mailbox := by
  cases p with
  | outside => rfl
  | actor i =>
      unfold System.updateHand
      dsimp only
      rw [updateActor_getElem?, Option.map_map]
      refine congrArg (fun g => Option.map g s.actors[a]?) (funext fun t => ?_)
      by_cases hia : i = a <;> simp [hia]

/-- A call just made is on time if the mailbox answered its send at once, and only then. -/
theorem ask_called {p : Party} {a : ActorId} {m : Msg μ} {dur : Nat}
    (h : s.ask p a m dur = some s') :
    ∃ q, s'.asks[s.asks.length]? = some q ∧ (OnTime q ↔ takesAtOnce s a = true) := by
  unfold System.ask at h
  rw [Option.map_eq_some_iff] at h
  obtain ⟨t, ht, h⟩ := h
  have htakes : takesAtOnce s a = true ↔ ¬ (t.mailbox.closed = false ∧ t.mailbox.full = true) := by
    unfold takesAtOnce
    rw [ht]
    cases hc : t.mailbox.closed <;> cases hf : t.mailbox.full <;> simp [hc, hf]
  rw [← Chan.startSend_pending_iff _ s.asks.length (m.withReply s.asks.length)] at htakes
  have hlast : ∀ q : Ask μ ρ, (s.asks ++ [q])[s.asks.length]? = some q :=
    fun q => List.getElem?_concat_length
  dsimp only at h
  cases hsend : t.mailbox.startSend s.asks.length (m.withReply s.asks.length) with
  | sent c =>
      rw [hsend] at h htakes
      rw [← h]
      exact ⟨_, hlast _, fun _ => htakes.mpr nofun, fun _ _ => rfl⟩
  | pending c =>
      rw [hsend] at h htakes
      rw [← h]
      refine ⟨_, hlast _, fun hon => ?_, fun htake => absurd ⟨c, rfl⟩ (htakes.mp htake)⟩
      exact nomatch hon rfl
  | closed =>
      rw [hsend] at h htakes
      rw [← h]
      let q : Ask μ ρ := ⟨p, a, dur, s.clock, .done (.error .closed), .empty⟩
      have hover : OnTime q := fun hpend => Bool.noConfusion hpend
      have hev := evolves_dropReplies { s with asks := s.asks ++ [q] }
        (m.withReply s.asks.length).carries.replies ⟨[], [], none, none⟩
      obtain ⟨q', hq', hmove⟩ := hev.asks _ _ (hlast q)
      exact ⟨q', hq', fun _ => htakes.mpr nofun, fun _ => hmove.onTime hover⟩

/--
**An ask is bounded by its timeout when the mailbox takes its message at once, and only
then.** In a run in which no time passes while a call waits for a slot, no call is ever
pending longer than its `dur`; and a call just made is bounded by its `dur` in every
continuation exactly if the mailbox had a free slot or was closed.
-/
theorem ask_bounded_iff {tr : List (System μ ρ × Event μ ρ)} {s : System μ ρ}
    (h : Run step System.init tr s) :
    ((∀ p ∈ tr, noSlotWait p.1 p.2 = true) → ∀ x, Visits tr s x → InTime x)
      ∧ ∀ p a m dur s', step s (.ask p a m dur) = some s' →
          (BoundedFrom s' s.asks.length ↔ takesAtOnce s a = true) := by
  refine ⟨?_, ?_⟩
  · intro hslot x hx
    have hprompt : ∀ (k : AskId) (q : Ask μ ρ), x.asks[k]? = some q → Prompt x.clock q :=
      h.always_guarded (C := fun s e => noSlotWait s e = true) (fun k q hq => nomatch hq)
        (fun _ _ _ hall hc hstep => prompt_step hall hc hstep) hslot hx
    exact fun k q hq hpend => (hprompt k q hq).inTime hpend
  · intro p a m dur s' hstep
    have hrun := Run.snoc h hstep
    cases step_takes hstep with
    | ask _ _ _ _ _ _ hcall =>
        obtain ⟨q, hq, hon⟩ := ask_called hcall
        have htakes : takesAtOnce (calling s p m) a = takesAtOnce s a :=
          congrArg (Option.any _) (updateHand_mailbox s p _ a)
        rw [calling_asks] at hq
        rw [bounded_iff hrun hq, hon, htakes]

/-- A call with a free slot, five nanoseconds on. -/
def freeSlot : List (Event Nat Nat) :=
  [.spawn .outside 1, .returns 0, .ask .outside 0 ⟨1, .empty⟩ 5, .tick 5]

theorem ask_bounded_iff_freeSlot : InTime (after step .init freeSlot) :=
  (ask_bounded_iff (Run.after (by decide))).1 (by decide) _ Visits.last

/-- The mailbox is full and its actor busy when a call of `ask` is made; six nanoseconds pass. -/
def fullMailbox : List (Event Nat Nat) :=
  [.spawn .outside 1, .returns 0, .tell .outside 0 ⟨1, .empty⟩, .recv 0,
   .tell .outside 0 ⟨2, .empty⟩, .ask .outside 0 ⟨3, .empty⟩ 5, .tick 6]

/-- The call has waited for a slot for longer than its five nanoseconds. -/
theorem ask_bounded_fullMailbox :
    ¬ ∀ (tr : List (System Nat Nat × Event Nat Nat)) (s x : System Nat Nat),
      Run step System.init tr s → Visits tr s x → InTime x := by
  intro hall
  have hrun : Run step System.init (traceOf step System.init fullMailbox)
      (after step .init fullMailbox) := Run.after (by decide)
  have hlate : (6 : Nat) ≤ 0 + 5 := hall _ _ _ hrun Visits.last 0 _ rfl rfl
  exact absurd hlate (by decide)

end ErlangActors.Proof
