import ErlangActors.Proof.Lines

/-!
# Asking downwards cannot deadlock

The rule that keeps actors from waiting for each other in a circle: give every actor a
rank, let it ask only actors of lower rank, and let every handler settle the calls it
has taken before it returns. Then the waits that start from a call lead down through
the ranks, and end at something that can go on: a call that can be polled, a message
that can be received, or a callback that waits for nothing.
-/

namespace ErlangActors.Proof

open Actor Channel Transition

variable {μ ρ : Type}

/-! ## The rule -/

/-- The reply senders a callback of actor `i` leaves behind when it returns to `recv`. -/
def leftBehind (s : System μ ρ) (i : ActorId) : List AskId :=
  (s.actors[i]?).elim [] fun t =>
    match t.phase with
    | .stopping => []
    | _ => t.hand.replies

/-- The step keeps to the ranks, and leaves no reply sender behind in an actor that goes idle. -/
def KeepsRank (rank : ActorId → Nat) (s : System μ ρ) : Event μ ρ → Prop
  | .ask (.actor i) b _ _ => rank b < rank i
  | .returns i => leftBehind s i = []
  | _ => True

instance (rank : ActorId → Nat) (s : System μ ρ) : DecidablePred (KeepsRank rank s)
  | .ask (.actor i) b _ _ => inferInstanceAs (Decidable (rank b < rank i))
  | .ask .outside _ _ _ => inferInstanceAs (Decidable True)
  | .returns i => inferInstanceAs (Decidable (leftBehind s i = []))
  | .spawn _ _ => inferInstanceAs (Decidable True)
  | .cloneAddr _ _ => inferInstanceAs (Decidable True)
  | .dropAddr _ _ => inferInstanceAs (Decidable True)
  | .replaceSelf _ _ => inferInstanceAs (Decidable True)
  | .pass _ _ _ => inferInstanceAs (Decidable True)
  | .tell _ _ _ => inferInstanceAs (Decidable True)
  | .askSends _ => inferInstanceAs (Decidable True)
  | .askResolves _ => inferInstanceAs (Decidable True)
  | .askTimesOut _ => inferInstanceAs (Decidable True)
  | .dropAsk _ => inferInstanceAs (Decidable True)
  | .reply _ _ _ => inferInstanceAs (Decidable True)
  | .dropReply _ _ => inferInstanceAs (Decidable True)
  | .recv _ => inferInstanceAs (Decidable True)
  | .recvNone _ => inferInstanceAs (Decidable True)
  | .panics _ => inferInstanceAs (Decidable True)
  | .aborted _ => inferInstanceAs (Decidable True)
  | .tick _ => inferInstanceAs (Decidable True)

/-- And no actor lets the sender of one of its callers out of its hands. -/
def Disciplined (rank : ActorId → Nat) (s : System μ ρ) (e : Event μ ρ) : Prop :=
  KeepsRank rank s e ∧ ∀ a, KeepsReplies a s e

/-! ## Waiting -/

/-- Actor `i` runs code of its own that waits for no call: it may go on, and it may return. -/
def Running (s : System μ ρ) (i : ActorId) : Prop :=
  ∃ t, s.actors[i]? = some t ∧ t.phase.inCallback = true ∧ s.asksOf i = []

/-- From the `k`-th call a chain of `d` waits leads to the `j`-th: each call on it is one that the
target of the call before it is waiting for. -/
inductive WaitsFor (s : System μ ρ) : AskId → Nat → AskId → Prop where
  | here (k : AskId) : WaitsFor s k 0 k
  | next {d : Nat} {k l j : AskId} {q q' : Ask μ ρ} : s.asks[k]? = some q →
      s.asks[l]? = some q' → q'.caller = .actor q.target → q'.stage.pending = true →
      WaitsFor s l d j → WaitsFor s k (d + 1) j

/-- The `j`-th call, or one ahead of it in line, can be polled to go on, or its target can. -/
def CanMove (s : System μ ρ) (j : AskId) : Prop :=
  ∃ q, s.asks[j]? = some q ∧ ((step s (.askResolves j)).isSome = true
    ∨ (∃ l, (l = j ∨ sendsTo s l q.target) ∧ (step s (.askSends l)).isSome = true)
    ∨ (step s (.recv q.target)).isSome = true ∨ Running s q.target)

/-- What the rule gives. -/
structure Ranked (rank : ActorId → Nat) (s : System μ ρ) : Prop where
  kept : ∀ a, Kept a s
  lines : Lines s
  rank : ∀ (k : AskId) (q : Ask μ ρ) (i : ActorId), s.asks[k]? = some q → q.caller = .actor i →
    rank q.target < rank i
  idle : ∀ (i : ActorId) (t : ActorTask μ), s.actors[i]? = some t → t.phase = .receiving →
    t.hand.replies = []

theorem ranked_init (rank : ActorId → Nat) : Ranked rank (System.init : System μ ρ) where
  kept := kept_init
  lines := lines_init
  rank := fun k q i hq => absurd hq (by simp [System.init])
  idle := fun i t ht => absurd ht (by simp [System.init])

section
variable {s s' : System μ ρ} {e : Event μ ρ} {rank : ActorId → Nat}

theorem rank_step (h : step s e = some s') (hr : Ranked rank s) (hd : KeepsRank rank s e)
    {k : AskId} {q' : Ask μ ρ} {i : ActorId} (hq' : s'.asks[k]? = some q')
    (hcaller : q'.caller = .actor i) : rank q'.target < rank i := by
  cases hq : s.asks[k]? with
  | some q =>
      obtain ⟨q₁, hq₁, hmove⟩ := calls_step h hq
      obtain rfl := Option.some.inj (hq₁.symm.trans hq')
      rw [hmove.terms.target]
      exact hr.rank k q i hq (hmove.terms.caller.symm.trans hcaller)
  | none =>
      obtain ⟨_, p, b, m, dur, rfl, _, hopened⟩ := call_new h hq hq'
      obtain rfl : p = .actor i := hopened.caller.symm.trans hcaller
      rw [hopened.target]
      exact hd

/-- The senders in an idle actor's hands: there were none, and none can come. -/
theorem idle_step (h : step s e = some s') (hr : Ranked rank s) (hd : KeepsRank rank s e)
    {i : ActorId} {t' : ActorTask μ} (ht' : s'.actors[i]? = some t')
    (hph' : t'.phase = .receiving) : t'.hand.replies = [] := by
  refine List.eq_nil_iff_forall_not_mem.mpr fun x hx => ?_
  rw [← repliesAt_task ht'] at hx
  obtain ⟨src, dst, ks, hroute, hands⟩ := step_handover h
  cases ht : s.actors[i]? with
  | none =>
      rcases (step_born h ht' ht).phase with hph | hturn
      · rw [hph'] at hph
        exact absurd hph (by simp)
      · obtain ⟨t, ht₁, _⟩ := turn_step h hturn
        rw [ht] at ht₁
        exact absurd ht₁ (by simp)
  | some t =>
      rcases phase_step h ht ht' with ⟨hturn, hph⟩ | hmove
      · -- it was idle before: it had no sender, and it is not running
        have hidle : t.phase = .receiving := hph.symm.trans hph'
        have hnot : s.active (.actor i) ≠ true := by
          intro hact
          obtain ⟨t₁, ht₁, hin⟩ := active_iff.mp hact
          obtain rfl := Option.some.inj (ht.symm.trans ht₁)
          rw [hidle] at hin
          exact Bool.noConfusion hin
        have hparty : ∀ p, placeOf p = .task i → p = .actor i := by
          intro p hp
          cases p with
          | outside => exact absurd hp (by simp [placeOf])
          | actor j => exact congrArg Party.actor (Place.task.inj hp)
        -- a sender comes only with a message, or to a task that is running
        rcases hands.comes (.task i) x hx with hold | ⟨hdst, hk⟩
        · rw [repliesAt_task ht, hr.idle i t ht hidle] at hold
          exact absurd hold List.not_mem_nil
        · cases hroute with
          | still _ _ => exact absurd hk List.not_mem_nil
          | pass p q c hq => exact hnot (hparty q hdst.symm ▸ hq)
          | tell p a m => exact absurd hdst (by simp)
          | ask p a m dur => exact absurd hdst (by simp)
          | askWaits p a m dur => exact absurd hdst (by simp)
          | askSends k q hq => exact absurd hdst (by simp)
          | reply p k r =>
              cases step_takes h with
              | reply _ _ _ hheld => exact hnot (hparty p hdst.symm ▸ active_of_reply hheld)
          | dropReply p k =>
              cases step_takes h with
              | dropReply _ _ hheld => exact hnot (hparty p hdst.symm ▸ active_of_reply hheld)
          | recv j m t₁ _ _ =>
              obtain rfl := Place.task.inj hdst
              exact hturn rfl
      · -- its callback returned, with nothing left in its hands
        have hret : e = .returns i ∧ t.phase ≠ .stopping := by
          generalize hph₁ : t.phase = ph at hmove
          rw [hph'] at hmove
          cases hmove with
          | started => exact ⟨rfl, by simp⟩
          | handled m => exact ⟨rfl, by simp⟩
        obtain ⟨rfl, hstop⟩ := hret
        have hnone : t.hand.replies = [] := by
          have hleft : leftBehind s i = [] := hd
          unfold leftBehind at hleft
          rw [ht] at hleft
          dsimp only [Option.elim] at hleft
          split at hleft
          · exact absurd ‹_› hstop
          · exact hleft
        cases hroute with
        | still _ _ =>
            rcases hands.comes (.task i) x hx with hold | ⟨_, hk⟩
            · rw [repliesAt_task ht, hnone] at hold
              exact absurd hold List.not_mem_nil
            · exact absurd hk List.not_mem_nil

theorem ranked_step (h : step s e = some s') (hr : Ranked rank s) (hd : Disciplined rank s e) :
    Ranked rank s' where
  kept := fun a => kept_step h (hr.kept a) (hd.2 a)
  lines := lines_step h hr.lines
  rank := fun _ _ _ hq' hcaller => rank_step h hr hd.1 hq' hcaller
  idle := fun _ _ ht' hph' => idle_step h hr hd.1 ht' hph'

end

/-! ## What a call waits for -/

section
variable {s : System μ ρ} {rank : ActorId → Nat} {k : AskId} {q : Ask μ ρ}

/-- What is set aside for somebody in line is filled as soon as that call is polled. -/
theorem granted_sends (hl : Lines s) {a : ActorId} {t : ActorTask μ} (ht : s.actors[a]? = some t)
    {l : AskId} (hgranted : l ∈ t.mailbox.granted) :
    sendsTo s l a ∧ (step s (.askSends l)).isSome = true := by
  have hline : l ∈ lineOf s a := by
    rw [lineOf_eq ht]
    exact List.mem_append_left _ hgranted
  have hsends := hl.sound a l hline
  refine ⟨hsends, ?_⟩
  obtain ⟨q, m, hq, hst, rfl⟩ := hsends
  have hopen : t.mailbox.closed ≠ true := by
    intro hc
    rw [(t.mailbox.drained hc).2.1] at hgranted
    exact absurd hgranted List.not_mem_nil
  simp [step, System.askSends, hq, hst, ht, Chan.resumeSend, hopen, hgranted]

/-- A call on its way in is polled with success, or the mailbox is open and full of messages. -/
theorem sending_moves (hl : Lines s) (hq : s.asks[k]? = some q) {m : Msg μ}
    (hst : q.stage = .sending m) :
    (∃ l, (l = k ∨ sendsTo s l q.target) ∧ (step s (.askSends l)).isSome = true)
      ∨ ∃ t, s.actors[q.target]? = some t ∧ t.mailbox.queue ≠ [] := by
  have hsends : sendsTo s k q.target := ⟨q, m, hq, hst, rfl⟩
  obtain ⟨t, ht⟩ : ∃ t, s.actors[q.target]? = some t :=
    ⟨_, List.getElem?_eq_getElem (hl.known _ k hsends)⟩
  by_cases hclosed : t.mailbox.closed = true
  · refine Or.inl ⟨k, Or.inl rfl, ?_⟩
    simp [step, System.askSends, hq, hst, ht, Chan.resumeSend, hclosed]
  · have hline := hl.complete _ k t ht (Bool.eq_false_iff.mpr hclosed) hsends
    rw [lineOf_eq ht] at hline
    rcases Chan.resumeSend_of_line hline m with ⟨c, hsent⟩ | ⟨_, hfull⟩
    · refine Or.inl ⟨k, Or.inl rfl, ?_⟩
      simp [step, System.askSends, hq, hst, ht, hsent]
    · cases hgranted : t.mailbox.granted with
      | nil =>
          -- every slot holds a message, and there is a slot
          refine Or.inr ⟨t, ht, fun hempty => ?_⟩
          have hroom := hl.room _ t ht
          rw [← hfull, hempty, hgranted] at hroom
          exact Nat.lt_irrefl _ hroom
      | cons l rest =>
          have hl := granted_sends hl ht (l := l) (hgranted ▸ List.mem_cons_self)
          exact Or.inl ⟨l, Or.inr hl.1, hl.2⟩

/-- The sender of a call that waits for its reply is in its target's hands while a callback runs, or
in its mailbox. -/
theorem awaiting_held (hr : Ranked rank s) (hq : s.asks[k]? = some q) {d : Nat}
    (hst : q.stage = .awaiting d) (hempty : q.oneshot = .empty) :
    ∃ t, s.actors[q.target]? = some t
      ∧ (t.phase.inCallback = true ∨ t.mailbox.queue ≠ []) := by
  have hkept := hr.kept q.target
  obtain ⟨pl, hk⟩ := hkept.placed k q hq (by rw [hst]; rfl) hempty
  have hin := hkept.inside k q pl hq rfl hk
  cases pl with
  | hand => exact hin.elim
  | task i =>
      obtain rfl : i = q.target := hin
      cases ht : s.actors[q.target]? with
      | none =>
          unfold repliesAt at hk
          dsimp only at hk
          rw [ht] at hk
          exact absurd hk List.not_mem_nil
      | some t =>
          -- in its hands, so it is in a callback: an idle actor holds no sender
          refine ⟨t, rfl, Or.inl ?_⟩
          have hheld : k ∈ t.hand.replies := repliesAt_task ht ▸ hk
          cases hph : t.phase with
          | receiving =>
              rw [hr.idle _ t ht hph] at hheld
              exact absurd hheld List.not_mem_nil
          | ended how => exact absurd hk (hkept.ended _ t ht (by rw [hph]; rfl) k)
          | starting => rfl
          | handling m => rfl
          | stopping => rfl
  | mail i =>
      obtain rfl : i = q.target := hin
      cases ht : s.actors[q.target]? with
      | none =>
          unfold repliesAt at hk
          dsimp only at hk
          rw [ht] at hk
          exact absurd hk List.not_mem_nil
      | some t =>
          refine ⟨t, rfl, Or.inr fun hnil => ?_⟩
          -- in its mailbox, so there is a message to take
          rw [repliesAt_mail ht, mailed, hnil] at hk
          exact absurd hk List.not_mem_nil
  | ask j =>
      obtain ⟨q₁, hq₁, htarget, hown⟩ := hin
      rcases hown with rfl | hcaller
      · obtain rfl := Option.some.inj (hq.symm.trans hq₁)
        rw [repliesAt_ask hq, hst] at hk
        exact absurd hk List.not_mem_nil
      · -- the target would be asking itself
        have hlt := hr.rank j q₁ _ hq₁ hcaller
        rw [htarget] at hlt
        exact absurd hlt (Nat.lt_irrefl _)

/-- A task that is live with something to do does it, or waits for a call of its own. -/
theorem target_moves {a : ActorId} {t : ActorTask μ} (ht : s.actors[a]? = some t)
    (hsound : MailSound t) (hbusy : t.phase.inCallback = true ∨ t.mailbox.queue ≠ []) :
    (step s (.recv a)).isSome = true ∨ Running s a
      ∨ ∃ (l : AskId) (q' : Ask μ ρ), s.asks[l]? = some q' ∧ q'.caller = .actor a
        ∧ q'.stage.pending = true := by
  by_cases hin : t.phase.inCallback = true
  · refine Or.inr ?_
    cases hasks : s.asksOf a with
    | nil => exact Or.inl ⟨t, ht, hin, hasks⟩
    | cons l rest =>
        have hl : l ∈ s.asksOf a := hasks ▸ List.mem_cons_self
        unfold System.asksOf at hl
        obtain ⟨q', hq', hown⟩ := (Option.any_eq_true _ _).mp (List.mem_filter.mp hl).2
        rw [Bool.and_eq_true] at hown
        exact Or.inr ⟨l, q', hq', eq_of_beq hown.1, hown.2⟩
  · have hqueue := hbusy.resolve_left hin
    -- it is live, for its mailbox is open, and it is at `recv`
    have hlive : t.phase.live = true := by
      by_contra hover
      have hclosed : t.mailbox.closed = true := by
        rw [hsound.closed, Bool.eq_false_iff.mpr hover]
        rfl
      exact hqueue (t.mailbox.drained hclosed).1
    have hph : t.phase = .receiving := by
      cases hph : t.phase with
      | receiving => rfl
      | ended how => rw [hph] at hlive; exact Bool.noConfusion hlive
      | starting => rw [hph] at hin; exact absurd rfl hin
      | handling m => rw [hph] at hin; exact absurd rfl hin
      | stopping => rw [hph] at hin; exact absurd rfl hin
    cases hpop : t.mailbox.pop with
    | none => exact absurd (Chan.pop_eq_none.mp hpop) hqueue
    | some mc => exact Or.inl (by simp [step, ht, ActorTask.recv, hph, hpop])

/-- One call: it moves, or its target waits for another one. -/
theorem call_moves (hr : Ranked rank s)
    (hsound : ∀ (i : ActorId) (t : ActorTask μ), s.actors[i]? = some t → MailSound t)
    (hq : s.asks[k]? = some q) (hpend : q.stage.pending = true) :
    CanMove s k ∨ ∃ (l : AskId) (q' : Ask μ ρ), s.asks[l]? = some q' ∧ q'.caller = .actor q.target
      ∧ q'.stage.pending = true := by
  have hbusy : ∀ t, s.actors[q.target]? = some t →
      (t.phase.inCallback = true ∨ t.mailbox.queue ≠ []) → CanMove s k
        ∨ ∃ (l : AskId) (q' : Ask μ ρ), s.asks[l]? = some q' ∧ q'.caller = .actor q.target
          ∧ q'.stage.pending = true := by
    intro t ht hbusy
    rcases target_moves ht (hsound _ t ht) hbusy with hrecv | hrun | hwait
    · exact Or.inl ⟨q, hq, Or.inr (Or.inr (Or.inl hrecv))⟩
    · exact Or.inl ⟨q, hq, Or.inr (Or.inr (Or.inr hrun))⟩
    · exact Or.inr hwait
  cases hst : q.stage with
  | sending m =>
      rcases sending_moves hr.lines hq hst with hsends | ⟨t, ht, hqueue⟩
      · exact Or.inl ⟨q, hq, Or.inr (Or.inl hsends)⟩
      · exact hbusy t ht (Or.inr hqueue)
  | awaiting d =>
      cases ho : q.oneshot with
      | sent r => exact Or.inl ⟨q, hq, Or.inl (by simp [step, System.askResolves, hq, hst, ho])⟩
      | senderDropped =>
          exact Or.inl ⟨q, hq, Or.inl (by simp [step, System.askResolves, hq, hst, ho])⟩
      | empty =>
          obtain ⟨t, ht, hheld⟩ := awaiting_held hr hq hst ho
          exact hbusy t ht hheld
  | done res => rw [hst] at hpend; exact Bool.noConfusion hpend
  | dropped => rw [hst] at hpend; exact Bool.noConfusion hpend

/-- By induction on the rank of its target: the calls that target waits for go to lower ranks. -/
theorem waits_end (hr : Ranked rank s)
    (hsound : ∀ (i : ActorId) (t : ActorTask μ), s.actors[i]? = some t → MailSound t) :
    ∀ (n : Nat) (k : AskId) (q : Ask μ ρ), s.asks[k]? = some q → q.stage.pending = true →
      rank q.target < n → ∃ d j, d ≤ rank q.target ∧ WaitsFor s k d j ∧ CanMove s j := by
  intro n
  induction n with
  | zero => exact fun k q _ _ hlt => absurd hlt (Nat.not_lt_zero _)
  | succ n ih =>
      intro k q hq hpend hlt
      rcases call_moves hr hsound hq hpend with hmoves | ⟨l, q', hq', hcaller, hpend'⟩
      · exact ⟨0, k, Nat.zero_le _, .here k, hmoves⟩
      · have hlower := hr.rank l q' _ hq' hcaller
        obtain ⟨d, j, hd, hwaits, hmoves⟩ := ih l q' hq' hpend' (by omega)
        exact ⟨d + 1, j, by omega, .next hq hq' hcaller hpend' hwaits, hmoves⟩

end

/--
**Asking downwards cannot deadlock.** Let every actor ask only actors of lower rank,
keep the reply senders of its callers, and have none left when it goes back to `recv`.
Then in every state of every run, from every call that has not resolved a chain of
waits no longer than its target's rank leads to a call that can go on without any
timer: it can be polled, or one in the same line can, or its target can receive the
next message, or runs code of its own that waits for nothing.
-/
theorem downward_asks_never_deadlock (rank : ActorId → Nat)
    {tr : List (System μ ρ × Event μ ρ)} {s : System μ ρ} (h : Run step System.init tr s)
    (hd : ∀ x ∈ tr, Disciplined rank x.1 x.2) (k : AskId) (q : Ask μ ρ)
    (hq : s.asks[k]? = some q) (hpend : q.stage.pending = true) :
    ∃ d j, d ≤ rank q.target ∧ WaitsFor s k d j ∧ CanMove s j := by
  have hr : Ranked rank s := h.guarded (ranked_init rank)
    (fun _ _ _ hr hd hs => ranked_step hs hr hd) hd
  exact waits_end hr (fun i t ht => ((account_run h).tasks i t ht).1) _ k q hq hpend
    (Nat.lt_succ_self _)

/-- Actor 0 asks actor 1 in its handler and actor 1 asks actor 2, while a client waits for actor 0
and another one stands in line at its mailbox. -/
def askingDown : List (Event Nat Nat) :=
  [.spawn .outside 1, .spawn .outside 1, .spawn .outside 1,
   .pass .outside (.actor 0) ⟨[1], []⟩, .pass .outside (.actor 1) ⟨[2], []⟩,
   .returns 0, .returns 1, .returns 2,
   .ask .outside 0 ⟨1, .empty⟩ 9, .recv 0, .ask .outside 0 ⟨1, .empty⟩ 9,
   .ask .outside 0 ⟨1, .empty⟩ 9, .ask (.actor 0) 1 ⟨2, .empty⟩ 5, .recv 1,
   .ask (.actor 1) 2 ⟨3, .empty⟩ 2]

theorem downward_asks_never_deadlock_askingDown :
    ∃ d j, d ≤ 2 ∧ WaitsFor (after step .init askingDown) 2 d j
      ∧ CanMove (after step .init askingDown) j := by
  have hranks : ∀ x ∈ traceOf step .init askingDown, KeepsRank (2 - ·) x.1 x.2 := by
    decide +kernel
  have hkeeps : ∀ e ∈ askingDown, ∀ a, letsOut a e = [] := by
    simp [askingDown, letsOut, Holding.empty]
  refine downward_asks_never_deadlock (2 - ·) (Run.after (by decide +kernel))
    (fun x hx => ⟨hranks x hx, fun a k hk => ?_⟩) 2 _ rfl rfl
  rw [hkeeps x.2 (mem_of_traceOf hx) a] at hk
  exact absurd hk List.not_mem_nil

end ErlangActors.Proof
