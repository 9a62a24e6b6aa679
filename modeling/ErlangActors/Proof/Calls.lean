import ErlangActors.Proof.Senders

/-!
# What becomes of a call

`AskStep` is what a step can do to a call that there is, and `Opened` what a new one looks
like. The reply of a call that returns `Ok` was on its channel before; and a call that
gets its message into a mailbox finds it open.
-/

namespace ErlangActors.Proof

open Actor Channel

variable {μ ρ : Type} {s s' : System μ ρ} {k : AskId}

/-- What a step does to the `k`-th call. -/
inductive AskStep (s : System μ ρ) (k : AskId) (q q' : Ask μ ρ) : Event μ ρ → Prop where
  | fades (e : Event μ ρ) (h : Fades q q') : AskStep s k q q' e
  | sent (m : Msg μ) (t : ActorTask μ) (waited : q.stage = .sending m)
      (ht : s.actors[q.target]? = some t) (isOpen : t.mailbox.closed = false)
      (terms : SameTerms q q') (stage : q'.stage = .awaiting (s.clock + q.dur))
      (oneshot : q'.oneshot = q.oneshot) : AskStep s k q q' (.askSends k)
  | refused (m : Msg μ) (waited : q.stage = .sending m) (terms : SameTerms q q')
      (stage : q'.stage = .done (.error .closed))
      (oneshot : q'.oneshot = q.oneshot ∨ q'.oneshot = q.oneshot.dropSender) :
      AskStep s k q q' (.askSends k)
  | answered (d : Nat) (r : ρ) (waited : q.stage = .awaiting d) (replied : q.oneshot = .sent r)
      (terms : SameTerms q q') (stage : q'.stage = .done (.ok r))
      (oneshot : q'.oneshot = q.oneshot) : AskStep s k q q' (.askResolves k)
  | broken (d : Nat) (waited : q.stage = .awaiting d) (dropped : q.oneshot = .senderDropped)
      (terms : SameTerms q q') (stage : q'.stage = .done (.error .closed))
      (oneshot : q'.oneshot = q.oneshot) : AskStep s k q q' (.askResolves k)
  | timedOut (d : Nat) (waited : q.stage = .awaiting d) (silent : q.oneshot = .empty)
      (terms : SameTerms q q') (stage : q'.stage = .done (.error (.timeout q.dur)))
      (oneshot : q'.oneshot = q.oneshot) : AskStep s k q q' (.askTimesOut k)
  | reply (p : Party) (r : ρ) (holds : k ∈ s.repliesOf p) (terms : SameTerms q q')
      (stage : q'.stage = q.stage) (oneshot : q'.oneshot = .sent r) :
      AskStep s k q q' (.reply p k r)

theorem AskStep.terms {q q' : Ask μ ρ} {e : Event μ ρ} (h : AskStep s k q q' e) :
    SameTerms q q' := by
  cases h with
  | fades e h => exact h.terms
  | sent m t _ _ _ terms => exact terms
  | refused m _ terms => exact terms
  | answered d r _ _ terms => exact terms
  | broken d _ _ terms => exact terms
  | timedOut d _ _ terms => exact terms
  | reply p r _ terms => exact terms

/-- A call that is over stays as it is. -/
theorem AskStep.over {q q' : Ask μ ρ} {e : Event μ ρ} (h : AskStep s k q q' e)
    (hover : q.stage.pending = false) : q'.stage = q.stage := by
  cases h with
  | fades e h =>
      rcases h.stage with hst | ⟨hpend, _⟩
      · exact hst
      · exact Bool.noConfusion (hover.symm.trans hpend)
  | sent m t waited => rw [waited] at hover; exact Bool.noConfusion hover
  | refused m waited => rw [waited] at hover; exact Bool.noConfusion hover
  | answered d r waited => rw [waited] at hover; exact Bool.noConfusion hover
  | broken d waited => rw [waited] at hover; exact Bool.noConfusion hover
  | timedOut d waited => rw [waited] at hover; exact Bool.noConfusion hover
  | reply p r _ _ stage => exact stage

theorem AskStep.pending {q q' : Ask μ ρ} {e : Event μ ρ} (h : AskStep s k q q' e)
    (hpend : q'.stage.pending = true) : q.stage.pending = true := by
  by_contra hover
  rw [h.over (Bool.eq_false_iff.mpr hover)] at hpend
  exact hover hpend

/-- A channel that is empty after a step was empty before. -/
theorem AskStep.empty {q q' : Ask μ ρ} {e : Event μ ρ} (h : AskStep s k q q' e)
    (hempty : q'.oneshot = .empty) : q.oneshot = .empty := by
  have fade : q'.oneshot = q.oneshot ∨ q'.oneshot = q.oneshot.dropSender → q.oneshot = .empty := by
    intro ho
    rcases ho with ho | ho
    · exact ho ▸ hempty
    · rw [hempty] at ho
      cases hq : q.oneshot <;> rw [hq] at ho <;> exact nomatch ho
  cases h with
  | fades e h => exact fade h.oneshot
  | sent m t _ _ _ _ _ oneshot => exact fade (Or.inl oneshot)
  | refused m _ _ _ oneshot => exact fade oneshot
  | answered d r _ _ _ _ oneshot => exact fade (Or.inl oneshot)
  | broken d _ _ _ _ oneshot => exact fade (Or.inl oneshot)
  | timedOut d _ _ _ _ oneshot => exact fade (Or.inl oneshot)
  | reply p r _ _ _ oneshot => rw [oneshot] at hempty; exact nomatch hempty

/-- What a step that makes no call does to the calls. -/
def CallsMove (s s' : System μ ρ) (e : Event μ ρ) : Prop :=
  s'.asks.length = s.asks.length ∧ ∀ (k : AskId) (q : Ask μ ρ), s.asks[k]? = some q →
    ∃ q', s'.asks[k]? = some q' ∧ AskStep s k q q' e

theorem Fading.moves (h : Fading s s') (e : Event μ ρ) : CallsMove s s' e := by
  refine ⟨h.1, fun k q hq => ?_⟩
  obtain ⟨q', hq', hfade⟩ := h.2 k q hq
  exact ⟨q', hq', .fades e hfade⟩

/-- One call moves on. -/
theorem callsMove_updateAsk {e : Event μ ρ} {j : AskId} {q : Ask μ ρ} {f : Ask μ ρ → Ask μ ρ}
    (hq : s.asks[j]? = some q) (hstep : AskStep s j q (f q) e) :
    CallsMove s (s.updateAsk j f) e := by
  refine ⟨List.length_modify .., fun k q₁ hq₁ => ⟨_, by rw [updateAsk_getElem?, hq₁]; rfl, ?_⟩⟩
  split
  · rename_i hjk
    subst hjk
    obtain rfl := Option.some.inj (hq.symm.trans hq₁)
    exact hstep
  · exact .fades e (Fades.refl q₁)

theorem fading_tell {a : ActorId} {m : Msg μ} (h : s.tellOrDrop a m = some s') : Fading s s' := by
  unfold System.tellOrDrop System.tell at h
  rw [Option.map_map, Option.map_eq_some_iff] at h
  obtain ⟨t, ht, h⟩ := h
  cases hsend : t.mailbox.trySend m with
  | ok c => simp only [Function.comp_apply, hsend] at h; exact h ▸ fading_of_eq rfl
  | error err =>
      cases err with
      | full => simp only [Function.comp_apply, hsend] at h; exact h ▸ fading_dropReplies s _
      | closed => simp only [Function.comp_apply, hsend] at h; exact h ▸ fading_dropReplies s _

theorem callsMove_askSends {j : AskId} (h : s.askSends j = some s') :
    CallsMove s s' (.askSends j) := by
  unfold System.askSends at h
  obtain ⟨q, hq, h⟩ := Option.bind_eq_some_iff.mp h
  cases hst : q.stage with
  | sending msg =>
      rw [hst] at h
      obtain ⟨t, ht, h⟩ := Option.bind_eq_some_iff.mp h
      cases hsend : t.mailbox.resumeSend j msg with
      | sent c =>
          rw [hsend] at h
          rw [← Option.some.inj h]
          exact callsMove_updateAsk (f := fun q => { q with stage := .awaiting (s.clock + q.dur) }) hq
            (.sent msg t hst ht (Chan.resumeSend_open hsend) ⟨rfl, rfl, rfl, rfl⟩ rfl rfl)
      | pending c => rw [hsend] at h; exact absurd h (by simp)
      | closed =>
          rw [hsend] at h
          rw [← Option.some.inj h]
          refine ⟨(fading_dropReplies _ _).1.trans (List.length_modify ..), fun k q₁ hq₁ => ?_⟩
          refine ⟨_, by rw [dropReplies_getElem?, updateAsk_getElem?, hq₁]; rfl, ?_⟩
          dsimp only
          by_cases hjk : j = k
          · subst hjk
            obtain rfl := Option.some.inj (hq.symm.trans hq₁)
            rw [if_pos rfl]
            split
            · exact .refused msg hst ⟨rfl, rfl, rfl, rfl⟩ rfl (Or.inr rfl)
            · exact .refused msg hst ⟨rfl, rfl, rfl, rfl⟩ rfl (Or.inl rfl)
          · rw [if_neg hjk]
            split
            · exact .fades _ ⟨⟨rfl, rfl, rfl, rfl⟩, Or.inl rfl, Or.inr rfl⟩
            · exact .fades _ (Fades.refl q₁)
  | awaiting d => rw [hst] at h; exact absurd h (by simp)
  | done res => rw [hst] at h; exact absurd h (by simp)
  | dropped => rw [hst] at h; exact absurd h (by simp)

/-- **What a step that makes no call does to the calls.** -/
theorem step_calls {e : Event μ ρ} (h : step s e = some s')
    (hask : ∀ p a m dur, e ≠ .ask p a m dur) : CallsMove s s' e := by
  have hhand : ∀ (p : Party) (f : Holding → Holding), Fading s (s.updateHand p f) := fun p f =>
    fading_of_eq (updateHand_asks s p f)
  cases step_takes h with
  | pass p q c _ _ _ =>
      exact ((hhand p _).trans (fading_of_eq (updateHand_asks _ q _))).moves _
  | tell p a m _ _ h => exact ((hhand p _).trans (fading_tell h)).moves _
  | ask p a m dur _ _ _ => exact absurd rfl (hask p a m dur)
  | askSends k h => exact callsMove_askSends h
  | askResolves k h =>
      unfold System.askResolves at h
      obtain ⟨q, hq, h⟩ := Option.bind_eq_some_iff.mp h
      split at h
      · rename_i d r hst hone
        rw [← Option.some.inj h]
        exact callsMove_updateAsk hq (.answered d r hst hone ⟨rfl, rfl, rfl, rfl⟩ rfl rfl)
      · rename_i d hst hone
        rw [← Option.some.inj h]
        exact callsMove_updateAsk hq (.broken d hst hone ⟨rfl, rfl, rfl, rfl⟩ rfl rfl)
      · exact absurd h (by simp)
  | askTimesOut k h =>
      unfold System.askTimesOut at h
      obtain ⟨q, hq, h⟩ := Option.bind_eq_some_iff.mp h
      split at h
      · rename_i d hst hone
        split at h
        · rw [← Option.some.inj h]
          exact callsMove_updateAsk hq (.timedOut d hst hone ⟨rfl, rfl, rfl, rfl⟩ rfl rfl)
        · exact absurd h (by simp)
      · exact absurd h (by simp)
  | reply p k r hk =>
      have hasks := updateHand_asks s p fun h => h.without [k]
      refine ⟨(List.length_modify ..).trans (congrArg _ hasks), fun j q hq => ?_⟩
      refine ⟨_, by rw [updateAsk_getElem?, hasks, hq]; rfl, ?_⟩
      split
      · rename_i hkj
        subst hkj
        show AskStep s k q (if q.stage.pending then { q with oneshot := .sent r } else q) _
        split
        · exact .reply p r hk ⟨rfl, rfl, rfl, rfl⟩ rfl rfl
        · exact .fades _ (Fades.refl q)
      · exact .fades _ (Fades.refl q)
  | dropReply p k _ => exact ((hhand p _).trans (fading_dropReplies _ _)).moves _
  | recv i t t' _ _ =>
      have hsame : Fading s (s.updateActor i fun _ => t') := fading_of_eq rfl
      exact hsame.moves _
  | _ => exact (still_step h rfl).asks.moves _

/-- A call just made by `p` to `a`. -/
structure Opened (s : System μ ρ) (p : Party) (a : ActorId) (q : Ask μ ρ) : Prop where
  caller : q.caller = p
  target : q.target = a
  /-- It is over if the mailbox is closed, and else it waits. -/
  stage : (∃ t, s.actors[a]? = some t ∧ t.mailbox.closed = false) ∧ q.stage.pending = true
    ∨ q.stage = .done (.error .closed)
  oneshot : ∀ r, q.oneshot ≠ .sent r

theorem ask_opens {p : Party} {a : ActorId} {m : Msg μ} {dur : Nat}
    (h : s.ask p a m dur = some s') :
    s'.asks.length = s.asks.length + 1
      ∧ (∃ q, s'.asks[s.asks.length]? = some q ∧ Opened s p a q)
      ∧ ∀ (k : AskId) (q : Ask μ ρ), s.asks[k]? = some q →
        ∃ q', s'.asks[k]? = some q' ∧ Fades q q' := by
  unfold System.ask at h
  obtain ⟨t, ht, h⟩ := Option.map_eq_some_iff.mp h
  have hlast : ∀ q : Ask μ ρ, (s.asks ++ [q])[s.asks.length]? = some q :=
    fun q => List.getElem?_concat_length
  have hold : ∀ (q₀ : Ask μ ρ) (k : AskId) (q : Ask μ ρ), s.asks[k]? = some q →
      (s.asks ++ [q₀])[k]? = some q := by
    intro q₀ k q hq
    rw [← hq]
    exact List.getElem?_append_left (List.getElem?_eq_some_iff.mp hq).1
  dsimp only at h
  cases hsend : t.mailbox.startSend s.asks.length (m.withReply s.asks.length) with
  | sent c =>
      rw [hsend] at h
      rw [← h]
      refine ⟨List.length_append, ⟨_, hlast _, rfl, rfl, Or.inl ⟨⟨t, ht, ?_⟩, rfl⟩, nofun⟩, ?_⟩
      · exact Chan.startSend_open hsend
      · exact fun k q hq => ⟨q, hold _ k q hq, Fades.refl q⟩
  | pending c =>
      rw [hsend] at h
      rw [← h]
      refine ⟨List.length_append, ⟨_, hlast _, rfl, rfl, Or.inl ⟨⟨t, ht, ?_⟩, rfl⟩, nofun⟩, ?_⟩
      · exact ((Chan.startSend_pending_iff ..).mp ⟨c, hsend⟩).1
      · exact fun k q hq => ⟨q, hold _ k q hq, Fades.refl q⟩
  | closed =>
      rw [hsend] at h
      rw [← h]
      have hfade := fading_dropReplies { s with asks := s.asks
        ++ [⟨p, a, dur, s.clock, .done (.error .closed), .empty⟩] }
        (m.withReply s.asks.length).carries.replies
      refine ⟨hfade.1.trans List.length_append, ?_, fun k q hq => hfade.2 k q (hold _ k q hq)⟩
      obtain ⟨q, hq, hf⟩ := hfade.2 _ _ (hlast _)
      refine ⟨q, hq, hf.terms.caller, hf.terms.target, Or.inr ?_, ?_⟩
      · rcases hf.stage with hst | ⟨hpend, _⟩
        · exact hst
        · exact Bool.noConfusion hpend
      · intro r
        rcases hf.oneshot with ho | ho <;> rw [ho] <;> exact nofun

end ErlangActors.Proof
