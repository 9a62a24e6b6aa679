import ErlangActors.Proof.Evolution

/-!
# When an actor stops

The transitions a task can make, and from them that `stopping` is entered at most once,
and exactly once by a task that ended normally.

Then the actor nobody can address: it waits in `rx.recv()`, its mailbox is empty, and
every `Addr` of it is gone but those of its own task. Nothing but an abort can reach
such a task from outside, so it is up to its own `Addr`s: `recv` answers `None` exactly
when it holds none. The one `spawn` puts into the `Context` is such an `Addr`.
-/

namespace ErlangActors.Proof

open Actor Channel Transition

variable {μ ρ : Type} {s s' : System μ ρ} {e : Event μ ρ} {i : ActorId} {t t' : ActorTask μ}
  {tr : List (System μ ρ × Event μ ρ)}

/-! ## The phases of a task -/

/-- What takes the task of actor `i` from one phase to another. -/
inductive PhaseMove (i : ActorId) : Event μ ρ → Phase μ → Phase μ → Prop where
  | started : PhaseMove i (.returns i) .starting .receiving
  | recv (m : Msg μ) : PhaseMove i (.recv i) .receiving (.handling m)
  | handled (m : Msg μ) : PhaseMove i (.returns i) (.handling m) .receiving
  | recvNone : PhaseMove i (.recvNone i) .receiving .stopping
  | returned : PhaseMove i (.returns i) .stopping (.ended .returned)
  | panicked (ph : Phase μ) : ph.inCallback = true → PhaseMove i (.panics i) ph (.ended .panicked)
  | aborted (ph : Phase μ) : ph.live = true → PhaseMove i (.aborted i) ph (.ended .aborted)

theorem updateActor_self {f : ActorTask μ → ActorTask μ} (ht : s.actors[i]? = some t) :
    (s.updateActor i f).actors[i]? = some (f t) := by
  rw [updateActor_getElem?, ht]
  exact congrArg some (if_pos rfl)

/-- An event that is about the phase of actor `i` takes it to another. -/
theorem turn_step (h : step s e = some s') (hturn : (scopeOf s e).turns = some i) :
    ∃ t, s.actors[i]? = some t
      ∧ ∀ t', s'.actors[i]? = some t' → PhaseMove i e t.phase t'.phase := by
  cases step_takes h with
  | recv j t t₁ ht hrecv =>
      obtain rfl : j = i := Option.some.inj hturn
      obtain ⟨m, c, hph, _, rfl⟩ := recv_cases hrecv
      refine ⟨t, ht, fun t' ht' => ?_⟩
      rw [updateActor_self ht] at ht'
      rw [← Option.some.inj ht', hph]
      exact .recv m
  | recvNone j t ht hph _ _ =>
      obtain rfl : j = i := Option.some.inj hturn
      refine ⟨t, ht, fun t' ht' => ?_⟩
      rw [updateActor_self ht] at ht'
      rw [← Option.some.inj ht', hph]
      exact .recvNone
  | started j t ht hph _ =>
      obtain rfl : j = i := Option.some.inj hturn
      refine ⟨t, ht, fun t' ht' => ?_⟩
      rw [updateActor_self ht] at ht'
      rw [← Option.some.inj ht', hph]
      exact .started
  | handled j t m ht hph _ =>
      obtain rfl : j = i := Option.some.inj hturn
      refine ⟨t, ht, fun t' ht' => ?_⟩
      rw [updateActor_self ht] at ht'
      rw [← Option.some.inj ht', hph]
      exact .handled m
  | stopped j t ht hph _ =>
      obtain rfl : j = i := Option.some.inj hturn
      refine ⟨t, ht, fun t' ht' => ?_⟩
      rw [endActor_phase ht', hph]
      exact .returned
  | panics j t ht hin =>
      obtain rfl : j = i := Option.some.inj hturn
      refine ⟨t, ht, fun t' ht' => ?_⟩
      rw [endActor_phase ht']
      exact .panicked _ hin
  | aborted j t ht hlive =>
      obtain rfl : j = i := Option.some.inj hturn
      refine ⟨t, ht, fun t' ht' => ?_⟩
      rw [endActor_phase ht']
      exact .aborted _ hlive
  | _ => exact absurd hturn (by simp [scopeOf])

/-- Every other event leaves the phase as it is. -/
theorem phase_step (h : step s e = some s') (ht : s.actors[i]? = some t)
    (ht' : s'.actors[i]? = some t') :
    (scopeOf s e).turns ≠ some i ∧ t'.phase = t.phase ∨ PhaseMove i e t.phase t'.phase := by
  by_cases hturn : (scopeOf s e).turns = some i
  · obtain ⟨t₀, ht₀, hmove⟩ := turn_step h hturn
    obtain rfl := Option.some.inj (ht.symm.trans ht₀)
    exact Or.inr (hmove t' ht')
  · obtain ⟨t₁, ht₁, hmove⟩ := step_task h ht
    obtain rfl := Option.some.inj (ht'.symm.trans ht₁)
    exact Or.inl ⟨hturn, hmove.phase.resolve_right hturn⟩

/-! ## `stopping` runs once -/

/-- The receive loop of actor `i` ends: `stopping` is called. -/
def endsLoop (i : ActorId) : Event μ ρ → Bool
  | .recvNone j => j == i
  | _ => false

def stoppings (tr : List (System μ ρ × Event μ ρ)) (i : ActorId) : Nat :=
  tr.countP fun p => endsLoop i p.2

/-- How often `stopping` has been called, as the phase has it. -/
def StoppingCalls (n : Nat) : Phase μ → Prop
  | .starting => n = 0
  | .receiving => n = 0
  | .handling _ => n = 0
  | .stopping => n = 1
  | .ended .returned => n = 1
  | .ended .panicked => n ≤ 1
  | .ended .aborted => n ≤ 1

theorem StoppingCalls.le_one {n : Nat} {ph : Phase μ} (h : StoppingCalls n ph) : n ≤ 1 := by
  unfold StoppingCalls at h
  split at h <;> omega

theorem stoppings_snoc (tr : List (System μ ρ × Event μ ρ)) (s : System μ ρ) (e : Event μ ρ)
    (i : ActorId) :
    stoppings (tr ++ [(s, e)]) i = stoppings tr i + if endsLoop i e then 1 else 0 := by
  unfold stoppings
  rw [List.countP_append, List.countP_singleton]

theorem turns_of_endsLoop (h : endsLoop i e = true) : (scopeOf s e).turns = some i := by
  cases e with
  | recvNone j => exact congrArg some (eq_of_beq h)
  | _ => exact Bool.noConfusion h

/-- A transition keeps the count. -/
theorem PhaseMove.stoppingCalls {n : Nat} {ph ph' : Phase μ} (h : PhaseMove i e ph ph')
    (hn : StoppingCalls n ph) : StoppingCalls (n + if endsLoop i e then 1 else 0) ph' := by
  cases h with
  | started => exact hn
  | recv m => exact hn
  | handled m => exact hn
  | recvNone =>
      have h0 : n = 0 := hn
      simp [StoppingCalls, endsLoop, h0]
  | returned => exact hn
  | panicked _ _ => exact hn.le_one
  | aborted _ _ => exact hn.le_one

theorem stoppings_counts (h : Run step System.init tr s) :
    (s.actors[i]? = none → stoppings tr i = 0)
      ∧ ∀ t, s.actors[i]? = some t → StoppingCalls (stoppings tr i) t.phase := by
  induction h with
  | nil => exact ⟨fun _ => rfl, fun t ht => nomatch ht⟩
  | @snoc tr s s' e _ hstep ih =>
      rw [stoppings_snoc]
      cases ht : s.actors[i]? with
      | none =>
          -- no event is about the phase of a task that is not there yet
          have hturn : (scopeOf s e).turns ≠ some i := by
            intro hturn
            obtain ⟨t, ht', _⟩ := turn_step hstep hturn
            exact nomatch ht.symm.trans ht'
          have hno : endsLoop i e = false :=
            Bool.eq_false_iff.mpr fun he => hturn (turns_of_endsLoop he)
          rw [ih.1 ht, hno]
          refine ⟨fun _ => rfl, fun t' ht' => ?_⟩
          rw [(step_born hstep ht' ht).phase.resolve_right hturn]
          rfl
      | some t =>
          obtain ⟨t', ht', _⟩ := step_task hstep ht
          refine ⟨fun hnone => (nomatch hnone.symm.trans ht'), fun t'' ht'' => ?_⟩
          rcases phase_step hstep ht ht'' with ⟨hturn, hph⟩ | hmove
          · have hno : endsLoop i e = false :=
              Bool.eq_false_iff.mpr fun he => hturn (turns_of_endsLoop he)
            rw [hno, hph]
            exact ih.2 t ht
          · exact hmove.stoppingCalls (ih.2 t ht)

/-! ## An actor keeps its own `Addr` -/

/-- `ctx.self_addr` is the actor's own as long as no callback replaces it. -/
theorem selfAddr_own (h : Run step System.init tr s) (hkeep : ∀ p ∈ tr, ∀ a, p.2 ≠ .replaceSelf i a)
    (ht : s.actors[i]? = some t) : t.selfAddr = i := by
  have hown : ∀ t, s.actors[i]? = some t → t.selfAddr = i := by
    refine h.guarded (P := fun s => ∀ t, s.actors[i]? = some t → t.selfAddr = i)
      (C := fun _ e => ∀ a, e ≠ .replaceSelf i a) (fun t ht => nomatch ht) ?_ hkeep
    intro s e s' hown hno hstep t' ht'
    have hswap : (scopeOf s e).swaps ≠ some i := by
      intro hs
      cases e with
      | replaceSelf j a =>
          obtain rfl : j = i := Option.some.inj hs
          exact hno a rfl
      | _ => exact nomatch hs
    cases ht : s.actors[i]? with
    | none => exact (step_born hstep ht' ht).selfAddr.resolve_right hswap
    | some t =>
        obtain ⟨t₁, ht₁, hmove⟩ := step_task hstep ht
        obtain rfl := Option.some.inj (ht'.symm.trans ht₁)
        exact (hmove.selfAddr.resolve_right hswap).trans (hown t ht)
  exact hown t ht

/-! ## Nobody outside can address the actor -/

/-- Actor `i` waits in `rx.recv()`, its mailbox is empty, and every `Addr` of it that is not in
the hands of its own task has been dropped. -/
def Unaddressed (s : System μ ρ) (i : ActorId) : Prop :=
  ∃ t, s.actors[i]? = some t ∧ t.phase = .receiving ∧ t.mailbox.queue = []
    ∧ ∀ q, q ≠ .task i → i ∉ addrsAt s q

/-- A party that is not running can use nothing. -/
theorem idle_holds {p : Party} (hidle : s.active p ≠ true) :
    s.addrsOf p = [] ∧ s.repliesOf p = [] := by
  cases p with
  | outside => exact absurd rfl hidle
  | actor j =>
      unfold System.active at hidle
      unfold System.addrsOf System.repliesOf
      dsimp only at hidle ⊢
      cases ht : s.actors[j]? with
      | none => exact ⟨rfl, rfl⟩
      | some t =>
          rw [ht] at hidle
          have hout : ¬ t.phase.inCallback = true := hidle
          dsimp only
          rw [if_neg hout, if_neg hout]
          exact ⟨rfl, rfl⟩

theorem active_of_addr {p : Party} {a : ActorId} (h : a ∈ s.addrsOf p) : s.active p = true := by
  by_contra hidle
  rw [(idle_holds hidle).1] at h
  exact List.not_mem_nil h

theorem active_of_reply {p : Party} {k : AskId} (h : k ∈ s.repliesOf p) : s.active p = true := by
  by_contra hidle
  rw [(idle_holds hidle).2] at h
  exact List.not_mem_nil h

/-- A task in `rx.recv()` runs no code of the actor's. -/
theorem not_active (ht : s.actors[i]? = some t) (hph : t.phase = .receiving) {p : Party}
    (hp : i ∈ tasksOf p) : s.active p ≠ true := by
  cases p with
  | outside => exact absurd hp List.not_mem_nil
  | actor j =>
      rw [← List.mem_singleton.mp hp]
      unfold System.active
      dsimp only
      rw [ht]
      simp [hph, Phase.inCallback]

theorem not_mem_addrsOf (hu : Unaddressed s i) (p : Party) : i ∉ s.addrsOf p := by
  obtain ⟨t, ht, hph, _, hout⟩ := hu
  by_cases hp : i ∈ tasksOf p
  · exact fun hmem => not_active ht hph hp (active_of_addr hmem)
  · refine fun hmem => hout (placeOf p) ?_ (mem_addrsOf hmem)
    cases p with
    | outside => exact nofun
    | actor j =>
        intro hj
        exact hp (List.mem_singleton.mpr (Place.task.inj hj).symm)

/-- No step uses an `Addr` of such an actor. -/
theorem not_mem_scope (hu : Unaddressed s i) (e : Event μ ρ) : i ∉ (scopeOf s e).addrs := by
  have hparty := not_mem_addrsOf hu
  obtain ⟨t, ht, _, _, hout⟩ := hu
  have hasks : ∀ j, i ∉ askAddrs s j := by
    intro j hmem
    obtain ⟨k, _, hk⟩ := List.mem_flatMap.mp hmem
    exact hout (.ask k) nofun hk
  cases e with
  | spawn p n =>
      intro hmem
      have hlt := (List.getElem?_eq_some_iff.mp ht).1
      exact Nat.lt_irrefl _ (List.mem_singleton.mp hmem ▸ hlt)
  | cloneAddr p a => exact hparty p
  | pass p q c => exact hparty p
  | tell p a m => exact hparty p
  | ask p a m dur => exact hparty p
  | askSends k => exact hout (.ask k) nofun
  | dropAsk k => exact hout (.ask k) nofun
  | recv j => exact hout (.mail j) nofun
  | returns j => exact hasks j
  | panics j => exact hasks j
  | aborted j => exact hasks j
  | _ => exact List.not_mem_nil

/-- `None` is there to be received exactly when the task has no `Addr` of its own either. -/
theorem recvNone_isSome (hu : Unaddressed s i) :
    (step s (.recvNone i)).isSome = true ↔ i ∉ addrsAt s (.task i) := by
  obtain ⟨t, ht, hph, hq, hout⟩ := hu
  have hall : i ∈ s.allAddrs ↔ i ∈ addrsAt s (.task i) := by
    rw [mem_allAddrs]
    refine ⟨?_, fun h => ⟨_, h⟩⟩
    intro h
    obtain ⟨q, hx⟩ := h
    by_cases hqi : q = .task i
    · exact hqi ▸ hx
    · exact absurd hx (hout q hqi)
  rw [← hall, step, ht]
  simp [hph, hq]

/-- The only events that run the task are the end of its loop and an abort. -/
theorem mem_tasks (hu : Unaddressed s i) (h : step s e = some s')
    (hi : i ∈ (scopeOf s e).tasks) : e = .recvNone i ∨ e = .aborted i := by
  obtain ⟨t, ht, hph, hq, _⟩ := hu
  -- the actor is no party to anything while it waits, and nothing is queued for it
  have hidle : ∀ {p : Party}, i ∈ tasksOf p → s.active p = true → False :=
    fun hp => not_active ht hph hp
  cases step_takes h with
  | spawn p n hp _ => exact (hidle hi hp).elim
  | cloneAddr p a ha => exact (hidle hi (active_of_addr ha)).elim
  | dropAddr p a hp => exact (hidle hi hp).elim
  | replaceSelf j a t₀ ht₀ hin _ =>
      obtain rfl := List.mem_singleton.mp hi
      obtain rfl := Option.some.inj (ht.symm.trans ht₀)
      exact absurd hin (by simp [hph, Phase.inCallback])
  | pass p q c hp _ hq =>
      rcases List.mem_append.mp hi with hi | hi
      · exact (hidle hi hp).elim
      · exact (hidle hi hq).elim
  | tell p a m ha _ _ => exact (hidle hi (active_of_addr ha)).elim
  | ask p a m dur ha _ _ => exact (hidle hi (active_of_addr ha)).elim
  | reply p k r hk => exact (hidle hi (active_of_reply hk)).elim
  | dropReply p k hk => exact (hidle hi (active_of_reply hk)).elim
  | recv j t₀ t' ht₀ hrecv =>
      obtain rfl := List.mem_singleton.mp hi
      obtain rfl := Option.some.inj (ht.symm.trans ht₀)
      obtain ⟨m, c, _, hpop, _⟩ := recv_cases hrecv
      exact absurd hpop (by rw [Chan.pop_eq_none.mpr hq]; simp)
  | recvNone j _ _ _ _ _ => exact Or.inl (congrArg _ (List.mem_singleton.mp hi).symm)
  | started j t₀ ht₀ hph₀ _ =>
      obtain rfl := List.mem_singleton.mp hi
      obtain rfl := Option.some.inj (ht.symm.trans ht₀)
      exact absurd (hph.symm.trans hph₀) (by simp)
  | handled j t₀ m ht₀ hph₀ _ =>
      obtain rfl := List.mem_singleton.mp hi
      obtain rfl := Option.some.inj (ht.symm.trans ht₀)
      exact absurd (hph.symm.trans hph₀) (by simp)
  | stopped j t₀ ht₀ hph₀ _ =>
      obtain rfl := List.mem_singleton.mp hi
      obtain rfl := Option.some.inj (ht.symm.trans ht₀)
      exact absurd (hph.symm.trans hph₀) (by simp)
  | panics j t₀ ht₀ hin =>
      obtain rfl := List.mem_singleton.mp hi
      obtain rfl := Option.some.inj (ht.symm.trans ht₀)
      exact absurd hin (by simp [hph, Phase.inCallback])
  | aborted j _ _ _ => exact Or.inr (congrArg _ (List.mem_singleton.mp hi).symm)
  | _ => exact absurd hi List.not_mem_nil

/-- **Nothing else reaches it.** The actor stays where it is, and so does what its task holds. -/
theorem unaddressed_step (hu : Unaddressed s i) (h : step s e = some s')
    (hnone : e ≠ .recvNone i) (habort : e ≠ .aborted i) :
    Unaddressed s' i ∧ s'.actors[i]? = s.actors[i]? := by
  have hscope := not_mem_scope hu e
  have htasks : i ∉ (scopeOf s e).tasks := fun hi =>
    (mem_tasks hu h hi).elim hnone habort
  obtain ⟨t, ht, hph, hq, hout⟩ := hu
  obtain ⟨t', ht', hmove⟩ := step_task h ht
  have hsame : t' = t := hmove.rest.resolve_right (not_or.mpr ⟨hscope, htasks⟩)
  refine ⟨⟨t, hsame ▸ ht', hph, hq, ?_⟩, by rw [ht', ht, hsame]⟩
  intro q hqi hmem
  -- an `Addr` that turns up comes from the scope, and this one is not in it
  rcases step_addrs h hmem with hmem | hmem
  · exact hout q hqi hmem
  · exact hscope hmem

theorem mem_task_congr (h : s'.actors[i]? = s.actors[i]?) :
    i ∈ addrsAt s' (.task i) ↔ i ∈ addrsAt s (.task i) := by
  rw [mem_task, mem_task, h]

/-! ## Held by its own `Addr` -/

/-- A task that holds an `Addr` of its own receives no `None`, whatever the others do. -/
theorem parked (hu : Unaddressed s i) (hown : i ∈ addrsAt s (.task i)) {s₁ : System μ ρ}
    (h : Run step s tr s₁) (habort : ∀ p ∈ tr, p.2 ≠ .aborted i) :
    Unaddressed s₁ i ∧ step s₁ (.recvNone i) = none := by
  have hnever : ∀ {s : System μ ρ}, Unaddressed s i → i ∈ addrsAt s (.task i) →
      step s (.recvNone i) = none := by
    intro s hu hown
    cases hs : step s (.recvNone i) with
    | none => rfl
    | some s' => exact absurd hown ((recvNone_isSome hu).mp (by rw [hs]; rfl))
  have hboth : Unaddressed s₁ i ∧ i ∈ addrsAt s₁ (.task i) := by
    refine h.guarded (P := fun s => Unaddressed s i ∧ i ∈ addrsAt s (.task i))
      (C := fun _ e => e ≠ .aborted i) ⟨hu, hown⟩ ?_ habort
    intro s e s' hs hno hstep
    have hnone : e ≠ .recvNone i := by
      rintro rfl
      exact nomatch (hnever hs.1 hs.2).symm.trans hstep
    obtain ⟨hu', hsame⟩ := unaddressed_step hs.1 hstep hnone hno
    exact ⟨hu', (mem_task_congr hsame).mpr hs.2⟩
  exact ⟨hboth.1, hnever hboth.1 hboth.2⟩

/-- `spawn` gave the task such an `Addr`. -/
theorem holds_own (h : Run step System.init tr s) (hkeep : ∀ p ∈ tr, ∀ a, p.2 ≠ .replaceSelf i a)
    (hu : Unaddressed s i) : i ∈ addrsAt s (.task i) := by
  obtain ⟨t, ht, hph, _, _⟩ := hu
  refine mem_task.mpr ⟨t, ht, ?_⟩
  unfold ActorTask.held
  rw [hph]
  exact List.mem_cons.mpr (Or.inl (selfAddr_own h hkeep ht).symm)

/-! ## Stopping -/

/-- On its way out: `None` is there to be received, or `stopping` runs, for the first time, or the
task has ended normally after it. -/
def OnItsWay (tr : List (System μ ρ × Event μ ρ)) (s : System μ ρ) (i : ActorId) : Prop :=
  ∃ t, s.actors[i]? = some t ∧
    match t.phase with
    | .receiving => stoppings tr i = 0 ∧ (step s (.recvNone i)).isSome = true
    | .stopping => stoppings tr i = 1 ∧ (s.asksOf i = [] → (step s (.returns i)).isSome = true)
    | .ended how => stoppings tr i = 1 ∧ how = .returned
    | _ => False

/-- The actor stops: in every continuation in which its task is not aborted and `stopping` does
not panic, it is on its way out. -/
def Stops (tr : List (System μ ρ × Event μ ρ)) (s : System μ ρ) (i : ActorId) : Prop :=
  ∀ tr' s', Run step s tr' s' → (∀ p ∈ tr', p.2 ≠ .aborted i ∧ p.2 ≠ .panics i) →
    OnItsWay (tr ++ tr') s' i

/-- The phases of a task on its way out. -/
def Leaving (s : System μ ρ) (i : ActorId) : Prop :=
  Unaddressed s i ∧ i ∉ addrsAt s (.task i)
    ∨ ∃ t, s.actors[i]? = some t ∧ (t.phase = .stopping ∨ t.phase = .ended .returned)

theorem leaving_step (hl : Leaving s i) (h : step s e = some s') (habort : e ≠ .aborted i)
    (hpanic : e ≠ .panics i) : Leaving s' i := by
  rcases hl with ⟨hu, hown⟩ | ⟨t, ht, hph⟩
  · by_cases hnone : e = .recvNone i
    · subst hnone
      obtain ⟨t, ht, hph, _, _⟩ := hu
      obtain ⟨t', ht', _⟩ := step_task h ht
      refine Or.inr ⟨t', ht', Or.inl ?_⟩
      rcases phase_step h ht ht' with ⟨hturn, _⟩ | hmove
      · exact absurd rfl hturn
      · rw [hph] at hmove
        generalize t'.phase = ph' at hmove ⊢
        cases hmove with
        | recvNone => rfl
    · obtain ⟨hu', hsame⟩ := unaddressed_step hu h hnone habort
      exact Or.inl ⟨hu', fun hmem => hown ((mem_task_congr hsame).mp hmem)⟩
  · obtain ⟨t', ht', _⟩ := step_task h ht
    refine Or.inr ⟨t', ht', ?_⟩
    rcases phase_step h ht ht' with ⟨_, hsame⟩ | hmove
    · rw [hsame]; exact hph
    · rcases hph with hph | hph
      · rw [hph] at hmove
        generalize t'.phase = ph' at hmove ⊢
        cases hmove with
        | returned => exact Or.inr rfl
        | panicked _ _ => exact absurd rfl hpanic
        | aborted _ _ => exact absurd rfl habort
      · rw [hph] at hmove
        generalize t'.phase = ph' at hmove ⊢
        cases hmove with
        | panicked _ _ => exact absurd rfl hpanic
        | aborted _ _ => exact absurd rfl habort

theorem returns_isSome (ht : s.actors[i]? = some t) (hph : t.phase = .stopping)
    (hasks : s.asksOf i = []) : (step s (.returns i)).isSome = true := by
  rw [step, ht]
  simp [hph, hasks]

/-- A task that holds no `Addr` of its own stops. -/
theorem stops (h : Run step System.init tr s) (hu : Unaddressed s i)
    (hown : i ∉ addrsAt s (.task i)) : Stops tr s i := by
  intro tr' s' hrun hcalm
  have hl : Leaving s' i := hrun.guarded (P := fun s => Leaving s i)
    (C := fun _ e => e ≠ .aborted i ∧ e ≠ .panics i) (Or.inl ⟨hu, hown⟩)
    (fun s e s' hl hc hstep => leaving_step hl hstep hc.1 hc.2) hcalm
  have hcount := (stoppings_counts (i := i) (h.append hrun)).2
  rcases hl with ⟨hu', hown'⟩ | ⟨t, ht, hph⟩
  · have hsome := (recvNone_isSome hu').mpr hown'
    obtain ⟨t, ht, hph, _, _⟩ := hu'
    have hc := hcount t ht
    refine ⟨t, ht, ?_⟩
    rw [hph] at hc ⊢
    exact ⟨hc, hsome⟩
  · have hc := hcount t ht
    refine ⟨t, ht, ?_⟩
    rcases hph with hph | hph
    · have hret := returns_isSome ht hph
      rw [hph] at hc ⊢
      exact ⟨hc, hret⟩
    · rw [hph] at hc ⊢
      exact ⟨hc, rfl⟩

/--
**An actor nobody can address any more stops exactly when its own task holds no `Addr`
of it.** When the task holds one it waits for good, in every continuation in which it is
not aborted; and it does hold one unless a callback has replaced `ctx.self_addr`.
-/
theorem unaddressed_stops_iff {tr : List (System μ ρ × Event μ ρ)} {s : System μ ρ}
    (h : Run step System.init tr s) {i : ActorId} (hu : Unaddressed s i) :
    (Stops tr s i ↔ i ∉ addrsAt s (.task i))
      ∧ (i ∈ addrsAt s (.task i) → ∀ tr' s', Run step s tr' s' → (∀ p ∈ tr', p.2 ≠ .aborted i) →
          Unaddressed s' i ∧ step s' (.recvNone i) = none)
      ∧ ((∀ p ∈ tr, ∀ a, p.2 ≠ .replaceSelf i a) → i ∈ addrsAt s (.task i)) := by
  refine ⟨⟨?_, stops h hu⟩, fun hown tr' s' hrun => parked hu hown hrun, fun hkeep =>
    holds_own h hkeep hu⟩
  intro hstops hown
  obtain ⟨t₁, ht₁, hway⟩ := hstops [] s Run.nil nofun
  obtain ⟨t, ht, hph, _, _⟩ := hu
  obtain rfl := Option.some.inj (ht.symm.trans ht₁)
  rw [hph] at hway
  exact (recvNone_isSome ⟨t, ht, hph, ‹_›, ‹_›⟩).mp hway.2 hown

/-- An actor is sent an `Addr` of another, puts it in place of `ctx.self_addr` and drops its own;
then the client drops the last one. -/
def selfReplaced : List (Event Nat Nat) :=
  [.spawn .outside 1, .spawn .outside 1, .tell .outside 0 ⟨0, ⟨[1], []⟩⟩, .returns 0, .recv 0,
   .replaceSelf 0 1, .dropAddr (.actor 0) 0, .returns 0, .dropAddr .outside 0]

theorem selfReplaced_unaddressed : Unaddressed (after step .init selfReplaced) 0 := by
  refine ⟨_, rfl, rfl, rfl, ?_⟩
  intro q hq
  rcases q with _ | (_ | _ | j) | (_ | _ | j) | k
  · decide
  · exact absurd rfl hq
  · decide
  · exact List.not_mem_nil
  · exact List.not_mem_nil
  · exact List.not_mem_nil
  · exact List.not_mem_nil
  · exact List.not_mem_nil

theorem unaddressed_stops_iff_selfReplaced :
    Stops (traceOf step .init selfReplaced) (after step .init selfReplaced) 0 :=
  (unaddressed_stops_iff (Run.after (by decide)) selfReplaced_unaddressed).1.mpr (by decide)

/-- A client spawns an actor, lets it start, and drops the `Addr`. -/
def clientGone : List (Event Nat Nat) := [.spawn .outside 1, .returns 0, .dropAddr .outside 0]

/-- The only `Addr` left is the one in the actor's own `Context`, and the actor does not stop. -/
theorem unaddressed_stops_clientGone :
    ¬ ∀ (tr : List (System Nat Nat × Event Nat Nat)) (s : System Nat Nat) (i : ActorId),
      Run step System.init tr s → Unaddressed s i → Stops tr s i := by
  intro hall
  have hrun : Run step System.init (traceOf step System.init clientGone)
      (after step .init clientGone) := Run.after (by decide)
  have hout : ∀ q, q ≠ .task 0 → 0 ∉ addrsAt (after step .init clientGone) q := by
    intro q hq
    rcases q with _ | (_ | j) | (_ | j) | k
    · decide
    · exact absurd rfl hq
    · exact List.not_mem_nil
    · exact List.not_mem_nil
    · exact List.not_mem_nil
    · exact List.not_mem_nil
  obtain ⟨t, ht, hway⟩ := hall _ _ 0 hrun ⟨_, rfl, rfl, rfl, hout⟩ [] _ Run.nil nofun
  obtain rfl := Option.some.inj ht
  exact absurd hway.2 (by decide)

end ErlangActors.Proof
