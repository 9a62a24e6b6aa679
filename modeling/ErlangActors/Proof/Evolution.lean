import ErlangActors.Proof.Steps

/-!
# What a step can do to addresses, asks and tasks

A party can only clone and send the `Addr`s it holds, so an `Addr` found somewhere
after a step was there before, or comes out of the hands, the message or the future
that the step is about. An ask moves forward only, keeps its terms, and arms its timer
when its message goes in. A task that has left its receive loop does not come back.

`Evolves` puts these together for a piece of a step, and composes; `step_evolves` is
the whole step.
-/

namespace ErlangActors.Proof

open Actor Channel

variable {μ ρ : Type}

/-! ## Places -/

/-- Where an `Addr` can be. -/
inductive Place where
  | hand
  | task (i : ActorId)
  | mail (i : ActorId)
  | ask (k : AskId)
  deriving DecidableEq

def addrsAt (s : System μ ρ) : Place → List ActorId
  | .hand => s.hand.addrs
  | .task i => (s.actors[i]?).elim [] ActorTask.held
  | .mail i => (s.actors[i]?).elim [] ActorTask.queued
  | .ask k => (s.asks[k]?).elim [] Ask.addrs

theorem mem_task {s : System μ ρ} {i x : ActorId} :
    x ∈ addrsAt s (.task i) ↔ ∃ t, s.actors[i]? = some t ∧ x ∈ t.held := by
  unfold addrsAt
  dsimp only
  cases s.actors[i]? <;> simp

theorem mem_mail {s : System μ ρ} {i x : ActorId} :
    x ∈ addrsAt s (.mail i) ↔ ∃ t, s.actors[i]? = some t ∧ x ∈ t.queued := by
  unfold addrsAt
  dsimp only
  cases s.actors[i]? <;> simp

theorem mem_ask {s : System μ ρ} {k : AskId} {x : ActorId} :
    x ∈ addrsAt s (.ask k) ↔ ∃ q, s.asks[k]? = some q ∧ x ∈ q.addrs := by
  unfold addrsAt
  dsimp only
  cases s.asks[k]? <;> simp

/-- The `Addr`s there are, are those at the places. -/
theorem mem_allAddrs {s : System μ ρ} {x : ActorId} :
    x ∈ s.allAddrs ↔ ∃ q, x ∈ addrsAt s q := by
  unfold System.allAddrs
  rw [List.mem_append, List.mem_append, List.mem_flatMap, List.mem_flatMap]
  refine ⟨?_, ?_⟩
  · intro h
    rcases h with (h | ⟨t, ht, hx⟩) | ⟨q, hq, hx⟩
    · exact ⟨.hand, h⟩
    · obtain ⟨i, hi⟩ := List.mem_iff_getElem?.mp ht
      rcases List.mem_append.mp hx with hx | hx
      · exact ⟨.task i, mem_task.mpr ⟨t, hi, hx⟩⟩
      · exact ⟨.mail i, mem_mail.mpr ⟨t, hi, hx⟩⟩
    · obtain ⟨k, hk⟩ := List.mem_iff_getElem?.mp hq
      exact ⟨.ask k, mem_ask.mpr ⟨q, hk, hx⟩⟩
  · intro h
    obtain ⟨q, hx⟩ := h
    cases q with
    | hand => exact Or.inl (Or.inl hx)
    | task i =>
        obtain ⟨t, ht, hx⟩ := mem_task.mp hx
        exact Or.inl (Or.inr ⟨t, List.mem_of_getElem? ht, List.mem_append_left _ hx⟩)
    | mail i =>
        obtain ⟨t, ht, hx⟩ := mem_mail.mp hx
        exact Or.inl (Or.inr ⟨t, List.mem_of_getElem? ht, List.mem_append_right _ hx⟩)
    | ask k =>
        obtain ⟨q, hq, hx⟩ := mem_ask.mp hx
        exact Or.inr ⟨q, List.mem_of_getElem? hq, hx⟩

/-- Where a party's `Addr`s are. -/
def placeOf : Party → Place
  | .outside => .hand
  | .actor i => .task i

theorem mem_addrsOf {s : System μ ρ} {p : Party} {x : ActorId} (h : x ∈ s.addrsOf p) :
    x ∈ addrsAt s (placeOf p) := by
  cases p with
  | outside => exact h
  | actor i =>
      unfold System.addrsOf at h
      dsimp only at h
      cases ht : s.actors[i]? with
      | none => rw [ht] at h; exact absurd h (by simp)
      | some t =>
          rw [ht] at h
          dsimp only at h
          split at h
          · exact mem_task.mpr ⟨t, ht, h⟩
          · exact absurd h (by simp)

/-! ## What may become of an ask and of a task -/

/-- The terms of a call, which do not change. -/
structure SameTerms (q q' : Ask μ ρ) : Prop where
  caller : q'.caller = q.caller
  target : q'.target = q.target
  dur : q'.dur = q.dur
  calledAt : q'.calledAt = q.calledAt

/-- At time `now` a call stays where it is, is over, or goes on to wait for its reply. -/
structure AskMove (now : Nat) (q q' : Ask μ ρ) : Prop where
  terms : SameTerms q q'
  stage : q'.stage = q.stage ∨ q'.stage.pending = false
    ∨ ∃ m, q.stage = .sending m ∧ q'.stage = .awaiting (now + q.dur)

/-- A call made at time `now`, as it may be in the same instant. -/
structure AskNew (now : Nat) (q : Ask μ ρ) : Prop where
  calledAt : q.calledAt = now
  stage : q.stage.pending = false ∨ (∃ m, q.stage = .sending m)
    ∨ q.stage = .awaiting (now + q.dur)

theorem AskMove.of_stage {now : Nat} {q q' : Ask μ ρ} (ht : SameTerms q q')
    (hs : q'.stage = q.stage) : AskMove now q q' := ⟨ht, Or.inl hs⟩

theorem AskMove.refl (now : Nat) (q : Ask μ ρ) : AskMove now q q :=
  AskMove.of_stage ⟨rfl, rfl, rfl, rfl⟩ rfl

theorem AskMove.trans {now : Nat} {q q' q'' : Ask μ ρ} (h : AskMove now q q')
    (h' : AskMove now q' q'') : AskMove now q q'' where
  terms := ⟨h'.terms.caller.trans h.terms.caller, h'.terms.target.trans h.terms.target,
    h'.terms.dur.trans h.terms.dur, h'.terms.calledAt.trans h.terms.calledAt⟩
  stage := by
    -- a call that has left its first wait does not come back to it, so it arms one timer
    rcases h'.stage with hs' | hs' | ⟨m, hm, hs'⟩
    · rw [hs']; exact h.stage
    · exact Or.inr (Or.inl hs')
    · rcases h.stage with hs | hs | ⟨m', _, hs⟩
      · exact Or.inr (Or.inr ⟨m, hs ▸ hm, h.terms.dur ▸ hs'⟩)
      · rw [hm] at hs; exact Bool.noConfusion hs
      · rw [hm] at hs; exact nomatch hs

theorem AskNew.move {now : Nat} {q q' : Ask μ ρ} (h : AskNew now q) (h' : AskMove now q q') :
    AskNew now q' where
  calledAt := h'.terms.calledAt.trans h.calledAt
  stage := by
    rcases h'.stage with hs' | hs' | ⟨m, _, hs'⟩
    · rw [hs', h'.terms.dur]; exact h.stage
    · exact Or.inl hs'
    · exact Or.inr (Or.inr (h'.terms.dur ▸ hs'))

/-- A call that moves on has no `Addr` it did not have. -/
theorem AskMove.addrs {now : Nat} {q q' : Ask μ ρ} (h : AskMove now q q') {x : ActorId}
    (hx : x ∈ q'.addrs) : x ∈ q.addrs := by
  unfold Ask.addrs at hx ⊢
  rcases h.stage with hs | hs | ⟨m, hm, hs⟩
  · rw [hs, h.terms.target] at hx; exact hx
  · cases hq : q'.stage <;> rw [hq] at hs hx <;> simp [Stage.pending] at hs hx
  · rw [hs, h.terms.target] at hx
    rw [hm]
    exact List.mem_cons.mpr (Or.inl (List.mem_singleton.mp hx))

/-! ## A piece of a step -/

/-- What a piece of a step may reach: the `Addr`s it uses, the tasks whose own code it runs, the
task that goes on to another phase, and the one whose `ctx.self_addr` is replaced. -/
structure Scope where
  addrs : List ActorId
  tasks : List ActorId
  turns : Option ActorId
  swaps : Option ActorId

/-- What becomes of the task of actor `i`. -/
structure TaskMove (sc : Scope) (i : ActorId) (t t' : ActorTask μ) : Prop where
  phase : t'.phase = t.phase ∨ sc.turns = some i
  selfAddr : t'.selfAddr = t.selfAddr ∨ sc.swaps = some i
  rest : t' = t ∨ i ∈ sc.addrs ∨ i ∈ sc.tasks

theorem TaskMove.refl (sc : Scope) (i : ActorId) (t : ActorTask μ) : TaskMove sc i t t :=
  ⟨Or.inl rfl, Or.inl rfl, Or.inl rfl⟩

theorem TaskMove.trans {sc : Scope} {i : ActorId} {t t' t'' : ActorTask μ}
    (h : TaskMove sc i t t') (h' : TaskMove sc i t' t'') : TaskMove sc i t t'' where
  phase := by
    rcases h'.phase with hp' | hturn
    · exact h.phase.imp hp'.trans id
    · exact Or.inr hturn
  selfAddr := by
    rcases h'.selfAddr with ha' | hswap
    · exact h.selfAddr.imp ha'.trans id
    · exact Or.inr hswap
  rest := by
    rcases h'.rest with hr' | hreach
    · exact h.rest.imp hr'.trans id
    · exact Or.inr hreach

/-- The task of a new actor `i`. -/
structure TaskNew (sc : Scope) (i : ActorId) (t : ActorTask μ) : Prop where
  phase : t.phase = .starting ∨ sc.turns = some i
  selfAddr : t.selfAddr = i ∨ sc.swaps = some i

theorem TaskNew.move {sc : Scope} {i : ActorId} {t t' : ActorTask μ} (h : TaskNew sc i t)
    (h' : TaskMove sc i t t') : TaskNew sc i t' where
  phase := by
    rcases h'.phase with hp | hturn
    · exact h.phase.imp hp.trans id
    · exact Or.inr hturn
  selfAddr := by
    rcases h'.selfAddr with ha | hswap
    · exact h.selfAddr.imp ha.trans id
    · exact Or.inr hswap

/-- From `s` to `s'` in no time, reaching no further than `sc`. -/
structure Evolves (s s' : System μ ρ) (sc : Scope) : Prop where
  addrs : ∀ q x, x ∈ addrsAt s' q → x ∈ addrsAt s q ∨ x ∈ sc.addrs
  asks : ∀ (k : AskId) (q : Ask μ ρ), s.asks[k]? = some q →
    ∃ q', s'.asks[k]? = some q' ∧ AskMove s.clock q q'
  called : ∀ (k : AskId) (q' : Ask μ ρ), s'.asks[k]? = some q' → s.asks[k]? = none →
    AskNew s.clock q'
  tasks : ∀ (i : ActorId) (t : ActorTask μ), s.actors[i]? = some t →
    ∃ t', s'.actors[i]? = some t' ∧ TaskMove sc i t t'
  born : ∀ (i : ActorId) (t' : ActorTask μ), s'.actors[i]? = some t' → s.actors[i]? = none →
    TaskNew sc i t'
  clock : s'.clock = s.clock

variable {s s' s'' : System μ ρ} {sc : Scope}

theorem Evolves.refl (s : System μ ρ) (sc : Scope) : Evolves s s sc where
  addrs := fun _ _ hx => Or.inl hx
  asks := fun _ q hq => ⟨q, hq, AskMove.refl _ q⟩
  called := fun _ _ hq h0 => nomatch h0.symm.trans hq
  tasks := fun _ t ht => ⟨t, ht, TaskMove.refl ..⟩
  born := fun _ _ ht h0 => nomatch h0.symm.trans ht
  clock := rfl

theorem Evolves.trans (h : Evolves s s' sc) (h' : Evolves s' s'' sc) : Evolves s s'' sc where
  addrs := by
    intro q x hx
    rcases h'.addrs q x hx with hx | hx
    · exact h.addrs q x hx
    · exact Or.inr hx
  asks := by
    intro k q hq
    obtain ⟨q', hq', hmove⟩ := h.asks k q hq
    obtain ⟨q'', hq'', hmove'⟩ := h'.asks k q' hq'
    exact ⟨q'', hq'', hmove.trans (h.clock ▸ hmove')⟩
  called := by
    intro k q'' hq'' h0
    cases hq' : s'.asks[k]? with
    | none => exact h.clock ▸ h'.called k q'' hq'' hq'
    | some q' =>
        obtain ⟨q₂, hq₂, hmove⟩ := h'.asks k q' hq'
        obtain rfl := Option.some.inj (hq₂.symm.trans hq'')
        exact (h.called k q' hq' h0).move (h.clock ▸ hmove)
  tasks := by
    intro i t ht
    obtain ⟨t', ht', hmove⟩ := h.tasks i t ht
    obtain ⟨t'', ht'', hmove'⟩ := h'.tasks i t' ht'
    exact ⟨t'', ht'', hmove.trans hmove'⟩
  born := by
    intro i t'' ht'' h0
    cases ht' : s'.actors[i]? with
    | none => exact h'.born i t'' ht'' ht'
    | some t' =>
        -- born in the first piece, moved on by the second
        obtain ⟨t₂, ht₂, hmove⟩ := h'.tasks i t' ht'
        obtain rfl := Option.some.inj (ht₂.symm.trans ht'')
        exact (h.born i t' ht' h0).move hmove
  clock := h'.clock.trans h.clock

theorem updateActor_getElem? (s : System μ ρ) (i j : ActorId) (f : ActorTask μ → ActorTask μ) :
    (s.updateActor i f).actors[j]? = (s.actors[j]?).map (fun t => if i = j then f t else t) := by
  unfold System.updateActor
  rw [List.getElem?_modify]
  by_cases h : i = j <;> cases s.actors[j]? <;> simp [h]

theorem updateAsk_getElem? (s : System μ ρ) (k j : AskId) (f : Ask μ ρ → Ask μ ρ) :
    (s.updateAsk k f).asks[j]? = (s.asks[j]?).map (fun q => if k = j then f q else q) := by
  unfold System.updateAsk
  rw [List.getElem?_modify]
  by_cases h : k = j <;> cases s.asks[j]? <;> simp [h]

/-- One task changes: what it holds and what is queued for it was its own, or is from the scope. -/
theorem evolves_updateActor {i : ActorId} {f : ActorTask μ → ActorTask μ}
    (hheld : ∀ t, s.actors[i]? = some t → ∀ x ∈ (f t).held, x ∈ t.held ∨ x ∈ sc.addrs)
    (hqueued : ∀ t, s.actors[i]? = some t → ∀ x ∈ (f t).queued, x ∈ t.queued ∨ x ∈ sc.addrs)
    (hmove : ∀ t, s.actors[i]? = some t → TaskMove sc i t (f t)) :
    Evolves s (s.updateActor i f) sc where
  addrs := by
    intro q x hx
    cases q with
    | hand => exact Or.inl hx
    | ask k => exact Or.inl hx
    | task j =>
        obtain ⟨t', ht', hx⟩ := mem_task.mp hx
        rw [updateActor_getElem?] at ht'
        obtain ⟨t, ht, rfl⟩ := Option.map_eq_some_iff.mp ht'
        by_cases hij : i = j
        · subst hij
          rw [if_pos rfl] at hx
          exact (hheld t ht x hx).imp (fun h => mem_task.mpr ⟨t, ht, h⟩) id
        · rw [if_neg hij] at hx
          exact Or.inl (mem_task.mpr ⟨t, ht, hx⟩)
    | mail j =>
        obtain ⟨t', ht', hx⟩ := mem_mail.mp hx
        rw [updateActor_getElem?] at ht'
        obtain ⟨t, ht, rfl⟩ := Option.map_eq_some_iff.mp ht'
        by_cases hij : i = j
        · subst hij
          rw [if_pos rfl] at hx
          exact (hqueued t ht x hx).imp (fun h => mem_mail.mpr ⟨t, ht, h⟩) id
        · rw [if_neg hij] at hx
          exact Or.inl (mem_mail.mpr ⟨t, ht, hx⟩)
  asks := fun _ q hq => ⟨q, hq, AskMove.refl _ q⟩
  called := fun _ _ hq h0 => nomatch h0.symm.trans hq
  tasks := by
    intro j t ht
    refine ⟨if i = j then f t else t, ?_, ?_⟩
    · rw [updateActor_getElem?, ht]; rfl
    · by_cases hij : i = j
      · subst hij; rw [if_pos rfl]; exact hmove t ht
      · rw [if_neg hij]; exact TaskMove.refl ..
  born := by
    intro j t' ht' h0
    rw [updateActor_getElem?, h0] at ht'
    exact nomatch ht'
  clock := rfl

/-- Calls of `ask` move on, each as it may. -/
theorem evolves_asks {asks : List (Ask μ ρ)} {g : AskId → Ask μ ρ → Ask μ ρ}
    (hg : ∀ k : AskId, asks[k]? = (s.asks[k]?).map (g k))
    (hmove : ∀ (k : AskId) (q : Ask μ ρ), s.asks[k]? = some q → AskMove s.clock q (g k q)) :
    Evolves s { s with asks := asks } sc where
  addrs := by
    intro q x hx
    cases q with
    | hand => exact Or.inl hx
    | task i => exact Or.inl hx
    | mail i => exact Or.inl hx
    | ask k =>
        obtain ⟨q', hq', hx⟩ := mem_ask.mp hx
        obtain ⟨q, hq, rfl⟩ := Option.map_eq_some_iff.mp ((hg k).symm.trans hq')
        exact Or.inl (mem_ask.mpr ⟨q, hq, (hmove k q hq).addrs hx⟩)
  asks := fun k q hq => ⟨g k q, by rw [hg k, hq]; rfl, hmove k q hq⟩
  called := by
    intro k q' hq' h0
    have hnone : asks[k]? = none := by rw [hg k, h0]; rfl
    exact nomatch hnone.symm.trans hq'
  tasks := fun _ t ht => ⟨t, ht, TaskMove.refl ..⟩
  born := fun _ _ ht h0 => nomatch h0.symm.trans ht
  clock := rfl

theorem evolves_updateAsk {k : AskId} {f : Ask μ ρ → Ask μ ρ}
    (hf : ∀ q, s.asks[k]? = some q → AskMove s.clock q (f q)) :
    Evolves s (s.updateAsk k f) sc := by
  refine evolves_asks (fun j => updateAsk_getElem? s k j f) fun j q hq => ?_
  by_cases hkj : k = j
  · subst hkj; rw [if_pos rfl]; exact hf q hq
  · rw [if_neg hkj]; exact AskMove.refl _ q

theorem evolves_dropReplies (s : System μ ρ) (ks : List AskId) (sc : Scope) :
    Evolves s (s.dropReplies ks) sc := by
  refine evolves_asks (fun _ => List.getElem?_mapIdx) fun k q _ => ?_
  split
  · exact AskMove.of_stage ⟨rfl, rfl, rfl, rfl⟩ rfl
  · exact AskMove.refl _ q

/-- The task a party's code runs in. -/
def tasksOf : Party → List ActorId
  | .outside => []
  | .actor i => [i]

/-- A party's hand changes: what it comes to hold is from the scope. -/
theorem evolves_updateHand {p : Party} {f : Holding → Holding} (hp : ∀ i ∈ tasksOf p, i ∈ sc.tasks)
    (hf : ∀ h, ∀ x ∈ (f h).addrs, x ∈ h.addrs ∨ x ∈ sc.addrs) :
    Evolves s (s.updateHand p f) sc := by
  cases p with
  | outside =>
      refine { Evolves.refl s sc with addrs := ?_ }
      intro q x hx
      cases q with
      | hand => exact hf s.hand x hx
      | task i => exact Or.inl hx
      | mail i => exact Or.inl hx
      | ask k => exact Or.inl hx
  | actor i =>
      have hi : i ∈ sc.tasks := hp i (List.mem_singleton.mpr rfl)
      refine evolves_updateActor ?_ (fun _ _ x hx => Or.inl hx)
        (fun _ _ => ⟨Or.inl rfl, Or.inl rfl, Or.inr (Or.inr hi)⟩)
      intro t _ x hx
      unfold ActorTask.held at hx ⊢
      dsimp only at hx
      split at hx
      · rename_i hlive
        rw [if_pos hlive]
        rcases List.mem_cons.mp hx with hx | hx
        · exact Or.inl (List.mem_cons.mpr (Or.inl hx))
        · exact (hf t.hand x hx).imp (List.mem_cons_of_mem _) id
      · exact absurd hx (by simp)

/-! ## The functions of the source -/

/-- A mailbox that has taken a message holds the `Addr`s the message carries. -/
theorem accept_queued {m : Msg μ} {c : Chan (Msg μ) AskId} {t : ActorTask μ}
    (hc : c.queue = t.mailbox.queue ++ [m]) {x : ActorId} (hx : x ∈ (t.accept m c).queued) :
    x ∈ t.queued ∨ x ∈ m.carries.addrs := by
  unfold ActorTask.queued ActorTask.accept at hx
  dsimp only at hx
  rw [hc, List.flatMap_append, List.mem_append] at hx
  exact hx.imp id (fun h => by simpa using h)

theorem evolves_accept {a : ActorId} {m : Msg μ} {t : ActorTask μ} {c : Chan (Msg μ) AskId}
    (ht : s.actors[a]? = some t) (hc : c.queue = t.mailbox.queue ++ [m]) (ha : a ∈ sc.addrs)
    (hm : ∀ x ∈ m.carries.addrs, x ∈ sc.addrs) : Evolves s (s.updateActor a (.accept m c)) sc := by
  refine evolves_updateActor (fun _ _ x hx => Or.inl hx) ?_
    (fun _ _ => ⟨Or.inl rfl, Or.inl rfl, Or.inr (Or.inl ha)⟩)
  intro t' ht' x hx
  obtain rfl := Option.some.inj (ht.symm.trans ht')
  exact (accept_queued hc hx).imp id (hm x)

/-- A mailbox whose queue stays as it is. -/
theorem evolves_mailbox {a : ActorId} {f : Chan (Msg μ) AskId → Chan (Msg μ) AskId}
    (ha : a ∈ sc.addrs)
    (hf : ∀ t, s.actors[a]? = some t → (f t.mailbox).queue = t.mailbox.queue) :
    Evolves s (s.updateActor a fun t => { t with mailbox := f t.mailbox }) sc := by
  refine evolves_updateActor (fun _ _ x hx => Or.inl hx) ?_
    (fun _ _ => ⟨Or.inl rfl, Or.inl rfl, Or.inr (Or.inl ha)⟩)
  intro t ht x hx
  unfold ActorTask.queued at hx ⊢
  dsimp only at hx
  rw [hf t ht] at hx
  exact Or.inl hx

theorem getElem?_snoc {α : Type} {l : List α} {a b : α} {i : Nat} (h : (l ++ [a])[i]? = some b) :
    l[i]? = some b ∨ i = l.length ∧ b = a := by
  rcases Nat.lt_or_ge i l.length with hlt | hge
  · rw [List.getElem?_append_left hlt] at h
    exact Or.inl h
  · rw [List.getElem?_append_right hge] at h
    obtain ⟨hi, hb⟩ := List.getElem?_eq_some_iff.mp h
    rw [List.length_singleton] at hi
    exact Or.inr ⟨by omega, List.mem_singleton.mp (List.mem_of_getElem? h)⟩

/-- A new task holds its own `Addr`; its mailbox is empty. -/
theorem evolves_newTask (mailboxBound : Nat) (hnew : s.actors.length ∈ sc.addrs) :
    Evolves s { s with actors := s.actors ++ [ActorTask.new s.actors.length mailboxBound] }
      sc where
  addrs := by
    intro q x hx
    cases q with
    | hand => exact Or.inl hx
    | ask k => exact Or.inl hx
    | task i =>
        obtain ⟨t, ht, hx⟩ := mem_task.mp hx
        rcases getElem?_snoc ht with hold | ⟨_, rfl⟩
        · exact Or.inl (mem_task.mpr ⟨t, hold, hx⟩)
        · rw [List.mem_singleton.mp hx]; exact Or.inr hnew
    | mail i =>
        obtain ⟨t, ht, hx⟩ := mem_mail.mp hx
        rcases getElem?_snoc ht with hold | ⟨_, rfl⟩
        · exact Or.inl (mem_mail.mpr ⟨t, hold, hx⟩)
        · exact absurd hx (by simp [ActorTask.queued, ActorTask.new, Chan.new])
  asks := fun _ q hq => ⟨q, hq, AskMove.refl _ q⟩
  called := fun _ _ hq h0 => nomatch h0.symm.trans hq
  tasks := by
    intro i t ht
    refine ⟨t, ?_, TaskMove.refl ..⟩
    show (s.actors ++ [_])[i]? = some t
    rw [List.getElem?_append_left (List.getElem?_eq_some_iff.mp ht).1]
    exact ht
  born := by
    intro i t' ht' h0
    rcases getElem?_snoc ht' with hold | ⟨rfl, rfl⟩
    · exact absurd (h0.symm.trans hold) (by simp)
    · exact ⟨Or.inl rfl, Or.inl rfl⟩
  clock := rfl

theorem evolves_spawn {p : Party} (mailboxBound : Nat) (hp : ∀ i ∈ tasksOf p, i ∈ sc.tasks)
    (hnew : s.actors.length ∈ sc.addrs) : Evolves s (s.spawn p mailboxBound) sc := by
  refine (evolves_newTask mailboxBound hnew).trans ?_
  refine evolves_updateHand (f := fun h => { h with addrs := h.addrs ++ [s.actors.length] }) hp
    fun h x hx => ?_
  rcases List.mem_append.mp hx with hx | hx
  · exact Or.inl hx
  · rw [List.mem_singleton.mp hx]; exact Or.inr hnew

theorem evolves_tellOrDrop {a : ActorId} {m : Msg μ} (ha : a ∈ sc.addrs)
    (hm : ∀ x ∈ m.carries.addrs, x ∈ sc.addrs) (h : s.tellOrDrop a m = some s') :
    Evolves s s' sc := by
  unfold System.tellOrDrop System.tell at h
  rw [Option.map_map, Option.map_eq_some_iff] at h
  obtain ⟨t, ht, h⟩ := h
  cases hsend : t.mailbox.trySend m with
  | ok c =>
      simp only [Function.comp_apply, hsend] at h
      rw [← h]
      exact evolves_accept ht (Chan.trySend_queue hsend) ha hm
  | error e =>
      cases e with
      | full =>
          simp only [Function.comp_apply, hsend] at h
          rw [← h]
          exact evolves_dropReplies s _ sc
      | closed =>
          simp only [Function.comp_apply, hsend] at h
          rw [← h]
          exact evolves_dropReplies s _ sc

/-- A call made now. -/
theorem evolves_open {q : Ask μ ρ} (hq : AskNew s.clock q) (hx : ∀ x ∈ q.addrs, x ∈ sc.addrs) :
    Evolves s { s with asks := s.asks ++ [q] } sc where
  addrs := by
    intro place x hmem
    cases place with
    | hand => exact Or.inl hmem
    | task i => exact Or.inl hmem
    | mail i => exact Or.inl hmem
    | ask k =>
        obtain ⟨q', hq', hmem'⟩ := mem_ask.mp hmem
        rcases getElem?_snoc hq' with hold | ⟨_, rfl⟩
        · exact Or.inl (mem_ask.mpr ⟨q', hold, hmem'⟩)
        · exact Or.inr (hx x hmem')
  asks := by
    intro k q' hq'
    refine ⟨q', ?_, AskMove.refl _ q'⟩
    rw [← hq']
    exact List.getElem?_append_left (List.getElem?_eq_some_iff.mp hq').1
  called := by
    intro k q' hq' h0
    rcases getElem?_snoc hq' with hold | ⟨_, rfl⟩
    · exact nomatch h0.symm.trans hold
    · exact hq
  tasks := fun _ t ht => ⟨t, ht, TaskMove.refl ..⟩
  born := fun _ _ ht h0 => nomatch h0.symm.trans ht
  clock := rfl

theorem evolves_ask {p : Party} {a : ActorId} {m : Msg μ} {dur : Nat}
    (ha : a ∈ sc.addrs) (hm : ∀ x ∈ m.carries.addrs, x ∈ sc.addrs)
    (h : s.ask p a m dur = some s') : Evolves s s' sc := by
  unfold System.ask at h
  rw [Option.map_eq_some_iff] at h
  obtain ⟨t, ht, h⟩ := h
  have hopen : ∀ stage : Stage μ ρ, (stage.pending = false
        ∨ stage = .sending (m.withReply s.asks.length) ∨ stage = .awaiting (s.clock + dur)) →
      Evolves s { s with asks := s.asks ++ [(⟨p, a, dur, s.clock, stage, .empty⟩ : Ask μ ρ)] }
        sc := by
    intro stage hstage
    refine evolves_open ⟨rfl, hstage.imp id (fun h => h.imp (fun h => ⟨_, h⟩) id)⟩ ?_
    intro x hx
    unfold Ask.addrs at hx
    rcases hstage with hst | rfl | rfl
    · cases stage <;> simp [Stage.pending] at hst hx
    · rcases List.mem_cons.mp hx with rfl | hx
      · exact ha
      · exact hm x hx
    · rw [List.mem_singleton.mp hx]; exact ha
  have hqueue := Chan.startSend_queue t.mailbox s.asks.length (m.withReply s.asks.length)
  dsimp only at h
  cases hsend : t.mailbox.startSend s.asks.length (m.withReply s.asks.length) with
  | sent c =>
      rw [hsend] at h
      rw [← h]
      exact (hopen _ (Or.inr (Or.inr rfl))).trans (evolves_accept ht (hqueue.1 c hsend) ha hm)
  | pending c =>
      rw [hsend] at h
      rw [← h]
      refine (hopen _ (Or.inr (Or.inl rfl))).trans
        (evolves_mailbox (f := fun _ => c) ha fun t' ht' => ?_)
      obtain rfl := Option.some.inj (ht.symm.trans ht')
      exact hqueue.2 c hsend
  | closed =>
      rw [hsend] at h
      rw [← h]
      exact (hopen _ (Or.inl rfl)).trans (evolves_dropReplies _ _ sc)

/-- The stage of the `k`-th call, as `updateAsk` is about to change it. -/
theorem move_over {k : AskId} {q₀ : Ask μ ρ} (hq : s.asks[k]? = some q₀) {stage : Stage μ ρ}
    (hover : stage.pending = false
      ∨ ∃ m, q₀.stage = .sending m ∧ stage = .awaiting (s.clock + q₀.dur)) :
    ∀ q, s.asks[k]? = some q → AskMove s.clock q { q with stage := stage } := by
  intro q hq'
  obtain rfl := Option.some.inj (hq.symm.trans hq')
  exact ⟨⟨rfl, rfl, rfl, rfl⟩, Or.inr hover⟩

/-- A call that waits for a slot has the `Addr` it was made through, and those of its message. -/
theorem sending_addrs {k : AskId} {q : Ask μ ρ} {msg : Msg μ} (hq : s.asks[k]? = some q)
    (hst : q.stage = .sending msg) {x : ActorId} (hx : x ∈ q.target :: msg.carries.addrs) :
    x ∈ addrsAt s (.ask k) := by
  refine mem_ask.mpr ⟨q, hq, ?_⟩
  unfold Ask.addrs
  rw [hst]
  exact hx

theorem evolves_askSends {k : AskId} (hsrc : ∀ x ∈ addrsAt s (.ask k), x ∈ sc.addrs)
    (h : s.askSends k = some s') : Evolves s s' sc := by
  unfold System.askSends at h
  rw [Option.bind_eq_some_iff] at h
  obtain ⟨q, hq, h⟩ := h
  cases hst : q.stage with
  | sending msg =>
      rw [hst] at h
      dsimp only at h
      rw [Option.bind_eq_some_iff] at h
      obtain ⟨t, ht, h⟩ := h
      have ha := hsrc _ (sending_addrs hq hst (List.mem_cons_self ..))
      have hm : ∀ x ∈ msg.carries.addrs, x ∈ sc.addrs := fun x hx =>
        hsrc x (sending_addrs hq hst (List.mem_cons_of_mem _ hx))
      cases hsend : t.mailbox.resumeSend k msg with
      | sent c =>
          rw [hsend] at h
          rw [← Option.some.inj h]
          have harm : ∀ q', s.asks[k]? = some q' →
              AskMove s.clock q' { q' with stage := .awaiting (s.clock + q'.dur) } := by
            intro q' hq'
            obtain rfl := Option.some.inj (hq.symm.trans hq')
            exact ⟨⟨rfl, rfl, rfl, rfl⟩, Or.inr (Or.inr ⟨msg, hst, rfl⟩)⟩
          exact (evolves_updateAsk harm).trans
            (evolves_accept (s := s.updateAsk k _) ht (Chan.resumeSend_queue hsend) ha hm)
      | pending c => rw [hsend] at h; exact absurd h (by simp)
      | closed =>
          rw [hsend] at h
          rw [← Option.some.inj h]
          exact (evolves_updateAsk (move_over hq (Or.inl rfl))).trans (evolves_dropReplies _ _ sc)
  | awaiting d => rw [hst] at h; exact absurd h (by simp)
  | done r => rw [hst] at h; exact absurd h (by simp)
  | dropped => rw [hst] at h; exact absurd h (by simp)

/-- A call that resolves on its reply channel was awaiting it, and is over. -/
theorem askResolves_cases {k : AskId} (h : s.askResolves k = some s') :
    ∃ q res, s.asks[k]? = some q ∧ (∃ d, q.stage = .awaiting d)
      ∧ s' = s.updateAsk k fun q => { q with stage := .done res } := by
  unfold System.askResolves at h
  rw [Option.bind_eq_some_iff] at h
  obtain ⟨q, hq, h⟩ := h
  split at h
  · rename_i d r hst _
    exact ⟨q, _, hq, ⟨d, hst⟩, (Option.some.inj h).symm⟩
  · rename_i d hst _
    exact ⟨q, _, hq, ⟨d, hst⟩, (Option.some.inj h).symm⟩
  · exact absurd h (by simp)

theorem askTimesOut_cases {k : AskId} (h : s.askTimesOut k = some s') :
    ∃ q d, s.asks[k]? = some q ∧ q.stage = .awaiting d ∧ d ≤ s.clock
      ∧ s' = s.updateAsk k fun q => { q with stage := .done (.error (.timeout q.dur)) } := by
  unfold System.askTimesOut at h
  rw [Option.bind_eq_some_iff] at h
  obtain ⟨q, hq, h⟩ := h
  split at h
  · rename_i d hst _
    split at h
    · rename_i hd
      exact ⟨q, d, hq, hst, hd, (Option.some.inj h).symm⟩
    · exact absurd h (by simp)
  · exact absurd h (by simp)

theorem evolves_dropAsk {s : System μ ρ} {k : AskId}
    (hsrc : ∀ x ∈ addrsAt s (.ask k), x ∈ sc.addrs) : Evolves s (s.dropAsk k) sc := by
  unfold System.dropAsk
  cases hq : s.asks[k]? with
  | none => exact Evolves.refl s sc
  | some q =>
      have hover : Evolves s (s.updateAsk k fun q => { q with stage := .dropped }) sc :=
        evolves_updateAsk (move_over hq (Or.inl rfl))
      dsimp only
      cases hst : q.stage with
      | sending msg =>
          have ha := hsrc _ (sending_addrs hq hst (List.mem_cons_self ..))
          have hcancel := evolves_mailbox (s := s.updateAsk k fun q => { q with stage := .dropped })
            (f := fun c => c.cancel k) ha fun t _ => Chan.cancel_queue t.mailbox k
          exact (hover.trans hcancel).trans (evolves_dropReplies _ _ sc)
      | awaiting d => exact hover
      | done r => exact Evolves.refl s sc
      | dropped => exact Evolves.refl s sc

theorem evolves_dropAsks (ks : List AskId) (s : System μ ρ)
    (hsrc : ∀ k ∈ ks, ∀ x ∈ addrsAt s (.ask k), x ∈ sc.addrs) :
    Evolves s (ks.foldl System.dropAsk s) sc := by
  induction ks generalizing s with
  | nil => exact Evolves.refl s sc
  | cons k ks ih =>
      have hfirst : Evolves s (s.dropAsk k) sc := evolves_dropAsk (hsrc k (List.mem_cons_self ..))
      -- dropping the first call gives the others no `Addr`s
      refine hfirst.trans (ih _ fun k' hk' x hx => ?_)
      rcases hfirst.addrs _ _ hx with hx | hx
      · exact hsrc k' (List.mem_cons_of_mem _ hk') x hx
      · exact hx

/-- A task that is over holds nothing, and nothing is queued for it. -/
theorem evolves_endActor {s : System μ ρ} {i : ActorId} (how : Exit) (hi : i ∈ sc.tasks)
    (hturn : sc.turns = some i)
    (hsrc : ∀ k ∈ s.asksOf i, ∀ x ∈ addrsAt s (.ask k), x ∈ sc.addrs) :
    Evolves s (s.endActor i how) sc := by
  unfold System.endActor
  refine (evolves_dropAsks (s.asksOf i) s hsrc).trans ?_
  dsimp only
  cases ((s.asksOf i).foldl System.dropAsk s).actors[i]? with
  | none => exact Evolves.refl _ sc
  | some t =>
      refine Evolves.trans (evolves_updateActor ?_ ?_ ?_) (evolves_dropReplies _ _ sc)
      · intro _ _ x hx; exact absurd hx (by simp [ActorTask.held, Phase.live])
      · intro _ _ x hx; exact absurd hx (by simp [ActorTask.queued])
      · exact fun _ _ => ⟨Or.inr hturn, Or.inl rfl, Or.inr (Or.inr hi)⟩

/-- A task that `endActor` ends is over. -/
theorem endActor_phase {i : ActorId} {how : Exit} {t : ActorTask μ}
    (h : (s.endActor i how).actors[i]? = some t) : t.phase = .ended how := by
  unfold System.endActor at h
  dsimp only at h
  cases hd : ((s.asksOf i).foldl System.dropAsk s).actors[i]? with
  | none => rw [hd] at h; dsimp only at h; rw [hd] at h; exact absurd h (by simp)
  | some t' =>
      rw [hd] at h
      have h' : (System.updateActor ((s.asksOf i).foldl System.dropAsk s) i fun t =>
          { t with mailbox := t.mailbox.close, hand := .empty, phase := .ended how }).actors[i]?
            = some t := h
      rw [updateActor_getElem?, hd] at h'
      rw [← Option.some.inj h']
      exact congrArg ActorTask.phase (if_pos rfl)

/-- `recv` moves the `Addr`s of the message from the mailbox to the task. -/
theorem recv_cases {t t' : ActorTask μ} (h : t.recv = some t') :
    ∃ m c, t.phase = .receiving ∧ t.mailbox.pop = some (m, c)
      ∧ t' = { t with mailbox := c, hand := t.hand.add m.carries, phase := .handling m,
                      handled := t.handled ++ [m] } := by
  unfold ActorTask.recv at h
  cases hph : t.phase with
  | receiving =>
      rw [hph] at h
      dsimp only at h
      rw [Option.map_eq_some_iff] at h
      obtain ⟨⟨m, c⟩, hpop, h⟩ := h
      exact ⟨m, c, rfl, hpop, h.symm⟩
  | starting => rw [hph] at h; exact absurd h (by simp)
  | handling m => rw [hph] at h; exact absurd h (by simp)
  | stopping => rw [hph] at h; exact absurd h (by simp)
  | ended how => rw [hph] at h; exact absurd h (by simp)

theorem evolves_recv {i : ActorId} {t t' : ActorTask μ} (ht : s.actors[i]? = some t)
    (h : t.recv = some t') (hi : i ∈ sc.tasks) (hturn : sc.turns = some i)
    (hsrc : ∀ x ∈ addrsAt s (.mail i), x ∈ sc.addrs) :
    Evolves s (s.updateActor i fun _ => t') sc := by
  obtain ⟨m, c, hph, hpop, rfl⟩ := recv_cases h
  have hqueue := Chan.pop_queue hpop
  refine evolves_updateActor ?_ ?_ (fun t'' ht'' => ?_)
  · intro t'' ht'' x hx
    obtain rfl := Option.some.inj (ht.symm.trans ht'')
    have hx' : x ∈ t.selfAddr :: (t.hand.addrs ++ m.carries.addrs) := hx
    have hheld : t.held = t.selfAddr :: t.hand.addrs := by
      unfold ActorTask.held; rw [hph]; rfl
    rw [← List.cons_append, List.mem_append] at hx'
    rcases hx' with hx' | hx'
    · exact Or.inl (hheld ▸ hx')
    · refine Or.inr (hsrc x (mem_mail.mpr ⟨t, ht, ?_⟩))
      unfold ActorTask.queued
      rw [hqueue, List.flatMap_cons]
      exact List.mem_append_left _ hx'
  · intro t'' ht'' x hx
    obtain rfl := Option.some.inj (ht.symm.trans ht'')
    unfold ActorTask.queued at hx ⊢
    rw [hqueue, List.flatMap_cons]
    exact Or.inl (List.mem_append_right _ hx)
  · obtain rfl := Option.some.inj (ht.symm.trans ht'')
    exact ⟨Or.inr hturn, Or.inl rfl, Or.inr (Or.inr hi)⟩

/-! ## The whole step -/

/-- The `Addr`s of the calls that run inside a task. -/
def askAddrs (s : System μ ρ) (i : ActorId) : List ActorId :=
  (s.asksOf i).flatMap fun k => addrsAt s (.ask k)

/-- How far a step reaches. -/
def scopeOf (s : System μ ρ) : Event μ ρ → Scope
  | .spawn p _ => ⟨[s.actors.length], tasksOf p, none, none⟩
  | .cloneAddr p _ => ⟨s.addrsOf p, tasksOf p, none, none⟩
  | .dropAddr p _ => ⟨[], tasksOf p, none, none⟩
  | .replaceSelf i _ => ⟨[], [i], none, some i⟩
  | .pass p q _ => ⟨s.addrsOf p, tasksOf p ++ tasksOf q, none, none⟩
  | .tell p _ _ => ⟨s.addrsOf p, tasksOf p, none, none⟩
  | .ask p _ _ _ => ⟨s.addrsOf p, tasksOf p, none, none⟩
  | .askSends k => ⟨addrsAt s (.ask k), [], none, none⟩
  | .askResolves _ => ⟨[], [], none, none⟩
  | .askTimesOut _ => ⟨[], [], none, none⟩
  | .dropAsk k => ⟨addrsAt s (.ask k), [], none, none⟩
  | .reply p _ _ => ⟨[], tasksOf p, none, none⟩
  | .dropReply p _ => ⟨[], tasksOf p, none, none⟩
  | .recv i => ⟨addrsAt s (.mail i), [i], some i, none⟩
  | .recvNone i => ⟨[], [i], some i, none⟩
  | .returns i => ⟨askAddrs s i, [i], some i, none⟩
  | .panics i => ⟨askAddrs s i, [i], some i, none⟩
  | .aborted i => ⟨askAddrs s i, [i], some i, none⟩
  | .tick _ => ⟨[], [], none, none⟩

theorem owns_addrs {p : Party} {c : Holding} (h : s.owns p c = true) :
    ∀ x ∈ c.addrs, x ∈ s.addrsOf p := by
  unfold System.owns at h
  rw [Bool.and_eq_true, Bool.and_eq_true] at h
  intro x hx
  exact of_decide_eq_true (List.all_eq_true.mp h.1.1 x hx)

/-- Taking reply senders out of a hand gives nobody an `Addr`. -/
theorem evolves_without {p : Party} (ks : List AskId) (hp : ∀ i ∈ tasksOf p, i ∈ sc.tasks) :
    Evolves s (s.updateHand p fun h => h.without ks) sc :=
  evolves_updateHand hp fun _ _ hx => Or.inl hx

/-- A change of phase, and of nothing else, of a task that is there. -/
theorem evolves_phase {i : ActorId} {t : ActorTask μ} {phase : Phase μ}
    (ht : s.actors[i]? = some t) (hlive : t.phase.live = true) (hi : i ∈ sc.tasks)
    (hturn : sc.turns = some i) :
    Evolves s (s.updateActor i fun t => { t with phase := phase }) sc := by
  refine evolves_updateActor ?_ (fun _ _ x hx => Or.inl hx)
    (fun _ _ => ⟨Or.inr hturn, Or.inl rfl, Or.inr (Or.inr hi)⟩)
  intro t' ht' x hx
  obtain rfl := Option.some.inj (ht.symm.trans ht')
  unfold ActorTask.held at hx ⊢
  rw [if_pos hlive]
  dsimp only at hx
  split at hx
  · exact Or.inl hx
  · exact absurd hx (by simp)

theorem live_of_inCallback {ph : Phase μ} (h : ph.inCallback = true) : ph.live = true := by
  cases ph with
  | ended how => exact Bool.noConfusion h
  | receiving => rfl
  | starting => rfl
  | handling m => rfl
  | stopping => rfl

/-- `ctx.self_addr` changes places with an `Addr` of the task's. -/
theorem evolves_replaceSelf {i : ActorId} {a : ActorId} {t : ActorTask μ}
    (ht : s.actors[i]? = some t) (hlive : t.phase.live = true) (ha : a ∈ t.hand.addrs) :
    Evolves s
      (s.updateActor i fun t =>
        { t with
          selfAddr := a
          hand := { t.hand with addrs := t.hand.addrs.erase a ++ [t.selfAddr] } })
      ⟨[], [i], none, some i⟩ := by
  refine evolves_updateActor ?_ (fun _ _ x hx => Or.inl hx)
    (fun _ _ => ⟨Or.inl rfl, Or.inr rfl, Or.inr (Or.inr (List.mem_singleton.mpr rfl))⟩)
  intro t' ht' x hx
  obtain rfl := Option.some.inj (ht.symm.trans ht')
  have hheld : t.held = t.selfAddr :: t.hand.addrs := by
    unfold ActorTask.held; rw [if_pos hlive]
  refine Or.inl (hheld ▸ ?_)
  have hx' : x ∈ a :: (t.hand.addrs.erase a ++ [t.selfAddr]) := by
    unfold ActorTask.held at hx
    dsimp only at hx
    rw [if_pos hlive] at hx
    exact hx
  rcases List.mem_cons.mp hx' with rfl | hx'
  · exact List.mem_cons_of_mem _ ha
  · rcases List.mem_append.mp hx' with hx' | hx'
    · exact List.mem_cons_of_mem _ (List.mem_of_mem_erase hx')
    · rw [List.mem_singleton.mp hx']; exact List.mem_cons_self ..

theorem evolves_ends {i : ActorId} (how : Exit) :
    Evolves s (s.endActor i how) ⟨askAddrs s i, [i], some i, none⟩ :=
  evolves_endActor how (List.mem_singleton.mpr rfl) rfl
    (fun k hk _ hx => List.mem_flatMap.mpr ⟨k, hk, hx⟩)

/-- **What a step that takes no time can do.** -/
theorem step_evolves {e : Event μ ρ} (h : step s e = some s') (htick : ∀ d, e ≠ .tick d) :
    Evolves s s' (scopeOf s e) := by
  cases step_takes h with
  | spawn p mailboxBound _ _ =>
      exact evolves_spawn mailboxBound (fun _ hi => hi) (List.mem_singleton.mpr rfl)
  | cloneAddr p a ha =>
      refine evolves_updateHand (fun _ hi => hi) fun hand x hx => ?_
      rcases List.mem_append.mp hx with hx | hx
      · exact Or.inl hx
      · exact Or.inr (List.mem_singleton.mp hx ▸ ha)
  | dropAddr p a _ =>
      exact evolves_updateHand (fun _ hi => hi) fun _ _ hx => Or.inl (List.mem_of_mem_erase hx)
  | replaceSelf i a t ht hin ha => exact evolves_replaceSelf ht (live_of_inCallback hin) ha
  | pass p q c _ howns _ =>
      refine (evolves_without c.replies fun _ hi => List.mem_append_left _ hi).trans
        (evolves_updateHand (fun _ hi => List.mem_append_right _ hi) fun hand x hx => ?_)
      rcases List.mem_append.mp hx with hx | hx
      · exact Or.inl hx
      · exact Or.inr (owns_addrs howns x hx)
  | tell p a m ha howns h =>
      exact (evolves_without m.carries.replies fun _ hi => hi).trans
        (evolves_tellOrDrop ha (owns_addrs howns) h)
  | ask p a m dur ha howns h =>
      exact (evolves_without m.carries.replies fun _ hi => hi).trans
        (evolves_ask ha (owns_addrs howns) h)
  | askSends k h => exact evolves_askSends (fun _ hx => hx) h
  | askResolves k h =>
      obtain ⟨q, res, hq, _, rfl⟩ := askResolves_cases h
      exact evolves_updateAsk (move_over hq (Or.inl rfl))
  | askTimesOut k h =>
      obtain ⟨q, d, hq, _, _, rfl⟩ := askTimesOut_cases h
      exact evolves_updateAsk fun q _ => ⟨⟨rfl, rfl, rfl, rfl⟩, Or.inr (Or.inl rfl)⟩
  | dropAsk k q _ _ => exact evolves_dropAsk (fun _ hx => hx)
  | reply p k r _ =>
      refine (evolves_without [k] fun _ hi => hi).trans (evolves_updateAsk fun q _ => ?_)
      unfold Ask.reply
      split
      · exact AskMove.of_stage ⟨rfl, rfl, rfl, rfl⟩ rfl
      · exact AskMove.refl _ q
  | dropReply p k _ =>
      exact (evolves_without [k] fun _ hi => hi).trans (evolves_dropReplies _ _ _)
  | recv i t t' ht hrecv =>
      exact evolves_recv ht hrecv (List.mem_singleton.mpr rfl) rfl (fun _ hx => hx)
  | recvNone i t ht hph _ _ =>
      exact evolves_phase ht (by rw [hph]; rfl) (List.mem_singleton.mpr rfl) rfl
  | started i t ht hph _ =>
      exact evolves_phase ht (by rw [hph]; rfl) (List.mem_singleton.mpr rfl) rfl
  | handled i t m ht hph _ =>
      exact evolves_phase ht (by rw [hph]; rfl) (List.mem_singleton.mpr rfl) rfl
  | stopped i t _ _ _ => exact evolves_ends .returned
  | panics i t _ _ => exact evolves_ends .panicked
  | aborted i t _ _ => exact evolves_ends .aborted
  | tick d _ => exact absurd rfl (htick d)

/-- A step either takes no time or only moves the clock, past no timer. -/
theorem step_cases {e : Event μ ρ} (h : step s e = some s') :
    Evolves s s' (scopeOf s e)
      ∨ ∃ d, e = .tick d ∧ s.timersAllow (s.clock + d) = true
        ∧ s' = { s with clock := s.clock + d } := by
  cases e with
  | tick d =>
      cases step_takes h with
      | tick d hallow => exact Or.inr ⟨d, rfl, hallow, rfl⟩
  | _ => exact Or.inl (step_evolves h nofun)

theorem step_addrs {e : Event μ ρ} (h : step s e = some s') {q : Place} {x : ActorId}
    (hx : x ∈ addrsAt s' q) : x ∈ addrsAt s q ∨ x ∈ (scopeOf s e).addrs := by
  rcases step_cases h with hev | ⟨d, _, _, rfl⟩
  · exact hev.addrs q x hx
  · exact Or.inl (by cases q <;> exact hx)

theorem step_task {e : Event μ ρ} (h : step s e = some s') {i : ActorId} {t : ActorTask μ}
    (ht : s.actors[i]? = some t) :
    ∃ t', s'.actors[i]? = some t' ∧ TaskMove (scopeOf s e) i t t' := by
  rcases step_cases h with hev | ⟨d, _, _, rfl⟩
  · exact hev.tasks i t ht
  · exact ⟨t, ht, TaskMove.refl ..⟩

theorem step_born {e : Event μ ρ} (h : step s e = some s') {i : ActorId} {t' : ActorTask μ}
    (ht' : s'.actors[i]? = some t') (h0 : s.actors[i]? = none) : TaskNew (scopeOf s e) i t' := by
  rcases step_cases h with hev | ⟨d, _, _, rfl⟩
  · exact hev.born i t' ht' h0
  · exact nomatch h0.symm.trans ht'

end ErlangActors.Proof
