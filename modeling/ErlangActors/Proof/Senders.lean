import ErlangActors.Proof.Evolution

/-!
# Where a reply sender is

A reply sender is moved, never cloned: it is in somebody's hands, in a message of a
mailbox, or in the message of an `ask` that waits for a slot. A step moves senders along
one way at most (`Routed`). One that leaves its place otherwise has been used or dropped,
and that resolves the reply channel: `Handover` says so of a whole step, and `Stays` of a
piece of a step that moves none.
-/

namespace ErlangActors.Proof

open Actor Channel

variable {μ ρ : Type}

/-! ## Places -/

/-- The reply senders in the message of a call that waits for a slot. -/
def carried : Stage μ ρ → List AskId
  | .sending m => m.carries.replies
  | _ => []

/-- The reply senders in a mailbox. -/
def mailed (t : ActorTask μ) : List AskId := t.mailbox.queue.flatMap fun m => m.carries.replies

def repliesAt (s : System μ ρ) : Place → List AskId
  | .hand => s.hand.replies
  | .task i => (s.actors[i]?).elim [] fun t => t.hand.replies
  | .mail i => (s.actors[i]?).elim [] mailed
  | .ask k => (s.asks[k]?).elim [] fun q => carried q.stage

variable {s s' s'' : System μ ρ} {pl : Place} {k : AskId}

theorem repliesAt_task {i : ActorId} {t : ActorTask μ} (ht : s.actors[i]? = some t) :
    repliesAt s (.task i) = t.hand.replies := by
  unfold repliesAt
  dsimp only
  rw [ht]
  rfl

theorem repliesAt_mail {i : ActorId} {t : ActorTask μ} (ht : s.actors[i]? = some t) :
    repliesAt s (.mail i) = mailed t := by
  unfold repliesAt
  dsimp only
  rw [ht]
  rfl

theorem repliesAt_ask {q : Ask μ ρ} (hq : s.asks[k]? = some q) :
    repliesAt s (.ask k) = carried q.stage := by
  unfold repliesAt
  dsimp only
  rw [hq]
  rfl

/-- The senders a party can use are at its place. -/
theorem mem_repliesOf {p : Party} (h : k ∈ s.repliesOf p) : k ∈ repliesAt s (placeOf p) := by
  cases p with
  | outside => exact h
  | actor i =>
      unfold System.repliesOf at h
      dsimp only at h
      cases ht : s.actors[i]? with
      | none => rw [ht] at h; exact absurd h List.not_mem_nil
      | some t =>
          rw [ht] at h
          show k ∈ repliesAt s (.task i)
          rw [repliesAt_task ht]
          dsimp only at h
          split at h
          · exact h
          · exact absurd h List.not_mem_nil

theorem owns_replies {p : Party} {c : Holding} (h : s.owns p c = true) :
    ∀ k ∈ c.replies, k ∈ repliesAt s (placeOf p) := by
  unfold System.owns at h
  rw [Bool.and_eq_true, Bool.and_eq_true] at h
  intro k hk
  exact mem_repliesOf (of_decide_eq_true (List.all_eq_true.mp h.1.2 k hk))

/-! ### One task changes -/

theorem mem_updateActor {i : ActorId} {t : ActorTask μ} {f : ActorTask μ → ActorTask μ}
    (ht : s.actors[i]? = some t) :
    k ∈ repliesAt (s.updateActor i f) pl
      ↔ if pl = .task i then k ∈ (f t).hand.replies
        else if pl = .mail i then k ∈ mailed (f t) else k ∈ repliesAt s pl := by
  have hself : (s.updateActor i f).actors[i]? = some (f t) := by
    rw [updateActor_getElem?, ht]
    exact congrArg some (if_pos rfl)
  have hother : ∀ j, j ≠ i → (s.updateActor i f).actors[j]? = s.actors[j]? := by
    intro j hj
    rw [updateActor_getElem?]
    cases s.actors[j]? <;> simp [Ne.symm hj]
  cases pl with
  | hand => exact Iff.rfl
  | ask j => exact Iff.rfl
  | task j =>
      by_cases hj : j = i
      · subst hj
        rw [if_pos rfl, repliesAt_task hself]
      · rw [if_neg (fun h => hj (Place.task.inj h)), if_neg (by simp)]
        unfold repliesAt
        dsimp only
        rw [hother j hj]
  | mail j =>
      by_cases hj : j = i
      · subst hj
        rw [if_neg (by simp), if_pos rfl, repliesAt_mail hself]
      · rw [if_neg (by simp), if_neg (fun h => hj (Place.mail.inj h))]
        unfold repliesAt
        dsimp only
        rw [hother j hj]

theorem updateActor_none {i : ActorId} {f : ActorTask μ → ActorTask μ}
    (h : s.actors[i]? = none) : s.updateActor i f = s := by
  unfold System.updateActor
  rw [List.modify_eq_self (List.getElem?_eq_none_iff.mp h)]

/-- A task whose hand and mailbox keep their senders. -/
theorem repliesAt_updateActor {i : ActorId} {f : ActorTask μ → ActorTask μ}
    (hhand : ∀ t, (f t).hand.replies = t.hand.replies)
    (hmail : ∀ t, s.actors[i]? = some t → mailed (f t) = mailed t) :
    k ∈ repliesAt (s.updateActor i f) pl ↔ k ∈ repliesAt s pl := by
  cases ht : s.actors[i]? with
  | none => rw [updateActor_none ht]
  | some t =>
      rw [mem_updateActor ht]
      split
      · rename_i hpl
        rw [hpl, repliesAt_task ht, hhand]
      · split
        · rename_i hpl
          rw [hpl, repliesAt_mail ht, hmail t ht]
        · exact Iff.rfl

/-- A mailbox whose queue stays as it is. -/
theorem repliesAt_mailbox {a : ActorId} {f : Chan (Msg μ) AskId → Chan (Msg μ) AskId}
    (hf : ∀ t, s.actors[a]? = some t → (f t.mailbox).queue = t.mailbox.queue) :
    k ∈ repliesAt (s.updateActor a fun t => { t with mailbox := f t.mailbox }) pl
      ↔ k ∈ repliesAt s pl := by
  refine repliesAt_updateActor (fun _ => rfl) fun t ht => ?_
  unfold mailed
  rw [hf t ht]

theorem mem_accept {a : ActorId} {t : ActorTask μ} {m : Msg μ} {c : Chan (Msg μ) AskId}
    (ht : s.actors[a]? = some t) (hqueue : c.queue = t.mailbox.queue ++ [m]) :
    k ∈ repliesAt (s.updateActor a (.accept m c)) pl
      ↔ k ∈ repliesAt s pl ∨ pl = .mail a ∧ k ∈ m.carries.replies := by
  have hmailed : mailed (t.accept m c) = mailed t ++ m.carries.replies := by
    unfold mailed ActorTask.accept
    dsimp only
    rw [hqueue, List.flatMap_append, List.flatMap_singleton]
  rw [mem_updateActor ht]
  split
  · rename_i hpl
    rw [hpl, repliesAt_task ht]
    simp [ActorTask.accept]
  · split
    · rename_i hpl
      rw [hpl, repliesAt_mail ht, hmailed, List.mem_append]
      simp
    · rename_i hpl
      simp [hpl]

/-! ### A hand changes -/

/-- A change of `Addr`s only. -/
theorem repliesAt_updateHand {p : Party} {f : Holding → Holding}
    (hf : ∀ h, (f h).replies = h.replies) :
    k ∈ repliesAt (s.updateHand p f) pl ↔ k ∈ repliesAt s pl := by
  cases p with
  | outside =>
      cases pl with
      | hand => show k ∈ (f s.hand).replies ↔ k ∈ s.hand.replies; rw [hf]
      | _ => exact Iff.rfl
  | actor i => exact repliesAt_updateActor (fun t => hf t.hand) fun _ _ => rfl

theorem mem_without {p : Party} {ks : List AskId} :
    k ∈ repliesAt (s.updateHand p fun h => h.without ks) pl
      ↔ k ∈ repliesAt s pl ∧ ¬ (pl = placeOf p ∧ k ∈ ks) := by
  have hhand : ∀ h : Holding, k ∈ (h.without ks).replies ↔ k ∈ h.replies ∧ k ∉ ks := by
    intro h
    unfold Holding.without
    simp
  cases p with
  | outside =>
      cases pl with
      | hand =>
          show k ∈ (s.hand.without ks).replies ↔ k ∈ s.hand.replies ∧ _
          rw [hhand]
          simp [placeOf]
      | _ => simp [placeOf, repliesAt, System.updateHand]
  | actor i =>
      show k ∈ repliesAt (s.updateActor i fun t => { t with hand := t.hand.without ks }) pl ↔ _
      cases ht : s.actors[i]? with
      | none =>
          rw [updateActor_none ht]
          refine ⟨fun hk => ⟨hk, ?_⟩, And.left⟩
          rintro ⟨rfl, _⟩
          simp [repliesAt, placeOf, ht] at hk
      | some t =>
          rw [mem_updateActor ht]
          split
          · rename_i hpl
            rw [hpl, repliesAt_task ht]
            simp [placeOf, hhand]
          · rename_i hpl
            split
            · rename_i hmail
              rw [hmail, repliesAt_mail ht]
              simp [placeOf, mailed]
            · simp [placeOf, hpl]

theorem mem_add {p : Party} {c : Holding} (hp : s.active p = true) :
    k ∈ repliesAt (s.updateHand p fun h => h.add c) pl
      ↔ k ∈ repliesAt s pl ∨ pl = placeOf p ∧ k ∈ c.replies := by
  cases p with
  | outside =>
      cases pl with
      | hand =>
          show k ∈ (s.hand.add c).replies ↔ k ∈ s.hand.replies ∨ _
          simp [Holding.add, placeOf]
      | _ => simp [placeOf, repliesAt, System.updateHand]
  | actor i =>
      show k ∈ repliesAt (s.updateActor i fun t => { t with hand := t.hand.add c }) pl ↔ _
      cases ht : s.actors[i]? with
      | none => simp [System.active, ht] at hp
      | some t =>
          rw [mem_updateActor ht]
          split
          · rename_i hpl
            rw [hpl, repliesAt_task ht]
            simp [placeOf, Holding.add]
          · rename_i hpl
            split
            · rename_i hmail
              rw [hmail, repliesAt_mail ht]
              simp [placeOf, mailed]
            · simp [placeOf, hpl]

theorem mem_elim_snoc {α β : Type} {l : List α} {a : α} {f : α → List β} (hf : f a = []) {i : Nat}
    {b : β} : b ∈ ((l ++ [a])[i]?).elim [] f ↔ b ∈ (l[i]?).elim [] f := by
  rcases Nat.lt_trichotomy i l.length with hlt | rfl | hgt
  · rw [List.getElem?_append_left hlt]
  · rw [List.getElem?_concat_length, List.getElem?_eq_none (Nat.le_refl _)]
    simp [hf]
  · rw [List.getElem?_eq_none (by simp; omega), List.getElem?_eq_none (Nat.le_of_lt hgt)]

/-! ### Calls change -/

theorem repliesAt_updateAsk {j : AskId} {q : Ask μ ρ} {f : Ask μ ρ → Ask μ ρ}
    (hq : s.asks[j]? = some q) :
    k ∈ repliesAt (s.updateAsk j f) pl
      ↔ if pl = .ask j then k ∈ carried (f q).stage else k ∈ repliesAt s pl := by
  cases pl with
  | hand => exact Iff.rfl
  | task i => exact Iff.rfl
  | mail i => exact Iff.rfl
  | ask l =>
      unfold repliesAt
      dsimp only
      rw [updateAsk_getElem?]
      by_cases hl : l = j
      · subst hl
        rw [if_pos rfl, hq]
        simp
      · rw [if_neg (fun h => hl (Place.ask.inj h))]
        cases s.asks[l]? <;> simp [Ne.symm hl]

theorem dropReplies_getElem? (s : System μ ρ) (ks : List AskId) (j : AskId) :
    (s.dropReplies ks).asks[j]?
      = (s.asks[j]?).map fun q => if j ∈ ks then { q with oneshot := q.oneshot.dropSender } else q :=
  List.getElem?_mapIdx

theorem repliesAt_dropReplies (ks : List AskId) :
    k ∈ repliesAt (s.dropReplies ks) pl ↔ k ∈ repliesAt s pl := by
  cases pl with
  | hand => exact Iff.rfl
  | task i => exact Iff.rfl
  | mail i => exact Iff.rfl
  | ask j =>
      unfold repliesAt
      dsimp only
      rw [dropReplies_getElem?]
      cases s.asks[j]? with
      | none => exact Iff.rfl
      | some q =>
          dsimp only [Option.map, Option.elim]
          split <;> exact Iff.rfl

theorem mem_open {q : Ask μ ρ} :
    k ∈ repliesAt { s with asks := s.asks ++ [q] } pl
      ↔ k ∈ repliesAt s pl ∨ pl = .ask s.asks.length ∧ k ∈ carried q.stage := by
  cases pl with
  | hand => simp [repliesAt]
  | task i => simp [repliesAt]
  | mail i => simp [repliesAt]
  | ask j =>
      unfold repliesAt
      dsimp only
      rcases Nat.lt_trichotomy j s.asks.length with hlt | rfl | hgt
      · rw [List.getElem?_append_left hlt]
        simp [Nat.ne_of_lt hlt]
      · rw [List.getElem?_concat_length, List.getElem?_eq_none (Nat.le_refl _)]
        simp
      · rw [List.getElem?_eq_none (by simp; omega), List.getElem?_eq_none (Nat.le_of_lt hgt)]
        simp [Nat.ne_of_gt hgt]

/-! ## A piece of a step that moves no sender -/

/-- A call stays where it is, unless its future is dropped; and its reply channel stays as it is,
unless the sender is. -/
structure Fades (q q' : Ask μ ρ) : Prop where
  terms : SameTerms q q'
  stage : q'.stage = q.stage ∨ q.stage.pending = true ∧ q'.stage = .dropped
  oneshot : q'.oneshot = q.oneshot ∨ q'.oneshot = q.oneshot.dropSender

theorem Fades.refl (q : Ask μ ρ) : Fades q q := ⟨⟨rfl, rfl, rfl, rfl⟩, Or.inl rfl, Or.inl rfl⟩

theorem dropSender_twice (o : Oneshot ρ) : o.dropSender.dropSender = o.dropSender := by
  cases o <;> rfl

theorem Fades.trans {q q' q'' : Ask μ ρ} (h : Fades q q') (h' : Fades q' q'') : Fades q q'' where
  terms := ⟨h'.terms.caller.trans h.terms.caller, h'.terms.target.trans h.terms.target,
    h'.terms.dur.trans h.terms.dur, h'.terms.calledAt.trans h.terms.calledAt⟩
  stage := by
    rcases h'.stage with hs' | ⟨hpend, hs'⟩
    · rw [hs']; exact h.stage
    · rcases h.stage with hs | ⟨_, hs⟩
      · exact Or.inr ⟨hs ▸ hpend, hs'⟩
      · rw [hs] at hpend; exact Bool.noConfusion hpend
  oneshot := by
    rcases h'.oneshot with ho' | ho'
    · rw [ho']; exact h.oneshot
    · rcases h.oneshot with ho | ho
      · exact Or.inr (ho ▸ ho')
      · exact Or.inr (by rw [ho', ho, dropSender_twice])

/-- Nothing is to come on the reply channel of the `k`-th call, or nobody waits for it. -/
def Resolved (s : System μ ρ) (k : AskId) : Prop :=
  ∀ q, s.asks[k]? = some q → q.oneshot ≠ .empty ∨ q.stage.pending = false

theorem Fades.resolved {q q' : Ask μ ρ} (h : Fades q q')
    (hres : q.oneshot ≠ .empty ∨ q.stage.pending = false) :
    q'.oneshot ≠ .empty ∨ q'.stage.pending = false := by
  rcases hres with ho | hpend
  · refine Or.inl ?_
    rcases h.oneshot with ho' | ho' <;> rw [ho']
    · exact ho
    · cases hone : q.oneshot with
      | empty => exact absurd hone ho
      | sent r => exact nofun
      | senderDropped => exact nofun
  · refine Or.inr ?_
    rcases h.stage with hs | ⟨_, hs⟩
    · rw [hs, hpend]
    · rw [hs]; rfl

/-- No call is made, and none gets further. -/
def Fading (s s' : System μ ρ) : Prop :=
  s'.asks.length = s.asks.length ∧ ∀ (k : AskId) (q : Ask μ ρ), s.asks[k]? = some q →
    ∃ q', s'.asks[k]? = some q' ∧ Fades q q'

theorem fading_of_eq (h : s'.asks = s.asks) : Fading s s' :=
  ⟨congrArg List.length h, fun _ q hq => ⟨q, h ▸ hq, Fades.refl q⟩⟩

theorem Fading.trans (h : Fading s s') (h' : Fading s' s'') : Fading s s'' := by
  refine ⟨h'.1.trans h.1, fun k q hq => ?_⟩
  obtain ⟨q', hq', hfade⟩ := h.2 k q hq
  obtain ⟨q'', hq'', hfade'⟩ := h'.2 k q' hq'
  exact ⟨q'', hq'', hfade.trans hfade'⟩

theorem Fading.resolved (h : Fading s s') (hres : Resolved s k) : Resolved s' k := by
  intro q' hq'
  obtain ⟨q, hq⟩ : ∃ q, s.asks[k]? = some q :=
    ⟨_, List.getElem?_eq_getElem (h.1 ▸ (List.getElem?_eq_some_iff.mp hq').1)⟩
  obtain ⟨q₁, hq₁, hfade⟩ := h.2 k q hq
  obtain rfl := Option.some.inj (hq₁.symm.trans hq')
  exact hfade.resolved (hres q hq)

/-- Every sender stays where it is, or is used or dropped. -/
structure Stays (s s' : System μ ρ) : Prop where
  comes : ∀ pl k, k ∈ repliesAt s' pl → k ∈ repliesAt s pl
  goes : ∀ pl k, k ∈ repliesAt s pl → k ∈ repliesAt s' pl ∨ Resolved s' k
  asks : Fading s s'

theorem Stays.of_same (h : ∀ pl k, k ∈ repliesAt s' pl ↔ k ∈ repliesAt s pl)
    (hasks : Fading s s') : Stays s s' :=
  ⟨fun pl k => (h pl k).mp, fun pl k hk => Or.inl ((h pl k).mpr hk), hasks⟩

theorem Stays.refl (s : System μ ρ) : Stays s s :=
  .of_same (fun _ _ => Iff.rfl) (fading_of_eq rfl)

theorem Stays.trans (h : Stays s s') (h' : Stays s' s'') : Stays s s'' where
  comes := fun pl k hk => h.comes pl k (h'.comes pl k hk)
  goes := by
    intro pl k hk
    rcases h.goes pl k hk with hk | hres
    · exact h'.goes pl k hk
    · exact Or.inr (h'.asks.resolved hres)
  asks := h.asks.trans h'.asks

theorem fading_dropReplies (s : System μ ρ) (ks : List AskId) : Fading s (s.dropReplies ks) := by
  refine ⟨List.length_mapIdx .., fun k q hq => ⟨_, by rw [dropReplies_getElem?, hq]; rfl, ?_⟩⟩
  split
  · exact ⟨⟨rfl, rfl, rfl, rfl⟩, Or.inl rfl, Or.inr rfl⟩
  · exact Fades.refl q

theorem resolved_dropReplies {ks : List AskId} (hk : k ∈ ks) : Resolved (s.dropReplies ks) k := by
  intro q' hq'
  rw [dropReplies_getElem?] at hq'
  obtain ⟨q, _, rfl⟩ := Option.map_eq_some_iff.mp hq'
  rw [if_pos hk]
  refine Or.inl ?_
  show q.oneshot.dropSender ≠ .empty
  cases q.oneshot <;> exact nofun

/-- A future dropped takes its message with it. -/
theorem stays_dropAsk (s : System μ ρ) (j : AskId) : Stays s (s.dropAsk j) := by
  unfold System.dropAsk
  cases hq : s.asks[j]? with
  | none => exact Stays.refl s
  | some q =>
      have hfade : q.stage.pending = true →
          Fading s (s.updateAsk j fun q => { q with stage := .dropped }) := by
        intro hpend
        refine ⟨List.length_modify .., fun k q₁ hq₁ =>
          ⟨_, by rw [updateAsk_getElem?, hq₁]; rfl, ?_⟩⟩
        split
        · rename_i hjk
          subst hjk
          obtain rfl := Option.some.inj (hq.symm.trans hq₁)
          exact ⟨⟨rfl, rfl, rfl, rfl⟩, Or.inr ⟨hpend, rfl⟩, Or.inl rfl⟩
        · exact Fades.refl q₁
      dsimp only
      cases hst : q.stage with
      | sending msg =>
          -- a call dropped while it sends drops the message too, with the senders in it
          have hmoved : ∀ (pl : Place) (k : AskId), k ∈ repliesAt
              (((s.updateAsk j fun q => { q with stage := .dropped }).updateActor q.target
                fun t => { t with mailbox := t.mailbox.cancel j }).dropReplies msg.carries.replies) pl
                ↔ if pl = .ask j then k ∈ carried (.dropped : Stage μ ρ)
                  else k ∈ repliesAt s pl := by
            intro pl k
            rw [repliesAt_dropReplies]
            refine (repliesAt_mailbox (f := fun c => c.cancel j) fun t _ =>
              Chan.cancel_queue t.mailbox j).trans ?_
            rw [repliesAt_updateAsk hq]
          refine ⟨fun pl k hk => ?_, fun pl k hk => ?_, ?_⟩
          · rw [hmoved] at hk
            split at hk
            · exact absurd hk List.not_mem_nil
            · exact hk
          · rw [hmoved]
            split
            · rename_i hpl
              rw [hpl, repliesAt_ask hq, hst] at hk
              exact Or.inr (resolved_dropReplies hk)
            · exact Or.inl hk
          · exact (hfade (by rw [hst]; rfl)).trans (fading_dropReplies (System.updateActor _ _ _) _)
      | awaiting d =>
          refine .of_same (fun pl k => ?_) (hfade (by rw [hst]; rfl))
          rw [repliesAt_updateAsk hq]
          split
          · rename_i hpl
            rw [hpl, repliesAt_ask hq, hst]
            exact Iff.rfl
          · exact Iff.rfl
      | done res => exact Stays.refl s
      | dropped => exact Stays.refl s

theorem stays_dropAsks (ks : List AskId) (s : System μ ρ) :
    Stays s (ks.foldl System.dropAsk s) := by
  induction ks generalizing s with
  | nil => exact Stays.refl s
  | cons k ks ih => exact (stays_dropAsk s k).trans (ih _)

/-- A task that ends drops every sender in its hands and in its mailbox. -/
theorem stays_endActor (s : System μ ρ) (i : ActorId) (how : Exit) :
    Stays s (s.endActor i how)
      ∧ ∀ k, k ∉ repliesAt (s.endActor i how) (.task i)
        ∧ k ∉ repliesAt (s.endActor i how) (.mail i) := by
  have hdrops := stays_dropAsks (s.asksOf i) s
  unfold System.endActor
  dsimp only
  cases ht : ((s.asksOf i).foldl System.dropAsk s).actors[i]? with
  | none => exact ⟨hdrops, fun k => by simp [repliesAt, ht]⟩
  | some t =>
      have hmoved : ∀ (pl : Place) (k : AskId), k ∈ repliesAt
          ((System.updateActor ((s.asksOf i).foldl System.dropAsk s) i fun t =>
            { t with mailbox := t.mailbox.close, hand := .empty, phase := .ended how }).dropReplies
              t.replies) pl
            ↔ pl ≠ .task i ∧ pl ≠ .mail i
              ∧ k ∈ repliesAt ((s.asksOf i).foldl System.dropAsk s) pl := by
        intro pl k
        rw [repliesAt_dropReplies, mem_updateActor ht]
        split
        · rename_i hpl
          simp [hpl, Holding.empty]
        · rename_i hpl
          split
          · rename_i hmail
            simp [hmail, mailed]
          · rename_i hmail
            simp [hpl, hmail]
      refine ⟨hdrops.trans ⟨fun pl k hk => ((hmoved pl k).mp hk).2.2, fun pl k hk => ?_,
        fading_dropReplies (System.updateActor _ i _) _⟩, fun k => ?_⟩
      · by_cases htask : pl = .task i
        · rw [htask, repliesAt_task ht] at hk
          exact Or.inr (resolved_dropReplies (List.mem_append_left _ hk))
        · by_cases hmail : pl = .mail i
          · rw [hmail, repliesAt_mail ht] at hk
            exact Or.inr (resolved_dropReplies (List.mem_append_right _ hk))
          · exact Or.inl ((hmoved pl k).mpr ⟨htask, hmail, hk⟩)
      · exact ⟨fun hk => ((hmoved _ k).mp hk).1 rfl, fun hk => ((hmoved _ k).mp hk).2.1 rfl⟩

/-! ## A whole step -/

/-- The senders `ks`, taken from somewhere before, come to `dst`, or are used or dropped. -/
structure Delivers (s s' : System μ ρ) (dst : Place) (ks : List AskId) : Prop where
  comes : ∀ pl k, k ∈ repliesAt s' pl → k ∈ repliesAt s pl ∨ pl = dst ∧ k ∈ ks
  goes : ∀ pl k, k ∈ repliesAt s pl → k ∈ repliesAt s' pl ∨ Resolved s' k
  arrives : ∀ k ∈ ks, k ∈ repliesAt s' dst ∨ Resolved s' k

/-- The senders `ks` go from `src` to `dst`, or are used or dropped; no other leaves its place
unless it is used or dropped. Of the senders moved one may be that of a call just made. -/
structure Handover (s s' : System μ ρ) (src dst : Place) (ks : List AskId) : Prop where
  owned : ∀ k ∈ ks, k ∈ repliesAt s src ∨ s.asks.length ≤ k ∧ k < s'.asks.length
  comes : ∀ pl k, k ∈ repliesAt s' pl → k ∈ repliesAt s pl ∨ pl = dst ∧ k ∈ ks
  goes : ∀ pl k, k ∈ repliesAt s pl → k ∈ repliesAt s' pl ∨ (pl = src ∧ k ∈ ks) ∨ Resolved s' k
  arrives : ∀ k ∈ ks, k ∈ repliesAt s' dst ∨ Resolved s' k

/-- The way on which a step moves senders. -/
inductive Routed (s : System μ ρ) : Event μ ρ → Place → Place → List AskId → Prop where
  | still (e : Event μ ρ) (hask : ∀ p a m dur, e ≠ .ask p a m dur) : Routed s e .hand .hand []
  | pass (p q : Party) (c : Holding) (hq : s.active q = true) :
      Routed s (.pass p q c) (placeOf p) (placeOf q) c.replies
  | tell (p : Party) (a : ActorId) (m : Msg μ) :
      Routed s (.tell p a m) (placeOf p) (.mail a) m.carries.replies
  | ask (p : Party) (a : ActorId) (m : Msg μ) (dur : Nat) :
      Routed s (.ask p a m dur) (placeOf p) (.mail a) (m.withReply s.asks.length).carries.replies
  /-- The mailbox is full, and the message stays with the call. -/
  | askWaits (p : Party) (a : ActorId) (m : Msg μ) (dur : Nat) :
      Routed s (.ask p a m dur) (placeOf p) (.ask s.asks.length)
        (m.withReply s.asks.length).carries.replies
  | askSends (k : AskId) (q : Ask μ ρ) (hq : s.asks[k]? = some q) :
      Routed s (.askSends k) (.ask k) (.mail q.target) (carried q.stage)
  | reply (p : Party) (k : AskId) (r : ρ) : Routed s (.reply p k r) (placeOf p) (placeOf p) [k]
  | dropReply (p : Party) (k : AskId) : Routed s (.dropReply p k) (placeOf p) (placeOf p) [k]
  | recv (i : ActorId) (m : Msg μ) (t : ActorTask μ) (ht : s.actors[i]? = some t)
      (hph : t.phase = .receiving) : Routed s (.recv i) (.mail i) (.task i) m.carries.replies

theorem Stays.handover (h : Stays s s') : Handover s s' .hand .hand [] where
  owned := fun _ hk => absurd hk List.not_mem_nil
  comes := fun pl k hk => Or.inl (h.comes pl k hk)
  goes := fun pl k hk => (h.goes pl k hk).imp id Or.inr
  arrives := fun _ hk => absurd hk List.not_mem_nil

/-- A call that waits for its reply has no sender, and none when it is over. -/
theorem handover_over {j : AskId} {q : Ask μ ρ} {d : Nat} {f : Ask μ ρ → Ask μ ρ}
    (hq : s.asks[j]? = some q) (hst : q.stage = .awaiting d) (hover : carried (f q).stage = []) :
    Handover s (s.updateAsk j f) .hand .hand [] := by
  have hsame : ∀ (pl : Place) (k : AskId),
      k ∈ repliesAt (s.updateAsk j f) pl ↔ k ∈ repliesAt s pl := by
    intro pl k
    rw [repliesAt_updateAsk hq]
    split
    · rename_i hpl
      rw [hpl, repliesAt_ask hq, hst, hover]
      exact Iff.rfl
    · exact Iff.rfl
  exact ⟨fun _ hk => absurd hk List.not_mem_nil, fun pl k hk => Or.inl ((hsame pl k).mp hk),
    fun pl k hk => Or.inl ((hsame pl k).mpr hk), fun _ hk => absurd hk List.not_mem_nil⟩

/-- What a party moves is taken out of its hands first. -/
theorem Delivers.handover {p : Party} {dst : Place} {ks ks' : List AskId}
    (h : Delivers (s.updateHand p fun h => h.without ks') s' dst ks) (hsub : ∀ k ∈ ks', k ∈ ks)
    (howned : ∀ k ∈ ks, k ∈ repliesAt s (placeOf p) ∨ s.asks.length ≤ k ∧ k < s'.asks.length) :
    Handover s s' (placeOf p) dst ks where
  owned := howned
  comes := fun pl k hk => (h.comes pl k hk).imp (fun hk => (mem_without.mp hk).1) id
  goes := by
    intro pl k hk
    by_cases hmoved : pl = placeOf p ∧ k ∈ ks'
    · exact Or.inr (Or.inl ⟨hmoved.1, hsub k hmoved.2⟩)
    · exact (h.goes pl k (mem_without.mpr ⟨hk, hmoved⟩)).imp id Or.inr
  arrives := h.arrives

theorem delivers_accept {a : ActorId} {t : ActorTask μ} {m : Msg μ} {c : Chan (Msg μ) AskId}
    (ht : s.actors[a]? = some t) (hqueue : c.queue = t.mailbox.queue ++ [m]) :
    Delivers s (s.updateActor a (.accept m c)) (.mail a) m.carries.replies where
  comes := fun _ _ hk => (mem_accept ht hqueue).mp hk
  goes := fun _ _ hk => Or.inl ((mem_accept ht hqueue).mpr (Or.inl hk))
  arrives := fun _ hk => Or.inl ((mem_accept ht hqueue).mpr (Or.inr ⟨rfl, hk⟩))

theorem delivers_dropped (s : System μ ρ) (dst : Place) (ks : List AskId) :
    Delivers s (s.dropReplies ks) dst ks where
  comes := fun _ _ hk => Or.inl ((repliesAt_dropReplies ks).mp hk)
  goes := fun _ _ hk => Or.inl ((repliesAt_dropReplies ks).mpr hk)
  arrives := fun _ hk => Or.inr (resolved_dropReplies hk)

theorem delivers_tell {a : ActorId} {m : Msg μ} (h : s.tellOrDrop a m = some s') :
    Delivers s s' (.mail a) m.carries.replies := by
  unfold System.tellOrDrop System.tell at h
  rw [Option.map_map, Option.map_eq_some_iff] at h
  obtain ⟨t, ht, h⟩ := h
  cases hsend : t.mailbox.trySend m with
  | ok c =>
      simp only [Function.comp_apply, hsend] at h
      exact h ▸ delivers_accept ht (Chan.trySend_queue hsend)
  | error err =>
      cases err with
      | full => simp only [Function.comp_apply, hsend] at h; exact h ▸ delivers_dropped s _ _
      | closed => simp only [Function.comp_apply, hsend] at h; exact h ▸ delivers_dropped s _ _

/-- The message of a new call goes to the mailbox, or stays with the call. -/
theorem delivers_ask {p : Party} {a : ActorId} {m : Msg μ} {dur : Nat}
    (h : s.ask p a m dur = some s') :
    s.asks.length < s'.asks.length ∧ ∃ dst, (dst = .mail a ∨ dst = .ask s.asks.length)
      ∧ Delivers s s' dst (m.withReply s.asks.length).carries.replies := by
  have hlen : ∀ q : Ask μ ρ, s.asks.length < (s.asks ++ [q]).length := by simp
  unfold System.ask at h
  obtain ⟨t, ht, h⟩ := Option.map_eq_some_iff.mp h
  have hqueue := Chan.startSend_queue t.mailbox s.asks.length (m.withReply s.asks.length)
  have hopened : ∀ {stage : Stage μ ρ} {dst : Place}, carried stage = [] →
      Delivers { s with asks := s.asks ++ [⟨p, a, dur, s.clock, stage, .empty⟩] } s' dst
        (m.withReply s.asks.length).carries.replies →
      Delivers s s' dst (m.withReply s.asks.length).carries.replies := by
    intro stage dst hst hin
    -- the call just made carries nothing yet
    have hsame : ∀ (pl : Place) (k : AskId),
        k ∈ repliesAt { s with asks := s.asks ++ [⟨p, a, dur, s.clock, stage, .empty⟩] } pl
          ↔ k ∈ repliesAt s pl := by
      intro pl k
      rw [mem_open, hst]
      simp
    refine ⟨fun pl k hk => ?_, fun pl k hk => ?_, hin.arrives⟩
    · exact (hin.comes pl k hk).imp (hsame pl k).mp id
    · exact hin.goes pl k ((hsame pl k).mpr hk)
  dsimp only at h
  cases hsend : t.mailbox.startSend s.asks.length (m.withReply s.asks.length) with
  | sent c =>
      rw [hsend] at h
      rw [← h]
      refine ⟨hlen _, .mail a, Or.inl rfl, ?_⟩
      rw [← h] at hopened
      exact hopened rfl (delivers_accept (s := { s with asks := s.asks ++ [_] }) ht
        (hqueue.1 c hsend))
  | pending c =>
      rw [hsend] at h
      rw [← h]
      -- no room: the message stays with the call
      have hmoved : ∀ (pl : Place) (k : AskId), k ∈ repliesAt (System.updateActor
          { s with asks := s.asks
            ++ [⟨p, a, dur, s.clock, .sending (m.withReply s.asks.length), .empty⟩] } a
          fun t => { t with mailbox := c }) pl
          ↔ k ∈ repliesAt s pl ∨ pl = .ask s.asks.length
            ∧ k ∈ (m.withReply s.asks.length).carries.replies := by
        intro pl k
        refine (repliesAt_mailbox (f := fun _ => c) fun t' ht' => ?_).trans mem_open
        obtain rfl := Option.some.inj (ht.symm.trans ht')
        exact hqueue.2 c hsend
      exact ⟨hlen _, .ask s.asks.length, Or.inr rfl, fun pl k hk => (hmoved pl k).mp hk,
        fun pl k hk => Or.inl ((hmoved pl k).mpr (Or.inl hk)),
        fun k hk => Or.inl ((hmoved _ k).mpr (Or.inr ⟨rfl, hk⟩))⟩
  | closed =>
      rw [hsend] at h
      rw [← h]
      refine ⟨(hlen _).trans_eq List.length_mapIdx.symm, .mail a, Or.inl rfl, ?_⟩
      rw [← h] at hopened
      exact hopened rfl (delivers_dropped _ _ _)

/-- The message of a call that has waited for a slot goes into the mailbox, or is dropped. -/
theorem handover_askSends {j : AskId} (h : s.askSends j = some s') :
    ∃ q, s.asks[j]? = some q ∧ Handover s s' (.ask j) (.mail q.target) (carried q.stage) := by
  unfold System.askSends at h
  obtain ⟨q, hq, h⟩ := Option.bind_eq_some_iff.mp h
  refine ⟨q, hq, ?_⟩
  cases hst : q.stage with
  | sending msg =>
      rw [hst] at h
      obtain ⟨t, ht, h⟩ := Option.bind_eq_some_iff.mp h
      -- the call keeps nothing, whichever way its message goes
      have hands : ∀ {f : Ask μ ρ → Ask μ ρ}, carried (f q).stage = [] →
          Delivers (s.updateAsk j f) s' (.mail q.target) msg.carries.replies →
          Handover s s' (.ask j) (.mail q.target) msg.carries.replies := by
        intro f hnone hin
        have hleft : ∀ (pl : Place) (k : AskId),
            k ∈ repliesAt (s.updateAsk j f) pl ↔ pl ≠ .ask j ∧ k ∈ repliesAt s pl := by
          intro pl k
          rw [repliesAt_updateAsk hq]
          split
          · rename_i hpl
            simp [hpl, hnone]
          · rename_i hpl
            simp [hpl]
        refine ⟨fun k hk => Or.inl ?_, fun pl k hk => ?_, fun pl k hk => ?_, hin.arrives⟩
        · rw [repliesAt_ask hq, hst]
          exact hk
        · exact (hin.comes pl k hk).imp (fun hk => ((hleft pl k).mp hk).2) id
        · by_cases hpl : pl = .ask j
          · rw [hpl, repliesAt_ask hq, hst] at hk
            exact Or.inr (Or.inl ⟨hpl, hk⟩)
          · exact (hin.goes pl k ((hleft pl k).mpr ⟨hpl, hk⟩)).imp id Or.inr
      cases hsend : t.mailbox.resumeSend j msg with
      | sent c =>
          rw [hsend] at h
          rw [← Option.some.inj h] at hands ⊢
          exact hands (f := fun q => { q with stage := .awaiting (s.clock + q.dur) }) rfl
            (delivers_accept (s := s.updateAsk j _) ht (Chan.resumeSend_queue hsend))
      | pending c => rw [hsend] at h; exact absurd h (by simp)
      | closed =>
          rw [hsend] at h
          rw [← Option.some.inj h] at hands ⊢
          exact hands (f := fun q => { q with stage := .done (.error .closed) }) rfl
            (delivers_dropped _ _ _)
  | awaiting d => rw [hst] at h; exact absurd h (by simp)
  | done res => rw [hst] at h; exact absurd h (by simp)
  | dropped => rw [hst] at h; exact absurd h (by simp)

/-- A reply sent resolves its channel. -/
theorem delivers_reply (s : System μ ρ) (dst : Place) (j : AskId) (r : ρ) :
    Delivers s (s.updateAsk j fun q => q.reply r) dst [j] := by
  have hstage : ∀ q : Ask μ ρ, (q.reply r).stage = q.stage := by
    intro q
    unfold Ask.reply
    split <;> rfl
  have hsame : ∀ (pl : Place) (k : AskId),
      k ∈ repliesAt (s.updateAsk j fun q => q.reply r) pl ↔ k ∈ repliesAt s pl := by
    intro pl k
    cases hq : s.asks[j]? with
    | none =>
        unfold System.updateAsk
        rw [List.modify_eq_self (List.getElem?_eq_none_iff.mp hq)]
    | some q =>
        rw [repliesAt_updateAsk hq, hstage]
        split
        · rename_i hpl
          rw [hpl, repliesAt_ask hq]
        · exact Iff.rfl
  refine ⟨fun pl k hk => Or.inl ((hsame pl k).mp hk),
    fun pl k hk => Or.inl ((hsame pl k).mpr hk), ?_⟩
  intro k hk
  rw [List.mem_singleton.mp hk]
  refine Or.inr fun q' hq' => ?_
  rw [updateAsk_getElem?] at hq'
  obtain ⟨q, _, rfl⟩ := Option.map_eq_some_iff.mp hq'
  rw [if_pos rfl]
  unfold Ask.reply
  split
  · exact Or.inl nofun
  · rename_i hpend
    exact Or.inr (Bool.eq_false_iff.mpr hpend)

theorem handover_recv {i : ActorId} {t t' : ActorTask μ} (ht : s.actors[i]? = some t)
    (h : t.recv = some t') :
    ∃ m : Msg μ, t.phase = .receiving
      ∧ Handover s (s.updateActor i fun _ => t') (.mail i) (.task i) m.carries.replies := by
  obtain ⟨m, c, hph, hpop, rfl⟩ := recv_cases h
  have hmailed : mailed t = m.carries.replies ++ c.queue.flatMap fun m => m.carries.replies := by
    unfold mailed
    rw [Chan.pop_queue hpop, List.flatMap_cons]
  have hmoved := fun (pl : Place) (k : AskId) => @mem_updateActor μ ρ s pl k i t
    (fun _ => { t with mailbox := c, hand := t.hand.add m.carries, phase := .handling m,
                       handled := t.handled ++ [m] }) ht
  refine ⟨m, hph, fun k hk => Or.inl ?_, fun pl k hk => ?_, fun pl k hk => ?_,
    fun k hk => Or.inl ?_⟩
  · rw [repliesAt_mail ht, hmailed]
    exact List.mem_append_left _ hk
  · rw [hmoved] at hk
    split at hk
    · rename_i hpl
      rw [hpl, repliesAt_task ht]
      exact (List.mem_append.mp hk).imp id fun hk => ⟨rfl, hk⟩
    · split at hk
      · rename_i hpl
        rw [hpl, repliesAt_mail ht, hmailed]
        exact Or.inl (List.mem_append_right _ hk)
      · exact Or.inl hk
  · rw [hmoved]
    split
    · rename_i hpl
      rw [hpl, repliesAt_task ht] at hk
      exact Or.inl (List.mem_append_left _ hk)
    · split
      · rename_i hpl
        rw [hpl, repliesAt_mail ht, hmailed] at hk
        rcases List.mem_append.mp hk with hk | hk
        · exact Or.inr (Or.inl ⟨hpl, hk⟩)
        · exact Or.inl hk
      · exact Or.inl hk
  · rw [hmoved, if_pos rfl]
    exact List.mem_append_right _ hk

/-- Steps that move no sender, send no reply and take no call further. -/
def still : Event μ ρ → Bool
  | .pass _ _ _ => false
  | .tell _ _ _ => false
  | .ask _ _ _ _ => false
  | .askSends _ => false
  | .askResolves _ => false
  | .askTimesOut _ => false
  | .reply _ _ _ => false
  | .dropReply _ _ => false
  | .recv _ => false
  | _ => true

theorem still_step {e : Event μ ρ} (h : step s e = some s') (hstill : still e = true) :
    Stays s s' := by
  have hphase : ∀ (i : ActorId) (phase : Phase μ),
      Stays s (s.updateActor i fun t => { t with phase := phase }) := fun i phase =>
    .of_same (fun _ _ => repliesAt_updateActor (fun _ => rfl) fun _ _ => rfl) (fading_of_eq rfl)
  have hhand : ∀ (p : Party) (f : Holding → Holding), (∀ h, (f h).replies = h.replies) →
      Stays s (s.updateHand p f) := by
    intro p f hf
    refine .of_same (fun _ _ => repliesAt_updateHand hf) (fading_of_eq ?_)
    cases p <;> rfl
  cases step_takes h with
  | spawn p mailboxBound _ _ =>
      have hnew : ∀ (pl : Place) (k : AskId), k ∈ repliesAt { s with
          actors := s.actors ++ [ActorTask.new s.actors.length mailboxBound] } pl
            ↔ k ∈ repliesAt s pl := by
        intro pl k
        cases pl with
        | hand => exact Iff.rfl
        | ask j => exact Iff.rfl
        | task i => exact mem_elim_snoc (f := fun t : ActorTask μ => t.hand.replies) rfl
        | mail i => exact mem_elim_snoc (f := mailed) rfl
      refine Stays.trans (.of_same hnew (fading_of_eq rfl)) (.of_same (fun _ _ =>
        repliesAt_updateHand fun _ => rfl) (fading_of_eq ?_))
      cases p <;> rfl
  | cloneAddr p a _ => exact hhand p _ fun _ => rfl
  | dropAddr p a _ => exact hhand p _ fun _ => rfl
  | replaceSelf i a t _ _ _ =>
      exact .of_same (fun _ _ => repliesAt_updateActor (fun _ => rfl) fun _ _ => rfl)
        (fading_of_eq rfl)
  | dropAsk k q _ _ => exact stays_dropAsk s k
  | recvNone i t _ _ _ _ => exact hphase i _
  | started i t _ _ _ => exact hphase i _
  | handled i t m _ _ _ => exact hphase i _
  | stopped i t _ _ _ => exact (stays_endActor s i _).1
  | panics i t _ _ => exact (stays_endActor s i _).1
  | aborted i t _ _ => exact (stays_endActor s i _).1
  | tick d _ => exact .of_same (fun _ _ => Iff.rfl) (fading_of_eq rfl)
  | _ => exact Bool.noConfusion hstill

theorem updateHand_active (s : System μ ρ) (p q : Party) (f : Holding → Holding) :
    (s.updateHand p f).active q = s.active q := by
  cases p with
  | outside => cases q <;> rfl
  | actor i =>
      cases q with
      | outside => rfl
      | actor j =>
          unfold System.updateHand System.active
          dsimp only
          rw [updateActor_getElem?]
          cases s.actors[j]? with
          | none => rfl
          | some t => by_cases hij : i = j <;> simp [hij]

/-- **A step moves senders along one way at most, and loses none.** -/
theorem step_handover {e : Event μ ρ} (h : step s e = some s') :
    ∃ src dst ks, Routed s e src dst ks ∧ Handover s s' src dst ks := by
  cases step_takes h with
  | pass p q c _ howns hq =>
      have hmoved := fun (pl : Place) (k : AskId) => @mem_add μ ρ _ pl k q c
        ((updateHand_active s p q fun h => h.without c.replies).trans hq)
      have hin : Delivers (s.updateHand p fun h => h.without c.replies) _ (placeOf q) c.replies :=
        ⟨fun pl k hk => (hmoved pl k).mp hk, fun pl k hk => Or.inl ((hmoved pl k).mpr (Or.inl hk)),
          fun k hk => Or.inl ((hmoved _ k).mpr (Or.inr ⟨rfl, hk⟩))⟩
      exact ⟨_, _, _, .pass p q c hq, hin.handover (fun _ hk => hk)
        fun k hk => Or.inl (owns_replies howns k hk)⟩
  | tell p a m _ howns h =>
      exact ⟨_, _, _, .tell p a m, (delivers_tell h).handover (fun _ hk => hk)
        fun k hk => Or.inl (owns_replies howns k hk)⟩
  | ask p a m dur _ howns h =>
      have hlen : (calling s p m).asks.length = s.asks.length :=
        congrArg List.length (calling_asks s p m)
      obtain ⟨hmore, dst, hdst, hin⟩ := delivers_ask h
      rw [hlen] at hmore hdst hin
      have hands := hin.handover (fun _ hk => List.mem_append_left _ hk) fun k hk => by
        rcases List.mem_append.mp hk with hk | hk
        · exact Or.inl (owns_replies howns k hk)
        · rw [List.mem_singleton.mp hk]
          exact Or.inr ⟨Nat.le_refl _, hmore⟩
      rcases hdst with rfl | rfl
      · exact ⟨_, _, _, .ask p a m dur, hands⟩
      · exact ⟨_, _, _, .askWaits p a m dur, hands⟩
  | askSends k h =>
      obtain ⟨q, hq, hands⟩ := handover_askSends h
      exact ⟨_, _, _, .askSends k q hq, hands⟩
  | askResolves k h =>
      obtain ⟨q, res, hq, ⟨d, hst⟩, rfl⟩ := askResolves_cases h
      exact ⟨_, _, _, .still _ (by simp), handover_over hq hst rfl⟩
  | askTimesOut k h =>
      obtain ⟨q, d, hq, hst, _, rfl⟩ := askTimesOut_cases h
      exact ⟨_, _, _, .still _ (by simp), handover_over hq hst rfl⟩
  | reply p k r hk =>
      refine ⟨_, _, _, .reply p k r, (delivers_reply _ _ k r).handover (fun _ hk => hk) ?_⟩
      intro k' hk'
      rw [List.mem_singleton.mp hk']
      exact Or.inl (mem_repliesOf hk)
  | dropReply p k hk =>
      refine ⟨_, _, _, .dropReply p k, (delivers_dropped _ _ [k]).handover (fun _ hk => hk) ?_⟩
      intro k' hk'
      rw [List.mem_singleton.mp hk']
      exact Or.inl (mem_repliesOf hk)
  | recv i t t' ht hrecv =>
      obtain ⟨m, hph, hands⟩ := handover_recv ht hrecv
      exact ⟨_, _, _, .recv i m t ht hph, hands⟩
  | _ => exact ⟨_, _, _, .still _ (by simp), (still_step h rfl).handover⟩

end ErlangActors.Proof
