import ErlangActors.Proof.Calls
import ErlangActors.Proof.Delivery
import ErlangActors.Proof.Shutdown

/-!
# A dead actor releases its callers

An actor that lets no reply sender of its callers out of its task has every one of them
in its hands, in its mailbox, in a message to itself, or in the message of the caller
(`Inside`); and a caller that no reply has come for and whose sender has not been dropped
has its sender somewhere (`Kept.placed`). When the task ends it drops what it owns, and
its mailbox is closed, so what is left to such a caller is `Closed`: at once if its message
is still to be sent, and else because its reply channel is broken.
-/

namespace ErlangActors.Proof

open Actor Channel Transition

variable {μ ρ : Type}

/-! ## What the actor's code has to keep to -/

/-- The reply senders a step of actor `a` lets out of its task. -/
def letsOut (a : ActorId) : Event μ ρ → List AskId
  | .pass p q c => if p = .actor a ∧ q ≠ .actor a then c.replies else []
  | .tell p b m => if p = .actor a ∧ b ≠ a then m.carries.replies else []
  | .ask p b m _ => if p = .actor a ∧ b ≠ a then m.carries.replies else []
  | _ => []

/-- None of them is that of a caller of `a`. -/
def KeepsReplies (a : ActorId) (s : System μ ρ) (e : Event μ ρ) : Prop :=
  ∀ k ∈ letsOut a e, (s.asks[k]?).any (fun q => q.target == a) = false

instance (a : ActorId) (s : System μ ρ) (e : Event μ ρ) : Decidable (KeepsReplies a s e) :=
  inferInstanceAs (Decidable (∀ k ∈ letsOut a e, _))

/-! ## What becomes of the callers -/

/-- While it was running, actor `a` sent `r` on the reply channel of the `k`-th call. -/
def RepliedBy (tr : List (System μ ρ × Event μ ρ)) (a : ActorId) (k : AskId) (r : ρ) : Prop :=
  ∃ x, (x, .reply (.actor a) k r) ∈ tr ∧ x.active (.actor a) = true

/-- What a pending call to an actor that has ended comes to: the reply if one has come, and else
`Closed`. -/
def outcome (q : Ask μ ρ) : Except AskError ρ :=
  match q.stage, q.oneshot with
  | .awaiting _, .sent r => .ok r
  | _, _ => .error .closed

/-- The `k`-th call has come to `res`, or its caller has dropped it, or it comes to `res` as soon
as it is polled; its timer decides nothing. -/
def Released (s : System μ ρ) (k : AskId) (res : Except AskError ρ) : Prop :=
  ∃ q, s.asks[k]? = some q ∧ (q.stage = .dropped ∨ q.stage = .done res
    ∨ q.stage.pending = true ∧ step s (.askTimesOut k) = none
      ∧ ∃ s', (step s (.askSends k) = some s' ∨ step s (.askResolves k) = some s')
        ∧ ∃ q', s'.asks[k]? = some q' ∧ q'.stage = .done res)

/-! ## The invariant -/

/-- Where the sender of the `k`-th call, one to actor `a`, may be. -/
def Inside (s : System μ ρ) (a : ActorId) (k : AskId) : Place → Prop
  | .hand => False
  | .task i => i = a
  | .mail i => i = a
  | .ask j => ∃ q, s.asks[j]? = some q ∧ q.target = a ∧ (j = k ∨ q.caller = .actor a)

structure Kept (a : ActorId) (s : System μ ρ) : Prop where
  known : ∀ pl k, k ∈ repliesAt s pl → k < s.asks.length
  inside : ∀ (k : AskId) (q : Ask μ ρ) (pl : Place), s.asks[k]? = some q → q.target = a →
    k ∈ repliesAt s pl → Inside s a k pl
  placed : ∀ (k : AskId) (q : Ask μ ρ), s.asks[k]? = some q → q.stage.pending = true →
    q.oneshot = .empty → ∃ pl, k ∈ repliesAt s pl
  /-- A call pending in a task is one that a callback waits for. -/
  askers : ∀ (k : AskId) (q : Ask μ ρ) (i : ActorId), s.asks[k]? = some q → q.caller = .actor i →
    q.stage.pending = true → s.active (.actor i) = true
  ended : ∀ (i : ActorId) (t : ActorTask μ), s.actors[i]? = some t → t.phase.live = false →
    ∀ k, k ∉ repliesAt s (.task i)

theorem kept_init (a : ActorId) : Kept a (System.init : System μ ρ) where
  known := fun pl k hk => by
    cases pl <;> exact absurd hk (by simp [repliesAt, System.init, Holding.empty])
  inside := fun k q pl hq => absurd hq (by simp [System.init])
  placed := fun k q hq => absurd hq (by simp [System.init])
  askers := fun k q i hq => absurd hq (by simp [System.init])
  ended := fun i t ht => absurd ht (by simp [System.init])

section
variable {s s' : System μ ρ} {e : Event μ ρ} {a : ActorId} {k : AskId}

theorem call_made {p : Party} {b : ActorId} {m : Msg μ} {dur : Nat}
    (h : step s (.ask p b m dur) = some s') :
    b ∈ s.addrsOf p ∧ s'.asks.length = s.asks.length + 1
      ∧ (∃ q, s'.asks[s.asks.length]? = some q ∧ Opened (calling s p m) p b q)
      ∧ ∀ (k : AskId) (q : Ask μ ρ), s.asks[k]? = some q →
        ∃ q', s'.asks[k]? = some q' ∧ Fades q q' := by
  cases step_takes h with
  | ask _ _ _ _ hb _ hasks =>
      have hopens := ask_opens hasks
      rw [calling_asks] at hopens
      exact ⟨hb, hopens⟩

/-- A call there is goes on as a call with the same terms. -/
theorem calls_step (h : step s e = some s') {q : Ask μ ρ} (hq : s.asks[k]? = some q) :
    ∃ q', s'.asks[k]? = some q' ∧ AskStep s k q q' e := by
  by_cases hask : ∃ p b m dur, e = .ask p b m dur
  · obtain ⟨p, b, m, dur, rfl⟩ := hask
    obtain ⟨q', hq', hfade⟩ := (call_made h).2.2.2 k q hq
    exact ⟨q', hq', .fades _ hfade⟩
  · exact (step_calls h fun p b m dur he => hask ⟨p, b, m, dur, he⟩).2 k q hq

/-- A step makes one call or none. -/
theorem calls_length (h : step s e = some s') :
    s.asks.length ≤ s'.asks.length
      ∧ ((∀ p b m dur, e ≠ .ask p b m dur) → s'.asks.length = s.asks.length) := by
  refine ⟨?_, fun hask => (step_calls h hask).1⟩
  by_contra hlt
  rw [Nat.not_le] at hlt
  obtain ⟨q', hq', _⟩ := calls_step h (List.getElem?_eq_getElem hlt)
  exact Nat.lt_irrefl _ (List.getElem?_eq_some_iff.mp hq').1

/-- A new call is one just made. -/
theorem call_new (h : step s e = some s') {q' : Ask μ ρ} (h0 : s.asks[k]? = none)
    (hq' : s'.asks[k]? = some q') :
    k = s.asks.length ∧ ∃ p b m dur, e = .ask p b m dur ∧ b ∈ s.addrsOf p
      ∧ Opened (calling s p m) p b q' := by
  have hlt := (List.getElem?_eq_some_iff.mp hq').1
  have hle := List.getElem?_eq_none_iff.mp h0
  by_cases hask : ∃ p b m dur, e = .ask p b m dur
  · obtain ⟨p, b, m, dur, rfl⟩ := hask
    obtain ⟨hb, hlen, ⟨q₀, hq₀, hopened⟩, _⟩ := call_made h
    rw [hlen] at hlt
    obtain rfl : k = s.asks.length := Nat.le_antisymm (Nat.le_of_lt_succ hlt) hle
    obtain rfl := Option.some.inj (hq₀.symm.trans hq')
    exact ⟨rfl, p, b, m, dur, rfl, hb, hopened⟩
  · rw [(calls_length h).2 fun p b m dur he => hask ⟨p, b, m, dur, he⟩] at hlt
    exact absurd hlt (Nat.not_lt.mpr hle)

theorem inside_mono (h : step s e = some s') {pl : Place} (hin : Inside s a k pl) :
    Inside s' a k pl := by
  cases pl with
  | hand => exact hin
  | task i => exact hin
  | mail i => exact hin
  | ask j =>
      obtain ⟨q, hq, htarget, hown⟩ := hin
      obtain ⟨q', hq', hmove⟩ := calls_step h hq
      exact ⟨q', hq', hmove.terms.target.trans htarget, hown.imp id (hmove.terms.caller.trans ·)⟩

/-- Only actor `a` has in its hands the sender of one of its callers. -/
theorem inside_party {p : Party} (hin : Inside s a k (placeOf p)) : p = .actor a := by
  cases p with
  | outside => exact hin.elim
  | actor i => exact congrArg Party.actor hin

/-- A message of actor `a` with such a sender goes to `a` itself. -/
theorem sent_home {b : ActorId} {ks : List AskId}
    (hout : k ∉ if Party.actor a = .actor a ∧ b ≠ a then ks else []) (hk : k ∈ ks) : b = a := by
  by_contra hb
  rw [if_pos ⟨rfl, hb⟩] at hout
  exact hout hk

/-- The sender of a call there is, is not that of a new one. -/
theorem old_carried {m : Msg μ} {q : Ask μ ρ} (hq : s.asks[k]? = some q)
    (hk : k ∈ (m.withReply s.asks.length).carries.replies) : k ∈ m.carries.replies := by
  rcases List.mem_append.mp hk with hk | hk
  · exact hk
  · rw [List.mem_singleton.mp hk, List.getElem?_eq_none (Nat.le_refl _)] at hq
    exact nomatch hq

/-- The ways on which senders move do not lead out of the task of an actor that keeps them. -/
theorem routed_inside {src dst : Place} {ks : List AskId} (h : step s e = some s')
    (hroute : Routed s e src dst ks) (hkeep : KeepsReplies a s e) {q : Ask μ ρ}
    (hq : s.asks[k]? = some q) (htarget : q.target = a) (hk : k ∈ ks) (hin : Inside s a k src) :
    Inside s' a k dst := by
  have hout : k ∉ letsOut a e := by
    intro hk
    have := hkeep k hk
    rw [hq] at this
    simp [htarget] at this
  cases hroute with
  | still e _ => exact absurd hk List.not_mem_nil
  | pass p p' c _ =>
      obtain rfl := inside_party hin
      by_cases hp : p' = .actor a
      · rw [hp]
        exact rfl
      · refine absurd ?_ hout
        show k ∈ if (Party.actor a = .actor a ∧ p' ≠ .actor a) then c.replies else []
        rw [if_pos ⟨rfl, hp⟩]
        exact hk
  | tell p b m =>
      obtain rfl := inside_party hin
      exact sent_home hout hk
  | ask p b m dur =>
      obtain rfl := inside_party hin
      exact sent_home hout (old_carried hq hk)
  | askWaits p b m dur =>
      obtain rfl := inside_party hin
      obtain ⟨_, _, ⟨q', hq', hopened⟩, _⟩ := call_made h
      exact ⟨q', hq', hopened.target.trans (sent_home hout (old_carried hq hk)),
        Or.inr hopened.caller⟩
  | askSends j q' hq' =>
      obtain ⟨q₁, hq₁, htarget₁, _⟩ := hin
      obtain rfl := Option.some.inj (hq'.symm.trans hq₁)
      exact htarget₁
  | reply p j r => exact inside_mono h hin
  | dropReply p j => exact inside_mono h hin
  | recv i m t _ _ => exact hin

/-- The senders moved were at the way's beginning, but for that of a new call. -/
theorem moved_old {src dst : Place} {ks : List AskId} (h : step s e = some s')
    (hands : Handover s s' src dst ks) (hk : k ∈ ks)
    (hold : k < s.asks.length ∨ ∀ p b m dur, e ≠ .ask p b m dur) : k ∈ repliesAt s src := by
  rcases hands.owned k hk with hk | ⟨hle, hlt⟩
  · exact hk
  · rcases hold with hold | hask
    · exact absurd hold (Nat.not_lt.mpr hle)
    · rw [(calls_length h).2 hask] at hlt
      exact absurd hlt (Nat.not_lt.mpr hle)

theorem inside_step (h : step s e = some s') (hkept : Kept a s) (hkeep : KeepsReplies a s e)
    {q' : Ask μ ρ} {pl : Place} (hq' : s'.asks[k]? = some q') (htarget : q'.target = a)
    (hk : k ∈ repliesAt s' pl) : Inside s' a k pl := by
  obtain ⟨src, dst, ks, hroute, hands⟩ := step_handover h
  cases hq : s.asks[k]? with
  | some q =>
      obtain ⟨q₁, hq₁, hmove⟩ := calls_step h hq
      obtain rfl := Option.some.inj (hq₁.symm.trans hq')
      have htarget₀ : q.target = a := hmove.terms.target.symm.trans htarget
      rcases hands.comes pl k hk with hk | ⟨rfl, hk⟩
      · exact inside_mono h (hkept.inside k q pl hq htarget₀ hk)
      · have hsrc := moved_old h hands hk (Or.inl (List.getElem?_eq_some_iff.mp hq).1)
        exact routed_inside h hroute hkeep hq htarget₀ hk (hkept.inside k q src hq htarget₀ hsrc)
  | none =>
      obtain ⟨rfl, p, b, m, dur, rfl, _, hopened⟩ := call_new h hq hq'
      have hfresh : ∀ pl, s.asks.length ∉ repliesAt s pl := fun pl hk =>
        Nat.lt_irrefl _ (hkept.known pl _ hk)
      rcases hands.comes pl _ hk with hk | ⟨rfl, hk⟩
      · exact absurd hk (hfresh pl)
      · have hb : b = a := hopened.target.symm.trans htarget
        cases hroute with
        | still _ hask => exact absurd rfl (hask p b m dur)
        | ask p b m dur => exact hb
        | askWaits p b m dur => exact ⟨q', hq', htarget, Or.inl rfl⟩

theorem placed_step (h : step s e = some s') (hkept : Kept a s) {q' : Ask μ ρ}
    (hq' : s'.asks[k]? = some q') (hpend : q'.stage.pending = true) (hempty : q'.oneshot = .empty) :
    ∃ pl, k ∈ repliesAt s' pl := by
  obtain ⟨src, dst, ks, hroute, hands⟩ := step_handover h
  have hopen : ¬ Resolved s' k := by
    intro hres
    rcases hres q' hq' with ho | hp
    · exact ho hempty
    · rw [hpend] at hp
      exact Bool.noConfusion hp
  have hcome : k ∈ ks → ∃ pl, k ∈ repliesAt s' pl := fun hk =>
    ⟨dst, (hands.arrives k hk).resolve_right hopen⟩
  cases hq : s.asks[k]? with
  | some q =>
      obtain ⟨q₁, hq₁, hmove⟩ := calls_step h hq
      obtain rfl := Option.some.inj (hq₁.symm.trans hq')
      obtain ⟨pl, hk⟩ := hkept.placed k q hq (hmove.pending hpend) (hmove.empty hempty)
      rcases hands.goes pl k hk with hk | ⟨_, hk⟩ | hres
      · exact ⟨pl, hk⟩
      · exact hcome hk
      · exact absurd hres hopen
  | none =>
      obtain ⟨rfl, p, b, m, dur, rfl, _, _⟩ := call_new h hq hq'
      have hlast : s.asks.length ∈ (m.withReply s.asks.length).carries.replies :=
        List.mem_append_right _ (List.mem_singleton.mpr rfl)
      cases hroute with
      | still _ hask => exact absurd rfl (hask p b m dur)
      | ask p b m dur => exact hcome hlast
      | askWaits p b m dur => exact hcome hlast

theorem known_step (h : step s e = some s') (hkept : Kept a s) {pl : Place}
    (hk : k ∈ repliesAt s' pl) : k < s'.asks.length := by
  obtain ⟨src, dst, ks, _, hands⟩ := step_handover h
  have hle := (calls_length h).1
  rcases hands.comes pl k hk with hk | ⟨_, hk⟩
  · exact Nat.lt_of_lt_of_le (hkept.known pl k hk) hle
  · rcases hands.owned k hk with hk | ⟨_, hlt⟩
    · exact Nat.lt_of_lt_of_le (hkept.known src k hk) hle
    · exact hlt

/-! ### A task that ends -/

theorem mem_asksOf {i : ActorId} {q : Ask μ ρ} (hq : s.asks[k]? = some q)
    (hcaller : q.caller = .actor i) (hpend : q.stage.pending = true) : k ∈ s.asksOf i := by
  unfold System.asksOf
  rw [List.mem_filter]
  refine ⟨List.mem_range.mpr (List.getElem?_eq_some_iff.mp hq).1, ?_⟩
  rw [hq]
  simp [hcaller, hpend]

theorem dropAsk_over {q' : Ask μ ρ} (hq' : (s.dropAsk k).asks[k]? = some q') :
    q'.stage.pending = false := by
  obtain ⟨hlen, hfade⟩ := (stays_dropAsk s k).asks
  obtain ⟨q, hq⟩ : ∃ q, s.asks[k]? = some q :=
    ⟨_, List.getElem?_eq_getElem (hlen ▸ (List.getElem?_eq_some_iff.mp hq').1)⟩
  unfold System.dropAsk at hq'
  rw [hq] at hq'
  dsimp only at hq'
  have hself : ∀ f : Ask μ ρ → Ask μ ρ, (s.updateAsk k f).asks[k]? = some (f q) := by
    intro f
    rw [updateAsk_getElem?, hq]
    exact congrArg some (if_pos rfl)
  cases hst : q.stage with
  | sending m =>
      rw [hst] at hq'
      obtain ⟨q₁, hq₁, hf⟩ := (fading_dropReplies (System.updateActor (s.updateAsk k _) q.target
        fun t => { t with mailbox := t.mailbox.cancel k }) m.carries.replies).2 k _ (hself _)
      obtain rfl := Option.some.inj (hq₁.symm.trans hq')
      rcases hf.stage with hs | ⟨hp, _⟩
      · rw [hs]; rfl
      · exact Bool.noConfusion hp
  | awaiting d =>
      rw [hst] at hq'
      rw [← Option.some.inj ((hself _).symm.trans hq')]
      rfl
  | done res =>
      rw [hst] at hq'
      rw [← Option.some.inj (hq.symm.trans hq'), hst]
      rfl
  | dropped =>
      rw [hst] at hq'
      rw [← Option.some.inj (hq.symm.trans hq'), hst]
      rfl

theorem Fading.over (h : Fading s s') (hover : ∀ q, s.asks[k]? = some q → q.stage.pending = false)
    {q' : Ask μ ρ} (hq' : s'.asks[k]? = some q') : q'.stage.pending = false := by
  obtain ⟨q, hq⟩ : ∃ q, s.asks[k]? = some q :=
    ⟨_, List.getElem?_eq_getElem (h.1 ▸ (List.getElem?_eq_some_iff.mp hq').1)⟩
  obtain ⟨q₁, hq₁, hf⟩ := h.2 k q hq
  obtain rfl := Option.some.inj (hq₁.symm.trans hq')
  rcases hf.stage with hs | ⟨hp, _⟩
  · rw [hs, hover q hq]
  · rw [hover q hq] at hp
    exact Bool.noConfusion hp

theorem dropAsks_over {ks : List AskId} : ∀ {s : System μ ρ}, k ∈ ks → ∀ {q' : Ask μ ρ},
    (ks.foldl System.dropAsk s).asks[k]? = some q' → q'.stage.pending = false := by
  induction ks with
  | nil => exact fun hk => absurd hk List.not_mem_nil
  | cons j ks ih =>
      intro s hk q' hq'
      rcases List.mem_cons.mp hk with rfl | hk
      · exact (stays_dropAsks ks (s.dropAsk k)).asks.over (fun _ hq => dropAsk_over hq) hq'
      · exact ih hk hq'

/-- A task that ends takes its pending calls with it. -/
theorem endActor_over {i : ActorId} {how : Exit} {q' : Ask μ ρ}
    (hq' : (s.endActor i how).asks[k]? = some q') (hcaller : q'.caller = .actor i) :
    q'.stage.pending = false := by
  obtain ⟨hlen, hfade⟩ := (stays_endActor s i how).1.asks
  obtain ⟨q, hq⟩ : ∃ q, s.asks[k]? = some q :=
    ⟨_, List.getElem?_eq_getElem (hlen ▸ (List.getElem?_eq_some_iff.mp hq').1)⟩
  obtain ⟨q₁, hq₁, hf⟩ := hfade k q hq
  obtain rfl := Option.some.inj (hq₁.symm.trans hq')
  by_cases hpend : q.stage.pending = true
  · have hk := mem_asksOf hq (hf.terms.caller.symm.trans hcaller) hpend
    unfold System.endActor at hq'
    dsimp only at hq'
    cases ht : ((s.asksOf i).foldl System.dropAsk s).actors[i]? with
    | none =>
        rw [ht] at hq'
        exact dropAsks_over hk hq'
    | some t =>
        rw [ht] at hq'
        exact (fading_dropReplies (System.updateActor ((s.asksOf i).foldl System.dropAsk s) i _)
          t.replies).over (fun _ hq => dropAsks_over hk hq) hq'
  · rcases hf.stage with hs | ⟨hp, _⟩
    · rw [hs]
      exact Bool.eq_false_iff.mpr hpend
    · exact absurd hp hpend

theorem turns_of_move {i : ActorId} {ph ph' : Phase μ} (h : PhaseMove i e ph ph') :
    (scopeOf s e).turns = some i := by
  cases h <;> rfl

/-- A task that comes to its end is ended by `endActor`. -/
theorem ends_eq {i : ActorId} {t : ActorTask μ} {ph' : Phase μ} (h : step s e = some s')
    (ht : s.actors[i]? = some t) (hmove : PhaseMove i e t.phase ph') (hover : ph'.live = false) :
    ∃ how, s' = s.endActor i how := by
  generalize hph : t.phase = ph at hmove
  cases hmove with
  | returned =>
      cases step_takes h with
      | started _ t₁ ht₁ hph₁ _ =>
          obtain rfl := Option.some.inj (ht.symm.trans ht₁)
          exact absurd (hph.symm.trans hph₁) (by simp)
      | handled _ t₁ m ht₁ hph₁ _ =>
          obtain rfl := Option.some.inj (ht.symm.trans ht₁)
          exact absurd (hph.symm.trans hph₁) (by simp)
      | stopped _ _ _ _ _ => exact ⟨.returned, rfl⟩
  | panicked ph _ =>
      cases step_takes h with
      | panics _ _ _ _ => exact ⟨.panicked, rfl⟩
  | aborted ph _ =>
      cases step_takes h with
      | aborted _ _ _ _ => exact ⟨.aborted, rfl⟩
  | _ => exact Bool.noConfusion hover

/-- A callback that returns awaits no call. -/
theorem awaits_none {i : ActorId} {ph ph' : Phase μ} (h : step s e = some s')
    (hmove : PhaseMove i e ph ph') (hin : ph.inCallback = true) (hlive : ph'.live = true) :
    s.asksOf i = [] := by
  have hreturns : step s (.returns i) = some s' → s.asksOf i = [] := by
    intro h
    cases step_takes h with
    | started _ _ _ _ hasks => exact hasks
    | handled _ _ _ _ _ hasks => exact hasks
    | stopped _ _ _ _ hasks => exact hasks
  cases hmove with
  | started => exact hreturns h
  | handled m => exact hreturns h
  | recv m => exact Bool.noConfusion hin
  | recvNone => exact Bool.noConfusion hin
  | _ => exact Bool.noConfusion hlive

theorem active_iff {i : ActorId} :
    s.active (.actor i) = true ↔ ∃ t, s.actors[i]? = some t ∧ t.phase.inCallback = true :=
  Option.any_eq_true _ _

theorem askers_step (h : step s e = some s') (hkept : Kept a s) {q' : Ask μ ρ} {i : ActorId}
    (hq' : s'.asks[k]? = some q') (hcaller : q'.caller = .actor i)
    (hpend : q'.stage.pending = true) : s'.active (.actor i) = true := by
  -- its callback was running before, and a call is pending in it
  have hbefore : s.active (.actor i) = true
      ∧ ((scopeOf s e).turns = some i → k ∈ s.asksOf i) := by
    cases hq : s.asks[k]? with
    | some q =>
        obtain ⟨q₁, hq₁, hmove⟩ := calls_step h hq
        obtain rfl := Option.some.inj (hq₁.symm.trans hq')
        have hcaller₀ := hmove.terms.caller.symm.trans hcaller
        have hpend₀ := hmove.pending hpend
        exact ⟨hkept.askers k q i hq hcaller₀ hpend₀, fun _ => mem_asksOf hq hcaller₀ hpend₀⟩
    | none =>
        obtain ⟨_, p, b, m, dur, rfl, hb, hopened⟩ := call_new h hq hq'
        obtain rfl : p = .actor i := hopened.caller.symm.trans hcaller
        exact ⟨active_of_addr hb, fun hturn => nomatch hturn⟩
  obtain ⟨t, ht, hin⟩ := active_iff.mp hbefore.1
  obtain ⟨t', ht', _⟩ := step_task h ht
  rcases phase_step h ht ht' with ⟨_, hph⟩ | hmove
  · exact active_iff.mpr ⟨t', ht', hph ▸ hin⟩
  · by_cases hlive : t'.phase.live = true
    · have hmem := hbefore.2 (turns_of_move hmove)
      rw [awaits_none h hmove hin hlive] at hmem
      exact absurd hmem List.not_mem_nil
    · obtain ⟨how, rfl⟩ := ends_eq h ht hmove (Bool.eq_false_iff.mpr hlive)
      rw [endActor_over hq' hcaller] at hpend
      exact Bool.noConfusion hpend

theorem ended_step (h : step s e = some s') (hkept : Kept a s) {i : ActorId} {t' : ActorTask μ}
    (ht' : s'.actors[i]? = some t') (hover : t'.phase.live = false) :
    k ∉ repliesAt s' (.task i) := by
  cases ht : s.actors[i]? with
  | none =>
      -- a new task is starting
      have hnew := step_born h ht' ht
      rcases hnew.phase with hph | hturn
      · rw [hph] at hover
        exact Bool.noConfusion hover
      · obtain ⟨t, ht₁, _⟩ := turn_step h hturn
        exact nomatch ht.symm.trans ht₁
  | some t =>
      rcases phase_step h ht ht' with ⟨_, hph⟩ | hmove
      · have hover₀ : t.phase.live = false := hph ▸ hover
        have hnone := hkept.ended i t ht hover₀
        have hidle : s.active (.actor i) ≠ true := by
          intro hact
          obtain ⟨t₁, ht₁, hin⟩ := active_iff.mp hact
          obtain rfl := Option.some.inj (ht.symm.trans ht₁)
          rw [live_of_inCallback hin] at hover₀
          exact Bool.noConfusion hover₀
        obtain ⟨src, dst, ks, hroute, hands⟩ := step_handover h
        intro hk
        rcases hands.comes _ k hk with hk | ⟨hdst, hk⟩
        · exact hnone k hk
        · cases hroute with
          | pass p q c hq =>
              cases q with
              | outside => exact nomatch hdst
              | actor j => exact hidle (Place.task.inj hdst ▸ hq)
          | reply p j r =>
              have hsrc := moved_old h hands hk (Or.inr nofun)
              exact hnone k (hdst ▸ hsrc)
          | dropReply p j =>
              have hsrc := moved_old h hands hk (Or.inr nofun)
              exact hnone k (hdst ▸ hsrc)
          | recv j m t₁ ht₁ hph₁ =>
              obtain rfl := Place.task.inj hdst
              obtain rfl := Option.some.inj (ht.symm.trans ht₁)
              rw [hph₁] at hover₀
              exact Bool.noConfusion hover₀
          | still _ _ => exact nomatch hdst
          | tell p b m => exact nomatch hdst
          | ask p b m dur => exact nomatch hdst
          | askWaits p b m dur => exact nomatch hdst
          | askSends j q hq => exact nomatch hdst
      · obtain ⟨how, rfl⟩ := ends_eq h ht hmove hover
        exact ((stays_endActor s i how).2 k).1

/-- **Kept by every step of an actor that keeps its reply senders, and by those of others.** -/
theorem kept_step (h : step s e = some s') (hkept : Kept a s) (hkeep : KeepsReplies a s e) :
    Kept a s' where
  known := fun _ _ hk => known_step h hkept hk
  inside := fun _ _ _ hq' htarget hk => inside_step h hkept hkeep hq' htarget hk
  placed := fun _ _ hq' hpend hempty => placed_step h hkept hq' hpend hempty
  askers := fun _ _ _ hq' hcaller hpend => askers_step h hkept hq' hcaller hpend
  ended := fun _ _ ht' hover _ => ended_step h hkept ht' hover

/-! ## After the end -/

/-- Actor `a` has kept its reply senders, and its task has ended. -/
structure Dead (a : ActorId) (s : System μ ρ) : Prop where
  kept : Kept a s
  task : ∃ t, s.actors[a]? = some t ∧ MailSound t ∧ t.phase.live = false

theorem Dead.idle (h : Dead a s) : s.active (.actor a) ≠ true := by
  intro hact
  obtain ⟨t, ht, _, hover⟩ := h.task
  obtain ⟨t₁, ht₁, hin⟩ := active_iff.mp hact
  obtain rfl := Option.some.inj (ht.symm.trans ht₁)
  rw [live_of_inCallback hin] at hover
  exact Bool.noConfusion hover

theorem Dead.closed (h : Dead a s) : ∃ t, s.actors[a]? = some t ∧ t.mailbox.closed = true := by
  obtain ⟨t, ht, hsound, hover⟩ := h.task
  exact ⟨t, ht, by rw [hsound.closed, hover]; rfl⟩

/-- An actor that is not running lets nothing out. -/
theorem keeps_idle (h : step s e = some s') (hidle : s.active (.actor a) ≠ true) :
    KeepsReplies a s e := by
  have hnone : letsOut a e = [] := by
    cases step_takes h with
    | pass p q c hp _ _ =>
        refine if_neg fun hout => hidle ?_
        rw [← hout.1]
        exact hp
    | tell p b m hb _ _ =>
        refine if_neg fun hout => hidle ?_
        rw [← hout.1]
        exact active_of_addr hb
    | ask p b m dur hb _ _ =>
        refine if_neg fun hout => hidle ?_
        rw [← hout.1]
        exact active_of_addr hb
    | _ => rfl
  intro k hk
  rw [hnone] at hk
  exact absurd hk List.not_mem_nil

theorem dead_step (h : Dead a s) (hs : step s e = some s') : Dead a s' := by
  obtain ⟨t, ht, hsound, hover⟩ := h.task
  exact ⟨kept_step hs h.kept (keeps_idle hs h.idle),
    (frozen (Run.snoc Run.nil hs) ht hsound hover).2⟩

/-- No caller waits for a reply that nobody can send. -/
theorem Dead.broken (h : Dead a s) {q : Ask μ ρ} {d : Nat} (hq : s.asks[k]? = some q)
    (htarget : q.target = a) (hst : q.stage = .awaiting d) : q.oneshot ≠ .empty := by
  intro hempty
  obtain ⟨t, ht, hsound, hover⟩ := h.task
  obtain ⟨pl, hk⟩ := h.kept.placed k q hq (by rw [hst]; rfl) hempty
  have hin := h.kept.inside k q pl hq htarget hk
  cases pl with
  | hand => exact hin
  | task i =>
      obtain rfl : i = a := hin
      exact h.kept.ended i t ht hover k hk
  | mail i =>
      obtain rfl : i = a := hin
      have hqueue := (t.mailbox.drained (by rw [hsound.closed, hover]; rfl)).1
      rw [repliesAt_mail ht, mailed, hqueue] at hk
      exact List.not_mem_nil hk
  | ask j =>
      obtain ⟨q₁, hq₁, _, hown⟩ := hin
      rw [repliesAt_ask hq₁] at hk
      have hpend : q₁.stage.pending = true := by
        cases hst₁ : q₁.stage <;> rw [hst₁] at hk <;> first | rfl | exact absurd hk List.not_mem_nil
      rcases hown with rfl | hcaller
      · obtain rfl := Option.some.inj (hq.symm.trans hq₁)
        rw [hst] at hk
        exact List.not_mem_nil hk
      · exact h.idle (h.kept.askers j q₁ a hq₁ hcaller hpend)

/-- A pending call to a dead actor comes to its outcome when it is polled, and only so. -/
theorem Dead.polled (h : Dead a s) {q : Ask μ ρ} (hq : s.asks[k]? = some q)
    (htarget : q.target = a) (hpend : q.stage.pending = true) :
    step s (.askTimesOut k) = none
      ∧ ∃ s', (step s (.askSends k) = some s' ∨ step s (.askResolves k) = some s')
        ∧ ∃ q', s'.asks[k]? = some q' ∧ q'.stage = .done (outcome q) := by
  have hself : ∀ f : Ask μ ρ → Ask μ ρ, (s.updateAsk k f).asks[k]? = some (f q) := by
    intro f
    rw [updateAsk_getElem?, hq]
    exact congrArg some (if_pos rfl)
  cases hst : q.stage with
  | sending m =>
      obtain ⟨t, ht, hclosed⟩ := h.closed
      have hstep : step s (.askSends k) = some ((s.updateAsk k fun q =>
          { q with stage := .done (.error .closed) }).dropReplies m.carries.replies) := by
        simp [step, System.askSends, hq, hst, htarget, ht, Chan.resumeSend, hclosed]
      refine ⟨by simp [step, System.askTimesOut, hq, hst], _, Or.inl hstep, ?_⟩
      obtain ⟨q', hq', hf⟩ := (fading_dropReplies _ m.carries.replies).2 k _ (hself _)
      refine ⟨q', hq', ?_⟩
      rcases hf.stage with hs | ⟨hp, _⟩
      · rw [hs]
        simp [outcome, hst]
      · exact Bool.noConfusion hp
  | awaiting d =>
      cases ho : q.oneshot with
      | empty => exact absurd ho (h.broken hq htarget hst)
      | sent r =>
          have hstep : step s (.askResolves k)
              = some (s.updateAsk k fun q => { q with stage := .done (.ok r) }) := by
            simp [step, System.askResolves, hq, hst, ho]
          refine ⟨by simp [step, System.askTimesOut, hq, hst, ho], _, Or.inr hstep, _, hself _, ?_⟩
          simp [outcome, hst, ho]
      | senderDropped =>
          have hstep : step s (.askResolves k)
              = some (s.updateAsk k fun q => { q with stage := .done (.error .closed) }) := by
            simp [step, System.askResolves, hq, hst, ho]
          refine ⟨by simp [step, System.askTimesOut, hq, hst, ho], _, Or.inr hstep, _, hself _, ?_⟩
          simp [outcome, hst, ho]
  | done res => rw [hst] at hpend; exact Bool.noConfusion hpend
  | dropped => rw [hst] at hpend; exact Bool.noConfusion hpend

/-- Where a call to a dead actor that comes to `res` has got to. -/
def Fate (s : System μ ρ) (a : ActorId) (k : AskId) (res : Except AskError ρ) : Prop :=
  ∃ q, s.asks[k]? = some q ∧ q.target = a ∧ (q.stage = .dropped ∨ q.stage = .done res
    ∨ q.stage.pending = true ∧ outcome q = res)

theorem outcome_sending {q : Ask μ ρ} {m : Msg μ} (hst : q.stage = .sending m) :
    outcome q = .error .closed := by
  unfold outcome
  rw [hst]

/-- No step changes what a pending call to a dead actor comes to. -/
theorem fate_step (h : Dead a s) (hs : step s e = some s') {res : Except AskError ρ}
    (hfate : Fate s a k res) : Fate s' a k res := by
  obtain ⟨q, hq, htarget, hway⟩ := hfate
  obtain ⟨q', hq', hmove⟩ := calls_step hs hq
  refine ⟨q', hq', hmove.terms.target.trans htarget, ?_⟩
  rcases hway with hst | hst | ⟨hpend, hres⟩
  · exact Or.inl ((hmove.over (by rw [hst]; rfl)).trans hst)
  · exact Or.inr (Or.inl ((hmove.over (by rw [hst]; rfl)).trans hst))
  · cases hmove with
    | fades e hf =>
        rcases hf.stage with hst | ⟨_, hst⟩
        · refine Or.inr (Or.inr ⟨hst ▸ hpend, ?_⟩)
          rw [← hres]
          cases hq₁ : q.stage with
          | sending m => rw [outcome_sending hq₁, outcome_sending (hst.trans hq₁)]
          | awaiting d =>
              have hone : q'.oneshot = q.oneshot := by
                rcases hf.oneshot with ho | ho
                · exact ho
                · rw [ho]
                  cases hq₂ : q.oneshot with
                  | empty => exact absurd hq₂ (h.broken hq htarget hq₁)
                  | sent r => rfl
                  | senderDropped => rfl
              unfold outcome
              rw [hst, hone]
          | done res => rw [hq₁] at hpend; exact Bool.noConfusion hpend
          | dropped => rw [hq₁] at hpend; exact Bool.noConfusion hpend
        · exact Or.inl hst
    | sent m t waited ht hopen =>
        obtain ⟨t₁, ht₁, hclosed⟩ := h.closed
        rw [htarget] at ht
        obtain rfl := Option.some.inj (ht.symm.trans ht₁)
        exact Bool.noConfusion (hopen.symm.trans hclosed)
    | refused m waited _ hst =>
        rw [outcome_sending waited] at hres
        exact Or.inr (Or.inl (hres ▸ hst))
    | answered d r waited hreply _ hst =>
        refine Or.inr (Or.inl ?_)
        rw [hst, ← hres]
        simp [outcome, waited, hreply]
    | broken d waited hdropped _ hst =>
        refine Or.inr (Or.inl ?_)
        rw [hst, ← hres]
        simp [outcome, waited, hdropped]
    | timedOut d waited hempty => exact absurd hempty (h.broken hq htarget waited)
    | reply p r hk =>
        -- nobody but the actor could
        have hin := h.kept.inside k q _ hq htarget (mem_repliesOf hk)
        rw [inside_party hin] at hk
        exact absurd (active_of_reply hk) h.idle

/-- A call made to a dead actor is over at once. -/
theorem late_step (h : Dead a s) (hs : step s e = some s') {q' : Ask μ ρ}
    (h0 : s.asks[k]? = none) (hq' : s'.asks[k]? = some q') (htarget : q'.target = a) :
    q'.stage = .done (.error .closed) := by
  obtain ⟨_, p, b, m, dur, rfl, _, hopened⟩ := call_new hs h0 hq'
  rcases hopened.stage with ⟨⟨t', ht', hopen⟩, _⟩ | hst
  · obtain ⟨t, ht, hclosed⟩ := h.closed
    obtain ⟨t₁, ht₁, hsame, _⟩ :=
      (quiet_updateHand s p fun h => h.without m.carries.replies).2 a t ht
    rw [hopened.target.symm.trans htarget] at ht'
    obtain rfl := Option.some.inj (ht₁.symm.trans ht')
    rw [hsame.like.2, hclosed] at hopen
    exact Bool.noConfusion hopen
  · exact hst

end

/-! ## Every run -/

variable {tr tr' : List (System μ ρ × Event μ ρ)} {s s' : System μ ρ} {a : ActorId}

theorem kept_run (h : Run step System.init tr s) (hkeep : ∀ x ∈ tr, KeepsReplies a x.1 x.2) :
    Kept a s :=
  h.guarded (kept_init a) (fun _ _ _ hkept hk hs => kept_step hs hkept hk) hkeep

theorem dropSender_sent {o : Oneshot ρ} {r : ρ} (h : o.dropSender = .sent r) : o = .sent r := by
  cases o with
  | empty => exact absurd h (by simp [Oneshot.dropSender])
  | sent r' => exact h
  | senderDropped => exact absurd h (by simp [Oneshot.dropSender])

/-- A call that has a reply, on its channel or already received, had it before or gets it now. -/
theorem AskStep.replied {q q' : Ask μ ρ} {r : ρ} (h : AskStep s k q q' e)
    (hr : q'.oneshot = .sent r ∨ q'.stage = .done (.ok r)) :
    (q.oneshot = .sent r ∨ q.stage = .done (.ok r))
      ∨ ∃ p, e = .reply p k r ∧ k ∈ s.repliesOf p := by
  cases h with
  | fades e hf =>
      rcases hr with ho | hst
      · -- a dropped sender leaves a value sent before
        rcases hf.oneshot with ho' | ho'
        · exact Or.inl (Or.inl (ho' ▸ ho))
        · exact Or.inl (Or.inl (dropSender_sent (ho' ▸ ho)))
      · rcases hf.stage with hst' | ⟨_, hst'⟩
        · exact Or.inl (Or.inr (hst' ▸ hst))
        · exact absurd (hst'.symm.trans hst) (by simp)
  | sent m t waited _ _ _ hst' ho' =>
      rcases hr with ho | hst
      · exact Or.inl (Or.inl (ho' ▸ ho))
      · exact absurd (hst'.symm.trans hst) (by simp)
  | refused m waited _ hst' ho' =>
      rcases hr with ho | hst
      · rcases ho' with ho' | ho'
        · exact Or.inl (Or.inl (ho' ▸ ho))
        · exact Or.inl (Or.inl (dropSender_sent (ho' ▸ ho)))
      · exact absurd (hst'.symm.trans hst) (by simp)
  | answered d r' waited replied _ hst' ho' =>
      rcases hr with ho | hst
      · exact Or.inl (Or.inl (ho' ▸ ho))
      · rw [hst'] at hst
        obtain rfl := Except.ok.inj (Stage.done.inj hst)
        exact Or.inl (Or.inl replied)
  | broken d waited _ _ hst' ho' =>
      rcases hr with ho | hst
      · exact Or.inl (Or.inl (ho' ▸ ho))
      · exact absurd (hst'.symm.trans hst) (by simp)
  | timedOut d waited _ _ hst' ho' =>
      rcases hr with ho | hst
      · exact Or.inl (Or.inl (ho' ▸ ho))
      · exact absurd (hst'.symm.trans hst) (by simp)
  | reply p r' hk _ hst' ho' =>
      rcases hr with ho | hst
      · rw [ho'] at ho
        obtain rfl := Oneshot.sent.inj ho
        exact Or.inr ⟨p, rfl, hk⟩
      · exact Or.inl (Or.inr (hst' ▸ hst))

/-- A call just made has none. -/
theorem Opened.no_reply {p : Party} {b : ActorId} {q : Ask μ ρ} (h : Opened s p b q) (r : ρ) :
    ¬ (q.oneshot = .sent r ∨ q.stage = .done (.ok r)) := by
  rintro (ho | hst)
  · exact h.oneshot r ho
  · rcases h.stage with ⟨_, hpend⟩ | hst'
    · rw [hst] at hpend
      exact Bool.noConfusion hpend
    · rw [hst] at hst'
      exact absurd hst' (by simp)

/-- A reply on the channel of one of the actor's callers is the actor's. -/
theorem replied_run (h : Run step System.init tr s) (hkeep : ∀ x ∈ tr, KeepsReplies a x.1 x.2) :
    ∀ (k : AskId) (q : Ask μ ρ) (r : ρ), s.asks[k]? = some q → q.target = a →
      q.oneshot = .sent r ∨ q.stage = .done (.ok r) → RepliedBy tr a k r := by
  induction h with
  | nil => exact fun k q r hq => absurd hq (by simp [System.init])
  | @snoc tr s s' e hrun hs ih =>
      intro k q' r hq' htarget hreply
      have hold : ∀ x ∈ tr, KeepsReplies a x.1 x.2 := fun x hx =>
        hkeep x (List.mem_append_left _ hx)
      cases hq : s.asks[k]? with
      | none =>
          obtain ⟨_, p, b, m, dur, _, _, hopened⟩ := call_new hs hq hq'
          exact absurd hreply (hopened.no_reply r)
      | some q =>
          obtain ⟨q₁, hq₁, hmove⟩ := calls_step hs hq
          obtain rfl := Option.some.inj (hq₁.symm.trans hq')
          have htarget₀ : q.target = a := hmove.terms.target.symm.trans htarget
          rcases hmove.replied hreply with hbefore | ⟨p, rfl, hk⟩
          · obtain ⟨x, hx, hact⟩ := ih hold k q r hq htarget₀ hbefore
            exact ⟨x, List.mem_append_left _ hx, hact⟩
          · -- only the actor has the sender
            have hin := (kept_run hrun hold).inside k q _ hq htarget₀ (mem_repliesOf hk)
            rw [inside_party hin] at hk ⊢
            exact ⟨s, List.mem_append_right _ (List.mem_singleton.mpr rfl), active_of_reply hk⟩

/-- From the state in which the actor has ended on. -/
theorem dead_run (h : Dead a s) (hrun : Run step s tr' s') : Dead a s' :=
  hrun.invariant h fun _ _ _ hd hs => dead_step hd hs

theorem fate_run (h : Dead a s) (hrun : Run step s tr' s') {k : AskId} {res : Except AskError ρ}
    (hfate : Fate s a k res) : Fate s' a k res := by
  induction hrun with
  | nil => exact hfate
  | snoc hr hs ih => exact fate_step (dead_run h hr) hs ih

theorem late_run (h : Dead a s) (hrun : Run step s tr' s') : ∀ (k : AskId) (q' : Ask μ ρ),
    s.asks[k]? = none → s'.asks[k]? = some q' → q'.target = a →
      q'.stage = .done (.error .closed) := by
  induction hrun with
  | nil => exact fun k q' h0 hq' => nomatch h0.symm.trans hq'
  | @snoc tr x x' e hr hs ih =>
      intro k q' h0 hq' htarget
      cases hq : x.asks[k]? with
      | none => exact late_step (dead_run h hr) hs hq hq' htarget
      | some q =>
          obtain ⟨q₁, hq₁, hmove⟩ := calls_step hs hq
          obtain rfl := Option.some.inj (hq₁.symm.trans hq')
          have hst := ih k q h0 hq (hmove.terms.target.symm.trans htarget)
          exact (hmove.over (by rw [hst]; rfl)).trans hst

/--
**A dead actor releases every caller.** Let actor `a` keep the reply senders of its callers
in its task. A call to it returns `Ok r` only if the actor sent `r` on that call's own
channel while it was running. And once its task has ended, in whatever way, every call to
it that is pending comes to its `outcome` in every continuation in which its caller does not
drop it, as soon as it is polled and without its timer: the reply that the actor had already
sent if it had sent one, and `Closed` if not, be its message still to be sent, in the
mailbox, in hand or kept for later. Every call made later is `Closed` at once.
-/
theorem dead_actor_releases (h : Run step System.init tr s)
    (hkeep : ∀ x ∈ tr, KeepsReplies a x.1 x.2) :
    (∀ (k : AskId) (q : Ask μ ρ) (r : ρ), s.asks[k]? = some q → q.target = a →
        q.stage = .done (.ok r) → RepliedBy tr a k r)
      ∧ ∀ t, s.actors[a]? = some t → t.phase.live = false → ∀ tr' s', Run step s tr' s' →
        (∀ (k : AskId) (q : Ask μ ρ), s.asks[k]? = some q → q.target = a →
          q.stage.pending = true → Released s' k (outcome q)
            ∧ ∀ r, outcome q = .ok r → RepliedBy tr a k r)
          ∧ ∀ (k : AskId) (q' : Ask μ ρ), s.asks[k]? = none → s'.asks[k]? = some q' →
            q'.target = a → q'.stage = .done (.error .closed) := by
  have hreplied := replied_run h hkeep
  refine ⟨fun k q r hq htarget hst => hreplied k q r hq htarget (Or.inr hst), ?_⟩
  intro t ht hover tr' s' hrun
  have hdead : Dead a s := ⟨kept_run h hkeep, t, ht, ((account_run h).tasks a t ht).1, hover⟩
  refine ⟨fun k q hq htarget hpend => ⟨?_, fun r hr => ?_⟩, late_run hdead hrun⟩
  · obtain ⟨q', hq', htarget', hway⟩ :=
      fate_run hdead hrun ⟨q, hq, htarget, Or.inr (Or.inr ⟨hpend, rfl⟩)⟩
    refine ⟨q', hq', hway.imp id (Or.imp id ?_)⟩
    rintro ⟨hpend', hres⟩
    rw [← hres]
    exact ⟨hpend', (dead_run hdead hrun).polled hq' htarget' hpend'⟩
  · refine hreplied k q r hq htarget (Or.inl ?_)
    unfold outcome at hr
    split at hr
    · rename_i hone
      rw [hone, Except.ok.inj hr]
    · exact nomatch hr

/-- Four calls of an actor with one slot: when the actor panics the first has been answered, the
second is in hand, the third in the mailbox, and the fourth waits for a slot. -/
def panicWithCallers : List (Event Nat Nat) :=
  [.spawn .outside 1, .returns 0,
   .ask .outside 0 ⟨1, .empty⟩ 5, .recv 0, .reply (.actor 0) 0 10, .returns 0,
   .ask .outside 0 ⟨2, .empty⟩ 5, .recv 0, .ask .outside 0 ⟨3, .empty⟩ 5,
   .ask .outside 0 ⟨4, .empty⟩ 5, .panics 0]

theorem dead_actor_releases_panicWithCallers :
    Released (after step .init panicWithCallers) 0 (.ok 10)
      ∧ (∀ k ∈ [1, 2, 3], Released (after step .init panicWithCallers) k (.error .closed)) := by
  have hrun : Run step .init (traceOf step .init panicWithCallers)
      (after step .init panicWithCallers) := Run.after (by decide)
  have hall := (dead_actor_releases (a := 0) hrun (by decide)).2 _ rfl rfl [] _ Run.nil
  refine ⟨(hall.1 0 _ rfl rfl rfl).1, ?_⟩
  intro k hk
  simp only [List.mem_cons, List.not_mem_nil, or_false] at hk
  rcases hk with rfl | rfl | rfl
  · exact (hall.1 1 _ rfl rfl rfl).1
  · exact (hall.1 2 _ rfl rfl rfl).1
  · exact (hall.1 3 _ rfl rfl rfl).1

end ErlangActors.Proof
