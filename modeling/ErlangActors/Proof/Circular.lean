import ErlangActors.Proof.Deadlines
import ErlangActors.Proof.Release

/-!
# Actors that wait for each other

A call can be answered by the actor called alone, as long as its reply sender has not left
that actor; and not even by that actor, as long as the message waits in its mailbox and the
actor in a callback. So actors that call one another in a circle out of their callbacks wait
until a timer fires, unless one of them lets go of a sender it has in hand — and for ever, if
the calls have not even got into the mailboxes, where no timer is armed.
-/

namespace ErlangActors.Proof

open Actor Channel Transition

variable {μ ρ : Type}

/-- The sender of the `k`-th call is in its message, on its way or in the mailbox of actor `a`, or
in the hands of that actor. -/
def Within (s : System μ ρ) (k : AskId) (a : ActorId) : Prop :=
  ∀ pl, k ∈ repliesAt s pl → pl = .ask k ∨ pl = .mail a ∨ pl = .task a

/-- Somebody has the sender of the `k`-th call in hand. -/
def Held (s : System μ ρ) (k : AskId) : Prop := ∃ p, k ∈ repliesAt s (placeOf p)

/-- The sender of the `k`-th call is nowhere but in its message, on its way or in the mailbox. -/
def Unheld (s : System μ ρ) (k : AskId) (a : ActorId) : Prop :=
  ∀ pl, k ∈ repliesAt s pl → pl = .ask k ∨ pl = .mail a

/-- Actor `i` is in a callback that waits for a call to an actor of the circle `D`, and the sender
of that call has not left that actor. -/
structure Relies (D : ActorId → Prop) (call : ActorId → AskId) (s : System μ ρ) (i : ActorId) :
    Prop where
  running : s.active (.actor i) = true
  asks : ∃ q, s.asks[call i]? = some q ∧ q.caller = .actor i ∧ D q.target
    ∧ q.stage.pending = true ∧ q.oneshot = .empty ∧ Within s (call i) q.target

/-- Actor `i` is in a callback that waits for a call to an actor of the circle `D`, and nobody has
taken the message of that call in hand. -/
structure Waits (D : ActorId → Prop) (call : ActorId → AskId) (s : System μ ρ) (i : ActorId) :
    Prop where
  running : s.active (.actor i) = true
  asks : ∃ q, s.asks[call i]? = some q ∧ q.caller = .actor i ∧ D q.target
    ∧ q.stage.pending = true ∧ q.oneshot = .empty ∧ Unheld s (call i) q.target

/-- No callback of the circle panics, is aborted or gives up its call. What else their code does,
or that of others, is up to them. -/
def StaysOn (D : ActorId → Prop) (call : ActorId → AskId) (e : Event μ ρ) : Prop :=
  ∀ i, D i → e ≠ .panics i ∧ e ≠ .aborted i ∧ e ≠ .dropAsk (call i)

/-- The senders a step takes out of somebody's hand: to reply, to drop or to give them away. -/
def spent : Event μ ρ → List AskId
  | .pass _ _ c => c.replies
  | .tell _ _ m => m.carries.replies
  | .ask _ _ m _ => m.carries.replies
  | .reply _ k _ => [k]
  | .dropReply _ k => [k]
  | _ => []

section
variable {s s' : System μ ρ} {e : Event μ ρ} {k : AskId} {q : Ask μ ρ} {a : ActorId}

/-! ## The call -/

theorem updateAsk_other {j : AskId} (hj : j ≠ k) (f : Ask μ ρ → Ask μ ρ) :
    (s.updateAsk j f).asks[k]? = s.asks[k]? := by
  rw [updateAsk_getElem?]
  cases s.asks[k]? with
  | none => rfl
  | some q => exact congrArg some (if_neg hj)

theorem dropReplies_other {ks : List AskId} (hk : k ∉ ks) :
    (s.dropReplies ks).asks[k]? = s.asks[k]? := by
  rw [dropReplies_getElem?]
  cases s.asks[k]? with
  | none => rfl
  | some q => exact congrArg some (if_neg hk)

/-- What a step takes out of a hand is in that hand. -/
theorem spent_held (hs : step s e = some s') (hk : k ∈ spent e) : Held s k := by
  cases step_takes hs with
  | pass p p' c _ howns _ => exact ⟨p, owns_replies howns k hk⟩
  | tell p b m _ howns _ => exact ⟨p, owns_replies howns k hk⟩
  | ask p b m dur _ howns _ => exact ⟨p, owns_replies howns k hk⟩
  | reply p j r hj => exact ⟨p, List.mem_singleton.mp hk ▸ mem_repliesOf hj⟩
  | dropReply p j hj => exact ⟨p, List.mem_singleton.mp hk ▸ mem_repliesOf hj⟩
  | _ => exact absurd hk List.not_mem_nil

theorem unheld_iff : Unheld s k a ↔ Within s k a ∧ ¬Held s k := by
  constructor
  · refine fun h => ⟨fun pl hk => (h pl hk).imp_right Or.inl, ?_⟩
    rintro ⟨p, hk⟩
    cases p with
    | outside => rcases h .hand hk with hpl | hpl <;> exact Place.noConfusion hpl
    | actor i => rcases h (.task i) hk with hpl | hpl <;> exact Place.noConfusion hpl
  · rintro ⟨h, hnot⟩ pl hk
    rcases h pl hk with hpl | hpl | rfl
    · exact Or.inl hpl
    · exact Or.inr hpl
    · exact absurd ⟨.actor a, hk⟩ hnot

/-- The message of no other call has it. -/
theorem Within.at_ask (h : Within s k a) {j : AskId} (hk : k ∈ repliesAt s (.ask j)) : j = k := by
  rcases h _ hk with hpl | hpl | hpl
  · exact Place.ask.inj hpl
  · exact Place.noConfusion hpl
  · exact Place.noConfusion hpl

/-- Nor has any other actor. -/
theorem Within.at_actor (h : Within s k a) {i : ActorId}
    (hk : k ∈ repliesAt s (.task i) ∨ k ∈ repliesAt s (.mail i)) : i = a := by
  rcases hk with hk | hk
  · rcases h _ hk with hpl | hpl | hpl
    · exact Place.noConfusion hpl
    · exact Place.noConfusion hpl
    · exact Place.task.inj hpl
  · rcases h _ hk with hpl | hpl | hpl
    · exact Place.noConfusion hpl
    · exact Place.mail.inj hpl
    · exact Place.noConfusion hpl

theorem Within.dropAsk (h : Within s k a) {j : AskId} (hj : j ≠ k) :
    (s.dropAsk j).asks[k]? = s.asks[k]? ∧ Within (s.dropAsk j) k a := by
  refine ⟨?_, fun pl hk => h pl ((stays_dropAsk s j).comes pl k hk)⟩
  unfold System.dropAsk
  cases hq : s.asks[j]? with
  | none => rfl
  | some q =>
      dsimp only
      cases hst : q.stage with
      | sending m =>
          have hk : k ∉ m.carries.replies := by
            intro hk
            have hat : k ∈ repliesAt s (.ask j) := by
              rw [repliesAt_ask hq, hst]
              exact hk
            exact hj (h.at_ask hat)
          exact (dropReplies_other hk).trans (updateAsk_other hj _)
      | awaiting d => exact updateAsk_other hj _
      | done res => rfl
      | dropped => rfl

theorem Within.dropAsks {ks : List AskId} : ∀ {s : System μ ρ}, Within s k a → k ∉ ks →
    (ks.foldl System.dropAsk s).asks[k]? = s.asks[k]?
      ∧ Within (ks.foldl System.dropAsk s) k a := by
  induction ks with
  | nil => exact fun h _ => ⟨rfl, h⟩
  | cons j ks ih =>
      intro s h hk
      obtain ⟨hsame, hin⟩ := h.dropAsk (List.ne_of_not_mem_cons hk).symm
      obtain ⟨hsame', hin'⟩ := ih hin (List.not_mem_of_not_mem_cons hk)
      exact ⟨hsame'.trans hsame, hin'⟩

/-- The end of a task takes no other than its own calls, and those whose message it has. -/
theorem Within.endActor (h : Within s k a) (hq : s.asks[k]? = some q) {i : ActorId} {how : Exit}
    (hia : i ≠ a) (hcaller : q.caller ≠ .actor i) :
    (s.endActor i how).asks[k]? = s.asks[k]? := by
  have hk : k ∉ s.asksOf i := by
    intro hk
    obtain ⟨q', hq', hown⟩ := (Option.any_eq_true _ _).mp (List.mem_filter.mp hk).2
    obtain rfl := Option.some.inj (hq.symm.trans hq')
    rw [Bool.and_eq_true] at hown
    exact hcaller (eq_of_beq hown.1)
  obtain ⟨hsame, hin⟩ := h.dropAsks hk
  unfold System.endActor
  dsimp only
  cases ht : ((s.asksOf i).foldl System.dropAsk s).actors[i]? with
  | none => exact hsame
  | some t =>
      refine (dropReplies_other fun hk => ?_).trans hsame
      rcases List.mem_append.mp hk with hk | hk
      · exact hia (hin.at_actor (Or.inl (repliesAt_task ht ▸ hk)))
      · exact hia (hin.at_actor (Or.inr (repliesAt_mail ht ▸ hk)))

theorem tell_asks {m : Msg μ} {b : ActorId} (htell : s.tellOrDrop b m = some s')
    (hk : k ∉ m.carries.replies) : s'.asks[k]? = s.asks[k]? := by
  unfold System.tellOrDrop System.tell at htell
  rw [Option.map_map, Option.map_eq_some_iff] at htell
  obtain ⟨t, _, htell⟩ := htell
  cases hsend : t.mailbox.trySend m with
  | ok c => simp only [Function.comp_apply, hsend] at htell; rw [← htell]; rfl
  | error err =>
      cases err with
      | full =>
          simp only [Function.comp_apply, hsend] at htell
          exact htell ▸ dropReplies_other hk
      | closed =>
          simp only [Function.comp_apply, hsend] at htell
          exact htell ▸ dropReplies_other hk

theorem ask_asks {p : Party} {m : Msg μ} {b : ActorId} {dur : Nat}
    (hask : s.ask p b m dur = some s') (hlt : k < s.asks.length) (hk : k ∉ m.carries.replies) :
    s'.asks[k]? = s.asks[k]? := by
  have hold : ∀ q : Ask μ ρ, (s.asks ++ [q])[k]? = s.asks[k]? := fun q =>
    List.getElem?_append_left hlt
  unfold System.ask at hask
  obtain ⟨t, _, hask⟩ := Option.map_eq_some_iff.mp hask
  dsimp only at hask
  cases hsend : t.mailbox.startSend s.asks.length (m.withReply s.asks.length) with
  | sent c => rw [hsend] at hask; rw [← hask]; exact hold _
  | pending c => rw [hsend] at hask; rw [← hask]; exact hold _
  | closed =>
      rw [hsend] at hask
      rw [← hask]
      refine (dropReplies_other fun hmem => ?_).trans (hold _)
      rcases List.mem_append.mp hmem with hmem | hmem
      · exact hk hmem
      · exact Nat.ne_of_lt hlt (List.mem_singleton.mp hmem)

theorem askSends_asks {j : AskId} (hsends : s.askSends j = some s') (hj : j ≠ k)
    (h : Within s k a) : s'.asks[k]? = s.asks[k]? := by
  unfold System.askSends at hsends
  obtain ⟨q, hq, hsends⟩ := Option.bind_eq_some_iff.mp hsends
  cases hst : q.stage with
  | sending msg =>
      rw [hst] at hsends
      obtain ⟨t, _, hsends⟩ := Option.bind_eq_some_iff.mp hsends
      cases hsend : t.mailbox.resumeSend j msg with
      | sent c =>
          rw [hsend] at hsends
          rw [← Option.some.inj hsends]
          exact updateAsk_other hj _
      | pending c => rw [hsend] at hsends; exact absurd hsends (by simp)
      | closed =>
          rw [hsend] at hsends
          rw [← Option.some.inj hsends]
          refine (dropReplies_other fun hk => ?_).trans (updateAsk_other hj _)
          have hat : k ∈ repliesAt s (.ask j) := by
            rw [repliesAt_ask hq, hst]
            exact hk
          exact hj (h.at_ask hat)
  | awaiting d => rw [hst] at hsends; exact absurd hsends (by simp)
  | done res => rw [hst] at hsends; exact absurd hsends (by simp)
  | dropped => rw [hst] at hsends; exact absurd hsends (by simp)

/-- **Nobody else can touch it.** A call whose sender has not left its target, and is not let go of
there, goes on only when it is polled itself, when its caller gives it up, or when the caller's
or the target's task ends. -/
theorem Within.untouched (hs : step s e = some s') (h : Within s k a) (hq : s.asks[k]? = some q)
    (hspent : k ∉ spent e) (hsends : e ≠ .askSends k) (hresolves : e ≠ .askResolves k)
    (htimes : e ≠ .askTimesOut k) (hdrop : e ≠ .dropAsk k)
    (hends : ∀ i, i = a ∨ q.caller = .actor i → ∀ how, s' ≠ s.endActor i how) :
    s'.asks[k]? = s.asks[k]? := by
  have hhand : ∀ (s : System μ ρ) (p : Party) (f : Holding → Holding),
      (s.updateHand p f).asks[k]? = s.asks[k]? := fun s p f => by rw [updateHand_asks]
  have hend : ∀ (i : ActorId) (how : Exit), s' = s.endActor i how → s'.asks[k]? = s.asks[k]? := by
    rintro i how rfl
    exact h.endActor hq (fun hi => hends i (Or.inl hi) how rfl)
      fun hi => hends i (Or.inr hi) how rfl
  cases step_takes hs with
  | spawn p mailboxBound _ _ => exact hhand _ p _
  | cloneAddr p b _ => exact hhand _ p _
  | dropAddr p b _ => exact hhand _ p _
  | replaceSelf i b t _ _ _ => rfl
  | pass p p' c _ _ _ => exact (hhand _ p' _).trans (hhand _ p _)
  | tell p b m _ _ htell => exact (tell_asks htell hspent).trans (hhand _ p _)
  | ask p b m dur _ _ hask =>
      have hlt : k < (calling s p m).asks.length := by
        rw [calling_asks]
        exact (List.getElem?_eq_some_iff.mp hq).1
      exact (ask_asks hask hlt hspent).trans (hhand _ p _)
  | askSends j hsend => exact askSends_asks hsend (fun hj => hsends (hj ▸ rfl)) h
  | askResolves j hres =>
      obtain ⟨_, res, _, _, rfl⟩ := askResolves_cases hres
      exact updateAsk_other (fun hj : j = k => hresolves (congrArg Event.askResolves hj)) _
  | askTimesOut j htime =>
      obtain ⟨_, d, _, _, _, rfl⟩ := askTimesOut_cases htime
      exact updateAsk_other (fun hj : j = k => htimes (congrArg Event.askTimesOut hj)) _
  | dropAsk j q' _ _ => exact (h.dropAsk fun hj => hdrop (hj ▸ rfl)).1
  | reply p j r _ =>
      have hne : j ≠ k := fun hj => hspent (List.mem_singleton.mpr hj.symm)
      exact (updateAsk_other hne _).trans (hhand _ p _)
  | dropReply p j _ => exact (dropReplies_other hspent).trans (hhand _ p _)
  | recv i t t' _ _ => rfl
  | recvNone i t _ _ _ _ => rfl
  | started i t _ _ _ => rfl
  | handled i t m _ _ _ => rfl
  | stopped i t _ _ _ => exact hend i _ rfl
  | panics i t _ _ => exact hend i _ rfl
  | aborted i t _ _ => exact hend i _ rfl
  | tick d _ => rfl

/-- A sender that the step does not take out of a hand moves from the message into the mailbox, or
from the mailbox into the target's hand, if it moves at all. -/
theorem Within.moves (hs : step s e = some s') (h : Within s k a) (hq : s.asks[k]? = some q)
    (hspent : k ∉ spent e) {pl : Place} (hk : k ∈ repliesAt s' pl) :
    k ∈ repliesAt s pl ∨ pl = .mail q.target ∨ e = .recv a ∧ pl = .task a := by
  obtain ⟨src, dst, ks, hroute, hands⟩ := step_handover hs
  rcases hands.comes pl k hk with hold | ⟨rfl, hmoved⟩
  · exact Or.inl hold
  · have hlt : k < s.asks.length := (List.getElem?_eq_some_iff.mp hq).1
    have hsrc := moved_old hs hands hmoved (Or.inl hlt)
    have hnew : ∀ m : Msg μ, k ∈ (m.withReply s.asks.length).carries.replies →
        k ∈ m.carries.replies := fun m hm => old_carried hq hm
    cases hroute with
    | still _ _ => exact absurd hmoved List.not_mem_nil
    | pass p p' c _ => exact absurd hmoved hspent
    | tell p b m => exact absurd hmoved hspent
    | ask p b m dur => exact absurd (hnew m hmoved) hspent
    | askWaits p b m dur => exact absurd (hnew m hmoved) hspent
    | askSends j q' hq' =>
        obtain rfl := h.at_ask hsrc
        obtain rfl := Option.some.inj (hq.symm.trans hq')
        exact Or.inr (Or.inl rfl)
    | reply p j r => exact absurd hmoved hspent
    | dropReply p j => exact absurd hmoved hspent
    | recv j m t _ _ =>
        obtain rfl := h.at_actor (Or.inr hsrc)
        exact Or.inr (Or.inr ⟨rfl, rfl⟩)

/-- So it does not leave its target, -/
theorem Within.stays (hs : step s e = some s') (h : Within s k a) (hq : s.asks[k]? = some q)
    (htarget : q.target = a) (hspent : k ∉ spent e) : Within s' k a := by
  intro pl hk
  rcases h.moves hs hq hspent hk with hold | hpl | ⟨_, hpl⟩
  · exact h pl hold
  · exact Or.inr (Or.inl (htarget ▸ hpl))
  · exact Or.inr (Or.inr hpl)

/-- and nobody gets it in hand unless the target receives. -/
theorem Within.unheld (hs : step s e = some s') (h : Within s k a) (hq : s.asks[k]? = some q)
    (hspent : k ∉ spent e) (hrecv : e ≠ .recv a) (hheld : Held s' k) : Held s k := by
  obtain ⟨p, hk⟩ := hheld
  rcases h.moves hs hq hspent hk with hold | hpl | ⟨he, _⟩
  · exact ⟨p, hold⟩
  · cases p <;> exact Place.noConfusion hpl
  · exact absurd he hrecv

/-! ## The circle -/

variable {D : ActorId → Prop} {call : ActorId → AskId} {i : ActorId}

theorem returns_none (hs : step s (.returns i) = some s') : s.asksOf i = [] := by
  cases step_takes hs with
  | started _ _ _ _ hasks => exact hasks
  | handled _ _ _ _ _ hasks => exact hasks
  | stopped _ _ _ _ hasks => exact hasks

/-- A callback comes to its end when it returns, panics or is aborted, and only then. -/
theorem runs_on (hs : step s e = some s') (hact : s.active (.actor i) = true)
    (hreturns : e ≠ .returns i) (hpanics : e ≠ .panics i) (habort : e ≠ .aborted i) :
    s'.active (.actor i) = true ∧ e ≠ .recv i := by
  obtain ⟨t, ht, hin⟩ := active_iff.mp hact
  obtain ⟨t', ht', _⟩ := step_task hs ht
  refine ⟨active_iff.mpr ⟨t', ht', ?_⟩, ?_⟩
  · rcases phase_step hs ht ht' with ⟨_, hph⟩ | hmove
    · exact hph ▸ hin
    · generalize t.phase = ph at hin hmove
      generalize t'.phase = ph' at hmove ⊢
      cases hmove with
      | started => exact absurd rfl hreturns
      | recv m => exact Bool.noConfusion hin
      | handled m => exact absurd rfl hreturns
      | recvNone => exact Bool.noConfusion hin
      | returned => exact absurd rfl hreturns
      | panicked ph _ => exact absurd rfl hpanics
      | aborted ph _ => exact absurd rfl habort
  · rintro rfl
    cases step_takes hs with
    | recv _ t₁ t₂ ht₁ hrecv =>
        obtain rfl := Option.some.inj (ht.symm.trans ht₁)
        obtain ⟨_, _, hph, _⟩ := recv_cases hrecv
        rw [hph] at hin
        exact Bool.noConfusion hin

theorem Waits.relies (h : Waits D call s i) : Relies D call s i := by
  obtain ⟨q, hq, hcaller, htarget, hpend, hempty, hun⟩ := h.asks
  exact ⟨h.running, q, hq, hcaller, htarget, hpend, hempty, (unheld_iff.mp hun).1⟩

theorem Waits.not_held (h : Waits D call s i) : ¬Held s (call i) := by
  obtain ⟨q, _, _, _, _, _, hun⟩ := h.asks
  exact (unheld_iff.mp hun).2

theorem Relies.waits (h : Relies D call s i) (hnot : ¬Held s (call i)) : Waits D call s i := by
  obtain ⟨q, hq, hcaller, htarget, hpend, hempty, hin⟩ := h.asks
  exact ⟨h.running, q, hq, hcaller, htarget, hpend, hempty, unheld_iff.mpr ⟨hin, hnot⟩⟩

/-- The callbacks of the circle do not return. -/
theorem Relies.runs_on (h : Relies D call s i) (hs : step s e = some s') (hi : D i)
    (hstay : StaysOn D call e) : s'.active (.actor i) = true ∧ e ≠ .recv i := by
  obtain ⟨q, hq, hcaller, _, hpend, _⟩ := h.asks
  refine Proof.runs_on hs h.running ?_ (hstay i hi).1 (hstay i hi).2.1
  rintro rfl
  have hmem := mem_asksOf hq hcaller hpend
  rw [returns_none hs] at hmem
  exact absurd hmem List.not_mem_nil

/-- The mailbox of an actor that runs is open. -/
theorem open_of_active (hsound : ∀ (i : ActorId) (t : ActorTask μ), s.actors[i]? = some t →
    MailSound t) (hact : s.active (.actor i) = true) {t : ActorTask μ}
    (ht : s.actors[i]? = some t) : t.mailbox.closed ≠ true := by
  obtain ⟨t₁, ht₁, hin⟩ := active_iff.mp hact
  obtain rfl := Option.some.inj (ht.symm.trans ht₁)
  rw [(hsound i t ht).closed, live_of_inCallback hin]
  exact Bool.false_ne_true

/-- A message that gets into an open mailbox takes its sender along. -/
theorem askSends_waits (hs : s.askSends k = some s') (hq : s.asks[k]? = some q)
    (hopen : ∀ t, s.actors[q.target]? = some t → t.mailbox.closed ≠ true) :
    s'.asks[k]? = some { q with stage := .awaiting (s.clock + q.dur) } := by
  unfold System.askSends at hs
  rw [hq, Option.bind_some] at hs
  cases hst : q.stage with
  | sending m =>
      rw [hst] at hs
      obtain ⟨t, ht, hs⟩ := Option.bind_eq_some_iff.mp hs
      unfold Chan.resumeSend at hs
      rw [if_neg (hopen t ht)] at hs
      by_cases hgranted : k ∈ t.mailbox.granted
      · rw [dif_pos hgranted] at hs
        rw [← Option.some.inj hs]
        show (s.updateAsk k _).asks[k]? = _
        rw [updateAsk_getElem?, hq]
        exact congrArg some (if_pos rfl)
      · rw [dif_neg hgranted] at hs
        exact absurd hs (by simp)
  | awaiting d => rw [hst] at hs; exact absurd hs (by simp)
  | done res => rw [hst] at hs; exact absurd hs (by simp)
  | dropped => rw [hst] at hs; exact absurd hs (by simp)

/-- As long as everybody in the circle is at it, nothing happens to a call but that it gets into the
mailbox, is given up, or times out. -/
theorem Relies.untouched (h : Relies D call s i) (hs : step s e = some s') (hi : D i)
    (hspent : call i ∉ spent e) (hruns : ∀ j, D j → s'.active (.actor j) = true)
    (hsends : e ≠ .askSends (call i)) (hdrop : e ≠ .dropAsk (call i))
    (htimer : e ≠ .askTimesOut (call i)) : s'.asks[call i]? = s.asks[call i]? := by
  obtain ⟨q, hq, hcaller, htarget, _, hempty, hin⟩ := h.asks
  refine hin.untouched hs hq hspent hsends ?_ htimer hdrop ?_
  · -- there is no reply to resolve with
    rintro rfl
    have hstep : s.askResolves (call i) = some s' := hs
    unfold System.askResolves at hstep
    rw [hq, Option.bind_some, hempty] at hstep
    cases hst : q.stage <;> rw [hst] at hstep <;> exact absurd hstep (by simp)
  · intro j hj how hend
    -- the tasks at both ends of the call are there
    have hrun : s'.active (.actor j) = true := by
      rcases hj with rfl | hj
      · exact hruns _ htarget
      · obtain rfl := Party.actor.inj (hcaller.symm.trans hj)
        exact hruns i hi
    obtain ⟨t, ht, hin⟩ := active_iff.mp hrun
    rw [hend] at ht
    rw [endActor_phase ht] at hin
    exact Bool.noConfusion hin

/-- **One step of one call.** -/
theorem Relies.step (h : Relies D call s i) (hs : step s e = some s') (hi : D i)
    (hsound : ∀ (i : ActorId) (t : ActorTask μ), s.actors[i]? = some t → MailSound t)
    (hruns : ∀ j, D j → s.active (.actor j) = true ∧ s'.active (.actor j) = true ∧ e ≠ .recv j)
    (hspent : call i ∉ spent e) (hdrop : e ≠ .dropAsk (call i))
    (htimer : e ≠ .askTimesOut (call i)) :
    Relies D call s' i ∧ (Held s' (call i) → Held s (call i)) := by
  obtain ⟨q, hq, hcaller, htarget, hpend, hempty, hin⟩ := h.asks
  have hin' := hin.stays hs hq rfl hspent
  refine ⟨⟨(hruns i hi).2.1, ?_⟩, hin.unheld hs hq hspent (hruns _ htarget).2.2⟩
  by_cases hsends : e = .askSends (call i)
  · subst hsends
    have hq' := askSends_waits hs hq fun t ht => open_of_active hsound (hruns _ htarget).1 ht
    exact ⟨_, hq', hcaller, htarget, rfl, hempty, hin'⟩
  · have hsame := h.untouched hs hi hspent (fun j hj => (hruns j hj).2.1) hsends hdrop htimer
    exact ⟨q, hsame.trans hq, hcaller, htarget, hpend, hempty, hin'⟩

/-- **One step.** The circle stands, unless one of its timers fires, or somebody lets go of the
sender of one of its calls. -/
theorem relies_step (hs : step s e = some s')
    (hsound : ∀ (i : ActorId) (t : ActorTask μ), s.actors[i]? = some t → MailSound t)
    (hall : ∀ i, D i → Relies D call s i) (hstay : StaysOn D call e)
    (hspent : call i ∉ spent e) (htimer : ∀ i, D i → e ≠ .askTimesOut (call i)) (hi : D i) :
    Relies D call s' i ∧ (Held s' (call i) → Held s (call i)) :=
  (hall i hi).step hs hi hsound
    (fun j hj => ⟨(hall j hj).running, (hall j hj).runs_on hs hj hstay⟩)
    hspent (hstay i hi).2.2 (htimer i hi)

/-- And what nobody has in hand nobody lets go of. -/
theorem waits_step (hs : step s e = some s')
    (hsound : ∀ (i : ActorId) (t : ActorTask μ), s.actors[i]? = some t → MailSound t)
    (hall : ∀ i, D i → Waits D call s i) (hstay : StaysOn D call e)
    (htimer : ∀ i, D i → e ≠ .askTimesOut (call i)) (hi : D i) : Waits D call s' i := by
  have hnot := (hall i hi).not_held
  obtain ⟨hrelies, hheld⟩ := relies_step hs hsound (fun j hj => (hall j hj).relies) hstay
    (fun hk => hnot (spent_held hs hk)) htimer hi
  exact hrelies.waits fun hk => hnot (hheld hk)

/-! ## How it closes -/

/-- Every sender is that of a call. -/
def Known (s : System μ ρ) : Prop := ∀ pl k, k ∈ repliesAt s pl → k < s.asks.length

theorem known_keeps (h : Known s) (hs : Actor.step s e = some s') : Known s' := by
  obtain ⟨src, dst, ks, _, hands⟩ := step_handover hs
  have hle := (calls_length hs).1
  intro pl k hk
  rcases hands.comes pl k hk with hk | ⟨_, hk⟩
  · exact Nat.lt_of_lt_of_le (h pl k hk) hle
  · rcases hands.owned k hk with hk | ⟨_, hlt⟩
    · exact Nat.lt_of_lt_of_le (h src k hk) hle
    · exact hlt

theorem known_init : Known (System.init : System μ ρ) := by
  intro pl k hk
  cases pl <;> exact absurd hk (by simp [repliesAt, System.init, Holding.empty])

theorem known_run {tr : List (System μ ρ × Event μ ρ)} (h : Run Actor.step System.init tr s) :
    Known s := h.invariant known_init fun _ _ _ hknown hs => known_keeps hknown hs

theorem ask_pends {p : Party} {b : ActorId} {m : Msg μ} {dur : Nat} {t : ActorTask μ}
    (hask : s.ask p b m dur = some s') (ht : s.actors[b]? = some t)
    (hopen : t.mailbox.closed ≠ true) :
    ∃ q, s'.asks[s.asks.length]? = some q ∧ q.caller = p ∧ q.target = b
      ∧ q.stage.pending = true ∧ q.oneshot = .empty := by
  have hlast : ∀ q : Ask μ ρ, (s.asks ++ [q])[s.asks.length]? = some q := fun q =>
    List.getElem?_concat_length
  unfold System.ask at hask
  rw [ht, Option.map_some] at hask
  dsimp only at hask
  cases hsend : t.mailbox.startSend s.asks.length (m.withReply s.asks.length) with
  | sent c =>
      rw [hsend] at hask
      rw [← Option.some.inj hask]
      exact ⟨_, hlast _, rfl, rfl, rfl, rfl⟩
  | pending c =>
      rw [hsend] at hask
      rw [← Option.some.inj hask]
      exact ⟨_, hlast _, rfl, rfl, rfl, rfl⟩
  | closed =>
      unfold Chan.startSend at hsend
      rw [dif_pos (Bool.eq_false_iff.mpr hopen)] at hsend
      split at hsend <;> exact absurd hsend (by simp)

/-- The sender of a new call is in its message, or already in the mailbox. -/
theorem ask_unheld {p : Party} {b : ActorId} {m : Msg μ} {dur : Nat}
    (hs : Actor.step s (.ask p b m dur) = some s') (hknown : Known s) :
    Unheld s' s.asks.length b := by
  intro pl hk
  obtain ⟨src, dst, ks, hroute, hands⟩ := step_handover hs
  rcases hands.comes pl _ hk with hk | ⟨rfl, _⟩
  · exact absurd (hknown pl _ hk) (Nat.lt_irrefl _)
  · cases hroute with
    | still _ hask => exact absurd rfl (hask p b m dur)
    | ask p b m dur => exact Or.inr rfl
    | askWaits p b m dur => exact Or.inl rfl

/-- An actor of the circle that asks one of the circle waits for it. -/
theorem ask_waits {a b : ActorId} {m : Msg μ} {dur : Nat}
    (hs : Actor.step s (.ask (.actor a) b m dur) = some s') (hknown : Known s)
    (hsound : ∀ (i : ActorId) (t : ActorTask μ), s.actors[i]? = some t → MailSound t)
    (hb : D b) (hact : s.active (.actor b) = true) :
    Waits D (Function.update call a s.asks.length) s' a := by
  obtain ⟨hab, _⟩ := call_made hs
  refine ⟨(runs_on hs (active_of_addr hab) (by simp) (by simp) (by simp)).1, ?_⟩
  rw [Function.update_self]
  have hun := ask_unheld hs hknown
  cases step_takes hs with
  | ask _ _ _ _ _ _ hask =>
      obtain ⟨t, ht, _⟩ := active_iff.mp hact
      obtain ⟨t₁, ht₁, hsame, _⟩ := (quiet_updateHand s (.actor a)
        fun h => h.without m.carries.replies).2 b t ht
      have hopen : t₁.mailbox.closed ≠ true := by
        rw [hsame.like.2]
        exact open_of_active hsound hact ht
      obtain ⟨q, hq, hcaller, rfl, hpend, hempty⟩ := ask_pends hask ht₁ hopen
      rw [calling_asks] at hq
      exact ⟨q, hq, hcaller, hb, hpend, hempty, hun⟩

/-- **The last call of the circle.** -/
theorem circle_closes {a b : ActorId} {m : Msg μ} {dur : Nat}
    (hs : Actor.step s (.ask (.actor a) b m dur) = some s') (hknown : Known s)
    (hsound : ∀ (i : ActorId) (t : ActorTask μ), s.actors[i]? = some t → MailSound t)
    (hb : D b) (hothers : ∀ i, D i → i ≠ a → Relies D call s i)
    (hkeep : ∀ i, D i → i ≠ a → call i ∉ m.carries.replies) (hi : D i) :
    Relies D (Function.update call a s.asks.length) s' i
      ∧ (Held s' (Function.update call a s.asks.length i) → i ≠ a ∧ Held s (call i)) := by
  obtain ⟨hab, _⟩ := call_made hs
  have hact : ∀ j, D j → s.active (.actor j) = true := by
    intro j hj
    by_cases hja : j = a
    · exact hja ▸ active_of_addr hab
    · exact (hothers j hj hja).running
  by_cases hia : i = a
  · subst hia
    have hwaits : Waits D (Function.update call i s.asks.length) s' i :=
      ask_waits hs hknown hsound hb (hact b hb)
    exact ⟨hwaits.relies, fun hk => absurd hk hwaits.not_held⟩
  · obtain ⟨hrelies, hheld⟩ := (hothers i hi hia).step hs hi hsound
      (fun j hj => ⟨hact j hj, runs_on hs (hact j hj) (by simp) (by simp) (by simp)⟩)
      (hkeep i hi hia) (by simp) (by simp)
    refine ⟨⟨hrelies.running, ?_⟩, ?_⟩
    · rw [Function.update_of_ne hia]
      exact hrelies.asks
    · rw [Function.update_of_ne hia]
      exact fun hk => ⟨hia, hheld hk⟩

end

/-! ## Every run -/

section
variable {tr tr' : List (System μ ρ × Event μ ρ)} {s s' : System μ ρ} {D : ActorId → Prop}
  {call : ActorId → AskId}

/-- A timer of the circle fires while everybody in it waits, no sooner than the `dur` of its call
after the call was made. -/
def TimerFires (D : ActorId → Prop) (call : ActorId → AskId)
    (tr : List (System μ ρ × Event μ ρ)) : Prop :=
  ∃ x i q, (x, .askTimesOut (call i)) ∈ tr ∧ D i ∧ (∀ j, D j → Relies D call x j)
    ∧ x.asks[call i]? = some q ∧ q.calledAt + q.dur ≤ x.clock

theorem relies_run (h : Run step System.init tr s) (hall : ∀ i, D i → Relies D call s i)
    (hrun : Run step s tr' s') (hstay : ∀ x ∈ tr', StaysOn D call x.2)
    (hkeep : ∀ i, D i → Held s (call i) → ∀ x ∈ tr', call i ∉ spent x.2) :
    (∀ i, D i → Relies D call s' i ∧ (Held s' (call i) → Held s (call i)))
      ∨ TimerFires D call tr' := by
  induction hrun with
  | nil => exact Or.inl fun i hi => ⟨hall i hi, id⟩
  | @snoc tr₁ x x' e hr hs ih =>
      have hold : ∀ y ∈ tr₁, StaysOn D call y.2 := fun y hy => hstay y (List.mem_append_left _ hy)
      have hkept : ∀ i, D i → Held s (call i) → ∀ y ∈ tr₁, call i ∉ spent y.2 :=
        fun i hi hk y hy => hkeep i hi hk y (List.mem_append_left _ hy)
      have hlast := List.mem_append_right tr₁ (List.mem_singleton.mpr (rfl : (x, e) = (x, e)))
      have hreach := h.append hr
      rcases ih hold hkept with hwait | ⟨y, i, q, hy, hfires⟩
      · by_cases htimer : ∃ i, D i ∧ e = .askTimesOut (call i)
        · obtain ⟨i, hi, rfl⟩ := htimer
          obtain ⟨q, d, hq, hst, hd, _⟩ := askTimesOut_cases (k := call i) hs
          have hdated := (asks_dated hreach (call i) q hq).armed d hst
          exact Or.inr ⟨x, i, q, hlast, hi, fun j hj => (hwait j hj).1, hq,
            Nat.le_trans hdated.1 hd⟩
        · refine Or.inl fun i hi => ?_
          -- a sender that nobody held at the start is in nobody's hand yet
          have hspent : call i ∉ spent e := fun hk =>
            hkeep i hi ((hwait i hi).2 (spent_held hs hk)) _ hlast hk
          obtain ⟨hrelies, hheld⟩ := relies_step hs
            (fun i t ht => ((account_run hreach).tasks i t ht).1) (fun j hj => (hwait j hj).1)
            (hstay _ hlast) hspent (fun j hj he => htimer ⟨j, hj, he⟩) hi
          exact ⟨hrelies, fun hk => (hwait i hi).2 (hheld hk)⟩
      · exact Or.inr ⟨y, i, q, List.mem_append_left _ hy, hfires⟩

/--
**Only a timer ends a circle of calls.** An actor whose callback asks an actor that relies,
through however many others, on it — or asks itself — closes a circle, unless it sends the
reply sender of one of the circle's calls along. From then on nobody in the circle is
answered or gets `Closed`, whatever the code of these actors does besides and whatever
anybody else does: all of them wait until a timer of theirs fires, `dur` after its call at
the earliest. The exceptions are a callback that panics, is aborted or gives up its call; and
one that replies to a call of the circle, or drops its sender or gives it away, which it can
only if it had taken the message of that call before the circle closed.
-/
theorem circle_waits_for_timer (h : Run step System.init tr s) {a b : ActorId} {m : Msg μ}
    {dur : Nat} {s₁ : System μ ρ} (hask : step s (.ask (.actor a) b m dur) = some s₁)
    (hb : D b) (hothers : ∀ i, D i → i ≠ a → Relies D call s i)
    (hm : ∀ i, D i → i ≠ a → call i ∉ m.carries.replies) (hrun : Run step s₁ tr' s')
    (hstay : ∀ x ∈ tr', StaysOn D (Function.update call a s.asks.length) x.2)
    (hkeep : ∀ i, D i → i ≠ a → Held s (call i) → ∀ x ∈ tr', call i ∉ spent x.2) :
    (∀ i, D i → Relies D (Function.update call a s.asks.length) s' i
        ∧ (Held s' (Function.update call a s.asks.length i) → i ≠ a ∧ Held s (call i)))
      ∨ TimerFires D (Function.update call a s.asks.length) tr' := by
  have hclosed := fun i (hi : D i) => circle_closes hask (known_run h)
    (fun i t ht => ((account_run h).tasks i t ht).1) hb hothers hm hi
  refine (relies_run (Run.snoc h hask) (fun i hi => (hclosed i hi).1) hrun hstay ?_).imp_left ?_
  · intro i hi hk
    obtain ⟨hia, hheld⟩ := (hclosed i hi).2 hk
    rw [Function.update_of_ne hia]
    exact hkeep i hi hia hheld
  · exact fun hall i hi => ⟨(hall i hi).1, fun hk => (hclosed i hi).2 ((hall i hi).2 hk)⟩

/-- Two actors, each with an `Addr` of the other, the first in its handler. -/
def oneCalled : List (Event Nat Nat) :=
  [.spawn .outside 1, .spawn .outside 1, .pass .outside (.actor 0) ⟨[1], []⟩,
   .pass .outside (.actor 1) ⟨[0], []⟩, .returns 0, .returns 1,
   .tell .outside 0 ⟨1, .empty⟩, .recv 0]

/-- It asks the second, -/
def oneAsks : List (Event Nat Nat) := oneCalled ++ [.ask (.actor 0) 1 ⟨3, .empty⟩ 2]

/-- which takes the message, -/
def asksTaken : List (Event Nat Nat) := oneAsks ++ [.recv 1]

/-- and asks back before it answers. -/
def asksBack : List (Event Nat Nat) := asksTaken ++ [.ask (.actor 1) 0 ⟨4, .empty⟩ 3]

theorem circle_waits_for_timer_asksBack :
    (∀ i, i ≤ 1 → Relies (· ≤ 1) (Function.update (fun _ => 0) 1 1)
        (after step (after step .init asksBack) [.tell .outside 1 ⟨5, .empty⟩, .tick 2]) i
      ∧ (Held (after step (after step .init asksBack) [.tell .outside 1 ⟨5, .empty⟩, .tick 2])
          (Function.update (fun _ => 0) 1 1 i) → i ≠ 1 ∧ Held (after step .init asksTaken) 0))
      ∨ TimerFires (· ≤ 1) (Function.update (fun _ => 0) 1 1)
        (traceOf step (after step .init asksBack) [.tell .outside 1 ⟨5, .empty⟩, .tick 2]) := by
  have hcalled : Run step .init (traceOf step .init oneCalled) (after step .init oneCalled) :=
    Run.after (by decide +kernel)
  have hasks : step (after step .init oneCalled) (.ask (.actor 0) 1 ⟨3, .empty⟩ 2)
      = some (after step .init oneAsks) := rfl
  have htaken : step (after step .init oneAsks) (.recv 1) = some (after step .init asksTaken) := rfl
  have hback : step (after step .init asksTaken) (.ask (.actor 1) 0 ⟨4, .empty⟩ 3)
      = some (after step .init asksBack) := rfl
  -- the second actor has the sender of the first one's call in hand
  have hin : Within (after step .init asksTaken) 0 1 :=
    (unheld_iff.mp (ask_unheld hasks (known_run hcalled))).1.stays htaken rfl rfl
      List.not_mem_nil
  refine circle_waits_for_timer (D := (· ≤ 1)) (Run.snoc (Run.snoc hcalled hasks) htaken) hback
    (Nat.zero_le 1) (fun i hi hne => ?_) (fun _ _ _ => List.not_mem_nil)
    (Run.after (by decide +kernel)) (fun x hx => ?_) fun i _ _ _ x hx => ?_
  · obtain rfl : i = 0 := Nat.le_zero.mp (Nat.le_of_lt_succ (Nat.lt_of_le_of_ne hi hne))
    exact ⟨rfl, _, rfl, rfl, Nat.le_refl 1, rfl, rfl, hin⟩
  · rcases List.mem_pair.mp (mem_of_traceOf hx) with he | he <;> rw [he] <;>
      exact fun i _ => ⟨by simp, by simp, by simp⟩
  · rcases List.mem_pair.mp (mem_of_traceOf hx) with he | he <;> rw [he] <;>
      exact List.not_mem_nil

/-! ## Jammed -/

/-- The call is not even in the mailbox of its target; and the caller's own mailbox is full. -/
structure Jammed (D : ActorId → Prop) (call : ActorId → AskId) (s : System μ ρ) (i : ActorId) :
    Prop where
  waits : Waits D call s i
  sending : ∃ q m, s.asks[call i]? = some q ∧ q.stage = .sending m
  full : ∃ t, s.actors[i]? = some t ∧ t.mailbox.queue.length = t.mailbox.capacity

theorem Jammed.no_timer {i : ActorId} (h : Jammed D call s i) :
    step s (.askTimesOut (call i)) = none := by
  obtain ⟨q, m, hq, hst⟩ := h.sending
  simp [step, System.askTimesOut, hq, hst]

/-- A full mailbox whose actor does not receive stays full. -/
theorem full_step {e : Event μ ρ} {i : ActorId} (hs : step s e = some s')
    (hact : s.active (.actor i) = true) (hact' : s'.active (.actor i) = true)
    {t : ActorTask μ} (ht : s.actors[i]? = some t)
    (hfull : t.mailbox.queue.length = t.mailbox.capacity) :
    ∃ t', s'.actors[i]? = some t' ∧ t'.mailbox.queue.length = t'.mailbox.capacity := by
  have hmove : ∃ t' acc hd, s'.actors[i]? = some t' ∧ MailMove t t' acc hd := by
    by_cases hspawn : ∃ p mailboxBound, e = .spawn p mailboxBound
    · obtain ⟨p, mailboxBound, rfl⟩ := hspawn
      obtain ⟨_, hold, _⟩ := spawn_mails hs
      obtain ⟨t', ht', hmove⟩ := hold i t ht
      exact ⟨t', _, _, ht', hmove⟩
    · obtain ⟨_, hall⟩ := step_mails hs fun p mailboxBound he => hspawn ⟨p, mailboxBound, he⟩
      obtain ⟨t', ht', hmove⟩ := hall i t ht
      exact ⟨t', _, _, ht', hmove⟩
  obtain ⟨t', acc, hd, ht', hmove⟩ := hmove
  refine ⟨t', ht', ?_⟩
  obtain ⟨t₁, ht₁, hin⟩ := active_iff.mp hact
  obtain rfl := Option.some.inj (ht.symm.trans ht₁)
  cases hmove with
  | keeps same _ => rw [same.queue, same.like.1, hfull]
  | accepts m _ like hqueue _ _ _ =>
      -- there is no room
      have hfits := t'.mailbox.fits
      rw [hqueue, like.1, List.length_append, List.length_singleton, hfull] at hfits
      omega
  | receives m idle _ _ _ _ _ =>
      rw [idle] at hin
      exact Bool.noConfusion hin
  | ends how _ _ _ _ _ hph =>
      obtain ⟨t₁, ht₁, hin'⟩ := active_iff.mp hact'
      obtain rfl := Option.some.inj (ht'.symm.trans ht₁)
      rw [hph] at hin'
      exact Bool.noConfusion hin'

theorem jammed_step {e : Event μ ρ} (hs : step s e = some s')
    (hsound : ∀ (i : ActorId) (t : ActorTask μ), s.actors[i]? = some t → MailSound t)
    (hall : ∀ i, D i → Jammed D call s i) (hstay : StaysOn D call e) {i : ActorId} (hi : D i) :
    Jammed D call s' i := by
  have htimer : ∀ j, D j → e ≠ .askTimesOut (call j) := by
    rintro j hj rfl
    rw [(hall j hj).no_timer] at hs
    exact absurd hs (by simp)
  have hruns : ∀ j, D j → s'.active (.actor j) = true := fun j hj =>
    ((hall j hj).waits.relies.runs_on hs hj hstay).1
  obtain ⟨q, m, hq, hst⟩ := (hall i hi).sending
  obtain ⟨q₁, hq₁, _, htarget, _⟩ := (hall i hi).waits.asks
  obtain rfl := Option.some.inj (hq.symm.trans hq₁)
  obtain ⟨t, ht, hfull⟩ := (hall i hi).full
  refine ⟨waits_step hs hsound (fun j hj => (hall j hj).waits) hstay htimer hi, ⟨q, m, ?_, hst⟩,
    full_step hs (hall i hi).waits.running (hruns i hi) ht hfull⟩
  have hspent : call i ∉ spent e := fun hk => (hall i hi).waits.not_held (spent_held hs hk)
  refine ((hall i hi).waits.relies.untouched hs hi hspent hruns ?_ (hstay i hi).2.2
    (htimer i hi)).trans hq
  -- every slot of the target's mailbox holds a message, and nobody has been granted one
  rintro rfl
  obtain ⟨b, hb, hbfull⟩ := (hall _ htarget).full
  have hgranted : b.mailbox.granted = [] := by
    have hfits := b.mailbox.fits
    exact List.eq_nil_of_length_eq_zero (by omega)
  have hopen := open_of_active hsound (hall _ htarget).waits.running hb
  have hnone : step s (.askSends (call i)) = none := by
    simp [step, System.askSends, hq, hst, hb, Chan.resumeSend, hopen, hgranted]
  rw [hnone] at hs
  exact absurd hs (by simp)

/--
**A jam lasts for ever.** Actors whose callbacks ask one another while all their mailboxes
are full wait for slots that only they could free. Their timers are not armed, so however
much time passes and whatever anybody does, they stay as they are, unless one of them
panics, is aborted or gives up its call.
-/
theorem jam_lasts (h : Run step System.init tr s) (hall : ∀ i, D i → Jammed D call s i)
    (hrun : Run step s tr' s') (hstay : ∀ x ∈ tr', StaysOn D call x.2) :
    ∀ i, D i → Jammed D call s' i ∧ step s' (.askTimesOut (call i)) = none := by
  have hjam : ∀ i, D i → Jammed D call s' i := by
    induction hrun with
    | nil => exact hall
    | @snoc tr₁ x x' e hr hs ih =>
        have hold : ∀ y ∈ tr₁, StaysOn D call y.2 := fun y hy => hstay y (List.mem_append_left _ hy)
        have hlast := List.mem_append_right tr₁ (List.mem_singleton.mpr (rfl : (x, e) = (x, e)))
        exact fun i hi => jammed_step hs
          (fun i t ht => ((account_run (h.append hr)).tasks i t ht).1) (ih hold) (hstay _ hlast) hi
  exact fun i hi => ⟨hjam i hi, (hjam i hi).no_timer⟩

/-- Two actors in their handlers, each with an `Addr` of the other. -/
def facing : List (Event Nat Nat) :=
  [.spawn .outside 1, .spawn .outside 1, .pass .outside (.actor 0) ⟨[1], []⟩,
   .pass .outside (.actor 1) ⟨[0], []⟩, .returns 0, .returns 1,
   .tell .outside 0 ⟨1, .empty⟩, .tell .outside 1 ⟨2, .empty⟩, .recv 0, .recv 1]

/-- The same with their mailboxes full. -/
def fullOnes : List (Event Nat Nat) :=
  facing ++ [.tell .outside 0 ⟨1, .empty⟩, .tell .outside 1 ⟨2, .empty⟩]

def jam : List (Event Nat Nat) :=
  fullOnes ++ [.ask (.actor 0) 1 ⟨3, .empty⟩ 2, .ask (.actor 1) 0 ⟨4, .empty⟩ 3]

theorem jam_jammed : ∀ i, i ≤ 1 → Jammed (· ≤ 1) (Function.update (fun _ => 0) 1 1)
    (after step .init jam) i := by
  have hrun : Run step .init (traceOf step .init fullOnes) (after step .init fullOnes) :=
    Run.after (by decide +kernel)
  have hfirst : step (after step .init fullOnes) (.ask (.actor 0) 1 ⟨3, .empty⟩ 2)
      = some (after step .init (fullOnes ++ [.ask (.actor 0) 1 ⟨3, .empty⟩ 2])) := rfl
  have hsecond : step (after step .init (fullOnes ++ [.ask (.actor 0) 1 ⟨3, .empty⟩ 2]))
      (.ask (.actor 1) 0 ⟨4, .empty⟩ 3) = some (after step .init jam) := rfl
  have hwaits : Waits (· ≤ 1) (Function.update (fun _ => 0) 0 0)
      (after step .init (fullOnes ++ [.ask (.actor 0) 1 ⟨3, .empty⟩ 2])) 0 :=
    ask_waits hfirst (known_run hrun) (fun i t ht => ((account_run hrun).tasks i t ht).1)
      (Nat.le_refl 1) rfl
  rw [Function.update_eq_self 0 (fun _ => 0 : ActorId → AskId)] at hwaits
  have hrun' := Run.snoc hrun hfirst
  have hall : ∀ i, i ≤ 1 → Waits (· ≤ 1) (Function.update (fun _ => 0) 1 1)
      (after step .init jam) i := by
    intro i hi
    have hothers : ∀ j, j ≤ 1 → j ≠ 1 → Relies (· ≤ 1) (fun _ => 0)
        (after step .init (fullOnes ++ [.ask (.actor 0) 1 ⟨3, .empty⟩ 2])) j := by
      intro j hj hne
      obtain rfl : j = 0 := Nat.le_zero.mp (Nat.le_of_lt_succ (Nat.lt_of_le_of_ne hj hne))
      exact hwaits.relies
    obtain ⟨hrelies, hheld⟩ := circle_closes hsecond (known_run hrun')
      (fun i t ht => ((account_run hrun').tasks i t ht).1) (Nat.zero_le 1) hothers
      (fun _ _ _ => List.not_mem_nil) hi
    exact hrelies.waits fun hk => hwaits.not_held (hheld hk).2
  intro i hi
  rcases Nat.le_one_iff_eq_zero_or_eq_one.mp hi with rfl | rfl
  · exact ⟨hall 0 hi, ⟨_, _, rfl, rfl⟩, _, rfl, rfl⟩
  · exact ⟨hall 1 hi, ⟨_, _, rfl, rfl⟩, _, rfl, rfl⟩

theorem jam_lasts_jam :
    Jammed (· ≤ 1) (Function.update (fun _ => 0) 1 1)
        (after step (after step .init jam) [.tick 1000]) 0
      ∧ Jammed (· ≤ 1) (Function.update (fun _ => 0) 1 1)
        (after step (after step .init jam) [.tick 1000]) 1 := by
  have hrun : Run step .init (traceOf step .init jam) (after step .init jam) :=
    Run.after (by decide +kernel)
  have hmore : Run step (after step .init jam) (traceOf step (after step .init jam) [.tick 1000])
      (after step (after step .init jam) [.tick 1000]) := Run.after (by decide +kernel)
  have hlast := jam_lasts hrun jam_jammed hmore fun x hx => by
    rw [List.mem_singleton.mp (mem_of_traceOf hx)]
    exact fun i _ => ⟨by simp, by simp, by simp⟩
  exact ⟨(hlast 0 (by decide)).1, (hlast 1 (by decide)).1⟩

end

end ErlangActors.Proof
