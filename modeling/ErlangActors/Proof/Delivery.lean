import ErlangActors.Proof.Evolution

/-!
# What a mailbox accepts is handled in order, or not at all

The messages of an actor are told apart by the step that put them into its mailbox, so
`acceptedBy` and `handledBy` are read off the trace: the one from what `tell` answers and
where the send of an `ask` gets to, the other from `rx.recv()`. A step does one of four
things to a mailbox (`MailMove`), and none of them lets a message in elsewhere than at the
end or out elsewhere than at the front. A mailbox is closed exactly when its task has
ended, and takes nothing any more.
-/

namespace ErlangActors.Proof

open Actor Channel Transition

variable {μ ρ : Type}

/-! ## What the trace says -/

/-- What `tell` answers. -/
def answer (s : System μ ρ) (p : Party) (a : ActorId) (m : Msg μ) :
    Option (Except MailboxFull Unit) := ((calling s p m).tell a m).map Prod.snd

/-- What the mailbox takes on a `tell` answered so, -/
def told (res : Option (Except MailboxFull Unit)) (m : Msg μ) : List (Msg μ) :=
  match res with
  | some (.ok _) => [m]
  | _ => []

/-- when the send of an ask is polled for the first time, -/
def asked (s : System μ ρ) (a : ActorId) (m : Msg μ) : List (Msg μ) :=
  (s.actors[a]?).elim [] fun t =>
    match t.mailbox.startSend s.asks.length (m.withReply s.asks.length) with
    | .sent _ => [m.withReply s.asks.length]
    | _ => []

/-- and when it is polled again. -/
def resent (s : System μ ρ) (k : AskId) (q : Ask μ ρ) : List (Msg μ) :=
  match q.stage with
  | .sending msg =>
      (s.actors[q.target]?).elim [] fun t =>
        match t.mailbox.resumeSend k msg with
        | .sent _ => [msg]
        | _ => []
  | _ => []

/-- What the mailbox of actor `i` takes in a step. -/
def accepts (i : ActorId) (s : System μ ρ) : Event μ ρ → List (Msg μ)
  | .tell p a m => if a = i then told (answer s p a m) m else []
  | .ask p a m _ => if a = i then asked (calling s p m) a m else []
  | .askSends k => (s.asks[k]?).elim [] fun q => if q.target = i then resent s k q else []
  | _ => []

/-- The message `handle` of actor `i` is called with in a step. -/
def handles (i : ActorId) (s : System μ ρ) : Event μ ρ → List (Msg μ)
  | .recv j =>
      if j = i then (s.actors[j]?).elim [] fun t => (t.mailbox.pop).elim [] fun x => [x.1] else []
  | _ => []

/-- The messages the mailbox of actor `i` accepted in a run. -/
def acceptedBy (tr : List (System μ ρ × Event μ ρ)) (i : ActorId) : List (Msg μ) :=
  tr.flatMap fun x => accepts i x.1 x.2

/-- The messages its `handle` was called with. -/
def handledBy (tr : List (System μ ρ × Event μ ρ)) (i : ActorId) : List (Msg μ) :=
  tr.flatMap fun x => handles i x.1 x.2

def spawnBound : Event μ ρ → Option Nat
  | .spawn _ mailboxBound => some mailboxBound
  | _ => none

/-- The `mailbox_bound`s of the actors spawned in a run. -/
def bounds (tr : List (System μ ρ × Event μ ρ)) : List Nat := tr.filterMap fun x => spawnBound x.2

/-- The message being handled. -/
def inHandler (t : ActorTask μ) : List (Msg μ) :=
  match t.phase with
  | .handling m => [m]
  | _ => []

/-! ## What a step can do to a mailbox -/

/-- Nothing came into the mailbox or went out of it. -/
structure SameMail (t t' : ActorTask μ) : Prop where
  like : t'.mailbox.Like t.mailbox
  queue : t'.mailbox.queue = t.mailbox.queue
  accepted : t'.accepted = t.accepted
  handled : t'.handled = t.handled

theorem SameMail.refl (t : ActorTask μ) : SameMail t t := ⟨Chan.Like.refl _, rfl, rfl, rfl⟩

theorem SameMail.trans {t t' t'' : ActorTask μ} (h : SameMail t t') (h' : SameMail t' t'') :
    SameMail t t'' where
  like := ⟨h'.like.1.trans h.like.1, h'.like.2.trans h.like.2⟩
  queue := h'.queue.trans h.queue
  accepted := h'.accepted.trans h.accepted
  handled := h'.handled.trans h.handled

/-- What a step does to a mailbox that takes the first list and hands out the second. -/
inductive MailMove (t t' : ActorTask μ) : List (Msg μ) → List (Msg μ) → Prop where
  | keeps (same : SameMail t t') (phase : t'.phase = t.phase
      ∨ t.phase.live = true ∧ (t'.phase = .receiving ∨ t'.phase = .stopping)) :
      MailMove t t' [] []
  | accepts (m : Msg μ) (isOpen : t.mailbox.closed = false) (like : t'.mailbox.Like t.mailbox)
      (queue : t'.mailbox.queue = t.mailbox.queue ++ [m])
      (accepted : t'.accepted = t.accepted ++ [m]) (handled : t'.handled = t.handled)
      (phase : t'.phase = t.phase) : MailMove t t' [m] []
  | receives (m : Msg μ) (idle : t.phase = .receiving) (like : t'.mailbox.Like t.mailbox)
      (queue : t.mailbox.queue = m :: t'.mailbox.queue) (accepted : t'.accepted = t.accepted)
      (handled : t'.handled = t.handled ++ [m]) (phase : t'.phase = .handling m) :
      MailMove t t' [] [m]
  | ends (how : Exit) (live : t.phase.live = true) (closed : t'.mailbox.closed = true)
      (capacity : t'.mailbox.capacity = t.mailbox.capacity) (accepted : t'.accepted = t.accepted)
      (handled : t'.handled = t.handled) (phase : t'.phase = .ended how) : MailMove t t' [] []

/-- What holds of an actor's mailbox in every run. -/
structure MailSound (t : ActorTask μ) : Prop where
  closed : t.mailbox.closed = !t.phase.live
  live : t.phase.live = true → t.accepted = t.handled ++ t.mailbox.queue
  order : t.handled <+: t.accepted
  last : ∃ before, t.handled = before ++ inHandler t

theorem inHandler_quiet {t : ActorTask μ} (h : ∀ m, t.phase ≠ .handling m) : inHandler t = [] := by
  unfold inHandler
  split
  · rename_i m hph
    exact absurd hph (h m)
  · rfl

theorem mailSound_new (i : ActorId) (mailboxBound : Nat) :
    MailSound (ActorTask.new i mailboxBound : ActorTask μ) where
  closed := rfl
  live := fun _ => rfl
  order := List.prefix_rfl
  last := ⟨[], rfl⟩

variable {t t' : ActorTask μ} {acc hd : List (Msg μ)}

theorem MailSound.live_of_open (h : MailSound t) (hopen : t.mailbox.closed = false) :
    t.phase.live = true := by
  rw [h.closed] at hopen
  simpa using hopen

/-- The ghosts keep the account. -/
theorem MailMove.account (h : MailMove t t' acc hd) :
    t'.accepted = t.accepted ++ acc ∧ t'.handled = t.handled ++ hd
      ∧ t'.mailbox.capacity = t.mailbox.capacity := by
  cases h with
  | keeps same => exact ⟨by simp [same.accepted], by simp [same.handled], same.like.1⟩
  | accepts m _ like _ hacc hhand => exact ⟨hacc, by simp [hhand], like.1⟩
  | receives m _ like _ hacc hhand => exact ⟨by simp [hacc], hhand, like.1⟩
  | ends how _ _ hcap hacc hhand => exact ⟨by simp [hacc], by simp [hhand], hcap⟩

/-- Every move keeps the invariant. -/
theorem MailMove.sound (h : MailMove t t' acc hd) (hs : MailSound t) : MailSound t' := by
  cases h with
  | keeps same hphase =>
      -- a move that leaves the mailbox alone may start the loop or leave it
      have hlive : t'.phase.live = t.phase.live := by
        rcases hphase with hp | ⟨hl, hp | hp⟩
        · rw [hp]
        · rw [hp, hl]; rfl
        · rw [hp, hl]; rfl
      refine ⟨?_, ?_, ?_, ?_⟩
      · rw [hlive, same.like.2, hs.closed]
      · rw [hlive, same.accepted, same.handled, same.queue]
        exact hs.live
      · rw [same.accepted, same.handled]
        exact hs.order
      · rw [same.handled]
        rcases hphase with hp | ⟨_, hp⟩
        · unfold inHandler
          rw [hp]
          exact hs.last
        · refine ⟨t.handled, ?_⟩
          rw [inHandler_quiet (by rcases hp with hp | hp <;> rw [hp] <;> simp), List.append_nil]
  | accepts m hopen like hqueue hacc hhand hphase =>
      have hlive := hs.live_of_open hopen
      refine ⟨?_, fun _ => ?_, ?_, ?_⟩
      · rw [like.2, hphase, hs.closed]
      · rw [hacc, hhand, hqueue, hs.live hlive, List.append_assoc]
      · rw [hacc, hhand]
        exact hs.order.trans (List.prefix_append _ _)
      · unfold inHandler
        rw [hhand, hphase]
        exact hs.last
  | receives m hidle like hqueue hacc hhand hphase =>
      -- what is taken from the queue is the next in the order of acceptance
      have hall : t'.accepted = t'.handled ++ t'.mailbox.queue := by
        rw [hacc, hhand, hs.live (by rw [hidle]; rfl), hqueue, List.append_assoc]
        rfl
      refine ⟨?_, fun _ => hall, ?_, ?_⟩
      · rw [like.2, hs.closed, hidle, hphase]
        rfl
      · rw [hall]
        exact List.prefix_append _ _
      · unfold inHandler
        rw [hphase]
        exact ⟨t.handled, hhand⟩
  | ends how _ hclosed _ hacc hhand hphase =>
      refine ⟨?_, ?_, ?_, ?_⟩
      · rw [hclosed, hphase]
        rfl
      · intro hl
        rw [hphase] at hl
        exact Bool.noConfusion hl
      · rw [hacc, hhand]
        exact hs.order
      · refine ⟨t'.handled, ?_⟩
        rw [inHandler_quiet (by rw [hphase]; simp), List.append_nil]

/-- A task that has ended takes nothing and handles nothing. -/
theorem MailMove.over (h : MailMove t t' acc hd) (hs : MailSound t) (hover : t.phase.live = false) :
    acc = [] ∧ hd = [] ∧ t'.phase.live = false := by
  cases h with
  | keeps same hphase =>
      refine ⟨rfl, rfl, ?_⟩
      rcases hphase with hp | ⟨hl, _⟩
      · rw [hp, hover]
      · exact Bool.noConfusion (hover.symm.trans hl)
  | accepts m hopen =>
      have := hs.closed
      rw [hopen, hover] at this
      exact Bool.noConfusion this
  | receives m hidle =>
      rw [hidle] at hover
      exact Bool.noConfusion hover
  | ends how hl => exact Bool.noConfusion (hover.symm.trans hl)

theorem MailMove.after {t₀ : ActorTask μ} (hsame : SameMail t₀ t) (hphase : t.phase = t₀.phase)
    (h : MailMove t t' acc hd) : MailMove t₀ t' acc hd := by
  cases h with
  | keeps same hp => exact .keeps (hsame.trans same) (hphase ▸ hp)
  | accepts m hopen like hqueue hacc hhand hp =>
      exact .accepts m (hsame.like.2 ▸ hopen)
        ⟨like.1.trans hsame.like.1, like.2.trans hsame.like.2⟩ (hsame.queue ▸ hqueue)
        (hsame.accepted ▸ hacc) (hsame.handled ▸ hhand) (hp.trans hphase)
  | receives m hidle like hqueue hacc hhand hp =>
      exact .receives m (hphase ▸ hidle)
        ⟨like.1.trans hsame.like.1, like.2.trans hsame.like.2⟩ (hsame.queue ▸ hqueue)
        (hsame.accepted ▸ hacc) (hsame.handled ▸ hhand) hp
  | ends how hl hclosed hcap hacc hhand hp =>
      exact .ends how (hphase ▸ hl) hclosed (hcap.trans hsame.like.1) (hsame.accepted ▸ hacc)
        (hsame.handled ▸ hhand) hp

/-! ## What a step does to all mailboxes -/

/-- Nothing happened to any mailbox, and no task went on. -/
def Quiet (s s' : System μ ρ) : Prop :=
  s'.actors.length = s.actors.length ∧ ∀ (i : ActorId) (t : ActorTask μ), s.actors[i]? = some t →
    ∃ t', s'.actors[i]? = some t' ∧ SameMail t t' ∧ t'.phase = t.phase

/-- Every mailbox took the messages `acc` says, and handed out those `hd` says. -/
def Mails (s s' : System μ ρ) (acc hd : ActorId → List (Msg μ)) : Prop :=
  s'.actors.length = s.actors.length ∧ ∀ (i : ActorId) (t : ActorTask μ), s.actors[i]? = some t →
    ∃ t', s'.actors[i]? = some t' ∧ MailMove t t' (acc i) (hd i)

section
variable {s s' s'' : System μ ρ} {acc hd : ActorId → List (Msg μ)}

theorem quiet_refl (s : System μ ρ) : Quiet s s :=
  ⟨rfl, fun _ t ht => ⟨t, ht, SameMail.refl t, rfl⟩⟩

theorem Quiet.trans (h : Quiet s s') (h' : Quiet s' s'') : Quiet s s'' := by
  refine ⟨h'.1.trans h.1, fun i t ht => ?_⟩
  obtain ⟨t', ht', hsame, hph⟩ := h.2 i t ht
  obtain ⟨t'', ht'', hsame', hph'⟩ := h'.2 i t' ht'
  exact ⟨t'', ht'', hsame.trans hsame', hph'.trans hph⟩

theorem Quiet.mails (h : Quiet s s') : Mails s s' (fun _ => []) fun _ => [] := by
  refine ⟨h.1, fun i t ht => ?_⟩
  obtain ⟨t', ht', hsame, hph⟩ := h.2 i t ht
  exact ⟨t', ht', .keeps hsame (Or.inl hph)⟩

theorem Quiet.then (h : Quiet s s') (h' : Mails s' s'' acc hd) : Mails s s'' acc hd := by
  refine ⟨h'.1.trans h.1, fun i t ht => ?_⟩
  obtain ⟨t', ht', hsame, hph⟩ := h.2 i t ht
  obtain ⟨t'', ht'', hmove⟩ := h'.2 i t' ht'
  exact ⟨t'', ht'', hmove.after hsame hph⟩

theorem updateActor_length (s : System μ ρ) (i : ActorId) (f : ActorTask μ → ActorTask μ) :
    (s.updateActor i f).actors.length = s.actors.length := List.length_modify ..

theorem quiet_updateActor {i : ActorId} {f : ActorTask μ → ActorTask μ}
    (hf : ∀ t, SameMail t (f t) ∧ (f t).phase = t.phase) : Quiet s (s.updateActor i f) := by
  refine ⟨updateActor_length s i f, fun j t ht => ⟨if i = j then f t else t, ?_, ?_⟩⟩
  · rw [updateActor_getElem?, ht]
    rfl
  · split
    · exact hf t
    · exact ⟨SameMail.refl t, rfl⟩

theorem quiet_updateHand (s : System μ ρ) (p : Party) (f : Holding → Holding) :
    Quiet s (s.updateHand p f) := by
  cases p with
  | outside => exact quiet_refl s
  | actor i => exact quiet_updateActor fun t => ⟨⟨Chan.Like.refl _, rfl, rfl, rfl⟩, rfl⟩

theorem mails_updateActor {i : ActorId} {t : ActorTask μ} {f : ActorTask μ → ActorTask μ}
    (ht : s.actors[i]? = some t) (hmove : MailMove t (f t) (acc i) (hd i))
    (hothers : ∀ j, i ≠ j → acc j = [] ∧ hd j = []) : Mails s (s.updateActor i f) acc hd := by
  refine ⟨updateActor_length s i f, fun j t' ht' => ⟨if i = j then f t' else t', ?_, ?_⟩⟩
  · rw [updateActor_getElem?, ht']
    rfl
  · by_cases hij : i = j
    · subst hij
      obtain rfl := Option.some.inj (ht.symm.trans ht')
      rw [if_pos rfl]
      exact hmove
    · rw [if_neg hij, (hothers j hij).1, (hothers j hij).2]
      exact .keeps (SameMail.refl t') (Or.inl rfl)

/-- One mailbox takes `m`. -/
theorem mails_accept {a : ActorId} {t : ActorTask μ} {m : Msg μ} {c : Chan (Msg μ) AskId}
    (ht : s.actors[a]? = some t) (hopen : t.mailbox.closed = false) (hlike : c.Like t.mailbox)
    (hqueue : c.queue = t.mailbox.queue ++ [m]) :
    Mails s (s.updateActor a (.accept m c)) (fun i => if a = i then [m] else []) fun _ => [] := by
  refine mails_updateActor ht ?_ fun j hj => ⟨if_neg hj, rfl⟩
  rw [if_pos rfl]
  exact .accepts m hopen hlike hqueue rfl rfl rfl

theorem nothing_told (a : ActorId) : (fun i => if a = i then ([] : List (Msg μ)) else [])
    = fun _ => [] := funext fun _ => ite_self []

theorem tell_mails {a : ActorId} {m : Msg μ} (h : s.tellOrDrop a m = some s') :
    Mails s s' (fun i => if a = i then told ((s.tell a m).map Prod.snd) m else []) fun _ => [] := by
  unfold System.tellOrDrop at h
  obtain ⟨⟨s₁, res⟩, htell, rfl⟩ := Option.map_eq_some_iff.mp h
  rw [htell]
  unfold System.tell at htell
  obtain ⟨t, ht, htell⟩ := Option.map_eq_some_iff.mp htell
  cases hsend : t.mailbox.trySend m with
  | ok c =>
      rw [hsend] at htell
      obtain ⟨rfl, rfl⟩ := Prod.mk.inj htell
      exact mails_accept ht (Chan.trySend_open hsend) (Chan.trySend_like hsend)
        (Chan.trySend_queue hsend)
  | error err =>
      rw [hsend] at htell
      cases err with
      | full =>
          obtain ⟨rfl, rfl⟩ := Prod.mk.inj htell
          exact (nothing_told a).symm ▸ (quiet_refl s).mails
      | closed =>
          obtain ⟨rfl, rfl⟩ := Prod.mk.inj htell
          exact (nothing_told a).symm ▸ (quiet_refl s).mails

theorem ask_mails {p : Party} {a : ActorId} {m : Msg μ} {dur : Nat}
    (h : s.ask p a m dur = some s') :
    Mails s s' (fun i => if a = i then asked s a m else []) fun _ => [] := by
  unfold System.ask at h
  obtain ⟨t, ht, rfl⟩ := Option.map_eq_some_iff.mp h
  unfold asked
  rw [ht]
  have hqueue := Chan.startSend_queue t.mailbox s.asks.length (m.withReply s.asks.length)
  have hlike := Chan.startSend_like t.mailbox s.asks.length (m.withReply s.asks.length)
  dsimp only [Option.elim]
  cases hsend : t.mailbox.startSend s.asks.length (m.withReply s.asks.length) with
  | sent c =>
      exact @mails_accept μ ρ { s with asks := s.asks ++ [⟨p, a, dur, s.clock, _, .empty⟩] }
        a t _ c ht (Chan.startSend_open hsend) (hlike.1 c hsend) (hqueue.1 c hsend)
  | pending c =>
      rw [nothing_told]
      refine @mails_updateActor μ ρ { s with asks := s.asks ++ [⟨p, a, dur, s.clock, _, .empty⟩] }
        (fun _ => []) (fun _ => []) a t _ ht ?_ fun _ _ => ⟨rfl, rfl⟩
      exact .keeps ⟨hlike.2 c hsend, hqueue.2 c hsend, rfl, rfl⟩ (Or.inl rfl)
  | closed =>
      rw [nothing_told]
      exact (quiet_refl s).mails

theorem askSends_mails {k : AskId} (h : s.askSends k = some s') :
    Mails s s' (fun i => (s.asks[k]?).elim [] fun q => if q.target = i then resent s k q else [])
      fun _ => [] := by
  unfold System.askSends at h
  obtain ⟨q, hq, h⟩ := Option.bind_eq_some_iff.mp h
  rw [hq]
  dsimp only [Option.elim]
  unfold resent
  cases hst : q.stage with
  | sending msg =>
      rw [hst] at h
      obtain ⟨t, ht, h⟩ := Option.bind_eq_some_iff.mp h
      dsimp only
      rw [ht]
      dsimp only [Option.elim]
      cases hsend : t.mailbox.resumeSend k msg with
      | sent c =>
          rw [hsend] at h
          obtain rfl := Option.some.inj h
          exact @mails_accept μ ρ (s.updateAsk k _) q.target t msg c ht (Chan.resumeSend_open hsend)
            (Chan.resumeSend_like hsend) (Chan.resumeSend_queue hsend)
      | pending c => rw [hsend] at h; exact absurd h (by simp)
      | closed =>
          rw [hsend] at h
          obtain rfl := Option.some.inj h
          exact (nothing_told q.target).symm ▸ (quiet_refl s).mails
  | awaiting d => rw [hst] at h; exact absurd h (by simp)
  | done res => rw [hst] at h; exact absurd h (by simp)
  | dropped => rw [hst] at h; exact absurd h (by simp)

theorem quiet_dropAsk (s : System μ ρ) (k : AskId) : Quiet s (s.dropAsk k) := by
  unfold System.dropAsk
  cases hq : s.asks[k]? with
  | none => exact quiet_refl s
  | some q =>
      dsimp only
      cases hst : q.stage with
      | sending msg =>
          exact @quiet_updateActor μ ρ (s.updateAsk k _) q.target _ fun t =>
            ⟨⟨Chan.cancel_like _ _, Chan.cancel_queue _ _, rfl, rfl⟩, rfl⟩
      | awaiting d => exact quiet_refl s
      | done res => exact quiet_refl s
      | dropped => exact quiet_refl s

theorem quiet_dropAsks (ks : List AskId) (s : System μ ρ) :
    Quiet s (ks.foldl System.dropAsk s) := by
  induction ks generalizing s with
  | nil => exact quiet_refl s
  | cons k ks ih => exact (quiet_dropAsk s k).trans (ih _)

theorem endActor_mails {i : ActorId} {t : ActorTask μ} (how : Exit) (ht : s.actors[i]? = some t)
    (hlive : t.phase.live = true) :
    Mails s (s.endActor i how) (fun _ => []) fun _ => [] := by
  have hquiet := quiet_dropAsks (s.asksOf i) s
  obtain ⟨t', ht', _, hph⟩ := hquiet.2 i t ht
  refine hquiet.then ?_
  unfold System.endActor
  dsimp only
  rw [ht']
  refine mails_updateActor (s := (s.asksOf i).foldl System.dropAsk s) ht' ?_ fun _ _ => ⟨rfl, rfl⟩
  exact .ends how (hph ▸ hlive) rfl rfl rfl rfl rfl

/-- A task goes on to another await. -/
theorem phase_mails {i : ActorId} {t : ActorTask μ} {phase : Phase μ} (ht : s.actors[i]? = some t)
    (hlive : t.phase.live = true) (hphase : phase = .receiving ∨ phase = .stopping) :
    Mails s (s.updateActor i fun t => { t with phase := phase }) (fun _ => []) fun _ => [] :=
  mails_updateActor ht (.keeps ⟨Chan.Like.refl _, rfl, rfl, rfl⟩ (Or.inr ⟨hlive, hphase⟩))
    fun _ _ => ⟨rfl, rfl⟩

theorem recv_mails {i : ActorId} {t t' : ActorTask μ} (ht : s.actors[i]? = some t)
    (h : t.recv = some t') :
    Mails s (s.updateActor i fun _ => t') (fun _ => []) fun j =>
      if i = j then (s.actors[i]?).elim [] fun t => (t.mailbox.pop).elim [] fun x => [x.1] else [] := by
  obtain ⟨m, c, hph, hpop, rfl⟩ := recv_cases h
  refine mails_updateActor ht ?_ fun j hj => ⟨rfl, if_neg hj⟩
  rw [if_pos rfl, ht]
  dsimp only [Option.elim]
  rw [hpop]
  exact .receives m hph (Chan.pop_like hpop) (Chan.pop_queue hpop) rfl rfl rfl

/-- **What a step that spawns no actor does to the mailboxes.** -/
theorem step_mails {e : Event μ ρ} (h : step s e = some s')
    (hspawn : ∀ p mailboxBound, e ≠ .spawn p mailboxBound) :
    Mails s s' (fun i => accepts i s e) fun i => handles i s e := by
  cases step_takes h with
  | spawn p mailboxBound _ _ => exact absurd rfl (hspawn p mailboxBound)
  | cloneAddr p a _ => exact (quiet_updateHand s p _).mails
  | dropAddr p a _ => exact (quiet_updateHand s p _).mails
  | replaceSelf i a t _ _ _ =>
      exact Quiet.mails
        (quiet_updateActor fun t => ⟨⟨Chan.Like.refl t.mailbox, rfl, rfl, rfl⟩, rfl⟩)
  | pass p q c _ _ _ => exact ((quiet_updateHand s p _).trans (quiet_updateHand _ q _)).mails
  | tell p a m _ _ h => exact (quiet_updateHand s p _).then (tell_mails h)
  | ask p a m dur _ _ h => exact (quiet_updateHand s p _).then (ask_mails h)
  | askSends k h => exact askSends_mails h
  | askResolves k h =>
      obtain ⟨q, res, _, _, rfl⟩ := askResolves_cases h
      exact (quiet_refl s).mails
  | askTimesOut k h =>
      obtain ⟨q, d, _, _, _, rfl⟩ := askTimesOut_cases h
      exact (quiet_refl s).mails
  | dropAsk k q _ _ => exact (quiet_dropAsk s k).mails
  | reply p k r _ => exact (quiet_updateHand s p _).mails
  | dropReply p k _ => exact (quiet_updateHand s p _).mails
  | recv i t t' ht hrecv => exact recv_mails ht hrecv
  | recvNone i t ht hph _ _ => exact phase_mails ht (by rw [hph]; rfl) (Or.inr rfl)
  | started i t ht hph _ => exact phase_mails ht (by rw [hph]; rfl) (Or.inl rfl)
  | handled i t m ht hph _ => exact phase_mails ht (by rw [hph]; rfl) (Or.inl rfl)
  | stopped i t ht hph _ => exact endActor_mails .returned ht (by rw [hph]; rfl)
  | panics i t ht hin => exact endActor_mails .panicked ht (live_of_inCallback hin)
  | aborted i t ht hlive => exact endActor_mails .aborted ht hlive
  | tick d _ => exact (quiet_refl s).mails

/-- A new actor has the next number, and a mailbox of its own. -/
theorem spawn_mails {p : Party} {mailboxBound : Nat}
    (h : step s (.spawn p mailboxBound) = some s') :
    s'.actors.length = s.actors.length + 1
      ∧ (∀ (i : ActorId) (t : ActorTask μ), s.actors[i]? = some t →
        ∃ t', s'.actors[i]? = some t' ∧ MailMove t t' [] [])
      ∧ ∃ t', s'.actors[s.actors.length]? = some t'
        ∧ MailMove (ActorTask.new s.actors.length mailboxBound) t' [] [] := by
  cases step_takes h
  have hquiet := (quiet_updateHand { s with actors := s.actors ++ [ActorTask.new s.actors.length
    mailboxBound] } p fun h => { h with addrs := h.addrs ++ [s.actors.length] }).mails
  refine ⟨hquiet.1.trans List.length_append, fun i t ht => ?_, ?_⟩
  · refine hquiet.2 i t ?_
    show (s.actors ++ [_])[i]? = some t
    rw [List.getElem?_append_left (List.getElem?_eq_some_iff.mp ht).1]
    exact ht
  · refine hquiet.2 s.actors.length _ ?_
    show (s.actors ++ [_])[s.actors.length]? = some _
    exact List.getElem?_concat_length

/-- An actor that is not there yet takes nothing. -/
theorem unborn_takes {i : ActorId} (h : s.actors[i]? = none) (e : Event μ ρ) :
    accepts i s e = [] ∧ handles i s e = [] := by
  have hlen : s.actors.length ≤ i := List.getElem?_eq_none_iff.mp h
  have hnone : ∀ p m, (calling s p m).actors[i]? = none := fun p m =>
    List.getElem?_eq_none_iff.mpr (le_of_eq_of_le (quiet_updateHand s p _).1 hlen)
  cases e with
  | tell p a m =>
      refine ⟨?_, rfl⟩
      show (if a = i then told (((calling s p m).tell a m).map Prod.snd) m else []) = []
      split
      · rename_i ha
        unfold System.tell
        rw [ha, hnone]
        rfl
      · rfl
  | ask p a m dur =>
      refine ⟨?_, rfl⟩
      show (if a = i then asked (calling s p m) a m else []) = []
      split
      · rename_i ha
        unfold asked
        rw [ha, hnone]
        rfl
      · rfl
  | askSends k =>
      refine ⟨?_, rfl⟩
      show ((s.asks[k]?).elim [] fun q => if q.target = i then resent s k q else []) = []
      cases hq : s.asks[k]? with
      | none => rfl
      | some q =>
          show (if q.target = i then resent s k q else []) = []
          split
          · rename_i ha
            unfold resent
            split
            · rw [ha, h]
              rfl
            · rfl
          · rfl
  | recv j =>
      refine ⟨rfl, ?_⟩
      show (if j = i then (s.actors[j]?).elim [] fun t =>
        (t.mailbox.pop).elim [] fun x => [x.1] else []) = []
      split
      · rename_i hj
        rw [hj, h]
        rfl
      · rfl
  | _ => exact ⟨rfl, rfl⟩

end

/-! ## Every run -/

/-- The ghosts of a state are what its trace says. -/
structure MailAccount (tr : List (System μ ρ × Event μ ρ)) (s : System μ ρ) : Prop where
  tasks : ∀ (i : ActorId) (t : ActorTask μ), s.actors[i]? = some t →
    MailSound t ∧ t.accepted = acceptedBy tr i ∧ t.handled = handledBy tr i
      ∧ (bounds tr)[i]? = some t.mailbox.capacity
  length : (bounds tr).length = s.actors.length
  unborn : ∀ i, s.actors[i]? = none → acceptedBy tr i = [] ∧ handledBy tr i = []

variable {tr : List (System μ ρ × Event μ ρ)} {s s' : System μ ρ}

theorem acceptedBy_append (tr tr' : List (System μ ρ × Event μ ρ)) (i : ActorId) :
    acceptedBy (tr ++ tr') i = acceptedBy tr i ++ acceptedBy tr' i := List.flatMap_append

theorem handledBy_append (tr tr' : List (System μ ρ × Event μ ρ)) (i : ActorId) :
    handledBy (tr ++ tr') i = handledBy tr i ++ handledBy tr' i := List.flatMap_append

theorem acceptedBy_snoc (tr : List (System μ ρ × Event μ ρ)) (s : System μ ρ) (e : Event μ ρ)
    (i : ActorId) : acceptedBy (tr ++ [(s, e)]) i = acceptedBy tr i ++ accepts i s e := by
  rw [acceptedBy_append]
  exact congrArg (acceptedBy tr i ++ ·) (List.append_nil _)

theorem handledBy_snoc (tr : List (System μ ρ × Event μ ρ)) (s : System μ ρ) (e : Event μ ρ)
    (i : ActorId) : handledBy (tr ++ [(s, e)]) i = handledBy tr i ++ handles i s e := by
  rw [handledBy_append]
  exact congrArg (handledBy tr i ++ ·) (List.append_nil _)

theorem bounds_snoc (tr : List (System μ ρ × Event μ ρ)) (s : System μ ρ) (e : Event μ ρ) :
    bounds (tr ++ [(s, e)]) = bounds tr ++ (spawnBound e).toList := by
  unfold bounds
  rw [List.filterMap_append]
  cases hb : spawnBound e <;> simp [hb]

theorem account_step {e : Event μ ρ} (h : MailAccount tr s) (hs : step s e = some s') :
    MailAccount (tr ++ [(s, e)]) s' := by
  by_cases hspawn : ∃ p mailboxBound, e = .spawn p mailboxBound
  · obtain ⟨p, mailboxBound, rfl⟩ := hspawn
    obtain ⟨hlen, hold, t₀, ht₀, hnew⟩ := spawn_mails hs
    have hbounds : bounds (tr ++ [(s, .spawn p mailboxBound)]) = bounds tr ++ [mailboxBound] :=
      bounds_snoc tr s _
    refine ⟨fun i t' ht' => ?_, ?_, fun i hi => ?_⟩
    · rw [acceptedBy_snoc, handledBy_snoc, hbounds]
      show MailSound t' ∧ t'.accepted = acceptedBy tr i ++ []
        ∧ t'.handled = handledBy tr i ++ [] ∧ _
      cases ht : s.actors[i]? with
      | some t =>
          obtain ⟨t₁, ht₁, hmove⟩ := hold i t ht
          obtain rfl := Option.some.inj (ht₁.symm.trans ht')
          obtain ⟨hacc, hhand, hcap⟩ := hmove.account
          obtain ⟨hsound, ha, hh, hb⟩ := h.tasks i t ht
          refine ⟨hmove.sound hsound, ha ▸ hacc, hh ▸ hhand, ?_⟩
          rw [List.getElem?_append_left (List.getElem?_eq_some_iff.mp hb).1, hb, hcap]
      | none =>
          -- the new actor
          have hlt : i < s.actors.length + 1 := hlen ▸ (List.getElem?_eq_some_iff.mp ht').1
          obtain rfl : i = s.actors.length :=
            Nat.le_antisymm (Nat.le_of_lt_succ hlt) (List.getElem?_eq_none_iff.mp ht)
          obtain rfl := Option.some.inj (ht₀.symm.trans ht')
          obtain ⟨hacc, hhand, hcap⟩ := hnew.account
          obtain ⟨ha, hh⟩ := h.unborn _ ht
          rw [ha, hh]
          refine ⟨hnew.sound (mailSound_new _ _), hacc, hhand, ?_⟩
          rw [← h.length, List.getElem?_concat_length, hcap]
          rfl
    · rw [hbounds, List.length_append, h.length, hlen]
      rfl
    · have hnone : s.actors[i]? = none := by
        rw [List.getElem?_eq_none_iff] at hi ⊢
        omega
      rw [acceptedBy_snoc, handledBy_snoc, (h.unborn i hnone).1, (h.unborn i hnone).2]
      exact ⟨rfl, rfl⟩
  · obtain ⟨hlen, hall⟩ := step_mails hs fun p mailboxBound he => hspawn ⟨p, mailboxBound, he⟩
    have hbounds : bounds (tr ++ [(s, e)]) = bounds tr := by
      rw [bounds_snoc]
      cases e with
      | spawn p mailboxBound => exact absurd ⟨p, mailboxBound, rfl⟩ hspawn
      | _ => exact List.append_nil _
    refine ⟨fun i t' ht' => ?_, ?_, fun i hi => ?_⟩
    · obtain ⟨t, ht⟩ : ∃ t, s.actors[i]? = some t :=
        ⟨_, List.getElem?_eq_getElem (hlen ▸ (List.getElem?_eq_some_iff.mp ht').1)⟩
      obtain ⟨t₁, ht₁, hmove⟩ := hall i t ht
      obtain rfl := Option.some.inj (ht₁.symm.trans ht')
      obtain ⟨hacc, hhand, hcap⟩ := hmove.account
      obtain ⟨hsound, ha, hh, hb⟩ := h.tasks i t ht
      rw [acceptedBy_snoc, handledBy_snoc, hbounds]
      exact ⟨hmove.sound hsound, ha ▸ hacc, hh ▸ hhand, hcap ▸ hb⟩
    · rw [hbounds, h.length, hlen]
    · have hnone : s.actors[i]? = none := by
        rw [List.getElem?_eq_none_iff] at hi ⊢
        omega
      obtain ⟨hacc, hhand⟩ := unborn_takes hnone e
      rw [acceptedBy_snoc, handledBy_snoc, (h.unborn i hnone).1, (h.unborn i hnone).2, hacc, hhand]
      exact ⟨rfl, rfl⟩

theorem account_init : MailAccount [] (System.init : System μ ρ) where
  tasks := fun i t ht => absurd ht (by simp [System.init])
  length := rfl
  unborn := fun _ _ => ⟨rfl, rfl⟩

theorem account_run (h : Run step System.init tr s) : MailAccount tr s := by
  induction h with
  | nil => exact account_init
  | snoc _ hs ih => exact account_step ih hs

/-- Once a task has ended, its mailbox takes and hands out nothing for the rest of the run. -/
theorem frozen {i : ActorId} {t : ActorTask μ} (h : Run step s tr s') (ht : s.actors[i]? = some t)
    (hsound : MailSound t) (hover : t.phase.live = false) :
    (acceptedBy tr i = [] ∧ handledBy tr i = [])
      ∧ ∃ t', s'.actors[i]? = some t' ∧ MailSound t' ∧ t'.phase.live = false := by
  induction h with
  | nil => exact ⟨⟨rfl, rfl⟩, t, ht, hsound, hover⟩
  | @snoc tr x x' e _ hs ih =>
      obtain ⟨⟨hacc, hhand⟩, t₁, ht₁, hsound₁, hover₁⟩ := ih
      rw [acceptedBy_snoc, handledBy_snoc, hacc, hhand]
      by_cases hspawn : ∃ p mailboxBound, e = .spawn p mailboxBound
      · obtain ⟨p, mailboxBound, rfl⟩ := hspawn
        obtain ⟨_, hold, _⟩ := spawn_mails hs
        obtain ⟨t₂, ht₂, hmove⟩ := hold i t₁ ht₁
        exact ⟨⟨rfl, rfl⟩, t₂, ht₂, hmove.sound hsound₁, (hmove.over hsound₁ hover₁).2.2⟩
      · obtain ⟨_, hall⟩ := step_mails hs fun p mailboxBound he => hspawn ⟨p, mailboxBound, he⟩
        obtain ⟨t₂, ht₂, hmove⟩ := hall i t₁ ht₁
        obtain ⟨ha, hh, hover₂⟩ := hmove.over hsound₁ hover₁
        exact ⟨⟨ha, hh⟩, t₂, ht₂, hmove.sound hsound₁, hover₂⟩

/-- `tell` answers `Gone` only when the mailbox is closed. -/
theorem closed_of_gone {p : Party} {a : ActorId} {m : Msg μ}
    (h : answer s p a m = some (.error .gone)) :
    ∃ t, s.actors[a]? = some t ∧ t.mailbox.closed = true := by
  unfold answer System.tell at h
  rw [Option.map_map, Option.map_eq_some_iff] at h
  obtain ⟨t', ht', h⟩ := h
  have hclosed : t'.mailbox.closed = true := by
    cases hsend : t'.mailbox.trySend m with
    | ok c => simp [hsend] at h
    | error err =>
        rcases (Chan.trySend_error_iff t'.mailbox m err).mp hsend with ⟨_, _, rfl⟩ | ⟨hc, _⟩
        · simp [hsend] at h
        · exact hc
  obtain ⟨hlen, hquiet⟩ := quiet_updateHand s p fun h => h.without m.carries.replies
  obtain ⟨t, ht⟩ : ∃ t, s.actors[a]? = some t :=
    ⟨_, List.getElem?_eq_getElem (hlen ▸ (List.getElem?_eq_some_iff.mp ht').1)⟩
  obtain ⟨t₁, ht₁, hsame, _⟩ := hquiet a t ht
  obtain rfl := Option.some.inj (ht₁.symm.trans ht')
  exact ⟨t, ht, hsame.like.2 ▸ hclosed⟩

/-- No step puts its message into two mailboxes. -/
theorem accepts_once {i j : ActorId} {e : Event μ ρ} (hi : accepts i s e ≠ [])
    (hj : accepts j s e ≠ []) : i = j := by
  have one : ∀ {a : ActorId} {l : List (Msg μ)}, (if a = i then l else []) ≠ [] →
      (if a = j then l else []) ≠ [] → i = j := by
    intro a l h₁ h₂
    have ha : a = i := by by_contra hne; exact h₁ (if_neg hne)
    have hb : a = j := by by_contra hne; exact h₂ (if_neg hne)
    exact ha.symm.trans hb
  cases e with
  | tell p a m => exact one hi hj
  | ask p a m dur => exact one hi hj
  | askSends k =>
      simp only [accepts] at hi hj
      cases hq : s.asks[k]? with
      | none => rw [hq] at hi; exact absurd rfl hi
      | some q => rw [hq] at hi hj; exact one hi hj
  | _ => exact absurd rfl hi

/-- What the mailbox of actor `i` did with the messages it was sent in the run `tr` to `s`. -/
structure Delivered (tr : List (System μ ρ × Event μ ρ)) (s : System μ ρ) (i : ActorId)
    (t : ActorTask μ) : Prop where
  /-- They are handled in the order in which they were accepted, and each once at most. -/
  inOrder : handledBy tr i <+: acceptedBy tr i
  /-- While the task runs, none is lost: those accepted have been handled, or are being handled,
  or are in the queue, -/
  conserved : t.phase.live = true → ∃ done, handledBy tr i = done ++ inHandler t
    ∧ acceptedBy tr i = done ++ inHandler t ++ t.mailbox.queue
  /-- which never holds more than `mailbox_bound`. -/
  bounded : ∃ bound, (bounds tr)[i]? = some bound ∧ t.mailbox.queue.length ≤ bound
  /-- A message whose `tell` answers with an error is not accepted, by this mailbox or another. -/
  refused : ∀ x p m err, (x, .tell p i m) ∈ tr → answer x p i m = some (.error err) →
    ∀ j, accepts j x (.tell p i m) = []
  /-- Nor is any message accepted by two. -/
  single : ∀ x e, (x, e) ∈ tr → accepts i x e ≠ [] → ∀ j, accepts j x e ≠ [] → j = i
  /-- `Gone` is answered only when the task has ended. -/
  gone : ∀ x p m, (x, .tell p i m) ∈ tr → answer x p i m = some (.error .gone) →
    ∃ t', x.actors[i]? = some t' ∧ t'.phase.live = false
  /-- What is queued when the task ends is discarded: what has not been handled never is. -/
  discarded : t.phase.live = false → t.mailbox.queue = [] ∧ ∀ tr' s', Run step s tr' s' →
    handledBy (tr ++ tr') i = handledBy tr i ∧ acceptedBy (tr ++ tr') i = acceptedBy tr i

/-- **Mailbox delivery.** In every run of every system of actors, every mailbox accepts, keeps
and delivers the messages as `Delivered` says, whoever sends them by `tell`, `tell_or_drop`,
`tell_self` or `ask`, and whenever tasks panic or are aborted. -/
theorem mailbox_delivers (h : Run step System.init tr s) {i : ActorId} {t : ActorTask μ}
    (ht : s.actors[i]? = some t) : Delivered tr s i t := by
  obtain ⟨hsound, hacc, hhand, hbound⟩ := (account_run h).tasks i t ht
  refine ⟨?_, fun hlive => ?_, ⟨_, hbound, ?_⟩, ?_, fun x e _ hi j hj => accepts_once hj hi, ?_, ?_⟩
  · rw [← hacc, ← hhand]
    exact hsound.order
  · obtain ⟨done, hdone⟩ := hsound.last
    refine ⟨done, hhand ▸ hdone, ?_⟩
    rw [← hdone, ← hacc]
    exact hsound.live hlive
  · exact Nat.le_trans (Nat.le_add_right _ _) t.mailbox.fits
  · intro x p m err _ hanswer j
    show (if i = j then told (answer x p i m) m else []) = []
    rw [hanswer]
    exact ite_self []
  · intro x p m hx hanswer
    obtain ⟨t', ht', hclosed⟩ := closed_of_gone hanswer
    obtain ⟨tr₁, _, hrun⟩ := h.upTo (Visits.before hx)
    refine ⟨t', ht', ?_⟩
    rw [((account_run hrun).tasks i t' ht').1.closed] at hclosed
    simpa using hclosed
  · intro hover
    refine ⟨(t.mailbox.drained (hsound.closed.trans (by rw [hover]; rfl))).1, ?_⟩
    intro tr' s' hrun
    obtain ⟨⟨ha, hh⟩, _⟩ := frozen hrun ht hsound hover
    rw [handledBy_append, acceptedBy_append, ha, hh]
    exact ⟨List.append_nil _, List.append_nil _⟩

/-- The second message finds the mailbox full, and the third is queued when the actor panics over
the first. -/
def panicOverFirst : List (Event Nat Nat) :=
  [.spawn .outside 1, .returns 0, .tell .outside 0 ⟨1, .empty⟩, .tell .outside 0 ⟨2, .empty⟩,
   .recv 0, .tell .outside 0 ⟨3, .empty⟩, .panics 0]

theorem mailbox_delivers_panicOverFirst :
    (∃ t, (after step .init panicOverFirst).actors[0]? = some t ∧
        Delivered (traceOf step .init panicOverFirst) (after step .init panicOverFirst) 0 t)
      ∧ (acceptedBy (traceOf step .init panicOverFirst) 0).map Msg.body = [1, 3]
      ∧ (handledBy (traceOf step .init panicOverFirst) 0).map Msg.body = [1] :=
  ⟨⟨_, rfl, mailbox_delivers (Run.after (by decide)) rfl⟩, by decide, by decide⟩

end ErlangActors.Proof
