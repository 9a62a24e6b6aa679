import ErlangActors.Examples.DeadlockBad
import ErlangActors.Proof.Traffic

/-!
# Requests that go round for ever

Two actors that pass every request on to each other out of their handlers never come to an
answer: a handler gets one only from its own ask, whose request the other one passes on in
turn. Nor do they ever work a request off, for whoever takes one sends one first. What the
callers get is `Timeout` or `Closed`.
-/

namespace ErlangActors.Proof

open Actor Channel DeadlockBad Transition Weighing

/-! ## The ways a step can go -/

/-- From `d` the event leads to the state given, through the library's steps given. -/
inductive DemoTakes (d : Demo) : DeadlockBad.Event → Demo → Prop where
  | started (w : Who) (sys : System Request String)
      (h : exec Actor.step d.sys [.returns w.id] = some sys) :
      DemoTakes d (.started w) { d with sys := sys }
  | set (w : Who) (sys : System Request String)
      (h : exec Actor.step d.sys [.cloneAddr .outside w.id] = some sys) :
      DemoTakes d (.set w) { d with sys := sys, slotSet := Function.update d.slotSet w true }
  | call (w : Who) (dur : Nat) (sys : System Request String)
      (h : exec Actor.step d.sys [.ask .outside w.id ⟨w.request, .empty⟩ dur] = some sys) :
      DemoTakes d (.call w dur) { d with sys := sys }
  | client (k : AskId) (how : Poll) (sys : System Request String)
      (h : exec Actor.step d.sys [how.event k] = some sys) :
      DemoTakes d (.client k how) { d with sys := sys }
  | clientDrops (k : AskId) (sys : System Request String)
      (h : exec Actor.step d.sys [.dropAsk k] = some sys) :
      DemoTakes d (.clientDrops k) { d with sys := sys }
  | recv (w : Who) (reply : AskId) (sys : System Request String) (hidle : d.frame w = .idle)
      (hnext : d.nextReply w = some reply)
      (h : exec Actor.step d.sys [.recv w.id] = some sys) :
      DemoTakes d (.recv w)
        { d with sys := sys, frame := Function.update d.frame w (.entered reply) }
  | asks (w : Who) (reply : AskId) (request : Request) (sys : System Request String)
      (hframe : d.frame w = .entered reply) (hset : d.slotSet w.peer = true)
      (h : exec Actor.step d.sys
        [.pass .outside (.actor w.id) ⟨[w.peer.id], []⟩,
         .ask (.actor w.id) w.peer.id ⟨request, .empty⟩ innerDur] = some sys) :
      DemoTakes d (.handle w)
        { d with sys := sys, frame := Function.update d.frame w (.asking reply d.sys.asks.length) }
  | turnsAway (w : Who) (reply : AskId) (notReady : String) (sys : System Request String)
      (hframe : d.frame w = .entered reply) (hunset : d.slotSet w.peer = false)
      (h : exec Actor.step d.sys [.reply (.actor w.id) reply notReady, .returns w.id]
        = some sys) :
      DemoTakes d (.handle w) { d with sys := sys, frame := Function.update d.frame w .idle }
  | waits (w : Who) (how : Poll) (reply call : AskId) (sys : System Request String)
      (hframe : d.frame w = .asking reply call)
      (h : exec Actor.step d.sys [how.event call] = some sys) :
      DemoTakes d (.poll w how) { d with sys := sys }
  | returns (w : Who) (how : Poll) (reply call : AskId) (sys₁ sys : System Request String)
      (q : Ask Request String) (res : Except AskError String)
      (hframe : d.frame w = .asking reply call)
      (h₁ : exec Actor.step d.sys [how.event call] = some sys₁)
      (hq : sys₁.asks[call]? = some q) (hdone : q.stage = .done res)
      (h : exec Actor.step sys₁
        [passOn w reply res, .dropAddr (.actor w.id) w.peer.id, .returns w.id] = some sys) :
      DemoTakes d (.poll w how) { d with sys := sys, frame := Function.update d.frame w .idle }
  | tick (t : Nat) (sys : System Request String)
      (h : exec Actor.step d.sys [.tick t] = some sys) :
      DemoTakes d (.tick t) { d with sys := sys }

section
variable {d d' : Demo} {e : DeadlockBad.Event} {w : Who}

theorem lib_cases {es : List (Actor.Event Request String)} (h : d.lib es = some d') :
    ∃ sys, exec Actor.step d.sys es = some sys ∧ d' = { d with sys := sys } := by
  obtain ⟨sys, hsys, rfl⟩ := Option.map_eq_some_iff.mp h
  exact ⟨sys, hsys, rfl⟩

theorem goto_cases {frame : Frame} {es : List (Actor.Event Request String)}
    (h : d.goto w frame es = some d') :
    ∃ sys, exec Actor.step d.sys es = some sys
      ∧ d' = { d with sys := sys, frame := Function.update d.frame w frame } := by
  obtain ⟨sys, hsys, rfl⟩ := Option.map_eq_some_iff.mp h
  exact ⟨sys, hsys, rfl⟩

theorem askOther_takes {request : Request} {notReady : String} {reply : AskId}
    (h : d.askOther w request notReady reply = some d') (hframe : d.frame w = .entered reply) :
    DemoTakes d (.handle w) d' := by
  unfold Demo.askOther at h
  split at h
  · rename_i hset
    obtain ⟨sys, hsys, rfl⟩ := goto_cases h
    exact .asks w reply request sys hframe hset hsys
  · rename_i hunset
    obtain ⟨sys, hsys, rfl⟩ := goto_cases h
    exact .turnsAway w reply notReady sys hframe (Bool.eq_false_iff.mpr hunset) hsys

theorem demo_takes (h : DeadlockBad.step d e = some d') : DemoTakes d e d' := by
  cases e with
  | started w =>
      obtain ⟨_, h⟩ := Option.ite_none_right_eq_some.mp h
      obtain ⟨sys, hsys, rfl⟩ := lib_cases h
      exact .started w sys hsys
  | set w =>
      obtain ⟨_, h⟩ := Option.ite_none_left_eq_some.mp h
      obtain ⟨d₁, hlib, rfl⟩ := Option.map_eq_some_iff.mp h
      obtain ⟨sys, hsys, rfl⟩ := lib_cases hlib
      exact .set w sys hsys
  | call w dur =>
      obtain ⟨sys, hsys, rfl⟩ := lib_cases h
      exact .call w dur sys hsys
  | client k how =>
      obtain ⟨_, h⟩ := Option.ite_none_right_eq_some.mp h
      obtain ⟨sys, hsys, rfl⟩ := lib_cases h
      exact .client k how sys hsys
  | clientDrops k =>
      obtain ⟨_, h⟩ := Option.ite_none_right_eq_some.mp h
      obtain ⟨sys, hsys, rfl⟩ := lib_cases h
      exact .clientDrops k sys hsys
  | recv w =>
      obtain ⟨hidle, h⟩ := Option.ite_none_right_eq_some.mp h
      obtain ⟨reply, hnext, h⟩ := Option.bind_eq_some_iff.mp h
      obtain ⟨sys, hsys, rfl⟩ := goto_cases h
      exact .recv w reply sys hidle hnext hsys
  | handle w =>
      unfold DeadlockBad.step at h
      dsimp only at h
      split at h
      · rename_i reply hframe
        cases w with
        | a => exact askOther_takes h hframe
        | b => exact askOther_takes h hframe
      · exact absurd h (by simp)
  | poll w how =>
      unfold DeadlockBad.step at h
      dsimp only at h
      split at h
      · rename_i reply call hframe
        obtain ⟨d₁, h₁, h⟩ := Option.bind_eq_some_iff.mp h
        obtain ⟨sys₁, hsys₁, rfl⟩ := lib_cases h₁
        unfold Demo.resume at h
        split at h
        · rename_i res hdone
          -- the call is over: what follows it in the handler runs at once
          obtain ⟨q, hq, hdone⟩ := Option.map_eq_some_iff.mp hdone
          obtain ⟨sys, hsys, rfl⟩ := goto_cases h
          exact .returns w how reply call sys₁ sys q res hframe hsys₁ hq hdone hsys
        · rw [← Option.some.inj h]
          exact .waits w how reply call sys₁ hframe hsys₁
      · exact absurd h (by simp)
  | tick t =>
      obtain ⟨sys, hsys, rfl⟩ := lib_cases h
      exact .tick t sys hsys

theorem poll_tame (k : AskId) (how : Poll) : tellsOrEnds (how.event k) = false := by
  cases how <;> rfl

theorem passOn_tame (w : Who) (reply : AskId) (res : Except AskError String) :
    tellsOrEnds (passOn w reply res) = false := by
  cases res <;> rfl

/-- **Each step is a few steps of the library**, and none of them tells or ends a task. -/
theorem demo_lowers (hs : DeadlockBad.step d e = some d') :
    ∃ es, exec Actor.step d.sys es = some d'.sys ∧ ∀ e ∈ es, tellsOrEnds e = false := by
  cases demo_takes hs with
  | started w sys h => exact ⟨_, h, by simp [tellsOrEnds]⟩
  | set w sys h => exact ⟨_, h, by simp [tellsOrEnds]⟩
  | call w dur sys h => exact ⟨_, h, by simp [tellsOrEnds]⟩
  | client k how sys h => exact ⟨_, h, by simp [poll_tame]⟩
  | clientDrops k sys h => exact ⟨_, h, by simp [tellsOrEnds]⟩
  | recv w reply sys _ _ h => exact ⟨_, h, by simp [tellsOrEnds]⟩
  | asks w reply request sys _ _ h => exact ⟨_, h, by simp [tellsOrEnds]⟩
  | turnsAway w reply notReady sys _ _ h => exact ⟨_, h, by simp [tellsOrEnds]⟩
  | waits w how reply call sys _ h => exact ⟨_, h, by simp [poll_tame]⟩
  | returns w how reply call sys₁ sys q res _ h₁ _ _ h =>
      refine ⟨_, exec_append h₁ h, fun e he => ?_⟩
      rcases List.mem_append.mp he with he | he
      · exact List.mem_singleton.mp he ▸ poll_tame call how
      · simp only [List.mem_cons, List.not_mem_nil, or_false] at he
        rcases he with rfl | rfl | rfl
        · exact passOn_tame w reply res
        · rfl
        · rfl
  | tick t sys h => exact ⟨_, h, by simp [tellsOrEnds]⟩

end

/-! ## Nobody is answered -/

section
variable {s s' : System Request String} {n : Nat}

/-- No call from the `n`-th on has a reply, on its channel or already received. -/
def Unanswered (n : Nat) (s : System Request String) : Prop :=
  ∀ (k : AskId) (q : Ask Request String) (r : String), n ≤ k → s.asks[k]? = some q →
    ¬ (q.oneshot = .sent r ∨ q.stage = .done (.ok r))

/-- The step replies to no such call. -/
def RepliesBefore (n : Nat) (e : Actor.Event Request String) : Prop :=
  ∀ p k r, e = .reply p k r → k < n

theorem unanswered_step {e : Actor.Event Request String} (h : Unanswered n s)
    (hbefore : RepliesBefore n e) (hs : Actor.step s e = some s') : Unanswered n s' := by
  intro k q' r hk hq' hreply
  cases hq : s.asks[k]? with
  | none =>
      obtain ⟨_, p, b, m, dur, _, _, hopened⟩ := call_new hs hq hq'
      exact hopened.no_reply r hreply
  | some q =>
      obtain ⟨q₁, hq₁, hmove⟩ := calls_step hs hq
      obtain rfl := Option.some.inj (hq₁.symm.trans hq')
      rcases hmove.replied hreply with hold | ⟨p, he, _⟩
      · exact h k q r hk hq hold
      · exact absurd (hbefore p k r he) (Nat.not_lt.mpr hk)

theorem unanswered_exec {es : List (Actor.Event Request String)} (h : Unanswered n s)
    (hbefore : ∀ e ∈ es, RepliesBefore n e) (hs : exec Actor.step s es = some s') :
    Unanswered n s' :=
  exec_keeps hs h (fun _ _ _ h hb hs => unanswered_step h hb hs) hbefore

theorem calls_exec {es : List (Actor.Event Request String)}
    (hs : exec Actor.step s es = some s') : s.asks.length ≤ s'.asks.length :=
  (Run.of_exec hs).invariant (P := fun x => s.asks.length ≤ x.asks.length) (Nat.le_refl _)
    fun _ _ _ h hs => Nat.le_trans h (calls_length hs).1

theorem known_exec {es : List (Actor.Event Request String)} (h : Known s)
    (hs : exec Actor.step s es = some s') : Known s' :=
  (Run.of_exec hs).invariant h fun _ _ _ h hs => known_keeps h hs

end

/-- The handlers: each has the sender of a call made before its own. -/
structure Framed (d : Demo) : Prop where
  known : Known d.sys
  entered : ∀ w reply, d.frame w = .entered reply → reply < d.sys.asks.length
  asking : ∀ w reply call, d.frame w = .asking reply call → reply < call

section
variable {d d' : Demo} {e : DeadlockBad.Event} {w : Who} {sys : System Request String}
  {es : List (Actor.Event Request String)} {n : Nat}

theorem spawns_run : Run Actor.step System.init (traceOf Actor.step .init spawns) Demo.init.sys :=
  Run.after (by decide)

theorem framed_init : Framed Demo.init where
  known := known_run spawns_run
  entered := fun w reply h => absurd h (by simp [Demo.init])
  asking := fun w reply call h => absurd h (by simp [Demo.init])

/-- The library goes on, and so may one handler. -/
theorem Framed.goes (h : Framed d) (hs : exec Actor.step d.sys es = some sys) {frame : Frame}
    (hentered : ∀ reply, frame = .entered reply → reply < sys.asks.length)
    (hasking : ∀ reply call, frame = .asking reply call → reply < call) :
    Framed { d with sys := sys, frame := Function.update d.frame w frame } where
  known := known_exec h.known hs
  entered := by
    intro v reply hv
    by_cases hvw : v = w
    · subst hvw
      exact hentered reply ((Function.update_self ..).symm.trans hv)
    · exact Nat.lt_of_lt_of_le (h.entered v reply ((Function.update_of_ne hvw ..).symm.trans hv))
        (calls_exec hs)
  asking := by
    intro v reply call hv
    by_cases hvw : v = w
    · subst hvw
      exact hasking reply call ((Function.update_self ..).symm.trans hv)
    · exact h.asking v reply call ((Function.update_of_ne hvw ..).symm.trans hv)

theorem Framed.lib (h : Framed d) (hs : exec Actor.step d.sys es = some sys)
    (slots : Who → Bool) : Framed { d with sys := sys, slotSet := slots } where
  known := known_exec h.known hs
  entered := fun w reply hw => Nat.lt_of_lt_of_le (h.entered w reply hw) (calls_exec hs)
  asking := h.asking

theorem nextReply_known (h : Framed d) {reply : AskId} (hnext : d.nextReply w = some reply) :
    reply < d.sys.asks.length := by
  obtain ⟨t, ht, hnext⟩ := Option.bind_eq_some_iff.mp hnext
  obtain ⟨m, hm, hreply⟩ := Option.bind_eq_some_iff.mp hnext
  refine h.known (.mail w.id) reply ?_
  rw [repliesAt_mail ht]
  exact List.mem_flatMap.mpr ⟨m, List.mem_of_mem_head? hm, List.mem_of_mem_head? hreply⟩

theorem framed_step (h : Framed d) (hs : DeadlockBad.step d e = some d') : Framed d' := by
  cases demo_takes hs with
  | started w sys hsys => exact h.lib hsys _
  | set w sys hsys => exact h.lib hsys _
  | call w dur sys hsys => exact h.lib hsys _
  | client k how sys hsys => exact h.lib hsys _
  | clientDrops k sys hsys => exact h.lib hsys _
  | recv w reply sys _ hnext hsys =>
      refine h.goes hsys (fun reply' he => ?_) fun reply' call he => absurd he (by simp)
      obtain rfl := Frame.entered.inj he
      exact Nat.lt_of_lt_of_le (nextReply_known h hnext) (calls_exec hsys)
  | asks w reply request sys hframe _ hsys =>
      refine h.goes hsys (fun reply' he => absurd he (by simp)) fun reply' call he => ?_
      obtain ⟨rfl, rfl⟩ := Frame.asking.inj he
      exact h.entered w _ hframe
  | turnsAway w reply notReady sys _ _ hsys =>
      exact h.goes hsys (fun _ he => absurd he (by simp)) fun _ _ he => absurd he (by simp)
  | waits w how reply call sys _ hsys => exact h.lib hsys _
  | returns w how reply call sys₁ sys q res _ h₁ _ _ hsys =>
      exact h.goes (exec_append h₁ hsys) (fun _ he => absurd he (by simp))
        fun _ _ he => absurd he (by simp)
  | tick t sys hsys => exact h.lib hsys _

/-- Both slots are set, and no call from the `n`-th on has been answered. -/
structure Silent (n : Nat) (d : Demo) : Prop where
  framed : Framed d
  ready : ∀ w, d.slotSet w = true
  unanswered : Unanswered n d.sys

theorem poll_replies (n : Nat) (k : AskId) (how : Poll) : RepliesBefore n (how.event k) := by
  intro p j r he
  cases how <;> exact absurd he (by simp [Poll.event])

/-- A handler that passes an answer on has got it from a call made after the one it answers. -/
theorem passOn_replies (h : Framed d) {reply call : AskId}
    {q : Ask Request String} {res : Except AskError String}
    (hframe : d.frame w = .asking reply call)
    (hun : Unanswered n sys) (hq : sys.asks[call]? = some q) (hdone : q.stage = .done res) :
    RepliesBefore n (passOn w reply res) := by
  intro p k r he
  cases res with
  | error err => exact absurd he (by simp [passOn])
  | ok s =>
      obtain ⟨_, rfl, _⟩ := Actor.Event.reply.inj he
      by_contra hle
      have hlt := h.asking w reply call hframe
      exact hun call q s (Nat.le_trans (Nat.not_lt.mp hle) (Nat.le_of_lt hlt)) hq (Or.inr hdone)

theorem silent_step (h : Silent n d) (hs : DeadlockBad.step d e = some d') : Silent n d' := by
  have hframed := framed_step h.framed hs
  have hlib : ∀ {es : List (Actor.Event Request String)} {sys : System Request String},
      exec Actor.step d.sys es = some sys → (∀ e ∈ es, RepliesBefore n e) → Unanswered n sys :=
    fun hsys hbefore => unanswered_exec h.unanswered hbefore hsys
  cases demo_takes hs with
  | started w sys hsys =>
      exact ⟨hframed, h.ready, hlib hsys (by simp [RepliesBefore])⟩
  | set w sys hsys =>
      refine ⟨hframed, fun v => ?_, hlib hsys (by simp [RepliesBefore])⟩
      show Function.update d.slotSet w true v = true
      by_cases hvw : v = w
      · rw [hvw, Function.update_self]
      · rw [Function.update_of_ne hvw, h.ready]
  | call w dur sys hsys =>
      exact ⟨hframed, h.ready, hlib hsys (by simp [RepliesBefore])⟩
  | client k how sys hsys =>
      refine ⟨hframed, h.ready, hlib hsys fun e he => ?_⟩
      exact List.mem_singleton.mp he ▸ poll_replies n k how
  | clientDrops k sys hsys =>
      exact ⟨hframed, h.ready, hlib hsys (by simp [RepliesBefore])⟩
  | recv w reply sys _ _ hsys =>
      exact ⟨hframed, h.ready, hlib hsys (by simp [RepliesBefore])⟩
  | asks w reply request sys _ _ hsys =>
      exact ⟨hframed, h.ready, hlib hsys (by simp [RepliesBefore])⟩
  | turnsAway w reply notReady sys _ hunset _ =>
      rw [h.ready] at hunset
      exact Bool.noConfusion hunset
  | waits w how reply call sys _ hsys =>
      refine ⟨hframed, h.ready, hlib hsys fun e he => ?_⟩
      exact List.mem_singleton.mp he ▸ poll_replies n call how
  | returns w how reply call sys₁ sys q res hframe h₁ hq hdone hsys =>
      have hun := hlib h₁ fun e he => List.mem_singleton.mp he ▸ poll_replies n call how
      refine ⟨hframed, h.ready, unanswered_exec hun ?_ hsys⟩
      have hpass := passOn_replies h.framed hframe hun hq hdone
      intro e he
      simp only [List.mem_cons, List.not_mem_nil, or_false] at he
      rcases he with rfl | rfl | rfl
      · exact hpass
      · exact fun _ _ _ he => absurd he (by simp)
      · exact fun _ _ _ he => absurd he (by simp)
  | tick t sys hsys =>
      exact ⟨hframed, h.ready, hlib hsys (by simp [RepliesBefore])⟩

end

/-- A call of `ask` that fails does so with `Closed` or with its own `Timeout`. -/
theorem failed_cases {μ ρ : Type} {tr : List (System μ ρ × Actor.Event μ ρ)} {s : System μ ρ}
    (h : Run Actor.step System.init tr s) : ∀ (k : AskId) (q : Ask μ ρ) (err : AskError),
      s.asks[k]? = some q → q.stage = .done (.error err) →
        err = .closed ∨ err = .timeout q.dur := by
  induction h with
  | nil => exact fun k q err hq => absurd hq (by simp [System.init])
  | @snoc tr s s' e _ hs ih =>
      intro k q' err hq' hst
      cases hq : s.asks[k]? with
      | none =>
          obtain ⟨_, p, b, m, dur, _, _, hopened⟩ := call_new hs hq hq'
          rcases hopened.stage with ⟨_, hpend⟩ | hst'
          · rw [hst] at hpend
            exact Bool.noConfusion hpend
          · rw [hst] at hst'
            exact Or.inl (Except.error.inj (Stage.done.inj hst'))
      | some q =>
          obtain ⟨q₁, hq₁, hmove⟩ := calls_step hs hq
          obtain rfl := Option.some.inj (hq₁.symm.trans hq')
          rw [hmove.terms.dur]
          have hnew : ∀ res, q₁.stage = .done res → res = .error err := by
            intro res hst'
            exact Stage.done.inj (hst'.symm.trans hst)
          cases hmove with
          | fades e hf =>
              rcases hf.stage with hst' | ⟨_, hst'⟩
              · exact ih k q err hq (hst' ▸ hst)
              · exact absurd (hst'.symm.trans hst) (by simp)
          | sent m t _ _ _ _ hst' => exact absurd (hst'.symm.trans hst) (by simp)
          | refused m _ _ hst' => exact Or.inl (Except.error.inj (hnew _ hst')).symm
          | answered d r _ _ _ hst' => exact absurd (hnew _ hst') (by simp)
          | broken d _ _ _ hst' => exact Or.inl (Except.error.inj (hnew _ hst')).symm
          | timedOut d _ _ _ hst' => exact Or.inr (Except.error.inj (hnew _ hst')).symm
          | reply p r _ _ hst' => exact ih k q err hq (hst' ▸ hst)

variable {d d' : Demo} {tr tr' : List (Demo × DeadlockBad.Event)}

theorem demo_lowered (h : Run DeadlockBad.step Demo.init tr d) :
    ∃ trA, Run Actor.step System.init trA d.sys := by
  obtain ⟨trA, hrun⟩ : ∃ trA, Run Actor.step Demo.init.sys trA d.sys :=
    h.lowered (f := Demo.sys) fun _ _ _ hs => (demo_lowers hs).imp fun _ hes => hes.1
  exact ⟨_, Run.append spawns_run hrun⟩

/--
**Once both actors know each other, nobody is answered.** Of the calls made from then on,
by a client or by a handler, to either actor, none ever gets a reply: each is pending, or
its caller has dropped it, or it has come to `Closed` or to `Timeout` after its own `dur`.
-/
theorem nobody_answered (h : Run DeadlockBad.step Demo.init tr d)
    (hset : ∀ w, d.slotSet w = true) (h' : Run DeadlockBad.step d tr' d') (k : AskId)
    (q : Ask Request String) (hk : d.sys.asks.length ≤ k) (hq : d'.sys.asks[k]? = some q) :
    q.stage.pending = true ∨ q.stage = .dropped ∨ q.stage = .done (.error .closed)
      ∨ q.stage = .done (.error (.timeout q.dur)) := by
  have hframed : Framed d := h.invariant framed_init fun _ _ _ hf hs => framed_step hf hs
  have hstart : Silent d.sys.asks.length d := by
    refine ⟨hframed, hset, fun k q r hk hq => ?_⟩
    rw [List.getElem?_eq_none hk] at hq
    exact absurd hq (by simp)
  have hend := h'.invariant hstart fun _ _ _ hsil hs => silent_step hsil hs
  obtain ⟨trA, hrun⟩ := demo_lowered (h.append h')
  cases hst : q.stage with
  | sending m => exact Or.inl rfl
  | awaiting dl => exact Or.inl rfl
  | dropped => exact Or.inr (Or.inl rfl)
  | done res =>
      refine Or.inr (Or.inr ?_)
      cases res with
      | ok r => exact absurd (Or.inr hst) (hend.unanswered k q r hk hq)
      | error err =>
          rcases failed_cases hrun k q err hq hst with rfl | rfl
          · exact Or.inl rfl
          · exact Or.inr rfl

/-- `main` up to its call. -/
def registered : List DeadlockBad.Event := [.started .a, .started .b, .set .a, .set .b]

theorem registered_slots : ∀ w, (after DeadlockBad.step .init registered).slotSet w = true := by
  intro w
  cases w <;> decide +kernel

/-- The call: A asks B, B asks A, and A's ask times out after two seconds. -/
def outerCall : List DeadlockBad.Event :=
  [.call .a (2 * innerDur), .recv .a, .handle .a, .recv .b, .handle .b, .tick innerDur,
   .poll .a .timesOut, .client 0 .resolves]

/-- `main`'s ask of four seconds is `Closed` after two. -/
theorem nobody_answered_outerCall :
    (after DeadlockBad.step (after DeadlockBad.step .init registered) outerCall).sys.clock = innerDur
      ∧ ∀ q, (after DeadlockBad.step (after DeadlockBad.step .init registered) outerCall).sys.asks[0]?
          = some q → q.stage.pending = true ∨ q.stage = .dropped
            ∨ q.stage = .done (.error .closed) ∨ q.stage = .done (.error (.timeout q.dur)) :=
  ⟨by decide +kernel, fun q hq => nobody_answered (Run.after (by decide +kernel))
    registered_slots (Run.after (by decide +kernel)) 0 q (by decide +kernel) hq⟩

/-! ## No request is worked off -/

/-- The request a handler has taken and not passed on yet. -/
def Frame.taken : Frame → Nat
  | .entered _ => 1
  | _ => 0

/-- The requests there are: on their way to an actor, or in a handler that is to pass them on. -/
def demand (d : Demo) : Nat := onWay d.sys + (Frame.taken (d.frame .a) + Frame.taken (d.frame .b))

def isCall : DeadlockBad.Event → Bool
  | .call _ _ => true
  | _ => false

/-- A client drops its call before the message is in the mailbox. -/
def givesUp (d : Demo) : DeadlockBad.Event → Bool
  | .clientDrops k => isUnsent d.sys k
  | _ => false

/-- The library has come here by steps of its own, and both tasks are there. -/
structure Serving (s : System Request String) : Prop where
  reached : ∃ tr, Run Actor.step System.init tr s
  up : Up s

section
variable {s s' : System Request String} {e : DeadlockBad.Event}
  {es : List (Actor.Event Request String)}

theorem serving_step {e : Actor.Event Request String} (h : Serving s)
    (hs : Actor.step s e = some s') (htame : tellsOrEnds e = false) : Serving s' := by
  obtain ⟨tr, hrun⟩ := h.reached
  exact ⟨⟨_, Run.snoc hrun hs⟩, up_step h.up hs htame⟩

theorem serving_exec (h : Serving s) (hs : exec Actor.step s es = some s')
    (htame : ∀ e ∈ es, tellsOrEnds e = false) : Serving s' :=
  exec_keeps hs h (fun _ _ _ h ht hs => serving_step h hs ht) htame

theorem serving_onWay {e : Actor.Event Request String} (h : Serving s)
    (hs : Actor.step s e = some s') (htame : tellsOrEnds e = false) :
    onWay s' + arrives s e = onWay s + setsOut e := by
  obtain ⟨tr, hrun⟩ := h.reached
  exact onWay_step hs h.up (fun i t ht => ((account_run hrun).tasks i t ht).1) htame

/-- Events that neither put a message on its way nor take one off. -/
def isQuiet : Actor.Event Request String → Bool
  | .ask _ _ _ _ => false
  | .recv _ => false
  | .dropAsk _ => false
  | e => !tellsOrEnds e

theorem quiet_exec (h : Serving s) (hs : exec Actor.step s es = some s')
    (hquiet : ∀ e ∈ es, isQuiet e = true) : onWay s' = onWay s := by
  have hboth : Serving s' ∧ onWay s' = onWay s := by
    refine exec_keeps (P := fun x => Serving x ∧ onWay x = onWay s) hs ⟨h, rfl⟩ ?_ hquiet
    intro x e x' hx hq hstep
    have htame : tellsOrEnds e = false := by
      cases e <;> first | rfl | exact absurd hq (by simp [isQuiet, tellsOrEnds])
    have hnone : arrives x e = 0 ∧ setsOut e = 0 := by
      cases e <;> first | exact ⟨rfl, rfl⟩ | exact absurd hq (by simp [isQuiet])
    have hsame := serving_onWay hx.1 hstep htame
    rw [hnone.1, hnone.2] at hsame
    exact ⟨serving_step hx.1 hstep htame, hsame.trans hx.2⟩
  exact hboth.2

/-- One event of the library. -/
theorem single_exec {e : Actor.Event Request String} (h : Serving s)
    (hs : exec Actor.step s [e] = some s') (htame : tellsOrEnds e = false) :
    onWay s' + arrives s e = onWay s + setsOut e := by
  obtain ⟨s₁, hs₁, hrest⟩ := Option.bind_eq_some_iff.mp hs
  obtain rfl := Option.some.inj hrest
  exact serving_onWay h hs₁ htame

/-- A handler goes on to `frame`. -/
theorem demand_goes (d : Demo) (sys : System Request String) (w : Who) (frame : Frame) :
    demand { d with sys := sys, frame := Function.update d.frame w frame }
        + Frame.taken (d.frame w)
      = onWay sys + (Frame.taken (d.frame .a) + Frame.taken (d.frame .b))
        + Frame.taken frame := by
  cases w <;> simp [demand, Function.update] <;> omega

theorem poll_quiet (k : AskId) (how : Poll) : isQuiet (how.event k) = true := by
  cases how <;> rfl

theorem passOn_quiet (w : Who) (reply : AskId) (res : Except AskError String) :
    isQuiet (passOn w reply res) = true := by
  cases res <;> rfl

/-- **One step.** A handler sends a request for the one it has taken before it returns. -/
theorem demand_step {d d' : Demo} (h : Serving d.sys) (hset : ∀ w, d.slotSet w = true)
    (hs : DeadlockBad.step d e = some d') :
    demand d' + (if givesUp d e then 1 else 0) = demand d + (if isCall e then 1 else 0) := by
  -- a step that neither sends nor takes a request
  have hquiet : ∀ {es : List (Actor.Event Request String)} {sys : System Request String},
      exec Actor.step d.sys es = some sys → (∀ e ∈ es, isQuiet e = true) →
        onWay sys = onWay d.sys := fun hsys hq => quiet_exec h hsys hq
  have hframes : ∀ {sys : System Request String} {slots : Who → Bool}, onWay sys = onWay d.sys →
      demand { d with sys := sys, slotSet := slots } = demand d := fun hsame =>
    congrArg (· + (Frame.taken (d.frame .a) + Frame.taken (d.frame .b))) hsame
  cases demo_takes hs with
  | started w sys hsys => exact hframes (hquiet hsys (by simp [isQuiet, tellsOrEnds]))
  | set w sys hsys => exact hframes (hquiet hsys (by simp [isQuiet, tellsOrEnds]))
  | call w dur sys hsys =>
      have hmore := single_exec h hsys rfl
      show onWay sys + (Frame.taken (d.frame .a) + Frame.taken (d.frame .b)) + 0 = _
      have hmore : onWay sys = onWay d.sys + 1 := hmore
      unfold demand
      rw [hmore]
      show _ = _ + 1
      omega
  | client k how sys hsys =>
      exact hframes (hquiet hsys fun e he => List.mem_singleton.mp he ▸ poll_quiet k how)
  | clientDrops k sys hsys =>
      have hless := single_exec h hsys rfl
      have hless : onWay sys + (if isUnsent d.sys k then 1 else 0) = onWay d.sys := hless
      show onWay sys + (Frame.taken (d.frame .a) + Frame.taken (d.frame .b))
        + (if isUnsent d.sys k then 1 else 0) = _
      unfold demand
      rw [← hless]
      show _ = _ + 0
      omega
  | recv w reply sys hidle _ hsys =>
      have hless := single_exec h hsys rfl
      have hless : onWay sys + 1 = onWay d.sys := hless
      have hgoes := demand_goes d sys w (.entered reply)
      rw [hidle] at hgoes
      have hgoes : demand { d with sys := sys, frame := Function.update d.frame w (.entered reply) }
          = onWay sys + (Frame.taken (d.frame .a) + Frame.taken (d.frame .b)) + 1 := hgoes
      rw [hgoes]
      unfold demand
      rw [← hless]
      show _ + 0 = _ + 0
      omega
  | asks w reply request sys hframe _ hsys =>
      -- the request taken up is owed no more: the one to the other actor is on its way
      obtain ⟨s₁, hpass, hask⟩ := Option.bind_eq_some_iff.mp hsys
      have hsame := serving_onWay h hpass rfl
      have hmore := single_exec (serving_step h hpass rfl) hask rfl
      have hsame : onWay s₁ = onWay d.sys := hsame
      have hmore : onWay sys = onWay s₁ + 1 := hmore
      have hgoes := demand_goes d sys w (.asking reply d.sys.asks.length)
      rw [hframe, hmore, hsame] at hgoes
      have hgoes : demand _ + 1
          = onWay d.sys + 1 + (Frame.taken (d.frame .a) + Frame.taken (d.frame .b)) + 0 := hgoes
      show demand _ + 0 = onWay d.sys + (Frame.taken (d.frame .a) + Frame.taken (d.frame .b)) + 0
      omega
  | turnsAway w reply notReady sys _ hunset _ =>
      -- no handler finds its slot unset
      rw [hset] at hunset
      exact Bool.noConfusion hunset
  | waits w how reply call sys _ hsys =>
      exact hframes (hquiet hsys fun e he => List.mem_singleton.mp he ▸ poll_quiet call how)
  | returns w how reply call sys₁ sys q res hframe h₁ _ _ hsys =>
      have hsame : onWay sys = onWay d.sys := by
        -- the last poll, the reply and the return bring no request
        refine hquiet (exec_append h₁ hsys) fun e he => ?_
        rcases List.mem_append.mp he with he | he
        · exact List.mem_singleton.mp he ▸ poll_quiet call how
        · simp only [List.mem_cons, List.not_mem_nil, or_false] at he
          rcases he with rfl | rfl | rfl
          · exact passOn_quiet w reply res
          · rfl
          · rfl
      have hgoes := demand_goes d sys w .idle
      rw [hframe, hsame] at hgoes
      exact hgoes
  | tick t sys hsys => exact hframes (hquiet hsys (by simp [isQuiet, tellsOrEnds]))

end

theorem serving_demo {d d' : Demo} {e : DeadlockBad.Event} (h : Serving d.sys)
    (hs : DeadlockBad.step d e = some d') : Serving d'.sys := by
  obtain ⟨es, hes, htame⟩ := demo_lowers hs
  exact serving_exec h hes htame

theorem serving_init : Serving Demo.init.sys := by
  refine ⟨⟨_, spawns_run⟩, spawns_run.guarded (P := Up)
    (C := fun _ e => tellsOrEnds e = false) (fun i t ht => absurd ht (by simp [System.init]))
    (fun _ _ _ h ht hs => up_step h hs ht) fun x hx => ?_⟩
  have hall : ∀ e ∈ spawns, tellsOrEnds e = false := by decide
  exact hall x.2 (mem_of_traceOf hx)

theorem slots_stay {d d' : Demo} {e : DeadlockBad.Event} (hset : ∀ w, d.slotSet w = true)
    (hs : DeadlockBad.step d e = some d') : ∀ w, d'.slotSet w = true := by
  cases demo_takes hs with
  | set w sys _ =>
      intro v
      show Function.update d.slotSet w true v = true
      by_cases hvw : v = w
      · rw [hvw, Function.update_self]
      · rw [Function.update_of_ne hvw, hset]
  | _ => exact hset

/--
**Once both actors know each other, no request is worked off.** From then on there are as
many requests, waiting in the mailboxes or for a slot there or taken by a handler that is
still to pass them on, as there were at that moment, with those of the calls that clients
have made since, less those a client has taken back before they got into a mailbox.
-/
theorem requests_go_round {d d' : Demo} {tr tr' : List (Demo × DeadlockBad.Event)}
    (h : Run DeadlockBad.step Demo.init tr d) (hset : ∀ w, d.slotSet w = true)
    (h' : Run DeadlockBad.step d tr' d') :
    demand d' + tr'.countP (fun x => givesUp x.1 x.2)
      = demand d + tr'.countP (fun x => isCall x.2) := by
  have hlive : Serving d.sys := h.invariant (P := fun d => Serving d.sys) serving_init
    fun _ _ _ hl hs => serving_demo hl hs
  have hbalance := Run.balanced (R := fun d => Serving d.sys ∧ ∀ w, d.slotSet w = true)
    (f := demand) (fun d e => if givesUp d e then 1 else 0) (fun _ e => if isCall e then 1 else 0)
    h' ⟨hlive, hset⟩
    (fun _ _ _ hl hs => ⟨serving_demo hl.1 hs, slots_stay hl.2 hs⟩)
    (fun _ _ _ hl hs => demand_step hl.1 hl.2 hs)
  have hcost : (tr'.map fun x => if givesUp x.1 x.2 then 1 else 0).sum
      = tr'.countP (fun x => givesUp x.1 x.2) := weigh_one
  have hgain : (tr'.map fun x => if isCall x.2 then 1 else 0).sum
      = tr'.countP (fun x => isCall x.2) := weigh_one
  rw [← hcost, ← hgain]
  exact hbalance

theorem requests_go_round_outerCall :
    demand (after DeadlockBad.step (after DeadlockBad.step .init registered) outerCall) = 1 := by
  have hfirst : Run DeadlockBad.step .init (traceOf DeadlockBad.step .init registered)
      (after DeadlockBad.step .init registered) := Run.after (by decide +kernel)
  have hrest : Run DeadlockBad.step (after DeadlockBad.step .init registered)
      (traceOf DeadlockBad.step (after DeadlockBad.step .init registered) outerCall)
      (after DeadlockBad.step (after DeadlockBad.step .init registered) outerCall) :=
    Run.after (by decide +kernel)
  have hrounds := requests_go_round hfirst registered_slots hrest
  have hnone : demand (after DeadlockBad.step .init registered) = 0 := by decide +kernel
  have hcalls : (traceOf DeadlockBad.step (after DeadlockBad.step .init registered) outerCall).countP
      (fun x => isCall x.2) = 1 := by decide +kernel
  have hkept : (traceOf DeadlockBad.step (after DeadlockBad.step .init registered) outerCall).countP
      (fun x => givesUp x.1 x.2) = 0 := by decide +kernel
  rw [hnone, hcalls, hkept] at hrounds
  exact hrounds

end ErlangActors.Proof
