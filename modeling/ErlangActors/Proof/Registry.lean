import ErlangActors.Proof.Delivery
import ErlangActors.Proof.Linked

/-!
# Whom the registry names

An actor that keeps its own `Addr` never leaves its receive loop, so a supervised one comes
to its end by a panic or by an abort and in no other way, and the supervisor counts its
report. Hence a name in the registry goes dead only for as long as it takes the supervisor
to get to that report: at the loop head every worker that was looked up either takes
messages or has its report waiting; and left to itself the supervisor has soon replaced
every worker that is gone, or has given up.
-/

namespace ErlangActors.Proof

open Actor Channel Supervised Supervision Transition

variable {μ ρ : Type} {maxPermits : Nat} {sup : Supervisor Factory}

/-! ## Workers do not return -/

section
variable {s s' : System μ ρ} {e : Actor.Event μ ρ} {a : ActorId}
  {tr : List (System μ ρ × Actor.Event μ ρ)}

/-- An actor that keeps its own `Addr` never leaves its receive loop. -/
theorem never_stops (h : Run Actor.step System.init tr s)
    (hkeep : ∀ x ∈ tr, ∀ i b, x.2 ≠ .replaceSelf i b) :
    ∀ (a : ActorId) (t : ActorTask μ), s.actors[a]? = some t →
      t.phase ≠ .stopping ∧ t.phase ≠ .ended .returned := by
  induction h with
  | nil => exact fun a t ht => absurd ht (by simp [System.init])
  | @snoc tr s s' e hr hstep ih =>
      have hold := ih fun x hx => hkeep x (List.mem_append_left _ hx)
      intro a t' ht'
      cases ht : s.actors[a]? with
      | none =>
          rcases (step_born hstep ht' ht).phase with hph | hturn
          · rw [hph]
            exact ⟨by simp, by simp⟩
          · obtain ⟨t, ht₁, _⟩ := turn_step hstep hturn
            exact absurd (ht.symm.trans ht₁) (by simp)
      | some t =>
          rcases phase_step hstep ht ht' with ⟨_, hph⟩ | hmove
          · rw [hph]
            exact hold a t ht
          · have hnot := (hold a t ht).1
            generalize hph : t.phase = ph at hmove hnot
            generalize t'.phase = ph' at hmove ⊢
            cases hmove with
            | recvNone =>
                -- `None` is there only when nobody holds the actor's `Addr`, and its task does
                have hself := selfAddr_own (i := a) hr
                  (fun x hx b => hkeep x (List.mem_append_left _ hx) a b) ht
                have htakes := step_takes hstep
                cases htakes with
                | recvNone _ t₁ ht₁ _ _ hnone =>
                    refine absurd (mem_allAddrs.mpr ⟨.task a, mem_task.mpr ⟨t, ht, ?_⟩⟩) hnone
                    unfold ActorTask.held
                    rw [hph]
                    exact List.mem_cons.mpr (Or.inl hself.symm)
            | returned => exact absurd rfl hnot
            | started => exact ⟨by simp, by simp⟩
            | recv m => exact ⟨by simp, by simp⟩
            | handled m => exact ⟨by simp, by simp⟩
            | panicked ph _ => exact ⟨by simp, by simp⟩
            | aborted ph _ => exact ⟨by simp, by simp⟩

theorem ends_returned (he : ends s e = some (a, .returned)) :
    ∃ t, s.actors[a]? = some t ∧ t.phase = .stopping := by
  cases e with
  | returns i =>
      unfold ends at he
      dsimp only at he
      split at he
      · rename_i hph
        obtain ⟨rfl, _⟩ := Prod.mk.inj (Option.some.inj he)
        obtain ⟨t, ht, hph⟩ := Option.map_eq_some_iff.mp hph
        exact ⟨t, ht, hph⟩
      · exact absurd he (by simp)
  | _ => exact absurd he (by simp [ends])

end

/-- No worker has replaced its `ctx.self_addr`. -/
def KeepOwn (tr : List (Pool μ ρ × Supervised.Event μ ρ)) : Prop :=
  ∀ x ∈ tr, ∀ i b, x.2 ≠ .actors (.replaceSelf i b)

section
variable {p p' : Pool μ ρ} {tr : List (Pool μ ρ × Supervised.Event μ ρ)}

theorem pool_actors_run (h : Run (Supervised.step maxPermits sup) (Pool.init sup) tr p)
    (hkeep : KeepOwn tr) :
    ∃ trA, Run Actor.step System.init trA p.system ∧ ∀ x ∈ trA, ∀ i b, x.2 ≠ .replaceSelf i b := by
  refine h.lowered_meeting (f := Pool.system)
    (C := fun _ (e : Supervised.Event μ ρ) => ∀ i b, e ≠ .actors (.replaceSelf i b))
    (D := fun (e : Actor.Event μ ρ) => ∀ i b, e ≠ .replaceSelf i b) ?_ fun x hx => hkeep x hx
  intro p e p' hno hs
  obtain ⟨es, hes, hall⟩ := pool_lowers hs
  refine ⟨es, hes, fun e' he' i b heq => ?_⟩
  subst heq
  rcases hall _ he' with he | hout
  · exact hno i b he
  · exact Bool.noConfusion hout

/-- No child ends but by a panic or an abort. -/
theorem never_returned (h : Run (Supervised.step maxPermits sup) (Pool.init sup) tr p)
    (hkeep : KeepOwn tr) :
    ∀ c, p.world.endingOf c ≠ some .returned := by
  induction h with
  | nil => exact fun c hc => absurd hc (by simp [Pool.init, World.init, World.endingOf])
  | @snoc tr p p' e hr hstep ih =>
      have hkeep' : KeepOwn tr := fun x hx => hkeep x (List.mem_append_left _ hx)
      have hold := ih hkeep'
      obtain ⟨es, hes, hends⟩ := pool_lowers_supervisor hstep
      refine exec_keeps (P := fun w : World Factory => ∀ c, w.endingOf c ≠ some .returned)
        (C := fun e => ∀ c, e ≠ .childEnds c .returned) hes hold ?_ ?_
      · intro w e w' hw hne hs c
        by_cases he : ∃ how, e = .childEnds c how
        · obtain ⟨how, rfl⟩ := he
          have hmove := step_moves hs
          cases hmove with
          | leave hl => cases hl
          | ends hlt _ _ =>
              rw [endTask_endingOf hlt, if_pos rfl]
              exact fun heq => hne c (congrArg _ (Option.some.inj heq))
        · rw [endingOf_step_other hs fun how heq => he ⟨how, heq⟩]
          exact hw c
      · rintro e' he' c rfl
        obtain ⟨ea, rfl, hchild⟩ := hends _ he' rfl
        obtain ⟨⟨a, how⟩, hend, hmap⟩ := Option.bind_eq_some_iff.mp hchild
        obtain ⟨d, _, hev⟩ := Option.map_eq_some_iff.mp hmap
        obtain ⟨rfl, rfl⟩ := Supervision.Event.childEnds.inj hev
        obtain ⟨t, ht, hph⟩ := ends_returned hend
        obtain ⟨trA, hrunA, hkeepA⟩ := pool_actors_run hr hkeep'
        exact (never_stops hrunA hkeepA a t ht).1 hph

theorem pool_noNormal (h : Run (Supervised.step maxPermits sup) (Pool.init sup) tr p)
    (hkeep : KeepOwn tr) :
    NoNormal p.world := by
  obtain ⟨trW, hrunW⟩ := pool_supervisor_run h
  intro r hr hnormal
  obtain ⟨_, how, hend, hreason⟩ := (inv_reachable hrunW).reported r hr
  rw [hreason, Ending.reason_eq_normal] at hnormal
  rw [hnormal] at hend
  exact never_returned h hkeep r.child hend

end

/-! ## The registry is current -/

/-- Actor `a` is there, and its mailbox is open. -/
def Serves (s : System μ ρ) (a : ActorId) : Prop :=
  ∃ t, s.actors[a]? = some t ∧ t.phase.live = true ∧ t.mailbox.closed = false

section
variable {p p' : Pool μ ρ} {tr tr' : List (Pool μ ρ × Supervised.Event μ ρ)} {i : Nat}
  {spec : ChildSpec Factory}

/-- A child that has not ended takes messages. -/
theorem serves_iff (h : Run (Supervised.step maxPermits sup) (Pool.init sup) tr p)
    (hl : Linked sup p) {c : Nat} {a : ActorId} (hca : p.actorOf[c]? = some a) :
    Serves p.system a ↔ p.world.endingOf c = none := by
  obtain ⟨t, ht, hlive⟩ := hl.runs c a hca
  obtain ⟨trA, hrunA⟩ := h.lowered (f := Pool.system) fun _ _ _ hs =>
    (pool_lowers hs).imp fun _ hes => hes.1
  have hsound := ((account_run hrunA).tasks a t ht).1
  rw [hlive]
  refine ⟨?_, fun hphase => ⟨t, ht, hphase, by rw [hsound.closed, hphase]; rfl⟩⟩
  rintro ⟨t₁, ht₁, hphase, _⟩
  obtain rfl := Option.some.inj (ht.symm.trans ht₁)
  exact hphase

/-- Where no factory is called, the supervisor's step is its own. -/
theorem supervise_quiet {e : Supervision.Event} (hcallee : callee sup p.world = none)
    (halone : alone e = true) : Supervised.step maxPermits sup p (.supervisor e)
      = (Supervision.step sup p.world e).map fun w => { p with world := w } := by
  show p.supervise maxPermits sup e = _
  unfold Pool.supervise
  rw [if_pos halone, hcallee]

theorem supervise_calls {f : Factory} (hcallee : callee sup p.world = some f) :
    Supervised.step maxPermits sup p (.supervisor .advance) = p.callFactory maxPermits sup f := by
  show p.supervise maxPermits sup .advance = _
  unfold Pool.supervise
  rw [hcallee]
  rfl

/-- The supervisor takes a report exactly when the child has ended. -/
theorem joinNext_isSome {f : Forwarder} (hpc : p.world.pc = .loopHead)
    (hf : f ∈ p.world.joinset) :
    Supervised.step maxPermits sup p (.supervisor (.joinNext f)) = none
      ↔ p.world.endingOf f.child = none := by
  have hcallee : callee sup p.world = none := by
    unfold callee
    rw [hpc]
  rw [supervise_quiet hcallee rfl, Option.map_eq_none_iff, Supervision.step, if_pos ⟨hpc, hf⟩,
    Option.map_eq_none_iff]

/-- What the registry has for a child at the loop head. -/
theorem registry_entry (hkeys : (sup.children.map fun spec => spec.factory.workerId).Nodup)
    (hsup : NoTemporary sup) (h : Run (Supervised.step maxPermits sup) (Pool.init sup) tr p)
    (hkeep : KeepOwn tr) (hpc : p.world.pc = .loopHead) (hspec : sup.children[i]? = some spec) :
    ∃ c a, latest p.world i = some c ∧ p.actorOf[c]? = some a
      ∧ p.registry spec.factory.workerId = some a
      ∧ (Serves p.system a
        ↔ Supervised.step maxPermits sup p (.supervisor (.joinNext { idx := i, child := c }))
          = none) := by
  have hl := linked_reachable hkeys h
  obtain ⟨trW, hrunW⟩ := pool_supervisor_run h
  obtain ⟨c, hc, hmem⟩ := latest_awaited hrunW hsup (pool_noNormal h hkeep) hpc
    (List.getElem?_eq_some_iff.mp hspec).1
  have hlt : c < p.actorOf.length := hl.count ▸ slotOf_lt (latest_spec hc).1
  have hca : p.actorOf[c]? = some p.actorOf[c] := List.getElem?_eq_getElem hlt
  refine ⟨c, _, hc, hca, ?_, ?_⟩
  · rw [hl.registry i spec hspec, hc, Option.bind_some, hca]
  · rw [serves_iff h hl hca, joinNext_isSome hpc hmem]

/--
**Whoever is looked up in the registry takes messages, or the supervisor knows.**

In every state of every run the registry has, for every child that was ever started, the
actor of its latest incarnation. At the loop head every child has been started, and that
actor takes messages exactly as long as the supervisor has no report of it to take.
-/
theorem registry_current (hkeys : (sup.children.map fun spec => spec.factory.workerId).Nodup)
    (hsup : NoTemporary sup) (h : Run (Supervised.step maxPermits sup) (Pool.init sup) tr p)
    (hkeep : KeepOwn tr) {x : Pool μ ρ} (hx : Visits tr p x)
    (hspec : sup.children[i]? = some spec) :
    (∀ c, latest x.world i = some c →
        ∃ a, x.actorOf[c]? = some a ∧ x.registry spec.factory.workerId = some a)
      ∧ (x.world.pc = .loopHead →
        ∃ c a, latest x.world i = some c ∧ x.actorOf[c]? = some a
          ∧ x.registry spec.factory.workerId = some a
          ∧ (Serves x.system a
            ↔ Supervised.step maxPermits sup x (.supervisor (.joinNext { idx := i, child := c }))
              = none)) := by
  obtain ⟨tr₁, hpre, h₁⟩ := h.upTo hx
  have hl := linked_reachable hkeys h₁
  refine ⟨fun c hc => ?_, fun hpc =>
    registry_entry hkeys hsup h₁ (fun y hy => hkeep y (hpre.subset hy)) hpc hspec⟩
  have hlt : c < x.actorOf.length := hl.count ▸ slotOf_lt (latest_spec hc).1
  have hca : x.actorOf[c]? = some x.actorOf[c] := List.getElem?_eq_getElem hlt
  exact ⟨_, hca, by rw [hl.registry i spec hspec, hc, Option.bind_some, hca]⟩

end

/-- `Semaphore::MAX_PERMITS` where a `usize` has 64 bits. -/
def maxPermits64 : Nat := (2 ^ 64 - 1) >>> 3

/-- Two actors, each a permanent child. -/
def twoActors : Supervisor Factory :=
  ((Supervisor.new (.defaultOneForOne "sup")).child ⟨"first", .permanent, ⟨0, 1⟩⟩).child
    ⟨"second", .permanent, ⟨1, 1⟩⟩

/-- Both are started, and the first panics in `started`. -/
def firstGone : List (Supervised.Event Nat Nat) :=
  [.supervisor .advance, .supervisor .advance, .actors (.panics 0)]

def afterPanic : Pool Nat Nat :=
  after (Supervised.step maxPermits64 twoActors) (Pool.init twoActors) firstGone

theorem afterPanic_run : Run (Supervised.step maxPermits64 twoActors) (Pool.init twoActors)
    (traceOf (Supervised.step maxPermits64 twoActors) (Pool.init twoActors) firstGone) afterPanic :=
  Run.after (by decide +kernel)

theorem afterPanic_keepOwn :
    KeepOwn (traceOf (Supervised.step maxPermits64 twoActors) (Pool.init twoActors) firstGone) := by
  intro x hx i b
  have he := mem_of_traceOf hx
  simp only [firstGone, List.mem_cons, List.not_mem_nil, or_false] at he
  rcases he with he | he | he <;> rw [he] <;> simp

/-- The first worker is still in the registry, and gone; the supervisor is about to hear of it. -/
theorem registry_current_firstGone :
    ∃ a, afterPanic.registry 0 = some a ∧ ¬ Serves afterPanic.system a := by
  have hcurrent := (registry_current (i := 0) (by decide) (by decide) afterPanic_run
    afterPanic_keepOwn Visits.last rfl).2 (by decide +kernel)
  obtain ⟨c, a, hc, _, hreg, hserves⟩ := hcurrent
  have hzero : latest afterPanic.world 0 = some 0 := by decide +kernel
  obtain rfl := Option.some.inj (hc.symm.trans hzero)
  have hready : (Supervised.step maxPermits64 twoActors afterPanic
      (.supervisor (.joinNext ⟨0, 0⟩))).isSome = true := by decide +kernel
  refine ⟨a, hreg, fun hs => ?_⟩
  rw [hserves.mp hs] at hready
  exact Bool.noConfusion hready

/-! ## It heals -/

/-- A step of the supervisor's own, in which nothing outside it goes wrong: it is not aborted, and
no forwarder panics. -/
def selfDriven : Supervised.Event μ ρ → Bool
  | .supervisor .advance => true
  | .supervisor (.joinNext _) => true
  | .supervisor .joinNone => true
  | _ => false

section
variable {p p' : Pool μ ρ} {tr tr' : List (Pool μ ρ × Supervised.Event μ ρ)}
  {e : Supervised.Event μ ρ}

theorem spawns_isSome {f : Factory} (hbound : channelPanics maxPermits f.mailboxBound = false) :
    (exec Actor.step p.system (p.spawns f)).isSome = true := by
  have hpos : 0 < f.mailboxBound :=
    Nat.pos_of_ne_zero fun hzero => absurd hbound (by simp [channelPanics, hzero])
  have hnew : Actor.step p.system (.spawn .outside f.mailboxBound)
      = some (p.system.spawn .outside f.mailboxBound) := by
    rw [Actor.step, if_pos ⟨rfl, hpos⟩]
  unfold Pool.spawns
  rw [exec, hnew, Option.bind_some]
  cases p.registry f.workerId with
  | none => rfl
  | some old => rfl

/-- Short of the loop head the supervisor can go on. -/
theorem advance_isSome (hi : Inv sup p.world)
    (hbounds : ∀ spec ∈ sup.children,
      channelPanics maxPermits spec.factory.mailboxBound = false) (hclean : p.poisoned = false)
    (hlive : p.world.pc.live = true) (hpc : p.world.pc ≠ .loopHead) :
    (Supervised.step maxPermits sup p (.supervisor .advance)).isSome = true := by
  have hadvance : (Supervision.step sup p.world .advance).isSome = true := by
    rw [Supervision.step]
    cases hp : p.world.pc with
    | starting i =>
        have hlt := hi.todoLt i (by rw [hp]; exact List.mem_cons_self ..)
        dsimp only
        rw [List.getElem?_eq_getElem hlt]
        rfl
    | restarting i rest => rfl
    | respawning i rest => rfl
    | loopHead => exact absurd hp hpc
    | returned _ => rw [hp] at hlive; exact Bool.noConfusion hlive
    | unwound _ => rw [hp] at hlive; exact Bool.noConfusion hlive
    | cut => rw [hp] at hlive; exact Bool.noConfusion hlive
  obtain ⟨w, hw⟩ := Option.isSome_iff_exists.mp hadvance
  cases hcallee : callee sup p.world with
  | none =>
      rw [supervise_quiet hcallee rfl, hw]
      rfl
  | some f =>
      obtain ⟨i, spec, hspec, rfl, _⟩ := callee_cases hi hcallee
      have hbound := hbounds spec (List.mem_of_getElem? hspec)
      obtain ⟨s, hs⟩ := Option.isSome_iff_exists.mp (spawns_isSome (p := p) hbound)
      rw [supervise_calls hcallee]
      unfold Pool.callFactory
      rw [hbound, if_neg Bool.false_ne_true, hclean, if_neg Bool.false_ne_true, hs,
        Option.bind_some, hw]
      rfl

/-- **Each of its own steps is paid for** out of what it had left. -/
theorem selfDriven_pays (hi : Inv sup p.world) (hs : Supervised.step maxPermits sup p e = some p')
    (hown : selfDriven e = true) :
    stepsLeft sup.children.length p'.world + 1 ≤ stepsLeft sup.children.length p.world := by
  have hone : ∀ {e : Supervision.Event} {w : World Factory}, ownStep e = true →
      isEnding e = false → Supervision.step sup p.world e = some w →
      stepsLeft sup.children.length w + 1 ≤ stepsLeft sup.children.length p.world := by
    intro e w hstep hend hw
    have hpaid := stepsLeft_step hi hw
    rw [hstep, hend] at hpaid
    exact hpaid
  cases pool_takes hs with
  | supervises e w halone _ hw =>
      cases e with
      | advance => exact hone rfl rfl hw
      | joinNext f => exact hone rfl rfl hw
      | joinNone => exact hone rfl rfl hw
      | _ => exact Bool.noConfusion hown
  | calls f s w _ _ _ hw => exact hone rfl rfl hw
  | panics f es s w _ _ _ hw => exact hone rfl rfl hw
  | acts e w s _ _ _ => exact Bool.noConfusion hown
  | poison => exact Bool.noConfusion hown
  | tick d w s _ _ => exact Bool.noConfusion hown

/-- Where every child it waits for runs, there is none. -/
theorem selfDriven_asleep (hpc : p.world.pc = .loopHead) (hne : p.world.joinset ≠ [])
    (hrun : ∀ f ∈ p.world.joinset, p.world.endingOf f.child = none) (hown : selfDriven e = true) :
    Supervised.step maxPermits sup p e = none := by
  have hcallee : callee sup p.world = none := by
    unfold callee
    rw [hpc]
  have hnone : ∀ {e : Supervision.Event}, alone e = true → ownStep e = true → e ≠ .cutOff →
      Supervised.step maxPermits sup p (.supervisor e) = none := by
    intro e halone hstep hcut
    rw [supervise_quiet hcallee halone, asleep hpc hne hrun hstep hcut]
    rfl
  cases e with
  | supervisor e =>
      cases e with
      | advance => exact hnone rfl rfl (by simp)
      | joinNext f => exact hnone rfl rfl (by simp)
      | joinNone => exact hnone rfl rfl (by simp)
      | _ => exact Bool.noConfusion hown
  | actors e => exact Bool.noConfusion hown
  | poison => exact Bool.noConfusion hown
  | tick d => exact Bool.noConfusion hown

/-- The supervisor is at work, or has given up; with no children it has nothing to do. -/
structure AtWork (sup : Supervisor Factory) (p : Pool μ ρ) : Prop where
  clean : p.poisoned = false
  there : p.world.pc.live = true ∨ Escalated p.world ∨ sup.children = []

theorem atWork_step (hsup : NoTemporary sup)
    (hbounds : ∀ spec ∈ sup.children,
      channelPanics maxPermits spec.factory.mailboxBound = false)
    (h : Run (Supervised.step maxPermits sup) (Pool.init sup) tr p) (hkeep : KeepOwn tr)
    (hwork : AtWork sup p) (hs : Supervised.step maxPermits sup p e = some p')
    (hown : selfDriven e = true) : AtWork sup p' := by
  obtain ⟨trW, hrunW⟩ := pool_supervisor_run h
  have hi := inv_reachable hrunW
  cases pool_takes hs with
  | supervises e w halone _ hw =>
      refine ⟨hwork.clean, ?_⟩
      have hmove := step_moves hw
      show w.pc.live = true ∨ _
      cases hmove with
      | spawn _ _ => exact Or.inl (start_live _ _)
      | abort _ _ => exact Or.inl rfl
      | respawn _ _ => exact Or.inl (pass_live _)
      | badReport _ hf hslot => exact (hi.no_badReport hf hslot).elim
      | ignore hpc _ _ _ _ => exact Or.inl (show p.world.pc.live = true by rw [hpc]; rfl)
      | escalate _ _ _ _ _ _ => exact Or.inr (Or.inl rfl)
      | pass _ _ _ _ _ _ => exact Or.inl (pass_live _)
      | leave hl =>
          cases hl with
          | factoryPanics _ => exact Bool.noConfusion halone
          | badIndex hpc hslot => exact (hi.no_badIndex hpc hslot).elim
          | forwarder _ _ _ => exact Bool.noConfusion hown
          | cutOff _ => exact Bool.noConfusion hown
          | stopped hpc hempty _ =>
              -- a child would be awaited
              refine Or.inr (Or.inr (List.eq_nil_iff_length_eq_zero.mpr ?_))
              by_contra hpos
              obtain ⟨c, _, hmem⟩ := latest_awaited hrunW hsup (pool_noNormal h hkeep) hpc
                (Nat.pos_of_ne_zero hpos)
              rw [hempty] at hmem
              exact absurd hmem List.not_mem_nil
      | spin hpc _ _ => exact Or.inl (by rw [hpc]; rfl)
      | ends _ _ _ => exact Bool.noConfusion halone
      | tick => exact Bool.noConfusion halone
  | calls f s w hcallee _ _ hw =>
      refine ⟨hwork.clean, Or.inl ?_⟩
      have hmove := step_moves hw
      show w.pc.live = true
      cases hmove with
      | spawn _ _ => exact start_live _ _
      | abort _ _ => rfl
      | respawn _ _ => exact pass_live _
      | leave hl =>
          cases hl with
          | badIndex hpc hslot => exact (hi.no_badIndex hpc hslot).elim
  | panics f es s w hcallee hes _ _ =>
      obtain ⟨i, spec, hspec, rfl, _⟩ := callee_cases hi hcallee
      rcases hes with ⟨_, hchannel⟩ | ⟨_, hpoisoned⟩
      · rw [hbounds spec (List.mem_of_getElem? hspec)] at hchannel
        exact Bool.noConfusion hchannel
      · exact Bool.noConfusion (hwork.clean.symm.trans hpoisoned)
  | acts e w s _ _ _ => exact Bool.noConfusion hown
  | poison => exact Bool.noConfusion hown
  | tick d w s _ _ => exact Bool.noConfusion hown

theorem keepOwn_selfDriven (hkeep : KeepOwn tr) (hown : ∀ x ∈ tr', selfDriven x.2 = true) :
    KeepOwn (tr ++ tr') := by
  intro x hx i b he
  rcases List.mem_append.mp hx with hx | hx
  · exact hkeep x hx i b he
  · have hself := hown x hx
    rw [he] at hself
    exact Bool.noConfusion hself

/-- What the supervisor's own steps come to. -/
theorem selfDriven_run (hsup : NoTemporary sup)
    (hbounds : ∀ spec ∈ sup.children,
      channelPanics maxPermits spec.factory.mailboxBound = false)
    (h : Run (Supervised.step maxPermits sup) (Pool.init sup) tr p) (hkeep : KeepOwn tr)
    (hwork : AtWork sup p)
    (h' : Run (Supervised.step maxPermits sup) p tr' p') (hown : ∀ x ∈ tr', selfDriven x.2 = true) :
    AtWork sup p' ∧ stepsLeft sup.children.length p'.world + tr'.length
      ≤ stepsLeft sup.children.length p.world := by
  induction h' with
  | nil => exact ⟨hwork, Nat.le_refl _⟩
  | @snoc tr₁ p₁ p₂ e hr hstep ih =>
      have hown₁ : ∀ x ∈ tr₁, selfDriven x.2 = true := fun x hx =>
        hown x (List.mem_append_left _ hx)
      have hlast : selfDriven e = true :=
        hown (p₁, e) (List.mem_append_right _ (List.mem_singleton.mpr rfl))
      obtain ⟨hwork₁, hpaid⟩ := ih hown₁
      obtain ⟨trW, hrunW⟩ := pool_supervisor_run (h.append hr)
      have hpays := selfDriven_pays (inv_reachable hrunW) hstep hlast
      refine ⟨atWork_step hsup hbounds (h.append hr) (keepOwn_selfDriven hkeep hown₁) hwork₁ hstep
        hlast, ?_⟩
      rw [List.length_append, List.length_singleton]
      omega

/--
**Left to itself, the supervisor replaces every worker that is gone, or gives up.**

From any state on, its own steps come to an end after `stepsLeft` of them at the latest;
and where there is none left to take, it has exceeded its restarts, or every worker in the
registry takes messages.
-/
theorem pool_heals (hkeys : (sup.children.map fun spec => spec.factory.workerId).Nodup)
    (hsup : NoTemporary sup) (hbounds : ∀ spec ∈ sup.children,
      channelPanics maxPermits spec.factory.mailboxBound = false)
    (h : Run (Supervised.step maxPermits sup) (Pool.init sup) tr p) (hkeep : KeepOwn tr)
    (hlive : p.world.pc.live = true) (hclean : p.poisoned = false)
    (h' : Run (Supervised.step maxPermits sup) p tr' p') (hown : ∀ x ∈ tr', selfDriven x.2 = true) :
    tr'.length ≤ stepsLeft sup.children.length p.world
      ∧ ((∀ e, selfDriven e = true → Supervised.step maxPermits sup p' e = none) →
        Escalated p'.world ∨ ∀ (i : Nat) (spec : ChildSpec Factory), sup.children[i]? = some spec →
          ∃ a, p'.registry spec.factory.workerId = some a ∧ Serves p'.system a) := by
  obtain ⟨hwork, hpaid⟩ := selfDriven_run hsup hbounds h hkeep ⟨hclean, Or.inl hlive⟩ h' hown
  refine ⟨by omega, fun hidle => ?_⟩
  rcases hwork.there with hlive' | hover | hnone
  · have hrun := h.append h'
    obtain ⟨trW, hrunW⟩ := pool_supervisor_run hrun
    have hpc : p'.world.pc = .loopHead := by
      by_contra hpc
      have hgo := advance_isSome (inv_reachable hrunW) hbounds hwork.clean hlive' hpc
      rw [hidle _ rfl] at hgo
      exact Bool.noConfusion hgo
    refine Or.inr fun i spec hspec => ?_
    obtain ⟨c, a, _, hca, hreg, hserves⟩ :=
      registry_entry hkeys hsup hrun (keepOwn_selfDriven hkeep hown) hpc hspec
    exact ⟨a, hreg, hserves.mpr (hidle _ rfl)⟩
  · exact Or.inl hover
  · refine Or.inr fun i spec hspec => ?_
    rw [hnone] at hspec
    exact absurd hspec (by simp)

end

/-- The supervisor takes the report and replaces the worker. -/
def replaces : List (Supervised.Event Nat Nat) :=
  [.supervisor (.joinNext ⟨0, 0⟩), .supervisor .advance, .supervisor .advance]

def afterRestart : Pool Nat Nat :=
  after (Supervised.step maxPermits64 twoActors) afterPanic replaces

theorem pool_heals_afterRestart :
    ∃ a, afterRestart.registry 0 = some a ∧ Serves afterRestart.system a := by
  have hrun : Run (Supervised.step maxPermits64 twoActors) afterPanic
      (traceOf (Supervised.step maxPermits64 twoActors) afterPanic replaces) afterRestart :=
    Run.after (by decide +kernel)
  have hown : ∀ x ∈ traceOf (Supervised.step maxPermits64 twoActors) afterPanic replaces,
      selfDriven x.2 = true := by
    intro x hx
    have he := mem_of_traceOf hx
    simp only [replaces, List.mem_cons, List.not_mem_nil, or_false] at he
    rcases he with he | he | he <;> rw [he] <;> rfl
  have hidle : ∀ e, selfDriven e = true →
      Supervised.step maxPermits64 twoActors afterRestart e = none :=
    fun e he => selfDriven_asleep (by decide +kernel) (by decide +kernel) (by decide +kernel) he
  have hheals := (pool_heals (by decide) (by decide) (by decide) afterPanic_run afterPanic_keepOwn
    (by decide +kernel) (by decide +kernel) hrun hown).2 hidle
  rcases hheals with hover | hall
  · exact absurd hover (by decide +kernel)
  · exact hall 0 _ rfl

end ErlangActors.Proof
