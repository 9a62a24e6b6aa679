import ErlangActors.Proof.Forest
import ErlangActors.Proof.Budget

/-!
# Escalation stops at the supervisor that escalates

A supervisor that exceeds `max_restarts` terminates itself so that *its* supervisor
restarts it. It does so with a plain `return`, and `Supervisor::start` awaits
`run_supervisor` as the last thing its task does; so the task ends the way a task
that did its work ends, `join_outcome` says `Normal`, and the parent's loop goes on
as if nothing had happened. This is so in every tree, at every depth, each time.
-/

namespace ErlangActors.Proof

open Supervision Transition

/-- The supervisor that is child `c` of the one at `q` gave up: it exceeded `max_restarts`. -/
def GaveUp (F : Forest) (q : Path) (c : Nat) : Prop :=
  ∃ n ∈ F (c :: q), n.world.pc = .returned .maxRestartsExceeded

/-- Between `w` and `w'` a supervisor took a report as a failure: it entered the restart window,
and the supervisor began a pass or escalated. -/
def HandlesFailure (w w' : World Factory) : Prop :=
  ∃ r, w'.reports = w.reports ++ [r] ∧ r.reason ≠ .normal ∧ w'.pushed = w.pushed ++ [r]
    ∧ (w'.passes = w.passes ++ [r] ∨ w'.pc = .returned .maxRestartsExceeded)

/-- Every parent of the run that took the report of a nested supervisor that gave up, in a slot
that is not `Temporary`, took it as a failure. -/
def EscalationsHandled (tr : List (Forest × TreeEvent)) : Prop :=
  ∀ X q f X' m m', (X, TreeEvent.act q (.joinNext f)) ∈ tr →
    treeStep X (.act q (.joinNext f)) = some X' → X q = some m → X' q = some m' →
    GaveUp X q f.child → restartable m.sup f.idx = true → HandlesFailure m.world m'.world

/-- The step takes the report of a nested supervisor that gave up, in a slot not `Temporary`. -/
def LosesEscalation (F : Forest) : TreeEvent → Prop
  | .act q (.joinNext f) =>
      GaveUp F q f.child ∧ ∃ m ∈ F q, restartable m.sup f.idx = true
  | _ => False

instance (F : Forest) (q : Path) (c : Nat) : Decidable (GaveUp F q c) :=
  inferInstanceAs (Decidable (∃ n ∈ F (c :: q), _))

instance (F : Forest) : DecidablePred (LosesEscalation F)
  | .act q (.joinNext f) =>
      inferInstanceAs (Decidable (GaveUp F q f.child ∧ ∃ m ∈ F q, restartable m.sup f.idx = true))
  | .act _ .advance | .act _ .factoryPanics | .act _ (.forwarderPanics _) | .act _ .joinNone
  | .act _ .cutOff | .act _ (.childEnds _ _) | .act _ (.tick _) | .tick _ =>
      inferInstanceAs (Decidable False)

/-- A supervisor that gave up has returned, as far as its parent can tell. -/
theorem gaveUp_recorded {F : Forest} (h : Grown F) {q : Path} {m : Node} (hq : F q = some m)
    {c : Nat} (hg : GaveUp F q c) : m.world.endingOf c = some .returned := by
  obtain ⟨n, hn, hpc⟩ := hg
  obtain ⟨m', hm', hend, _⟩ := h.recorded c q n hn
  obtain rfl := Option.some.inj (hq.symm.trans hm')
  rw [hend, hpc]
  rfl

/-- So the parent that takes its report does nothing about it. -/
theorem gaveUp_ignored {F F' : Forest} (h : Grown F) {q : Path} {f : Forwarder}
    (hs : treeStep F (.act q (.joinNext f)) = some F') {m : Node} (hq : F q = some m)
    (hg : GaveUp F q f.child) :
    ∃ w', F' q = some { m with world := w' }
      ∧ w'.reports = m.world.reports ++ [⟨f.idx, f.child, .normal, m.world.clock⟩]
      ∧ w'.restartHistory = m.world.restartHistory ∧ w'.pushed = m.world.pushed
      ∧ w'.passes = m.world.passes ∧ w'.tasks = m.world.tasks ∧ w'.pc = .loopHead := by
  obtain ⟨n, w, hn, _, hw, rfl⟩ := treeStep_act hs
  obtain rfl := Option.some.inj (hq.symm.trans hn)
  refine ⟨w, move_self F q m w, ?_⟩
  have hreturned := gaveUp_recorded h hq hg
  -- a child that returned does not count as a failure
  have hno : ∀ {how} {slot : Slot Factory}, m.world.endingOf f.child = some how →
      ¬ Counts how slot := by
    intro how slot hend hc
    obtain rfl := Option.some.inj (hreturned.symm.trans hend)
    exact hc.1 rfl
  cases step_moves hw with
  | badReport _ hf hslot =>
      exact ((h.inv hq).no_badReport hf hslot).elim
  | ignore hpc _ hend _ _ =>
      obtain rfl := Option.some.inj (hreturned.symm.trans hend)
      exact ⟨rfl, rfl, rfl, rfl, rfl, hpc⟩
  | escalate _ _ hend _ hc _ => exact absurd hc (hno hend)
  | pass _ _ hend _ hc _ => exact absurd hc (hno hend)
  | leave hl => cases hl

/--
**A nested supervisor that gave up is recorded by its parent as having exited
normally, always.**

Each time a parent takes such a report it is `Normal`; nothing enters the restart
window, no pass begins, no factory is called, the parent does not escalate. So a run
handles its escalations exactly if no parent in it ever takes the report of one.
-/
theorem escalation_lost {root : Supervisor Factory} {F : Forest} {tr : List (Forest × TreeEvent)}
    (h : Run treeStep (Forest.init root) tr F) :
    (∀ X q m r, Visits tr F X → X q = some m → r ∈ m.world.reports → GaveUp X q r.child →
        r.reason = .normal)
      ∧ (∀ X q f X' m, (X, TreeEvent.act q (.joinNext f)) ∈ tr →
        treeStep X (.act q (.joinNext f)) = some X' → X q = some m → GaveUp X q f.child →
        ∃ w', X' q = some { m with world := w' } ∧ ¬ HandlesFailure m.world w'
          ∧ w'.restartHistory = m.world.restartHistory ∧ w'.passes = m.world.passes
          ∧ w'.tasks = m.world.tasks ∧ w'.pc = .loopHead)
      ∧ (EscalationsHandled tr ↔ ∀ p ∈ tr, ¬ LosesEscalation p.1 p.2) := by
  have hignored : ∀ X q f X' m, (X, TreeEvent.act q (.joinNext f)) ∈ tr →
      treeStep X (.act q (.joinNext f)) = some X' → X q = some m → GaveUp X q f.child →
      ∃ w', X' q = some { m with world := w' } ∧ ¬ HandlesFailure m.world w'
        ∧ w'.restartHistory = m.world.restartHistory ∧ w'.passes = m.world.passes
        ∧ w'.tasks = m.world.tasks ∧ w'.pc = .loopHead := by
    intro X q f X' m hX hs hq hg
    obtain ⟨_, _, _, hrun, _, _⟩ := h.split hX
    obtain ⟨w', hq', _, hhist, hpushed, hrest⟩ := gaveUp_ignored (grown_reachable hrun) hs hq hg
    refine ⟨w', hq', ?_, hhist, hrest⟩
    intro hhandles
    obtain ⟨r, _, _, hpushed', _⟩ := hhandles
    -- handling it would enter it into the history, which has not grown
    rw [hpushed] at hpushed'
    have := congrArg List.length hpushed'
    simp at this
  refine ⟨?_, hignored, ?_⟩
  · intro X q m r hX hq hr hg
    obtain ⟨_, _, hrun⟩ := h.upTo hX
    have hgrown := grown_reachable hrun
    -- a recorded reason is the one of the child's end, a normal one
    obtain ⟨_, how, hend, hreason⟩ := (hgrown.inv hq).reported r hr
    obtain rfl := Option.some.inj ((gaveUp_recorded hgrown hq hg).symm.trans hend)
    exact hreason
  · constructor
    · intro hall p hp hlose
      obtain ⟨X, e⟩ := p
      cases e with
      | tick d => exact hlose
      | act q e =>
          cases e with
          | joinNext f =>
              obtain ⟨hg, m, hq, hr⟩ := hlose
              obtain ⟨_, X', _, _, hs, _⟩ := h.split hp
              obtain ⟨w', hq', hno, _⟩ := hignored X q f X' m hp hs hq hg
              exact hno (hall X q f X' m _ hp hs hq hq' hg hr)
          | _ => exact hlose
    · intro hnone X q f X' m m' hX _ hq _ hg hr
      exact absurd ⟨hg, m, hq, hr⟩ (hnone _ hX)

/-! ## A nested supervisor that gives up at once -/

/-- `outer` supervises `inner`, which allows its one worker no restart. -/
def outerInner (strategy : Restart) : Supervisor Factory :=
  let inner : Supervisor Factory := (Supervisor.new ⟨"inner", .oneForOne, 0, 10⟩).child
    ⟨"worker", .permanent, .task⟩
  (Supervisor.new ⟨"outer", strategy, 5, 10⟩).child (intoChildSpec inner "inner" .permanent)

/-- The worker panics, `inner` escalates, and `outer` takes its report. -/
def innerGivesUp : List TreeEvent :=
  [.act [] .advance, .act [0] .advance, .act [0] (.childEnds 0 .panicked),
    .act [0] (.joinNext ⟨0, 0⟩), .act [] (.joinNext ⟨0, 0⟩)]

theorem innerGivesUp_possible :
    (exec treeStep (Forest.init (outerInner .oneForOne)) innerGivesUp).isSome = true := by
  decide +kernel

/-- The tree after `inner` gave up. -/
def afterGivingUp : Forest :=
  after treeStep (Forest.init (outerInner .oneForOne)) innerGivesUp

/-- `inner`'s escalation is not handled. -/
theorem escalation_lost_innerGivesUp :
    ¬ EscalationsHandled (traceOf treeStep (Forest.init (outerInner .oneForOne)) innerGivesUp) :=
  fun hall => absurd ((escalation_lost (Run.after innerGivesUp_possible)).2.2.mp hall)
    (by decide +kernel)

theorem outer_isSome : (afterGivingUp []).isSome = true := by decide +kernel

theorem inner_isSome : (afterGivingUp [0]).isSome = true := by decide +kernel

/-- `inner` gave up, and `outer` has it down as a normal exit. -/
theorem escalation_lost_normalExit :
    ¬ ∀ (root : Supervisor Factory) (tr : List (Forest × TreeEvent)) (F : Forest) (q : Path)
      (m : Node) (r : Report), Run treeStep (Forest.init root) tr F → F q = some m →
        r ∈ m.world.reports → GaveUp F q r.child → restartable m.sup r.idx = true →
        r.reason ≠ .normal ∧ r ∈ m.world.pushed := by
  intro hall
  have hno := hall _ _ afterGivingUp [] ((afterGivingUp []).get outer_isSome)
    ⟨0, 0, .normal, 0⟩ (Run.after innerGivesUp_possible) (Option.some_get _).symm
    (by decide +kernel)
    ⟨(afterGivingUp [0]).get inner_isSome, (Option.some_get _).symm, by decide +kernel⟩
    (by decide +kernel)
  exact hno.1 rfl

end ErlangActors.Proof
