import ErlangActors.Proof.Passes

/-!
# The restart budget

What `restart_history` counts. Every entry comes from a report that is not `Normal`,
of a slot that is not `Temporary`; `Ledger` keeps the books on that, and on the
rolling window, with no condition at all.

Whether those reports are *failures* is another matter. A child the supervisor
aborted in a pass reports `Aborted` like one somebody else aborted, and nothing in
the loop tells the two apart, so its report is counted and starts a pass of its own.
`SelfInflicted` is that step; the budget is sound in exactly the runs without it.
-/

namespace ErlangActors.Proof

open Supervision Transition

variable {φ : Type}

/-- Slot `i`'s policy allows restarts. -/
def restartable (sup : Supervisor φ) (i : Nat) : Bool :=
  (sup.children[i]?).any (fun spec => spec.restart != .temporary)

/-- The report is one the loop counts. -/
def countable (sup : Supervisor φ) (r : Report) : Bool :=
  r.reason != .normal && restartable sup r.idx

/-- The report is of a spontaneous failure of a child that is not `Temporary`. -/
def isFailure (sup : Supervisor φ) (w : World φ) (r : Report) : Bool :=
  (w.endingOf r.child).any Ending.spontaneous && restartable sup r.idx

/-- The report taken is of a child the supervisor itself aborted, and it counts. -/
def SelfInflicted (sup : Supervisor φ) (w : World φ) : Event → Prop
  | .joinNext f => w.endingOf f.child = some .abortedBySupervisor ∧ restartable sup f.idx = true
  | _ => False

instance (sup : Supervisor φ) (w : World φ) : DecidablePred (SelfInflicted sup w)
  | .joinNext _ => inferInstanceAs (Decidable (_ ∧ _))
  | .advance | .factoryPanics | .forwarderPanics _ | .joinNone | .cutOff | .childEnds _ _
  | .tick _ => inferInstanceAs (Decidable False)

theorem restartable_iff {sup : Supervisor φ} {w : World φ} (h : Inv sup w) {i : Nat}
    {slot : Slot φ} (hs : w.slots[i]? = some slot) :
    restartable sup i = true ↔ slot.spec.restart ≠ .temporary := by
  unfold restartable
  rw [h.spec_eq hs]
  simp

/-- `countable` is the policy check of the loop, made against the registered specs. -/
theorem countable_iff {sup : Supervisor φ} {w : World φ} (h : Inv sup w) {f : Forwarder}
    {how : Ending} {slot : Slot φ} (hs : w.slots[f.idx]? = some slot) :
    countable sup (w.reportOf f how) = true ↔ Counts how slot := by
  unfold countable Counts
  rw [Bool.and_eq_true, bne_iff_ne]
  exact and_congr Iff.rfl (restartable_iff h hs)

/-! ## The ledger -/

/-- At the report `r`, with the reports `ps` counted before it, the window is over budget. -/
def OverBudget (spec : SupervisorSpec) (ps : List Report) (r : Report) : Prop :=
  spec.maxRestarts.toNat < ps.countP (fun p => r.time - p.time < fromSecs spec.withinSecs) + 1
    ∧ ∀ p ∈ ps, p.time ≤ r.time

/-- What the supervisor has counted, in terms of the reports it has taken. -/
structure Ledger (sup : Supervisor φ) (w : World φ) : Prop where
  /-- It counted the countable reports, each once and in order. -/
  pushed : w.pushed = w.reports.filter (countable sup)
  /-- Each of them started a pass, -/
  passes : w.pc ≠ .returned .maxRestartsExceeded → w.passes = w.pushed
  /-- except the one it escalated at, which found the window over budget. -/
  escalated : w.pc = .returned .maxRestartsExceeded →
    ∃ r, w.pushed = w.passes ++ [r] ∧ OverBudget sup.spec w.passes r
  /-- `restart_history` is what pruning has left of their times. -/
  history : w.restartHistory.Sublist (w.pushed.map Report.time)
  dated : ∀ r ∈ w.reports, r.time ≤ w.clock

theorem ledger_init (sup : Supervisor φ) : Ledger sup (World.init sup) where
  pushed := rfl
  passes := fun _ => rfl
  escalated := by
    intro h
    exact absurd h (start_ne rfl)
  history := List.Sublist.refl _
  dated := by intro r hr; simp [World.init] at hr

/-- A step that takes no report changes the ledger at most by the clock. -/
theorem ledger_frame {sup : Supervisor φ} {w w' : World φ} (h : Ledger sup w)
    (hrep : w'.reports = w.reports) (hpushed : w'.pushed = w.pushed)
    (hpasses : w'.passes = w.passes) (hhist : w'.restartHistory = w.restartHistory)
    (hclock : w.clock ≤ w'.clock)
    (hpc : w'.pc = .returned .maxRestartsExceeded ↔ w.pc = .returned .maxRestartsExceeded) :
    Ledger sup w' where
  pushed := by rw [hpushed, hrep]; exact h.pushed
  passes := by intro hne; rw [hpasses, hpushed]; exact h.passes (fun he => hne (hpc.mpr he))
  escalated := by intro he; rw [hpasses, hpushed]; exact h.escalated (hpc.mp he)
  history := by rw [hhist, hpushed]; exact h.history
  dated := by intro r hr; exact Nat.le_trans (h.dated r (hrep ▸ hr)) hclock

/-- The entries the new window keeps are among the times counted before. -/
theorem nextHistory_sublist {sup : Supervisor φ} {w : World φ} (h : Ledger sup w) (f : Forwarder)
    (how : Ending) :
    (w.nextHistory sup.spec).Sublist ((w.pushed ++ [w.reportOf f how]).map Report.time) := by
  rw [List.map_append]
  exact (List.filter_sublist.trans h.history).append (List.Sublist.refl _)

/-- What the code compares with `max_restarts` is at most the exact count of the window. -/
theorem overBudget_of_exceeds {sup : Supervisor φ} {w : World φ} (h : Ledger sup w)
    (hpc : w.pc = .loopHead) {f : Forwarder} {how : Ending} (hx : w.exceeds sup.spec = true) :
    OverBudget sup.spec w.passes (w.reportOf f how) := by
  have hpasses : w.passes = w.pushed := h.passes (by rw [hpc]; simp)
  refine ⟨?_, ?_⟩
  · have hlt : sup.spec.maxRestarts.toNat < (w.nextHistory sup.spec).length.toUInt32.toNat :=
      UInt32.lt_iff_toNat_lt.mp (of_decide_eq_true hx)
    -- the cast can only make the length smaller
    have htrunc : (w.nextHistory sup.spec).length.toUInt32.toNat
        ≤ (w.nextHistory sup.spec).length := Nat.mod_le _ _
    have hlen : (w.nextHistory sup.spec).length
        = w.restartHistory.countP (fun t => w.clock - t < fromSecs sup.spec.withinSecs) + 1 := by
      unfold World.nextHistory
      rw [List.length_append, List.length_singleton, List.countP_eq_length_filter]
    have hcount := h.history.countP_le
      (p := fun t => decide (w.clock - t < fromSecs sup.spec.withinSecs))
    rw [List.countP_map, ← hpasses] at hcount
    have hsame : w.passes.countP (fun p => (w.reportOf f how).time - p.time
        < fromSecs sup.spec.withinSecs) = w.passes.countP
        ((fun t => decide (w.clock - t < fromSecs sup.spec.withinSecs)) ∘ Report.time) := rfl
    omega
  · intro p hp
    rw [hpasses, h.pushed] at hp
    exact h.dated p (List.mem_of_mem_filter hp)

/-- Taking a report keeps the ledger when what is counted of it is what the loop counts. -/
theorem dated_snoc {sup : Supervisor φ} {w : World φ} (h : Ledger sup w) (f : Forwarder)
    (how : Ending) : ∀ r ∈ w.reports ++ [w.reportOf f how], r.time ≤ w.clock := by
  intro r hr
  rcases List.mem_append.mp hr with hr | hr
  · exact h.dated r hr
  · rw [List.mem_singleton.mp hr]; exact Nat.le_refl _

/-- **The ledger is kept by every step.** -/
theorem ledger_step {sup : Supervisor φ} {w w' : World φ} {e : Event} (hi : Inv sup w)
    (h : Ledger sup w) (hs : step sup w e = some w') : Ledger sup w' := by
  have hm := step_moves hs
  cases hm with
  | spawn hpc _ =>
      refine ledger_frame h rfl rfl rfl rfl (Nat.le_refl _) ⟨fun he => ?_, fun he => ?_⟩
      · exact absurd he (start_ne rfl)
      · rw [hpc] at he; exact Pc.noConfusion he
  | abort hpc _ =>
      refine ledger_frame h rfl rfl rfl rfl (Nat.le_refl _) ⟨fun he => Pc.noConfusion he, ?_⟩
      intro he; rw [hpc] at he; exact Pc.noConfusion he
  | respawn hpc _ =>
      refine ledger_frame h rfl rfl rfl rfl (Nat.le_refl _) ⟨fun he => ?_, fun he => ?_⟩
      · exact absurd he (pass_ne rfl)
      · rw [hpc] at he; exact Pc.noConfusion he
  | @badReport f how _ hf hslot =>
      exact (hi.no_badReport hf hslot).elim
  | @ignore f how slot hpc _ _ hslot hc =>
      -- an ignored report is not on the ledger
      have hno : countable sup (w.reportOf f how) = false :=
        Bool.eq_false_iff.mpr (fun ht => hc ((countable_iff hi hslot).mp ht))
      refine ⟨?_, h.passes, h.escalated, h.history, dated_snoc h f how⟩
      show w.pushed = (w.reports ++ [w.reportOf f how]).filter (countable sup)
      rw [List.filter_append, List.filter_cons_of_neg (by rw [hno]; simp), List.filter_nil,
        List.append_nil]
      exact h.pushed
  | @escalate f how slot hpc _ _ hslot hc hx =>
      refine ⟨?_, fun hne => absurd rfl hne, fun _ => ?_, nextHistory_sublist h f how,
        dated_snoc h f how⟩
      · show w.pushed ++ [w.reportOf f how]
          = (w.reports ++ [w.reportOf f how]).filter (countable sup)
        rw [List.filter_append, List.filter_cons_of_pos ((countable_iff hi hslot).mpr hc),
          List.filter_nil, h.pushed]
      · refine ⟨w.reportOf f how, ?_, overBudget_of_exceeds h hpc hx⟩
        show w.pushed ++ [w.reportOf f how] = w.passes ++ [w.reportOf f how]
        rw [h.passes (by rw [hpc]; simp)]
  | @pass f how slot hpc _ _ hslot hc hx =>
      refine ⟨?_, fun _ => ?_, fun he => ?_, nextHistory_sublist h f how, dated_snoc h f how⟩
      · show w.pushed ++ [w.reportOf f how]
          = (w.reports ++ [w.reportOf f how]).filter (countable sup)
        rw [List.filter_append, List.filter_cons_of_pos ((countable_iff hi hslot).mpr hc),
          List.filter_nil, h.pushed]
      · show w.passes ++ [w.reportOf f how] = w.pushed ++ [w.reportOf f how]
        rw [h.passes (by rw [hpc]; simp)]
      · exact absurd he (pass_ne rfl)
  | leave hl =>
      refine ledger_frame h rfl rfl rfl rfl (Nat.le_refl _) ⟨fun he => ?_, fun he => ?_⟩
      · cases hl <;> simp [World.finish] at he
      · have hlive := hl.live
        rw [he] at hlive
        exact Bool.noConfusion hlive
  | spin _ _ _ => exact h
  | ends _ _ _ => exact ledger_frame h rfl rfl rfl rfl (Nat.le_refl _) Iff.rfl
  | tick => exact ledger_frame h rfl rfl rfl rfl (Nat.le_add_right _ _) Iff.rfl

/-- The bookkeeping invariant and the ledger, together. -/
structure Books (sup : Supervisor φ) (w : World φ) : Prop where
  inv : Inv sup w
  ledger : Ledger sup w

theorem books_init (sup : Supervisor φ) : Books sup (World.init sup) :=
  ⟨inv_init sup, ledger_init sup⟩

theorem books_step {sup : Supervisor φ} {w w' : World φ} {e : Event} (h : Books sup w)
    (hs : step sup w e = some w') : Books sup w' :=
  ⟨inv_step h.inv hs, ledger_step h.inv h.ledger hs⟩

theorem books_reachable {sup : Supervisor φ} {w : World φ} {tr : List (World φ × Event)}
    (h : Run (step sup) (World.init sup) tr w) : Books sup w :=
  h.invariant (books_init sup) (fun _ _ _ hb hs => books_step hb hs)

/-! ## Failures -/

/-- Everything counted is a failure, each counted once, and every pass is one of them. -/
structure BudgetSound (sup : Supervisor φ) (w : World φ) : Prop where
  failures : ∀ r ∈ w.pushed, isFailure sup w r = true
  distinct : (w.pushed.map Report.child).Nodup
  entries : w.restartHistory.Sublist (w.pushed.map Report.time)
  passes : w.passes <+: w.pushed

/-- A report is of a failure if it is countable and not of the supervisor's own abort. -/
theorem isFailure_iff {sup : Supervisor φ} {w : World φ} {r : Report} {how : Ending}
    (hend : w.endingOf r.child = some how) (hreason : r.reason = how.reason) :
    isFailure sup w r = true ↔ countable sup r = true ∧ how ≠ .abortedBySupervisor := by
  unfold isFailure countable
  rw [hend, hreason, Option.any_some, Bool.and_eq_true, Ending.spontaneous_iff, Bool.and_eq_true,
    bne_iff_ne]
  exact and_right_comm

theorem isFailure_countable {sup : Supervisor φ} {w : World φ} (h : Inv sup w) {r : Report}
    (hr : r ∈ w.reports) (hf : isFailure sup w r = true) : countable sup r = true := by
  obtain ⟨_, how, hend, hreason⟩ := h.reported r hr
  exact ((isFailure_iff hend hreason).mp hf).1

/-- A failure already reported stays one. -/
theorem isFailure_step {sup : Supervisor φ} {w w' : World φ} {e : Event} (h : Inv sup w)
    (hs : step sup w e = some w') {r : Report} (hr : r ∈ w.reports) :
    isFailure sup w' r = isFailure sup w r := by
  obtain ⟨_, how, hend, _⟩ := h.reported r hr
  unfold isFailure
  rw [hend, endingOf_step hend hs]

theorem mem_reports_of_pushed {sup : Supervisor φ} {w : World φ} (h : Ledger sup w) {r : Report}
    (hr : r ∈ w.pushed) : r ∈ w.reports := by
  rw [h.pushed] at hr
  exact List.mem_of_mem_filter hr

/-- What the step counts: nothing, or the report it takes, if that is countable. -/
theorem pushed_step {sup : Supervisor φ} {w w' : World φ} {e : Event} (hi : Inv sup w)
    (hs : step sup w e = some w') :
    (w'.pushed = w.pushed ∧ ¬ SelfInflicted sup w e)
      ∨ ∃ f how, e = .joinNext f ∧ w.endingOf f.child = some how
        ∧ countable sup (w.reportOf f how) = true ∧ w'.pushed = w.pushed ++ [w.reportOf f how] := by
  have hm := step_moves hs
  cases hm with
  | @badReport f how _ hf hslot =>
      exact (hi.no_badReport hf hslot).elim
  | @ignore f how slot _ _ hend hslot hc =>
      refine Or.inl ⟨rfl, fun hself => hc ⟨?_, (restartable_iff hi hslot).mp hself.2⟩⟩
      obtain rfl := Option.some.inj (hend.symm.trans hself.1)
      rw [Ne, Ending.reason_eq_normal]
      exact Ending.noConfusion
  | @escalate f how slot _ _ hend hslot hc _ =>
      exact Or.inr ⟨f, how, rfl, hend, (countable_iff hi hslot).mpr hc, rfl⟩
  | @pass f how slot _ _ hend hslot hc _ =>
      exact Or.inr ⟨f, how, rfl, hend, (countable_iff hi hslot).mpr hc, rfl⟩
  | leave hl => exact Or.inl ⟨rfl, by cases hl <;> exact id⟩
  | _ => exact Or.inl ⟨rfl, id⟩

/-- **A step counts only failures exactly if it is not self-inflicted.** -/
theorem failures_step_iff {sup : Supervisor φ} {w w' : World φ} {e : Event} (h : Books sup w)
    (hf : ∀ r ∈ w.pushed, isFailure sup w r = true) (hs : step sup w e = some w') :
    (∀ r ∈ w'.pushed, isFailure sup w' r = true) ↔ ¬ SelfInflicted sup w e := by
  have hold : ∀ r ∈ w.pushed, isFailure sup w' r = true := by
    intro r hr
    rw [isFailure_step h.inv hs (mem_reports_of_pushed h.ledger hr)]
    exact hf r hr
  rcases pushed_step h.inv hs with ⟨hsame, hno⟩ | ⟨f, how, rfl, hend, hc, hnew⟩
  · rw [hsame]
    exact ⟨fun _ => hno, fun _ => hold⟩
  · have hself : SelfInflicted sup w (.joinNext f) ↔ how = .abortedBySupervisor := by
      have hr : restartable sup f.idx = true := (Bool.and_eq_true_iff.mp hc).2
      show w.endingOf f.child = some .abortedBySupervisor ∧ restartable sup f.idx = true ↔ _
      rw [hend]
      exact ⟨fun ⟨he, _⟩ => Option.some.inj he, fun he => ⟨congrArg some he, hr⟩⟩
    have hlast : isFailure sup w' (w.reportOf f how) = true ↔ how ≠ .abortedBySupervisor := by
      rw [isFailure_iff (endingOf_step hend hs : w'.endingOf (w.reportOf f how).child = _) rfl]
      exact and_iff_right hc
    rw [hnew, hself]
    refine ⟨?_, ?_⟩
    · intro hall
      exact hlast.mp (hall _ (List.mem_append_right _ (List.mem_singleton.mpr rfl)))
    · intro hne r hr
      rcases List.mem_append.mp hr with hr | hr
      · exact hold r hr
      · rw [List.mem_singleton.mp hr]; exact hlast.mpr hne

theorem books_budgetSound {sup : Supervisor φ} {w : World φ} (h : Books sup w)
    (hf : ∀ r ∈ w.pushed, isFailure sup w r = true) : BudgetSound sup w where
  failures := hf
  distinct := by
    rw [h.ledger.pushed]
    exact h.inv.once.sublist (List.filter_sublist.map _)
  entries := h.ledger.history
  passes := by
    by_cases hpc : w.pc = .returned .maxRestartsExceeded
    · obtain ⟨r, hr, _⟩ := h.ledger.escalated hpc
      rw [hr]
      exact List.prefix_append _ _
    · rw [h.ledger.passes hpc]

/-! ## What a sound budget gives -/

/-- Failures of `w` whose date falls within `len` of `a`. The window is never empty: it has `a`. -/
def failuresIn (sup : Supervisor φ) (w : World φ) (date : Nat → Nat) (a len : Nat) : Nat :=
  w.reports.countP fun r => isFailure sup w r &&
    decide (a ≤ date r.child ∧ (date r.child < a + len ∨ date r.child = a))

/-- The failures happened when `date` says, and were handled at most `lag` later. -/
def Dated (sup : Supervisor φ) (w : World φ) (date : Nat → Nat) (lag : Nat) : Prop :=
  ∀ r ∈ w.reports, isFailure sup w r = true → date r.child ≤ r.time ∧ r.time ≤ date r.child + lag

/-- Some element of a nonempty list has the least value. -/
theorem exists_least {α : Type} (g : α → Nat) {l : List α} (hne : l ≠ []) :
    ∃ m ∈ l, ∀ x ∈ l, g m ≤ g x := by
  cases hmin : (l.map g).min? with
  | none => exact absurd (by simpa using hmin) hne
  | some a =>
      obtain ⟨hmem, hle⟩ := List.min?_eq_some_iff.mp hmin
      obtain ⟨m, hm, rfl⟩ := List.mem_map.mp hmem
      exact ⟨m, hm, fun x hx => hle _ (List.mem_map_of_mem hx)⟩

/-- **A supervisor that escalated at failures had more of them in one window than it may.** -/
theorem failuresIn_of_escalated {sup : Supervisor φ} {w : World φ} (h : Books sup w)
    (hf : ∀ r ∈ w.pushed, isFailure sup w r = true) (hpc : w.pc = .returned .maxRestartsExceeded)
    {date : Nat → Nat} {lag : Nat} (hd : Dated sup w date lag) :
    ∃ a, sup.spec.maxRestarts.toNat
      < failuresIn sup w date a (fromSecs sup.spec.withinSecs + lag) := by
  obtain ⟨r, hpushed, hover, hbefore⟩ := h.ledger.escalated hpc
  -- the reports the window at `r` holds, `r` last
  let close : Report → Bool := fun p => decide (r.time - p.time < fromSecs sup.spec.withinSecs)
  let held := w.passes.filter close ++ [r]
  have hsub : held.Sublist w.pushed := by
    rw [hpushed]
    exact List.filter_sublist.append (List.Sublist.refl _)
  have hlen : sup.spec.maxRestarts.toNat < held.length := by
    rw [List.length_append, ← List.countP_eq_length_filter]
    exact hover
  have hheld : ∀ p ∈ held, p = r ∨ (p.time ≤ r.time
      ∧ r.time < p.time + fromSecs sup.spec.withinSecs) := by
    intro p hp
    rcases List.mem_append.mp hp with hp | hp
    · obtain ⟨hp, hclose⟩ := List.mem_filter.mp hp
      have hle := hbefore p hp
      have := of_decide_eq_true hclose
      exact Or.inr ⟨hle, by omega⟩
    · exact Or.inl (List.mem_singleton.mp hp)
  have hdate : ∀ p ∈ held, date p.child ≤ p.time ∧ p.time ≤ date p.child + lag := by
    intro p hp
    have hmem := hsub.subset hp
    exact hd p (mem_reports_of_pushed h.ledger hmem) (hf p hmem)
  obtain ⟨m, hm, hleast⟩ := exists_least (fun p => date p.child) (l := held) (by simp [held])
  refine ⟨date m.child, Nat.lt_of_lt_of_le hlen ?_⟩
  have hreports : held.Sublist w.reports := by
    refine hsub.trans ?_
    rw [h.ledger.pushed]
    exact List.filter_sublist
  refine Nat.le_trans (Nat.le_of_eq ?_) hreports.countP_le
  symm
  rw [List.countP_eq_length]
  intro p hp
  rw [Bool.and_eq_true]
  refine ⟨hf p (hsub.subset hp), decide_eq_true ⟨hleast p hp, ?_⟩⟩
  have hm' := hdate m hm
  have hp' := hdate p hp
  rcases hheld m hm with rfl | hmr
  · rcases hheld p hp with rfl | hpr
    · exact Or.inr rfl
    · omega
  · rcases hheld p hp with rfl | hpr
    · omega
    · omega

/-- Passes that answer only failures restart a slot once for each failure that covers it. -/
theorem passesOf_eq_failures {sup : Supervisor φ} {w : World φ} (h : Books sup w)
    (hf : ∀ r ∈ w.pushed, isFailure sup w r = true) (hpc : w.pc ≠ .returned .maxRestartsExceeded)
    (j : Nat) : passesOf sup w j
      = w.reports.countP (fun r => isFailure sup w r && sup.spec.strategy.covers r.idx j) := by
  unfold passesOf
  rw [h.ledger.passes hpc, h.ledger.pushed, List.countP_filter]
  refine List.countP_congr fun r hr => ?_
  have hsame : countable sup r = true ↔ isFailure sup w r = true := by
    refine ⟨?_, ?_⟩
    · intro hc
      refine hf r ?_
      rw [h.ledger.pushed]
      exact List.mem_filter.mpr ⟨hr, hc⟩
    · exact isFailure_countable h.inv hr
  rw [Bool.and_eq_true, Bool.and_eq_true, hsame]
  exact and_comm

/--
**The restart budget is sound exactly in the runs without a self-inflicted report.**

And in those runs: if no window of `within_secs` holds more than `max_restarts`
failures, the supervisor has not escalated; and each slot's factory has been called
once, and once more for each handled failure whose strategy set contains the slot.

Failures may be dated by when they were handled (`lag` 0), or by when they happened,
as long as the windows allow for how late they were handled.
-/
theorem budget_sound {sup : Supervisor φ} {w : World φ} {tr : List (World φ × Event)}
    (h : Run (step sup) (World.init sup) tr w) :
    ((∀ x, Visits tr w x → BudgetSound sup x) ↔ ∀ p ∈ tr, ¬ SelfInflicted sup p.1 p.2)
      ∧ ((∀ p ∈ tr, ¬ SelfInflicted sup p.1 p.2) →
        (∀ date lag, Dated sup w date lag →
          (∀ a, failuresIn sup w date a (fromSecs sup.spec.withinSecs + lag)
            ≤ sup.spec.maxRestarts.toNat) →
          w.pc ≠ .returned .maxRestartsExceeded)
        ∧ ((w.pc = .loopHead ∨ ∃ path, w.pc = .returned path) →
          w.pc ≠ .returned .maxRestartsExceeded → ∀ j, j < sup.children.length →
          factoryCalls w j = 1 + w.reports.countP
            (fun r => isFailure sup w r && sup.spec.strategy.covers r.idx j))) := by
  have hiff := h.always_iff (R := Books sup)
    (P := fun s => ∀ r ∈ s.pushed, isFailure sup s r = true)
    (C := fun s e => ¬ SelfInflicted sup s e) (books_init sup)
    (fun _ _ _ hb hs => books_step hb hs) (fun r hr => absurd hr (by simp [World.init]))
    (fun _ _ _ hb hf hs => failures_step_iff hb hf hs)
  refine ⟨?_, ?_⟩
  · -- every entry being a failure is what makes a state sound, run by run
    rw [← hiff]
    refine ⟨?_, ?_⟩
    · intro hall x hx
      exact (hall x hx).failures
    · intro hall x hx
      obtain ⟨_, _, hrun⟩ := h.upTo hx
      exact books_budgetSound (books_reachable hrun) (hall x hx)
  · intro hself
    have hf := hiff.mpr hself w Visits.last
    have hb := books_reachable h
    refine ⟨?_, ?_⟩
    · intro date lag hd hwin hpc
      obtain ⟨a, ha⟩ := failuresIn_of_escalated hb hf hpc hd
      have := hwin a
      omega
    · intro hpc hne j hj
      rw [factoryCalls_eq h hpc hj, passesOf_eq_failures hb hf hne]

/-- One panic under `RestForOne` is one entry, and calls the second factory once more. -/
theorem budget_sound_firstPanics :
    BudgetSound (twoWorkers .restForOne 5 .permanent)
        (stateOn (twoWorkers .restForOne 5 .permanent) firstPanics)
      ∧ factoryCalls (stateOn (twoWorkers .restForOne 5 .permanent) firstPanics) 1 = 2 := by
  have h := budget_sound (runOn (twoWorkers .restForOne 5 .permanent) firstPanics
    (by decide +kernel))
  refine ⟨h.1.mpr (by decide +kernel) _ Visits.last, ?_⟩
  exact ((h.2 (by decide +kernel)).2 (Or.inl (by decide +kernel)) (by decide +kernel) 1
    (by decide +kernel)).trans (by decide +kernel)

/-- The aborted child's own report is counted and starts a second pass. -/
theorem budget_sound_lateReport :
    ¬ ∀ (sup : Supervisor Unit) (tr : List (World Unit × Event)) (w : World Unit),
      Run (step sup) (World.init sup) tr w → BudgetSound sup w := by
  intro hall
  have hrun := runOn (twoWorkers .restForOne 5 .permanent) lateReport (by decide +kernel)
  have hfail := (hall _ _ _ hrun).failures ⟨1, 1, .aborted, 0⟩ (by decide +kernel)
  exact absurd hfail (by decide +kernel)

end ErlangActors.Proof
