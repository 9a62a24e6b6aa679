import ErlangActors.Lib.Window
import ErlangActors.Proof.Budget

/-!
# The rolling window is exact

`restart_history` is pruned at every countable report, and the loop compares what is
left, cast to a `u32`, with `max_restarts`. Since the clock does not go back, pruning
loses nothing a later window could see, so the comparison is the one a supervisor that
remembered its whole life would make; and since every report that does not escalate
leaves at most `max_restarts` entries, the cast never truncates — unless
`max_restarts` is `u32::MAX`, when no length can exceed it.
-/

namespace ErlangActors.Proof

open Supervision Transition

variable {φ : Type}

/-- When the countable reports were processed, in order. -/
def countableTimes (sup : Supervisor φ) (w : World φ) : List Nat :=
  (w.reports.filter (countable sup)).map Report.time

/-- The supervisor has escalated at `max_restarts`. -/
def Escalated (w : World φ) : Prop := w.pc = .returned .maxRestartsExceeded

instance (w : World φ) : Decidable (Escalated w) := inferInstanceAs (Decidable (_ = _))

/-- Countable report `k` of the run is the one the supervisor escalated at. -/
def EscalatesAt (sup : Supervisor φ) (tr : List (World φ × Event)) (k : Nat) : Prop :=
  ∃ x e x', (x, e) ∈ tr ∧ step sup x e = some x' ∧ ¬ Escalated x ∧ Escalated x'
    ∧ (countableTimes sup x).length = k ∧ (countableTimes sup x').length = k + 1

/-! ## What a step does to the history -/

/-- A step counts nothing and leaves the history alone, or it enters a countable report. -/
theorem countableTimes_step {sup : Supervisor φ} {w w' : World φ} {e : Event} (hi : Inv sup w)
    (hs : step sup w e = some w') :
    (countableTimes sup w' = countableTimes sup w ∧ w'.restartHistory = w.restartHistory
        ∧ w.clock ≤ w'.clock ∧ (Escalated w' ↔ Escalated w))
      ∨ ¬ Escalated w ∧ countableTimes sup w' = countableTimes sup w ++ [w.clock]
        ∧ w'.clock = w.clock ∧ w'.restartHistory = w.nextHistory sup.spec
        ∧ (Escalated w' ↔ w.exceeds sup.spec = true) := by
  have hsnoc : ∀ (f : Forwarder) (how : Ending) (x : World φ),
      x.reports = w.reports ++ [w.reportOf f how] →
      countableTimes sup x = countableTimes sup w
        ++ if countable sup (w.reportOf f how) = true then [w.clock] else [] := by
    intro f how x hx
    unfold countableTimes
    rw [hx, List.filter_append, List.map_append]
    congr 1
    by_cases hc : countable sup (w.reportOf f how) = true
    · rw [if_pos hc, List.filter_cons_of_pos hc]
      rfl
    · rw [if_neg hc, List.filter_cons_of_neg hc]
      rfl
  have hm := step_moves hs
  have hpcs : ∀ {pc : Pc}, w.pc = pc → pc ≠ .returned .maxRestartsExceeded → ¬ Escalated w :=
    fun hpc hne he => hne (hpc ▸ he)
  cases hm with
  | spawn hpc _ =>
      refine Or.inl ⟨rfl, rfl, Nat.le_refl _, ⟨fun he => absurd he (start_ne rfl), fun he => ?_⟩⟩
      exact absurd he (hpcs hpc (by simp))
  | abort hpc _ =>
      refine Or.inl ⟨rfl, rfl, Nat.le_refl _, ⟨fun he => Pc.noConfusion he, fun he => ?_⟩⟩
      exact absurd he (hpcs hpc (by simp))
  | respawn hpc _ =>
      refine Or.inl ⟨rfl, rfl, Nat.le_refl _, ⟨fun he => absurd he (pass_ne rfl), fun he => ?_⟩⟩
      exact absurd he (hpcs hpc (by simp))
  | @badReport f how _ hf hslot => exact (hi.no_badReport hf hslot).elim
  | @ignore f how slot _ _ _ hslot hc =>
      refine Or.inl ⟨?_, rfl, Nat.le_refl _, Iff.rfl⟩
      have hno : countable sup (w.reportOf f how) ≠ true :=
        fun ht => hc ((countable_iff hi hslot).mp ht)
      rw [hsnoc f how (taken w f how slot) rfl, if_neg hno, List.append_nil]
  | @escalate f how slot hpc _ _ hslot hc hx =>
      refine Or.inr ⟨hpcs hpc (by simp), ?_, rfl, rfl, ⟨fun _ => hx, fun _ => rfl⟩⟩
      have hyes : countable sup (w.reportOf f how) = true := (countable_iff hi hslot).mpr hc
      rw [hsnoc f how (((taken w f how slot).pushHistory sup.spec (w.reportOf f how)).escalate) rfl,
        if_pos hyes]
  | @pass f how slot hpc _ _ hslot hc hx =>
      refine Or.inr ⟨hpcs hpc (by simp), ?_, rfl, rfl, ⟨fun he => ?_, fun he => ?_⟩⟩
      · have hyes : countable sup (w.reportOf f how) = true := (countable_iff hi hslot).mpr hc
        rw [hsnoc f how (((taken w f how slot).pushHistory sup.spec (w.reportOf f how)).beginPass
          sup.spec (w.reportOf f how)) rfl, if_pos hyes]
      · exact absurd he (pass_ne rfl)
      · rw [hx] at he; exact Bool.noConfusion he
  | leave hl =>
      refine Or.inl ⟨rfl, rfl, Nat.le_refl _, ⟨fun he => ?_, fun he => ?_⟩⟩
      · cases hl <;> exact absurd he (by simp [Escalated, World.finish])
      · have hlive := hl.live
        rw [he] at hlive
        exact Bool.noConfusion hlive
  | spin _ _ _ => exact Or.inl ⟨rfl, rfl, Nat.le_refl _, Iff.rfl⟩
  | ends _ _ _ => exact Or.inl ⟨rfl, rfl, Nat.le_refl _, Iff.rfl⟩
  | tick => exact Or.inl ⟨rfl, rfl, Nat.le_add_right _ _, Iff.rfl⟩

/-! ## The invariant -/

/-- The window of a supervisor, in nanoseconds. -/
def windowOf (sup : Supervisor φ) : Nat := fromSecs sup.spec.withinSecs

/-- Countable report `k` puts more than `max_restarts` of them in the window. -/
def FirstOverBudget (sup : Supervisor φ) (ts : List Nat) (k : Nat) : Prop :=
  Window.FirstOver (windowOf sup) sup.spec.maxRestarts.toNat ts k

structure Windowed (sup : Supervisor φ) (w : World φ) : Prop where
  /-- `restart_history` is as good as the times of all countable reports. -/
  exact : Window.Exact (windowOf sup) w.clock w.restartHistory (countableTimes sup w)
  past : ∀ t ∈ countableTimes sup w, t ≤ w.clock
  ordered : (countableTimes sup w).Pairwise (· ≤ ·)
  /-- Until it escalates, the supervisor has been within its budget, -/
  quiet : sup.spec.maxRestarts.toNat + 1 < UInt32.size → ¬ Escalated w →
    (∀ k, ¬ Window.OverAt (windowOf sup) sup.spec.maxRestarts.toNat (countableTimes sup w) k)
      ∧ w.restartHistory.length ≤ sup.spec.maxRestarts.toNat
  /-- and it escalates at the first report that is over it. -/
  escalated : sup.spec.maxRestarts.toNat + 1 < UInt32.size → Escalated w →
    ∃ k, (countableTimes sup w).length = k + 1 ∧ FirstOverBudget sup (countableTimes sup w) k
      ∧ w.restartHistory.length = sup.spec.maxRestarts.toNat + 1
  /-- No length cast to a `u32` is above `u32::MAX`. -/
  never : sup.spec.maxRestarts.toNat + 1 = UInt32.size → ¬ Escalated w

theorem windowed_init (sup : Supervisor φ) : Windowed sup (World.init sup) where
  exact := Window.Exact.refl []
  past := by intro t ht; exact absurd ht (by simp [countableTimes, World.init])
  ordered := List.Pairwise.nil
  quiet := by
    intro _ _
    refine ⟨fun k hk => ?_, Nat.zero_le _⟩
    exact Nat.not_lt_zero k hk.lt
  escalated := by intro _ he; exact absurd he (start_ne rfl)
  never := by intro _ he; exact absurd he (start_ne rfl)

/-- The loop's comparison, while the length fits a `u32`. -/
theorem exceeds_iff {sup : Supervisor φ} {w : World φ}
    (hfits : (w.nextHistory sup.spec).length < UInt32.size) :
    w.exceeds sup.spec = true
      ↔ sup.spec.maxRestarts.toNat < (w.nextHistory sup.spec).length := by
  have hcast : (w.nextHistory sup.spec).length.toUInt32.toNat
      = (w.nextHistory sup.spec).length := Nat.mod_eq_of_lt hfits
  unfold World.exceeds
  rw [decide_eq_true_iff, gt_iff_lt, UInt32.lt_iff_toNat_lt, hcast]

/-- And when `max_restarts` is `u32::MAX`. -/
theorem not_exceeds_of_max {sup : Supervisor φ} {w : World φ}
    (hmax : sup.spec.maxRestarts.toNat + 1 = UInt32.size) : w.exceeds sup.spec = false := by
  refine decide_eq_false fun hlt => ?_
  rw [gt_iff_lt, UInt32.lt_iff_toNat_lt] at hlt
  have := (w.nextHistory sup.spec).length.toUInt32.toNat_lt_size
  omega

/-- **Preserved by every step.** -/
theorem windowed_step {sup : Supervisor φ} {w w' : World φ} {e : Event} (hi : Inv sup w)
    (h : Windowed sup w) (hs : step sup w e = some w') : Windowed sup w' := by
  rcases countableTimes_step hi hs with ⟨htimes, hhist, hclock, hesc⟩
      | ⟨hquiet, htimes, hclock, hhist, hesc⟩
  · -- nothing is entered, and time may have passed
    exact {
      exact := by
        rw [htimes, hhist]
        exact h.exact.later hclock
      past := by
        intro t ht
        exact Nat.le_trans (h.past t (htimes ▸ ht)) hclock
      ordered := by
        rw [htimes]
        exact h.ordered
      quiet := by
        intro hmax hne
        rw [htimes, hhist]
        exact h.quiet hmax (fun he => hne (hesc.mpr he))
      escalated := by
        intro hmax he
        rw [htimes, hhist]
        exact h.escalated hmax (hesc.mp he)
      never := by
        intro hmax he
        exact h.never hmax (hesc.mp he) }
  · -- one time is entered: the length compared is the count of the window
    have hnext : w.nextHistory sup.spec = Window.push (windowOf sup) w.clock w.restartHistory :=
      rfl
    have hlen := h.exact.length_push (Nat.le_refl w.clock)
    rw [← hnext] at hlen
    have hshort : sup.spec.maxRestarts.toNat + 1 < UInt32.size →
        (w.nextHistory sup.spec).length ≤ sup.spec.maxRestarts.toNat + 1 := by
      intro hmax
      have hsub : (w.nextHistory sup.spec).length ≤ w.restartHistory.length + 1 := by
        rw [hnext]
        unfold Window.push Window.within
        rw [List.length_append, List.length_singleton]
        exact Nat.add_le_add_right (List.length_filter_le ..) 1
      have := (h.quiet hmax hquiet).2
      omega
    exact {
      exact := by
        rw [htimes, hhist, hclock, hnext]
        exact h.exact.push (Nat.le_refl _)
      past := by
        intro t ht
        rw [hclock]
        rw [htimes] at ht
        rcases List.mem_append.mp ht with ht | ht
        · exact h.past t ht
        · exact Nat.le_of_eq (List.mem_singleton.mp ht)
      ordered := by
        rw [htimes, List.pairwise_append]
        refine ⟨h.ordered, List.pairwise_singleton .., ?_⟩
        intro t ht t' ht'
        rw [List.mem_singleton.mp ht']
        exact h.past t ht
      quiet := by
        intro hmax hne
        have hle : (w.nextHistory sup.spec).length ≤ sup.spec.maxRestarts.toNat := by
          refine Nat.le_of_not_lt fun hlt => hne ?_
          exact hesc.mpr ((exceeds_iff (Nat.lt_of_le_of_lt (hshort hmax) hmax)).mpr hlt)
        rw [htimes, hhist]
        exact ⟨Window.not_overAt_snoc (h.quiet hmax hquiet).1 (hlen ▸ hle), hle⟩
      escalated := by
        intro hmax he
        have hlt : sup.spec.maxRestarts.toNat < (w.nextHistory sup.spec).length :=
          (exceeds_iff (Nat.lt_of_le_of_lt (hshort hmax) hmax)).mp (hesc.mp he)
        refine ⟨(countableTimes sup w).length, ?_, ?_, ?_⟩
        · rw [htimes, List.length_append, List.length_singleton]
        · rw [htimes]
          exact Window.firstOver_snoc (h.quiet hmax hquiet).1 (hlen ▸ hlt)
        · rw [hhist]
          exact Nat.le_antisymm (hshort hmax) hlt
      never := by
        intro hmax he
        have hx := hesc.mp he
        rw [not_exceeds_of_max hmax] at hx
        exact Bool.noConfusion hx }

theorem windowed_reachable {sup : Supervisor φ} {w : World φ} {tr : List (World φ × Event)}
    (h : Run (step sup) (World.init sup) tr w) : Windowed sup w :=
  (h.invariant (P := fun s => Inv sup s ∧ Windowed sup s) ⟨inv_init sup, windowed_init sup⟩
    (fun _ _ _ hs hstep => ⟨inv_step hs.1 hstep, windowed_step hs.1 hs.2 hstep⟩)).2

/-! ## Where a run escalates -/

/-- A run that escalated did so at the last countable report it processed. -/
theorem escalatesAt_iff {sup : Supervisor φ} {w : World φ} {tr : List (World φ × Event)}
    (h : Run (step sup) (World.init sup) tr w) (k : Nat) :
    EscalatesAt sup tr k ↔ Escalated w ∧ (countableTimes sup w).length = k + 1 := by
  induction h with
  | nil =>
      refine ⟨fun ⟨x, e, x', hmem, _⟩ => absurd hmem (by simp), fun ⟨he, _⟩ => ?_⟩
      exact absurd he (start_ne rfl)
  | @snoc tr w w' e hr hs ih =>
      have hlast : EscalatesAt sup (tr ++ [(w, e)]) k ↔ EscalatesAt sup tr k
          ∨ ¬ Escalated w ∧ Escalated w' ∧ (countableTimes sup w).length = k
            ∧ (countableTimes sup w').length = k + 1 := by
        refine ⟨?_, ?_⟩
        · rintro ⟨x, e₁, x', hmem, hstep, hrest⟩
          rcases List.mem_append.mp hmem with hmem | hmem
          · exact Or.inl ⟨x, e₁, x', hmem, hstep, hrest⟩
          · obtain ⟨rfl, rfl⟩ := Prod.mk.inj (List.mem_singleton.mp hmem)
            obtain rfl := Option.some.inj (hs.symm.trans hstep)
            exact Or.inr hrest
        · rintro (⟨x, e₁, x', hmem, hrest⟩ | hrest)
          · exact ⟨x, e₁, x', List.mem_append_left _ hmem, hrest⟩
          · exact ⟨w, e, w', List.mem_append_right _ (List.mem_singleton.mpr rfl), hs, hrest⟩
      rw [hlast, ih]
      rcases countableTimes_step (inv_reachable hr) hs with ⟨htimes, _, _, hesc⟩
          | ⟨hquiet, htimes, _, _, hesc⟩
      · rw [htimes, hesc]
        refine ⟨?_, Or.inl⟩
        rintro (hold | ⟨hne, he, _⟩)
        · exact hold
        · exact absurd he hne
      · have hlen : (countableTimes sup w').length = (countableTimes sup w).length + 1 := by
          rw [htimes, List.length_append, List.length_singleton]
        refine ⟨?_, fun ⟨he, hk⟩ => Or.inr ⟨hquiet, he, by omega, hk⟩⟩
        rintro (⟨he, _⟩ | ⟨_, he, _, hk⟩)
        · exact absurd he hquiet
        · exact ⟨he, hk⟩

/--
**The pruned history computes the exact sliding window.**

The countable reports are processed in order of time. For a `max_restarts` below
`u32::MAX` the supervisor escalates at the first of them with more than
`max_restarts` within `within_secs`, itself included, counted over all of its life, and
at no other; the history never holds more than `max_restarts + 1` entries, and its
length survives the cast. With `u32::MAX` it never escalates.
-/
theorem window_exact {sup : Supervisor φ} {w : World φ} {tr : List (World φ × Event)}
    (h : Run (step sup) (World.init sup) tr w) :
    (countableTimes sup w).Pairwise (· ≤ ·)
      ∧ (sup.spec.maxRestarts.toNat + 1 < UInt32.size →
        (∀ k, EscalatesAt sup tr k
          ↔ Window.FirstOver (fromSecs sup.spec.withinSecs) sup.spec.maxRestarts.toNat
              (countableTimes sup w) k)
        ∧ ∀ x, Visits tr w x → x.restartHistory.length ≤ sup.spec.maxRestarts.toNat + 1
          ∧ x.restartHistory.length.toUInt32.toNat = x.restartHistory.length)
      ∧ (sup.spec.maxRestarts.toNat + 1 = UInt32.size →
        ∀ x, Visits tr w x → x.pc ≠ .returned .maxRestartsExceeded) := by
  refine ⟨(windowed_reachable h).ordered, ?_, ?_⟩
  · intro hmax
    refine ⟨?_, ?_⟩
    · intro k
      have hw := windowed_reachable h
      rw [escalatesAt_iff h]
      refine ⟨?_, ?_⟩
      · rintro ⟨he, hk⟩
        obtain ⟨k', hk', hfirst, _⟩ := hw.escalated hmax he
        obtain rfl : k' = k := by omega
        exact hfirst
      · intro hfirst
        by_cases he : Escalated w
        · obtain ⟨k', hk', hfirst', _⟩ := hw.escalated hmax he
          obtain rfl := Window.FirstOver.unique hfirst hfirst'
          exact ⟨he, hk'⟩
        · exact absurd hfirst.1 ((hw.quiet hmax he).1 k)
    · intro x hx
      obtain ⟨_, _, hrun⟩ := h.upTo hx
      have hw := windowed_reachable hrun
      have hle : x.restartHistory.length ≤ sup.spec.maxRestarts.toNat + 1 := by
        by_cases he : Escalated x
        · obtain ⟨_, _, _, hlen⟩ := hw.escalated hmax he
          exact Nat.le_of_eq hlen
        · exact Nat.le_succ_of_le (hw.quiet hmax he).2
      exact ⟨hle, Nat.mod_eq_of_lt (Nat.lt_of_le_of_lt hle hmax)⟩
  · intro hmax x hx
    obtain ⟨_, _, hrun⟩ := h.upTo hx
    exact (windowed_reachable hrun).never hmax

/-- Two panics in a row, with one restart allowed: the supervisor escalates at the second. -/
theorem window_exact_panicsTwice :
    EscalatesAt (twoWorkers .oneForOne 1 .permanent) (traceOn (twoWorkers .oneForOne 1 .permanent)
      (started ++ [.childEnds 0 .panicked, .childEnds 1 .panicked, .joinNext ⟨0, 0⟩, .advance,
        .advance, .tick 9000000000, .joinNext ⟨1, 1⟩])) 1 :=
  have hrun := runOn (twoWorkers .oneForOne 1 .permanent)
    (started ++ [.childEnds 0 .panicked, .childEnds 1 .panicked, .joinNext ⟨0, 0⟩, .advance,
      .advance, .tick 9000000000, .joinNext ⟨1, 1⟩]) (by decide +kernel)
  (((window_exact hrun).2.1 (by decide +kernel)).1 1).mpr
    ⟨⟨9000000000, by decide +kernel, by decide +kernel⟩, fun j hj => by
      obtain rfl : j = 0 := by omega
      rintro ⟨t, _, hover⟩
      simp [twoWorkers, Supervisor.new, Supervisor.child] at hover⟩

end ErlangActors.Proof
