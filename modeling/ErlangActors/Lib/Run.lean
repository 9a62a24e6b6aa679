import Mathlib.Algebra.GroupWithZero.Nat
import Mathlib.Data.List.Basic
import Mathlib.Data.List.Infix

/-!
# Runs of a partial step function

A system is a function `step : σ → ε → Option σ`: in state `s` the event `e` is
either impossible (`none`) or leads to one next state. A *run* is a sequence of
events that are all possible, and its *trace* keeps each event together with the
state it was taken in, so that a condition on the steps of a run can speak about
the state before each step.

Three rules carry every induction over a run:

* `Run.invariant` — what holds initially and is preserved holds at the end.
* `Run.guarded` — the same when preservation needs a condition on each step.
* `Run.always_iff` — when a step preserves `P` *exactly* if it meets `C`, then `P`
  holds in every state of a run exactly if every step of the run meets `C`.
-/

namespace Transition

universe u v

variable {σ : Type u} {ε : Type v}

/-- A run from `s₀`: its trace, oldest step first, and the state it ends in. -/
inductive Run (step : σ → ε → Option σ) (s₀ : σ) : List (σ × ε) → σ → Prop where
  | nil : Run step s₀ [] s₀
  | snoc {tr : List (σ × ε)} {s s' : σ} {e : ε} :
      Run step s₀ tr s → step s e = some s' → Run step s₀ (tr ++ [(s, e)]) s'

/-- The states a run goes through: the one it ends in and those it took a step from. -/
def Visits (tr : List (σ × ε)) (s x : σ) : Prop := x = s ∨ ∃ e, (x, e) ∈ tr

variable {step : σ → ε → Option σ} {s₀ s : σ} {tr : List (σ × ε)}

theorem Visits.last : Visits tr s s := Or.inl rfl

theorem Visits.before {x : σ} {e : ε} (h : (x, e) ∈ tr) : Visits tr s x := Or.inr ⟨e, h⟩

/-! ## Splitting a run -/

/-- A run splits at any step it took. -/
theorem Run.split (h : Run step s₀ tr s) {x : σ} {e : ε} (hx : (x, e) ∈ tr) :
    ∃ (tr₁ : List (σ × ε)) (x' : σ), tr₁ <+: tr ∧ Run step s₀ tr₁ x ∧ step x e = some x'
      ∧ Visits tr s x' := by
  induction h with
  | nil => exact absurd hx (by simp)
  | @snoc tr y y' e' hr hs ih =>
      rcases List.mem_append.mp hx with hx' | hx'
      · obtain ⟨tr₁, x', hpre, hrun, hstep, hvis⟩ := ih hx'
        refine ⟨tr₁, x', hpre.trans (List.prefix_append _ _), hrun, hstep, ?_⟩
        rcases hvis with rfl | ⟨e₁, he₁⟩
        · exact Visits.before (List.mem_append_right _ (List.mem_singleton.mpr rfl))
        · exact Visits.before (List.mem_append_left _ he₁)
      · obtain ⟨rfl, rfl⟩ : x = y ∧ e = e' := by simpa using hx'
        exact ⟨tr, y', List.prefix_append _ _, hr, hs, Visits.last⟩

/-- Every state a run visits is the end of a run whose trace is a prefix of it. -/
theorem Run.upTo (h : Run step s₀ tr s) {x : σ} (hx : Visits tr s x) :
    ∃ tr₁, tr₁ <+: tr ∧ Run step s₀ tr₁ x := by
  rcases hx with rfl | ⟨e, he⟩
  · exact ⟨tr, List.prefix_rfl, h⟩
  · obtain ⟨tr₁, _, hpre, hrun, _, _⟩ := h.split he
    exact ⟨tr₁, hpre, hrun⟩

/-- Two runs end to end. -/
theorem Run.append (h : Run step s₀ tr s) {tr' : List (σ × ε)} {s' : σ}
    (h' : Run step s tr' s') : Run step s₀ (tr ++ tr') s' := by
  induction h' with
  | nil => simpa using h
  | snoc _ hs ih => rw [← List.append_assoc]; exact Run.snoc ih hs

/-- A run with a step before it. -/
theorem Run.cons {e : ε} {s' : σ} (hs : step s₀ e = some s) (h : Run step s tr s') :
    Run step s₀ ((s₀, e) :: tr) s' :=
  Run.append (Run.snoc Run.nil hs) h

/-! ## Invariants of runs -/

/-- What holds initially and is preserved by every step holds at the end of every run. -/
theorem Run.invariant {P : σ → Prop} (h : Run step s₀ tr s) (h0 : P s₀)
    (hs : ∀ s e s', P s → step s e = some s' → P s') : P s := by
  induction h with
  | nil => exact h0
  | snoc _ hstep ih => exact hs _ _ _ ih hstep

/-- The same when preservation needs the step to meet a condition. -/
theorem Run.guarded {P : σ → Prop} {C : σ → ε → Prop} (h : Run step s₀ tr s) (h0 : P s₀)
    (hs : ∀ s e s', P s → C s e → step s e = some s' → P s')
    (hC : ∀ p ∈ tr, C p.1 p.2) : P s := by
  induction h with
  | nil => exact h0
  | @snoc tr _ _ _ _ hstep ih =>
      have hold : ∀ p ∈ tr, C p.1 p.2 := fun p hp => hC p (List.mem_append_left _ hp)
      have hnew := hC _ (List.mem_append_right _ (List.mem_singleton.mpr rfl))
      exact hs _ _ _ (ih hold) hnew hstep

/-- An invariant holds in every state a run visits, not only in the last. -/
theorem Run.always {P : σ → Prop} (h : Run step s₀ tr s) (h0 : P s₀)
    (hs : ∀ s e s', P s → step s e = some s' → P s') {x : σ} (hx : Visits tr s x) : P x := by
  obtain ⟨_, _, hrun⟩ := h.upTo hx
  exact hrun.invariant h0 hs

/-- A guarded invariant holds in every state visited by a run that meets the guard. -/
theorem Run.always_guarded {P : σ → Prop} {C : σ → ε → Prop} (h : Run step s₀ tr s) (h0 : P s₀)
    (hs : ∀ s e s', P s → C s e → step s e = some s' → P s')
    (hC : ∀ p ∈ tr, C p.1 p.2) {x : σ} (hx : Visits tr s x) : P x := by
  obtain ⟨_, hpre, hrun⟩ := h.upTo hx
  exact hrun.guarded h0 hs (fun p hp => hC p (hpre.subset hp))

/--
**Exact guards.** Over a background invariant `R`, if a step out of a `P`-state
keeps `P` exactly when it meets `C`, then a run stays in `P` exactly when all its
steps meet `C`.
-/
theorem Run.always_iff {R P : σ → Prop} {C : σ → ε → Prop} (h : Run step s₀ tr s)
    (hR0 : R s₀) (hR : ∀ s e s', R s → step s e = some s' → R s') (h0 : P s₀)
    (hs : ∀ s e s', R s → P s → step s e = some s' → (P s' ↔ C s e)) :
    (∀ x, Visits tr s x → P x) ↔ ∀ p ∈ tr, C p.1 p.2 := by
  refine ⟨?_, ?_⟩
  · intro hP p hp
    obtain ⟨x, e⟩ := p
    obtain ⟨_, x', _, hrun, hstep, hvis⟩ := h.split hp
    exact (hs x e x' (hrun.invariant hR0 hR) (hP x (Visits.before hp)) hstep).mp (hP x' hvis)
  · intro hC x hx
    refine (h.always_guarded (P := fun s => R s ∧ P s) ⟨hR0, h0⟩ ?_ hC hx).2
    intro s e s' hP hc hstep
    exact ⟨hR s e s' hP.1 hstep, (hs s e s' hP.1 hP.2 hstep).mpr hc⟩

/-- What each step meeting `C` increases by one, and no other step moves, counts those steps. -/
theorem Run.count {R : σ → Prop} {f : σ → Nat} {C : σ → ε → Prop}
    [∀ s e, Decidable (C s e)] (h : Run step s₀ tr s)
    (hR0 : R s₀) (hR : ∀ s e s', R s → step s e = some s' → R s')
    (hs : ∀ s e s', R s → step s e = some s' → f s' = f s + if C s e then 1 else 0) :
    f s = f s₀ + tr.countP (fun p => C p.1 p.2) := by
  induction h with
  | nil => simp
  | @snoc tr s s' e hr hstep ih =>
      rw [hs _ _ _ (hr.invariant hR0 hR) hstep, ih, List.countP_append, Nat.add_assoc]
      simp [List.countP_cons]

/--
**Amortised cost.** If what a step costs is covered by a potential it uses up and by
what the step itself brings in, the cost of a run is covered by the potential it
started with and what its steps brought in.
-/
theorem Run.amortised {R : σ → Prop} {f : σ → Nat} {cost gain : σ → ε → Nat}
    (h : Run step s₀ tr s) (hR0 : R s₀) (hR : ∀ s e s', R s → step s e = some s' → R s')
    (hs : ∀ s e s', R s → step s e = some s' → f s' + cost s e ≤ f s + gain s e) :
    f s + (tr.map fun p => cost p.1 p.2).sum ≤ f s₀ + (tr.map fun p => gain p.1 p.2).sum := by
  induction h with
  | nil => exact Nat.le_refl _
  | @snoc tr s s' e hr hstep ih =>
      have hone := hs _ _ _ (hr.invariant hR0 hR) hstep
      simp only [List.map_append, List.sum_append, List.map_singleton, List.sum_singleton]
      omega

/--
**Balance.** If every step pays out and takes in what a measure loses and gains by it, so
does a run.
-/
theorem Run.balanced {R : σ → Prop} {f : σ → Nat} (cost gain : σ → ε → Nat)
    (h : Run step s₀ tr s) (hR0 : R s₀) (hR : ∀ s e s', R s → step s e = some s' → R s')
    (hs : ∀ s e s', R s → step s e = some s' → f s' + cost s e = f s + gain s e) :
    f s + (tr.map fun p => cost p.1 p.2).sum = f s₀ + (tr.map fun p => gain p.1 p.2).sum := by
  induction h with
  | nil => rfl
  | @snoc tr s s' e hr hstep ih =>
      have hone := hs _ _ _ (hr.invariant hR0 hR) hstep
      simp only [List.map_append, List.sum_append, List.map_singleton, List.sum_singleton]
      omega

/--
**Deadlines.** If the time in a live state is not past its deadline, and no step that meets
`C` moves the deadline of a live state back, then past the deadline a run started with
nothing is live.
-/
theorem Run.overdue {R : σ → Prop} {C : σ → ε → Prop} (live : σ → Prop) (time deadline : σ → Nat)
    (h : Run step s₀ tr s) (hR0 : R s₀) (hR : ∀ s e s', R s → C s e → step s e = some s' → R s')
    (hlive : ∀ s e s', step s e = some s' → live s' → live s)
    (hd : ∀ s e s', R s → C s e → step s e = some s' → live s' → deadline s' ≤ deadline s)
    (htime : ∀ s, R s → live s → time s ≤ deadline s) (hC : ∀ p ∈ tr, C p.1 p.2)
    (hlate : deadline s₀ < time s) : ¬ live s := by
  have hkept : R s ∧ (live s → deadline s ≤ deadline s₀) := by
    refine h.guarded (P := fun s => R s ∧ (live s → deadline s ≤ deadline s₀))
      ⟨hR0, fun _ => Nat.le_refl _⟩ ?_ hC
    intro s e s' hP hc hs
    refine ⟨hR s e s' hP.1 hc hs, fun hl => ?_⟩
    exact Nat.le_trans (hd s e s' hP.1 hc hs hl) (hP.2 (hlive s e s' hs hl))
  intro hl
  have hold := hkept.2 hl
  have hnow := htime s hkept.1 hl
  omega

/-! ## Executing a list of events -/

/-- The state a list of events leads to, if they are all possible. -/
def exec (step : σ → ε → Option σ) : σ → List ε → Option σ
  | s, [] => some s
  | s, e :: es => (step s e).bind (fun s' => exec step s' es)

theorem exec_append {es es' : List ε} {s₁ s₂ : σ} : ∀ {s₀ : σ}, exec step s₀ es = some s₁ →
    exec step s₁ es' = some s₂ → exec step s₀ (es ++ es') = some s₂ := by
  induction es with
  | nil =>
      intro s₀ h h'
      obtain rfl : s₀ = s₁ := by simpa [exec] using h
      exact h'
  | cons e es ih =>
      intro s₀ h h'
      obtain ⟨s, hs, hrest⟩ := Option.bind_eq_some_iff.mp h
      exact Option.bind_eq_some_iff.mpr ⟨s, hs, ih hrest h'⟩

/-- The trace that executing a list of events leaves. -/
def traceOf (step : σ → ε → Option σ) : σ → List ε → List (σ × ε)
  | _, [] => []
  | s, e :: es =>
      match step s e with
      | none => []
      | some s' => (s, e) :: traceOf step s' es

/-- A trace holds only events that were in the list. -/
theorem mem_of_traceOf : ∀ {es : List ε} {s₀ : σ} {x : σ × ε}, x ∈ traceOf step s₀ es → x.2 ∈ es
  | [], _, _, hx => absurd hx List.not_mem_nil
  | e :: es, s₀, x, hx => by
      cases hs : step s₀ e with
      | none => simp [traceOf, hs] at hx
      | some s' =>
          simp only [traceOf, hs] at hx
          rcases List.mem_cons.mp hx with rfl | hx
          · exact List.mem_cons_self
          · exact List.mem_cons_of_mem _ (mem_of_traceOf hx)

/-- Executing events makes a run. -/
theorem Run.of_exec : ∀ {es : List ε} {s₀ s : σ}, exec step s₀ es = some s →
    Run step s₀ (traceOf step s₀ es) s
  | [], s₀, s, h => by
      obtain rfl : s₀ = s := by simpa [exec] using h
      exact Run.nil
  | e :: es, s₀, s, h => by
      cases hs : step s₀ e with
      | none => simp [exec, hs] at h
      | some s' =>
          have hrest : exec step s' es = some s := by simpa [exec, hs] using h
          simp only [traceOf, hs]
          exact Run.cons hs (Run.of_exec hrest)

/-- What every event of a list keeps, if it meets a condition. -/
theorem exec_keeps {P : σ → Prop} {C : ε → Prop} {es : List ε} (h : exec step s₀ es = some s)
    (h0 : P s₀) (hs : ∀ s e s', P s → C e → step s e = some s' → P s') (hC : ∀ e ∈ es, C e) : P s :=
  (Run.of_exec h).guarded (C := fun _ e => C e) h0 hs fun _ hx => hC _ (mem_of_traceOf hx)

/-! ## Layers -/

/-- A system whose every step is a few steps of another one runs as that one does; and what its
events have to do with those below, the runs have to do with each other. -/
theorem Run.lowered_meeting {τ : Type u} {η : Type v} {stepB : τ → η → Option τ} {f : τ → σ}
    {C : τ → η → Prop} {D : ε → Prop} {t₀ t : τ} {trB : List (τ × η)} (h : Run stepB t₀ trB t)
    (hs : ∀ t e t', C t e → stepB t e = some t' →
      ∃ es, exec step (f t) es = some (f t') ∧ ∀ e' ∈ es, D e')
    (hC : ∀ x ∈ trB, C x.1 x.2) : ∃ tr, Run step (f t₀) tr (f t) ∧ ∀ x ∈ tr, D x.2 := by
  induction h with
  | nil => exact ⟨[], Run.nil, fun _ hx => absurd hx List.not_mem_nil⟩
  | snoc _ hstep ih =>
      obtain ⟨tr, hrun, hD⟩ := ih fun x hx => hC x (List.mem_append_left _ hx)
      have hnew := hC _ (List.mem_append_right _ (List.mem_singleton.mpr rfl))
      obtain ⟨es, hes, hDes⟩ := hs _ _ _ hnew hstep
      refine ⟨_, hrun.append (Run.of_exec hes), fun x hx => ?_⟩
      rcases List.mem_append.mp hx with hx | hx
      · exact hD x hx
      · exact hDes _ (mem_of_traceOf hx)

/-- The same for the run alone. -/
theorem Run.lowered {τ : Type u} {η : Type v} {stepB : τ → η → Option τ} {f : τ → σ}
    {t₀ t : τ} {trB : List (τ × η)} (h : Run stepB t₀ trB t)
    (hs : ∀ t e t', stepB t e = some t' → ∃ es, exec step (f t) es = some (f t')) :
    ∃ tr, Run step (f t₀) tr (f t) := by
  obtain ⟨tr, hrun, _⟩ := h.lowered_meeting (C := fun _ _ => True) (D := fun _ => True)
    (fun t e t' _ hstep => (hs t e t' hstep).imp fun _ hes => ⟨hes, fun _ _ => trivial⟩)
    fun _ _ => trivial
  exact ⟨tr, hrun⟩

/-- The state reached by executing events, when they are all possible. -/
def after (step : σ → ε → Option σ) (s₀ : σ) (es : List ε) : σ := (exec step s₀ es).getD s₀

theorem Run.after {es : List ε} (h : (exec step s₀ es).isSome = true) :
    Run step s₀ (traceOf step s₀ es) (after step s₀ es) := by
  obtain ⟨s, hs⟩ := Option.isSome_iff_exists.mp h
  have hafter : Transition.after step s₀ es = s := by rw [Transition.after, hs]; rfl
  rw [hafter]
  exact Run.of_exec hs

end Transition
