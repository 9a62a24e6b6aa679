import ErlangActors.Lib.Run
import ErlangActors.Monitor.Watch

/-!
# Giving up a monitor

Whichever constructor made it, a `Monitor` is given up by `cancel` or by being dropped,
at any point of its watcher's life. `cancel` requests the watcher's abort. A drop does
not: `Monitor` has no destructor of its own, and dropping the `AbortHandle` in it leaves
the task alone — from then on nobody can stop the watcher at all.
-/

namespace ErlangActors.Proof

open Monitoring Transition

/-- If the `Monitor` has been given up, its watcher has had its abort requested. -/
def Demonitored (m : Monitor) : Prop := m.owner ≠ .held → m.abortRequested = true

/-- The abort is requested by `cancel`, and only then; it takes effect only once requested. -/
structure Asked (m : Monitor) : Prop where
  cancelled : m.abortRequested = true ↔ m.owner = .cancelled
  cut : m.cut = true → m.abortRequested = true

theorem asked_new (w : Watcher) : Asked (Monitor.new w) where
  cancelled := ⟨fun h => Bool.noConfusion h, fun h => Owner.noConfusion h⟩
  cut := fun h => Bool.noConfusion h

/-! ## Steps -/

/-- Everything one step can do to a `Monitor`. -/
inductive Gives (m : Monitor) : Event → Monitor → Prop where
  | watcher {e : WatcherEvent} {w : Watcher} :
      m.cut = false → m.watcher.step e = some w → Gives m (.watcher e) { m with watcher := w }
  | cancel : m.owner = .held → Gives m .cancel m.cancel
  | drop : m.owner = .held → Gives m .drop m.drop
  | cutOff : m.abortRequested = true → Gives m .cutOff { m with cut := true }

theorem step_gives {m m' : Monitor} {e : Event} (h : Monitoring.step m e = some m') :
    Gives m e m' := by
  cases e with
  | watcher e =>
      rw [Monitoring.step] at h
      split at h
      · exact absurd h (by simp)
      · rename_i hcut
        obtain ⟨w, hw, rfl⟩ := Option.map_eq_some_iff.mp h
        exact Gives.watcher (Bool.eq_false_iff.mpr hcut) hw
  | cancel =>
      rw [Monitoring.step] at h
      split at h
      · rename_i hheld
        exact Option.some.inj h ▸ Gives.cancel hheld
      · exact absurd h (by simp)
  | drop =>
      rw [Monitoring.step] at h
      split at h
      · rename_i hheld
        exact Option.some.inj h ▸ Gives.drop hheld
      · exact absurd h (by simp)
  | cutOff =>
      rw [Monitoring.step] at h
      split at h
      · rename_i hg
        exact Option.some.inj h ▸ Gives.cutOff hg.1
      · exact absurd h (by simp)

theorem asked_step {m m' : Monitor} {e : Event} (h : Asked m)
    (hs : Monitoring.step m e = some m') : Asked m' := by
  cases step_gives hs with
  | watcher _ _ => exact ⟨h.cancelled, h.cut⟩
  | cancel _ => exact ⟨⟨fun _ => rfl, fun _ => rfl⟩, fun _ => rfl⟩
  | drop hheld =>
      refine ⟨⟨fun hreq => ?_, fun ho => Owner.noConfusion ho⟩, h.cut⟩
      have := h.cancelled.mp hreq
      rw [hheld] at this
      exact Owner.noConfusion this
  | cutOff hreq => exact ⟨h.cancelled, fun _ => hreq⟩

/-- **A step keeps a given-up monitor's abort requested exactly if it is not a drop.** -/
theorem demonitored_step_iff {m m' : Monitor} {e : Event} (h : Asked m)
    (hd : Demonitored m) (hs : Monitoring.step m e = some m') :
    Demonitored m' ↔ e ≠ .drop := by
  cases step_gives hs with
  | watcher _ _ => exact ⟨fun _ => Event.noConfusion, fun _ => hd⟩
  | cancel _ => exact ⟨fun _ => Event.noConfusion, fun _ _ => rfl⟩
  | drop hheld =>
      refine ⟨fun hd' => ?_, fun hne => absurd rfl hne⟩
      have hreq : m.abortRequested = true := hd' Owner.noConfusion
      have := h.cancelled.mp hreq
      rw [hheld] at this
      exact Owner.noConfusion this
  | cutOff _ => exact ⟨fun _ => Event.noConfusion, fun _ => hd⟩

/-! ## After the end -/

/-- A watcher that has been cut off does nothing any more. -/
theorem cut_step {m m' : Monitor} {e : Event} (h : m.cut = true)
    (hs : Monitoring.step m e = some m') : m'.cut = true ∧ m'.watcher = m.watcher := by
  cases step_gives hs with
  | watcher hcut _ => rw [h] at hcut; exact Bool.noConfusion hcut
  | cancel _ => exact ⟨h, rfl⟩
  | drop _ => exact ⟨h, rfl⟩
  | cutOff _ => exact ⟨rfl, rfl⟩

/-- A monitor that was dropped stays dropped, and its watcher's abort unrequested. -/
theorem dropped_step {m m' : Monitor} {e : Event} (h : Asked m) (ho : m.owner = .dropped)
    (hs : Monitoring.step m e = some m') : m'.owner = .dropped := by
  cases step_gives hs with
  | watcher _ _ => exact ho
  | cancel hheld => rw [ho] at hheld; exact Owner.noConfusion hheld
  | drop hheld => rfl
  | cutOff hreq =>
      have := h.cancelled.mp hreq
      rw [ho] at this
      exact Owner.noConfusion this

/--
**Demonitoring is effective exactly by `cancel`.**

Along a run, a given-up monitor's watcher has always had its abort requested if and only
if no step of the run dropped the `Monitor`. Once the abort takes effect the watcher
sends no further ping and no further reason, in any continuation; and the watcher of a
`Monitor` that was dropped is never asked to stop, in any continuation either.
-/
theorem demonitor_iff {w : Watcher} {m : Monitor} {tr : List (Monitor × Event)}
    (h : Run Monitoring.step (Monitor.new w) tr m) :
    ((∀ x, Visits tr m x → Demonitored x) ↔ ∀ p ∈ tr, p.2 ≠ .drop)
      ∧ (∀ x, Visits tr m x → x.cut = true → ∀ tr' y, Run Monitoring.step x tr' y →
        y.watcher.pings = x.watcher.pings ∧ y.watcher.sent = x.watcher.sent)
      ∧ (∀ x, Visits tr m x → x.owner = .dropped → ∀ tr' y, Run Monitoring.step x tr' y →
        y.abortRequested = false ∧ y.cut = false) := by
  refine ⟨?_, ?_, ?_⟩
  · exact h.always_iff (R := Asked) (P := Demonitored) (C := fun _ e => e ≠ .drop) (asked_new w)
      (fun _ _ _ ha hs => asked_step ha hs) (fun hne => absurd rfl hne)
      (fun _ _ _ ha hd hs => demonitored_step_iff ha hd hs)
  · intro x _ hcut tr' y hrun
    have hkeep : y.cut = true ∧ y.watcher = x.watcher :=
      hrun.invariant (P := fun s => s.cut = true ∧ s.watcher = x.watcher) ⟨hcut, rfl⟩
        (fun s e s' hs hstep => ⟨(cut_step hs.1 hstep).1, (cut_step hs.1 hstep).2.trans hs.2⟩)
    rw [hkeep.2]
    exact ⟨rfl, rfl⟩
  · intro x hx ho tr' y hrun
    have hasked : Asked x := h.always (asked_new w) (fun _ _ _ ha hs => asked_step ha hs) hx
    obtain ⟨hy, hdropped⟩ := hrun.invariant (P := fun s => Asked s ∧ s.owner = .dropped)
      ⟨hasked, ho⟩ (fun s e s' hs hstep => ⟨asked_step hs.1 hstep, dropped_step hs.1 hs.2 hstep⟩)
    have hreq : y.abortRequested = false := by
      refine Bool.eq_false_iff.mpr fun hreq => ?_
      have := hy.cancelled.mp hreq
      rw [hdropped] at this
      exact Owner.noConfusion this
    refine ⟨hreq, Bool.eq_false_iff.mpr fun hcut => ?_⟩
    rw [hy.cut hcut] at hreq
    exact Bool.noConfusion hreq

/-- A heartbeat monitor with a miss threshold of 3. -/
def heartbeatMonitor : Monitor := .new (.watchHeartbeat 3 .init)

/-- It is cancelled while it waits for a reply, and cut off there. -/
def cancelAwaiting : List Event := [.watcher (.heartbeat (.told (.ok ()))), .cancel, .cutOff]

/-- It is dropped, and goes on to send its first ping. -/
def dropFirst : List Event := [.drop, .watcher (.heartbeat (.told (.ok ())))]

theorem demonitor_iff_cancelAwaiting :
    Demonitored (after Monitoring.step heartbeatMonitor cancelAwaiting) := by
  have hrun : Run Monitoring.step heartbeatMonitor
      (traceOf Monitoring.step heartbeatMonitor cancelAwaiting)
      (after Monitoring.step heartbeatMonitor cancelAwaiting) := Run.after rfl
  refine (demonitor_iff hrun).1.mpr ?_ _ Visits.last
  exact List.forall_mem_cons.mpr ⟨Event.noConfusion, List.forall_mem_cons.mpr
    ⟨Event.noConfusion, List.forall_mem_cons.mpr ⟨Event.noConfusion, List.forall_mem_nil _⟩⟩⟩

theorem demonitor_iff_dropFirst :
    ¬ ∀ (w : Watcher) (tr : List (Monitor × Event)) (m : Monitor),
      Run Monitoring.step (Monitor.new w) tr m → Demonitored m := by
  intro hall
  have hrun : Run Monitoring.step heartbeatMonitor
      (traceOf Monitoring.step heartbeatMonitor dropFirst)
      (after Monitoring.step heartbeatMonitor dropFirst) := Run.after rfl
  have hreq := hall _ _ _ hrun Owner.noConfusion
  exact Bool.noConfusion hreq

end ErlangActors.Proof
