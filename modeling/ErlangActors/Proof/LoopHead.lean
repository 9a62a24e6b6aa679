import ErlangActors.Proof.Inv

/-!
# What holds at the loop head

Two facts about `run_supervisor` that need nothing but the bookkeeping invariant.

**The loop never spins.** When `join_next` returns `None` every child has ended and
no slot holds a handle, so the supervisor returns; the `continue` that would poll an
empty `JoinSet` again is dead code. No index the loop uses is ever out of bounds.

**Nothing is left down.** A slot with no incarnation in the `JoinSet` is `Temporary`
or last reported `Normal`.
-/

namespace ErlangActors.Proof

open Supervision Transition

variable {φ : Type}

/-! ## The loop never spins -/

/-- What the loop relies on each time it reaches `join_next`. -/
structure LoopSound (sup : Supervisor φ) (w : World φ) : Prop where
  /-- `slots[k].spec` is the `k`-th registered spec, and there are no other slots. -/
  specs : w.slots.map Slot.spec = sup.children
  /-- Every report to come names a slot. -/
  indices : ∀ f ∈ w.joinset, f.idx < w.slots.length
  /-- A handle is of a child whose forwarder is outstanding. -/
  outstanding : ∀ i c, handle w i = some c → { idx := i, child := c } ∈ w.joinset
  /-- On an empty `JoinSet` nothing is left running, and the supervisor returns. -/
  returns : w.joinset = [] → (∀ i, handle w i = none)
    ∧ (∀ c, c < w.tasks.length → (w.endingOf c).isSome = true)
    ∧ step sup w .joinNone = some (w.finish (.returned .allStopped))

/-- With nothing outstanding, no slot holds a handle. -/
theorem no_handle_of_empty {sup : Supervisor φ} {w : World φ} (h : Inv sup w)
    (hlive : w.pc.live = true) (hempty : w.joinset = []) (i : Nat) : handle w i = none := by
  cases hi : handle w i with
  | none => rfl
  | some c =>
      have hmem := (h.handles hlive i c hi).1
      rw [hempty] at hmem
      exact absurd hmem (by simp)

/-- With nothing outstanding, every child has been reported, so every child has ended. -/
theorem ended_of_empty {sup : Supervisor φ} {w : World φ} (h : Inv sup w)
    (hlive : w.pc.live = true) (hempty : w.joinset = []) {c : Nat} (hc : c < w.tasks.length) :
    (w.endingOf c).isSome = true := by
  have hmem := (h.accounted hlive).mem_iff.mpr (List.mem_range.mpr hc)
  rw [hempty, List.map_nil, List.nil_append] at hmem
  obtain ⟨r, hr, hrc⟩ := List.mem_map.mp hmem
  obtain ⟨_, how, hend, _⟩ := h.reported r hr
  rw [hrc] at hend
  rw [hend]; rfl

theorem inv_loopSound {sup : Supervisor φ} {w : World φ} (h : Inv sup w)
    (hpc : w.pc = .loopHead) : LoopSound sup w where
  specs := by
    have hlen : w.slots.length = sup.children.length := h.size _ (by rw [hpc]; rfl)
    exact h.specs.eq_of_length (by rw [List.length_map]; exact hlen)
  indices := by intro f hf; exact h.slotted f.child f.idx (h.awaited f hf)
  outstanding := by intro i c hc; exact (h.handles (by rw [hpc]; rfl) i c hc).1
  returns := by
    intro hempty
    have hlive : w.pc.live = true := by rw [hpc]; rfl
    have hnone := no_handle_of_empty h hlive hempty
    refine ⟨hnone, fun c hc => ended_of_empty h hlive hempty hc, ?_⟩
    rw [step, if_pos ⟨hpc, hempty⟩, World.joinNone, if_neg ?_]
    intro hany
    obtain ⟨s, hs, hsome⟩ := List.any_eq_true.mp hany
    obtain ⟨c, hc⟩ := Option.isSome_iff_exists.mp hsome
    obtain ⟨i, hi⟩ := mem_handles.mp (List.mem_filterMap.mpr ⟨s, hs, hc⟩)
    rw [hnone i] at hi
    exact absurd hi (by simp)

/-- No step indexes `slots` out of bounds. -/
theorem inBounds_step {sup : Supervisor φ} {w w' : World φ} {e : Event} (h : Inv sup w)
    (hw : w.pc ≠ .unwound .indexOutOfBounds) (hs : step sup w e = some w') :
    w'.pc ≠ .unwound .indexOutOfBounds := by
  have hm := step_moves hs
  cases hm with
  | spawn _ _ =>
      intro he
      exact absurd he (start_ne rfl)
  | abort _ _ => exact fun he => Pc.noConfusion he
  | respawn _ _ =>
      intro he
      exact absurd he (pass_ne rfl)
  | @badReport f how _ hf hslot =>
      exact (h.no_badReport hf hslot).elim
  | ignore _ _ _ _ _ => exact hw
  | escalate _ _ _ _ _ _ => exact fun he => Pc.noConfusion he
  | pass _ _ _ _ _ _ =>
      intro he
      exact absurd he (pass_ne rfl)
  | leave hl =>
      cases hl with
      | badIndex hpc hslot =>
          exact (h.no_badIndex hpc hslot).elim
      | _ => simp [World.finish]
  | spin _ _ _ => exact hw
  | ends _ _ _ => exact hw
  | tick => exact hw

/--
**The supervisor loop never spins and never indexes out of range**, for any
strategy, any children and any order of exits and reports.
-/
theorem loop_never_spins {sup : Supervisor φ} {w : World φ} {tr : List (World φ × Event)}
    (h : Run (step sup) (World.init sup) tr w) :
    (∀ x, Visits tr w x → x.pc ≠ .unwound .indexOutOfBounds)
      ∧ ∀ x, Visits tr w x → x.pc = .loopHead → LoopSound sup x := by
  refine ⟨?_, ?_⟩
  · intro x hx
    refine (h.always (P := fun s => Inv sup s ∧ s.pc ≠ .unwound .indexOutOfBounds) ?_ ?_ hx).2
    · exact ⟨inv_init sup, fun he => absurd he (start_ne rfl)⟩
    · intro s e s' hi hs
      exact ⟨inv_step hi.1 hs, inBounds_step hi.1 hi.2 hs⟩
  · intro x hx hpc
    exact inv_loopSound (h.always (inv_init sup) (fun _ _ _ hi hs => inv_step hi hs) hx) hpc

/-- Back at the loop head after an aborted child's report was taken for a failure. -/
theorem loop_never_spins_lateReport :
    LoopSound (twoWorkers .restForOne 5 .permanent)
      (stateOn (twoWorkers .restForOne 5 .permanent) lateReport) :=
  (loop_never_spins (runOn (twoWorkers .restForOne 5 .permanent) lateReport
    (by decide +kernel))).2 _ Visits.last (by decide +kernel)

/-! ## Nothing is left down -/

/-- The last report processed for slot `i`. -/
def lastReport (w : World φ) (i : Nat) : Option Report :=
  (w.reports.filter (fun r => r.idx == i)).getLast?

/-- Slot `i` may be down: its policy is `Temporary`, or it last reported `Normal`. -/
def MayBeDown (sup : Supervisor φ) (w : World φ) (i : Nat) : Prop :=
  (∃ spec, sup.children[i]? = some spec ∧ spec.restart = .temporary)
    ∨ ∃ r, lastReport w i = some r ∧ r.reason = .normal

theorem lastReport_snoc_self (rs : List Report) (r : Report) :
    ((rs ++ [r]).filter (fun q => q.idx == r.idx)).getLast? = some r := by
  simp [List.filter_append]

theorem lastReport_snoc_ne (rs : List Report) {r : Report} {i : Nat} (h : r.idx ≠ i) :
    ((rs ++ [r]).filter (fun q => q.idx == i)).getLast?
      = (rs.filter (fun q => q.idx == i)).getLast? := by
  simp [List.filter_append, h]

/-- A slot that is neither awaited nor about to be started may be down. -/
structure NotLeftDown (sup : Supervisor φ) (w : World φ) : Prop where
  /-- While the supervisor runs. -/
  running : w.pc.live = true → ∀ i, i < w.slots.length →
    (∃ f ∈ w.joinset, f.idx = i) ∨ i ∈ todo w.pc ∨ MayBeDown sup w i
  /-- And when it has returned because all children stopped. -/
  stopped : w.pc = .returned .allStopped → ∀ i, i < sup.children.length → MayBeDown sup w i

theorem notLeftDown_init (sup : Supervisor φ) : NotLeftDown sup (World.init sup) where
  running := by intro _ i hi; simp [World.init] at hi
  stopped := by
    intro h
    exact absurd h (start_ne rfl)

/-- Starting a child takes its slot off the list and puts a forwarder in the `JoinSet`. -/
theorem notLeftDown_spawn {sup : Supervisor φ} {w : World φ} (h : NotLeftDown sup w)
    (hlive : w.pc.live = true) {i : Nat} {spec : ChildSpec φ} {pc : Pc}
    (hi : i ≤ w.slots.length) (hpc : pc.live = true)
    (htodo : ∀ j ∈ todo w.pc, j = i ∨ j ∈ todo pc) :
    NotLeftDown sup ((w.spawnChild i spec).goto pc) where
  running := by
    intro _ j hj
    have hlen : j < max w.slots.length (i + 1) := spawnChild_length w i spec ▸ hj
    have hnew : (⟨i, w.tasks.length⟩ : Forwarder) ∈ ((w.spawnChild i spec).goto pc).joinset :=
      List.mem_append_right _ (List.mem_singleton.mpr rfl)
    by_cases hij : j = i
    · exact Or.inl ⟨_, hnew, hij.symm⟩
    · rcases h.running hlive j (by omega) with ⟨f, hf, hfj⟩ | hj' | hdown
      · exact Or.inl ⟨f, List.mem_append_left _ hf, hfj⟩
      · exact Or.inr (Or.inl ((htodo j hj').resolve_left hij))
      · exact Or.inr (Or.inr hdown)
  stopped := by
    intro hst
    have hst' : pc = .returned .allStopped := hst
    rw [hst'] at hpc
    exact Bool.noConfusion hpc

/-- A report taken: the slot it names may be down, or is answered for by `pc`. -/
theorem notLeftDown_taken {sup : Supervisor φ} {w w' : World φ} (h : NotLeftDown sup w)
    (hpc : w.pc = .loopHead) {f : Forwarder} {r : Report} (hr : r.idx = f.idx)
    (hjoin : w'.joinset = w.joinset.erase f) (hrep : w'.reports = w.reports ++ [r])
    (hlen : w'.slots.length = w.slots.length)
    (hself : f.idx ∈ todo w'.pc ∨ MayBeDown sup w' f.idx) (hlive : w'.pc.live = true) :
    NotLeftDown sup w' where
  running := by
    intro _ i hi
    by_cases hfi : f.idx = i
    · exact Or.inr (hfi ▸ hself)
    · have hlast : lastReport w' i = lastReport w i := by
        unfold lastReport; rw [hrep]; exact lastReport_snoc_ne _ (fun he => hfi (hr ▸ he))
      rcases h.running (by rw [hpc]; rfl) i (hlen ▸ hi) with ⟨g, hg, hgi⟩ | hi' | hdown
      · refine Or.inl ⟨g, ?_, hgi⟩
        rw [hjoin]
        exact (List.mem_erase_of_ne (fun he => hfi (by rw [← he]; exact hgi))).mpr hg
      · rw [hpc] at hi'; exact absurd hi' (by simp [todo])
      · refine Or.inr (Or.inr ?_)
        unfold MayBeDown
        rw [hlast]
        exact hdown
  stopped := by
    intro hst
    rw [hst] at hlive
    exact Bool.noConfusion hlive

/-- **`NotLeftDown` is preserved by every step.** -/
theorem notLeftDown_step {sup : Supervisor φ} {w w' : World φ} {e : Event} (hi : Inv sup w)
    (h : NotLeftDown sup w) (hs : step sup w e = some w') : NotLeftDown sup w' := by
  have hm := step_moves hs
  cases hm with
  | @spawn i spec hpc _ =>
      have hlen : w.slots.length = i := hi.size i (by rw [hpc]; rfl)
      refine notLeftDown_spawn h (by rw [hpc]; rfl) (Nat.le_of_eq hlen.symm) (start_live _ _) ?_
      intro j hj
      rw [hpc] at hj
      exact Or.inl (List.mem_singleton.mp hj)
  | @abort i rest slot hpc hslot =>
      refine ⟨?_, fun hst => Pc.noConfusion hst⟩
      intro _ j hj
      have hj' : j < w.slots.length := by
        have : (w.clearAbort i slot).slots.length = w.slots.length := List.length_set ..
        exact this ▸ hj
      have := h.running (by rw [hpc]; rfl) j hj'
      rw [hpc] at this
      exact this
  | @respawn i rest slot hpc hslot =>
      have hlt : i < w.slots.length := (List.getElem?_eq_some_iff.mp hslot).1
      refine notLeftDown_spawn h (by rw [hpc]; rfl) (Nat.le_of_lt hlt) (pass_live _) ?_
      intro j hj
      rw [hpc] at hj
      rw [pass_todo]
      exact List.mem_cons.mp hj
  | @badReport f how _ hf hslot =>
      exact (hi.no_badReport hf hslot).elim
  | @ignore f how slot hpc hf hend hslot hc =>
      refine notLeftDown_taken h hpc (r := w.reportOf f how) rfl rfl rfl
        (List.length_set ..) (Or.inr ?_) (by show w.pc.live = true; rw [hpc]; rfl)
      -- not counted: the report is `Normal`, or the slot's policy is `Temporary`
      by_cases hr : how.reason = .normal
      · exact Or.inr ⟨_, lastReport_snoc_self _ (w.reportOf f how), hr⟩
      · refine Or.inl ⟨slot.spec, hi.spec_eq hslot, ?_⟩
        by_cases hp : slot.spec.restart = .temporary
        · exact hp
        · exact absurd ⟨hr, hp⟩ hc
  | @escalate f how slot _ _ _ _ _ _ =>
      exact ⟨fun hl => Bool.noConfusion hl, fun hst => by
        have := Pc.returned.inj hst
        exact ReturnPath.noConfusion this⟩
  | @pass f how slot hpc hf hend hslot hc hx =>
      refine notLeftDown_taken h hpc (r := w.reportOf f how) rfl rfl rfl
        (List.length_set ..) (Or.inl ?_) (pass_live _)
      -- every strategy restarts the slot that failed
      have hidx : f.idx < (taken w f how slot).slots.length := by
        have := taken_length w f how slot
        rw [this]
        exact (List.getElem?_eq_some_iff.mp hslot).1
      show f.idx ∈ todo (Pc.pass _)
      rw [pass_todo]
      exact (mem_toRestart hidx).mpr ⟨hidx, Restart.covers_self _ _⟩
  | leave hl =>
      cases hl with
      | stopped hpc hempty _ =>
          refine ⟨fun hl => Bool.noConfusion hl, fun _ i hlt => ?_⟩
          have hlen : w.slots.length = sup.children.length := hi.size _ (by rw [hpc]; rfl)
          rcases h.running (by rw [hpc]; rfl) i (by omega) with ⟨f, hf, _⟩ | hj | hdown
          · rw [hempty] at hf; exact absurd hf (by simp)
          · rw [hpc] at hj; exact absurd hj (by simp [todo])
          · exact hdown
      | _ => exact ⟨fun hl => Bool.noConfusion hl, fun hst => by simp [World.finish] at hst⟩
  | spin _ _ _ => exact h
  | ends _ _ _ => exact ⟨h.running, h.stopped⟩
  | tick => exact ⟨h.running, h.stopped⟩

/--
**A failed `Permanent` or `Transient` child is never left down.**

Stated at every loop head of every run, and at the "all children stopped" return.
-/
theorem never_left_down {sup : Supervisor φ} {w : World φ} {tr : List (World φ × Event)}
    (h : Run (step sup) (World.init sup) tr w) :
    (∀ x, Visits tr w x → x.pc = .loopHead → ∀ i, i < sup.children.length →
        (∀ f ∈ x.joinset, f.idx ≠ i) → MayBeDown sup x i)
      ∧ ∀ x, Visits tr w x → x.pc = .returned .allStopped →
          ∀ i, i < sup.children.length → MayBeDown sup x i := by
  have hall : ∀ x, Visits tr w x → Inv sup x ∧ NotLeftDown sup x := fun x hx =>
    h.always (P := fun s => Inv sup s ∧ NotLeftDown sup s) ⟨inv_init sup, notLeftDown_init sup⟩
      (fun _ _ _ hs hstep => ⟨inv_step hs.1 hstep, notLeftDown_step hs.1 hs.2 hstep⟩) hx
  refine ⟨?_, ?_⟩
  · intro x hx hpc i hi hnone
    obtain ⟨hinv, hdown⟩ := hall x hx
    have hlen : x.slots.length = sup.children.length := hinv.size _ (by rw [hpc]; rfl)
    rcases hdown.running (by rw [hpc]; rfl) i (by omega) with ⟨f, hf, hfi⟩ | hj | hd
    · exact absurd hfi (hnone f hf)
    · rw [hpc] at hj; exact absurd hj (by simp [todo])
    · exact hd
  · intro x hx hpc
    exact (hall x hx).2.stopped hpc

/-- The second child returned and is down; then the restarted first one did too, and the supervisor
with them. -/
theorem never_left_down_bothStopped :
    MayBeDown (twoWorkers .oneForOne 5 .permanent)
        (stateOn (twoWorkers .oneForOne 5 .permanent) oneStopped) 1
      ∧ MayBeDown (twoWorkers .oneForOne 5 .permanent)
        (stateOn (twoWorkers .oneForOne 5 .permanent) bothStopped) 0
      ∧ MayBeDown (twoWorkers .oneForOne 5 .permanent)
        (stateOn (twoWorkers .oneForOne 5 .permanent) bothStopped) 1 := by
  have hone := (never_left_down (runOn (twoWorkers .oneForOne 5 .permanent) oneStopped
    (by decide +kernel))).1 _ Visits.last (by decide +kernel)
  have hboth := (never_left_down (runOn (twoWorkers .oneForOne 5 .permanent) bothStopped
    (by decide +kernel))).2 _ Visits.last (by decide +kernel)
  exact ⟨hone 1 (by decide +kernel) (by decide +kernel), hboth 0 (by decide +kernel),
    hboth 1 (by decide +kernel)⟩

end ErlangActors.Proof
