import ErlangActors.Proof.Inv

/-!
# Which running children the supervisor can still reach

The supervisor can abort a child only through its slot's handle, so a running child
that is in no handle is out of its reach. Spawning records the handle and a restart
pass aborts through it before it is overwritten; both keep every running child
tracked. What loses one is the first line of the loop body: `slot.abort = None` is
executed for *any* report of the slot, and a report names the slot but not the
incarnation. A late report of an old incarnation therefore erases the handle of the
replacement.

`Untracks` is that step. A run keeps every running child tracked exactly if none of
its steps untracks one.
-/

namespace ErlangActors.Proof

open Supervision Transition

variable {φ : Type}

/-- Child `c` of slot `i` is running and the supervisor has not requested its abort. -/
def AtLarge (w : World φ) (i c : Nat) : Prop :=
  slotOf w c = some i ∧ w.endingOf c = none ∧ abortReq w c = false

instance (w : World φ) (i c : Nat) : Decidable (AtLarge w i c) :=
  inferInstanceAs (Decidable (_ ∧ _ ∧ _))

/-- Every running child whose abort was not requested is the one behind its slot's handle. -/
def Tracked (w : World φ) : Prop := ∀ i c, AtLarge w i c → handle w i = some c

/-- No slot has two running children whose abort was not requested. -/
def OneAtLarge (w : World φ) : Prop := ∀ i c d, AtLarge w i c → AtLarge w i d → c = d

/-- The report taken is of one child, and the handle it clears is of another that still runs. -/
def Untracks (w : World φ) : Event → Prop
  | .joinNext f => ∃ c ∈ handle w f.idx, c ≠ f.child ∧ w.endingOf c = none
  | _ => False

instance (w : World φ) : DecidablePred (Untracks w)
  | .joinNext f =>
      inferInstanceAs (Decidable (∃ c ∈ handle w f.idx, c ≠ f.child ∧ w.endingOf c = none))
  | .advance | .factoryPanics | .forwarderPanics _ | .joinNone | .cutOff | .childEnds _ _
  | .tick _ => inferInstanceAs (Decidable False)

theorem Tracked.oneAtLarge {w : World φ} (h : Tracked w) : OneAtLarge w := by
  intro i c d hc hd
  exact Option.some.inj ((h i c hc).symm.trans (h i d hd))

theorem tracked_init (sup : Supervisor φ) : Tracked (World.init sup) := by
  intro i c h
  exact absurd h.1 (by simp [slotOf, World.init])

/-! ## Preservation -/

/-- Starting a child tracks it; its slot held no running child before. -/
theorem tracked_spawn {w : World φ} (h : Tracked w) {i : Nat}
    (hempty : handle w i = none) (spec : ChildSpec φ) (pc : Pc) :
    Tracked ((w.spawnChild i spec).goto pc) := by
  intro j c hc
  obtain ⟨hslot, hrun, hreq⟩ := hc
  rw [goto_slotOf, spawnChild_slotOf] at hslot
  rw [goto_endingOf, spawnChild_endingOf] at hrun
  rw [goto_abortReq, spawnChild_abortReq] at hreq
  rw [goto_handle, spawnChild_handle]
  by_cases hnew : c = w.tasks.length
  · rw [if_pos hnew] at hslot
    rw [if_pos (Option.some.inj hslot).symm, hnew]
  · rw [if_neg hnew] at hslot
    have hold := h j c ⟨hslot, hrun, hreq⟩
    by_cases hj : j = i
    · rw [hj, hempty] at hold; exact absurd hold (by simp)
    · rw [if_neg hj]; exact hold

/-- Aborting through the handle before clearing it loses no running child. -/
theorem tracked_abort {w : World φ} (h : Tracked w) {i : Nat} {slot : Slot φ}
    (hs : w.slots[i]? = some slot) (pc : Pc) :
    Tracked (((w.clearAbort i slot).requestAborts slot.abort.toList).goto pc) := by
  intro j c hc
  obtain ⟨hslot, hrun, hreq⟩ := hc
  rw [goto_slotOf, requestAborts_slotOf] at hslot
  rw [goto_endingOf, requestAborts_endingOf] at hrun
  have hlt : c < (w.clearAbort i slot).tasks.length := slotOf_lt (w := w) hslot
  rw [goto_abortReq, requestAborts_abortReq _ hlt, Bool.or_eq_false_iff] at hreq
  have hold := h j c ⟨hslot, hrun, hreq.1⟩
  show handle (w.clearAbort i slot) j = some c
  rw [clearAbort_handle hs]
  by_cases hj : j = i
  · -- the child behind the handle is the one just aborted
    have hmem : c ∈ slot.abort.toList := by
      rw [hj] at hold
      unfold handle at hold
      rw [hs] at hold
      exact Option.mem_toList.mpr hold
    exact absurd hmem (of_decide_eq_false hreq.2)
  · rw [if_neg hj]; exact hold

/-- What a report leaves tracked: every running child but one its slot's handle was cleared of. -/
theorem tracked_taken_iff {w : World φ} (h : Tracked w) {f : Forwarder} {how : Ending}
    {slot : Slot φ} (hs : w.slots[f.idx]? = some slot) :
    Tracked (taken w f how slot) ↔ ∀ c, ¬ AtLarge w f.idx c := by
  have hhandle : ∀ j, handle (taken w f how slot) j = if j = f.idx then none else handle w j :=
    fun j => clearAbort_handle (w := w.takeReport f (w.reportOf f how)) hs j
  refine ⟨?_, ?_⟩
  · intro ht c hc
    have := ht f.idx c hc
    rw [hhandle, if_pos rfl] at this
    exact absurd this (by simp)
  · intro hnone j c hc
    rw [hhandle]
    by_cases hj : j = f.idx
    · rw [hj] at hc; exact absurd hc (hnone c)
    · rw [if_neg hj]; exact h j c hc

/-- In a tracked state, a step untracks exactly if the reported slot has a running child left. -/
theorem untracks_iff {sup : Supervisor φ} {w : World φ} (hi : Inv sup w) (h : Tracked w)
    (hpc : w.pc = .loopHead) {f : Forwarder} {how : Ending}
    (hend : w.endingOf f.child = some how) :
    Untracks w (.joinNext f) ↔ ∃ c, AtLarge w f.idx c := by
  have hlive : w.pc.live = true := by rw [hpc]; rfl
  refine ⟨?_, ?_⟩
  · intro hu
    obtain ⟨c, hc, _, hrun⟩ := hu
    obtain ⟨hmem, hreq⟩ := hi.handles hlive _ c hc
    exact ⟨c, hi.awaited _ hmem, hrun, hreq⟩
  · intro hc
    obtain ⟨c, hc⟩ := hc
    refine ⟨c, h f.idx c hc, ?_, hc.2.1⟩
    intro he
    rw [← he, hc.2.1] at hend
    exact absurd hend (by simp)

/-- What escalation leaves at large: the children in no slot's handle. -/
theorem escalate_atLarge {w : World φ} {i c : Nat} :
    AtLarge w.escalate i c ↔ AtLarge w i c ∧ ∀ j, handle w j ≠ some c := by
  have hslot : slotOf w.escalate c = slotOf w c := requestAborts_slotOf w _ c
  have hending : w.escalate.endingOf c = w.endingOf c := requestAborts_endingOf w _ c
  have hreq : c < w.tasks.length →
      abortReq w.escalate c = (abortReq w c || decide (c ∈ w.slots.filterMap Slot.abort)) :=
    fun hc => requestAborts_abortReq _ hc
  refine ⟨?_, ?_⟩
  · intro h
    obtain ⟨hs, hr, hq⟩ := h
    rw [hslot] at hs
    rw [hending] at hr
    rw [hreq (slotOf_lt hs), Bool.or_eq_false_iff] at hq
    exact ⟨⟨hs, hr, hq.1⟩, fun j hj => of_decide_eq_false hq.2 (mem_handles.mpr ⟨j, hj⟩)⟩
  · intro h
    obtain ⟨⟨hs, hr, hq⟩, hnone⟩ := h
    refine ⟨hslot.trans hs, hending.trans hr, ?_⟩
    have hmem : c ∉ w.slots.filterMap Slot.abort := fun hm => by
      obtain ⟨j, hj⟩ := mem_handles.mp hm
      exact hnone j hj
    rw [hreq (slotOf_lt hs), hq, decide_eq_false hmem]
    rfl

/-- Escalation reaches every running child but one the report has just cleared the handle of. -/
theorem tracked_escalate_iff {w : World φ} :
    Tracked w.escalate ↔ ∀ i c, AtLarge w i c → ∃ j, handle w j = some c := by
  refine ⟨?_, ?_⟩
  · intro ht i c hc
    by_contra hno
    have := ht i c (escalate_atLarge.mpr ⟨hc, fun j hj => hno ⟨j, hj⟩⟩)
    rw [escalate_handle] at this
    exact absurd this (by simp)
  · intro hall i c hc
    obtain ⟨hlarge, hnone⟩ := escalate_atLarge.mp hc
    obtain ⟨j, hj⟩ := hall i c hlarge
    exact absurd hj (hnone j)

/-- A child ending leaves at large whoever else was. -/
theorem ends_atLarge {w : World φ} {d : Nat} (hd : d < w.tasks.length) {how : Ending} {i c : Nat}
    (h : AtLarge (w.endTask d how) i c) : AtLarge w i c := by
  obtain ⟨hslot, hrun, hreq⟩ := h
  rw [endTask_slotOf] at hslot
  rw [endTask_abortReq] at hreq
  rw [endTask_endingOf hd] at hrun
  by_cases hcd : c = d
  · rw [if_pos hcd] at hrun; exact absurd hrun (by simp)
  · rw [if_neg hcd] at hrun; exact ⟨hslot, hrun, hreq⟩

/-- **A step keeps every running child tracked exactly if it does not untrack one.** -/
theorem tracked_step_iff {sup : Supervisor φ} {w w' : World φ} {e : Event} (hi : Inv sup w)
    (h : Tracked w) (hs : step sup w e = some w') : Tracked w' ↔ ¬ Untracks w e := by
  -- only a report can untrack
  have hother : ¬ Untracks w e → Tracked w' → (Tracked w' ↔ ¬ Untracks w e) :=
    fun hu ht => ⟨fun _ => hu, fun _ => ht⟩
  have hm := step_moves hs
  cases hm with
  | @spawn i spec hpc _ =>
      refine hother id (tracked_spawn h ?_ _ _)
      cases hh : handle w i with
      | none => rfl
      | some c =>
          have hlen : w.slots.length = i := hi.size i (by rw [hpc]; rfl)
          have := handle_lt hh
          omega
  | @abort i rest slot hpc hslot =>
      exact hother id (tracked_abort h hslot _)
  | @respawn i rest slot hpc _ =>
      exact hother id
        (tracked_spawn h (hi.emptied i rest hpc) _ _)
  | @badReport f how _ hf hslot =>
      exact (hi.no_badReport hf hslot).elim
  | @ignore f how slot hpc hf hend hslot hc =>
      rw [tracked_taken_iff h hslot, untracks_iff hi h hpc hend, not_exists]
  | @escalate f how slot hpc hf hend hslot hc hx =>
      rw [untracks_iff hi h hpc hend, not_exists, tracked_escalate_iff,
        ← tracked_taken_iff h hslot]
      have hhandle : ∀ j, handle (taken w f how slot) j
          = if j = f.idx then none else handle w j :=
        fun j => clearAbort_handle (w := w.takeReport f (w.reportOf f how)) hslot j
      refine ⟨?_, ?_⟩
      · intro hall i c hc'
        obtain ⟨j, hj⟩ := hall i c hc'
        have hj' : handle (taken w f how slot) j = some c := hj
        have hlarge : AtLarge w i c := hc'
        rw [hhandle] at hj'
        by_cases hjf : j = f.idx
        · rw [if_pos hjf] at hj'; exact absurd hj' (by simp)
        · rw [if_neg hjf] at hj'
          have hji := hi.awaited _ (hi.handles (by rw [hpc]; rfl) j c hj').1
          have : j = i := Option.some.inj (hji.symm.trans hlarge.1)
          rw [hhandle, ← this, if_neg hjf]
          exact hj'
      · intro ht i c hc'
        exact ⟨i, ht i c hc'⟩
  | @pass f how slot hpc hf hend hslot hc hx =>
      have ht : Tracked (taken w f how slot) ↔ ∀ c, ¬ AtLarge w f.idx c :=
        tracked_taken_iff h hslot
      rw [untracks_iff hi h hpc hend, not_exists]
      exact ht
  | leave hl =>
      refine hother ?_ h
      cases hl <;> exact id
  | spin _ _ _ => exact hother id h
  | @ends c how hlt _ _ =>
      exact hother id (fun i d hd => h i d (ends_atLarge hlt hd))
  | tick => exact hother id h

/-- No report clears the handle of a running child other than the one the report is of. -/
def KeepsHandles (sup : Supervisor φ) (tr : List (World φ × Event)) : Prop :=
  ∀ x f x' c, (x, Event.joinNext f) ∈ tr → step sup x (.joinNext f) = some x' →
    handle x f.idx = some c → c ≠ f.child → x.endingOf c = none → handle x' f.idx = some c

/--
**Tracking.** In a run of any supervisor, every running child whose abort was not
requested is the one behind its slot's handle, no slot has two of them, and no late
report erases the handle of a running replacement — exactly if no step of the run is
a report that finds its slot holding the handle of another child that still runs.

The left-hand side is about every state of the run, loop heads among them.
-/
theorem tracking_iff {sup : Supervisor φ} {w : World φ} {tr : List (World φ × Event)}
    (h : Run (step sup) (World.init sup) tr w) :
    ((∀ x, Visits tr w x → Tracked x ∧ OneAtLarge x) ∧ KeepsHandles sup tr)
      ↔ ∀ p ∈ tr, ¬ Untracks p.1 p.2 := by
  have hiff := h.always_iff (R := Inv sup) (P := Tracked) (C := fun s e => ¬ Untracks s e)
    (inv_init sup) (fun _ _ _ hi hs => inv_step hi hs) (tracked_init sup)
    (fun _ _ _ hi ht hs => tracked_step_iff hi ht hs)
  refine ⟨?_, ?_⟩
  · intro hall
    exact hiff.mp (fun x hx => (hall.1 x hx).1)
  · intro hC
    have ht := hiff.mpr hC
    refine ⟨fun x hx => ⟨ht x hx, (ht x hx).oneAtLarge⟩, ?_⟩
    intro x f x' c hx _ hc hne hrun
    exact absurd ⟨c, hc, hne, hrun⟩ (hC _ hx)

/-- After the first child's failure and the pass it starts, both replacements are tracked. -/
theorem tracking_firstPanics :
    Tracked (stateOn (twoWorkers .restForOne 5 .permanent) firstPanics)
      ∧ OneAtLarge (stateOn (twoWorkers .restForOne 5 .permanent) firstPanics) :=
  ((tracking_iff (runOn (twoWorkers .restForOne 5 .permanent) firstPanics
    (by decide +kernel))).mpr (by decide +kernel)).1 _ Visits.last

/-- The late report of the aborted child leaves two running children in its slot, one untracked. -/
theorem tracking_lateReport :
    ¬ ∀ (sup : Supervisor Unit) (tr : List (World Unit × Event)) (w x : World Unit),
      Run (step sup) (World.init sup) tr w → Visits tr w x → x.pc = .loopHead →
        Tracked x ∧ OneAtLarge x := by
  intro hall
  have hrun := runOn (twoWorkers .restForOne 5 .permanent) lateReport (by decide +kernel)
  have hone := (hall _ _ _ _ hrun Visits.last (by decide +kernel)).2
  have h34 : (3 : Nat) = 4 := hone 1 3 4 (by decide +kernel) (by decide +kernel)
  exact absurd h34 (by decide)

end ErlangActors.Proof
