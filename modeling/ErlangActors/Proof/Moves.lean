import ErlangActors.Supervisor.World

/-!
# What a step of the supervisor can do

Every later proof is about the same handful of state changes, so they are derived
here once. The first half says what each function of the source does to the four
things the invariants talk about — the slot a child belongs to, how it ended,
whether its abort was requested, and the handle each slot holds. The second half
turns `step` inside out: `Moves` lists the ways a step can go, guards included,
and `step_moves` says there are no others.
-/

namespace ErlangActors.Proof

open Supervision

variable {φ : Type}

/-! ## Observers -/

/-- The slot child `c` was started for. -/
def slotOf (w : World φ) (c : Nat) : Option Nat := (w.tasks[c]?).map Task.slot

/-- The supervisor has called `abort` on child `c`. -/
def abortReq (w : World φ) (c : Nat) : Bool := (w.tasks[c]?).any Task.abortRequested

/-- The child behind slot `i`'s abort handle. -/
def handle (w : World φ) (i : Nat) : Option Nat := (w.slots[i]?).bind Slot.abort

theorem slotOf_lt {w : World φ} {c i : Nat} (h : slotOf w c = some i) : c < w.tasks.length := by
  unfold slotOf at h
  rw [Option.map_eq_some_iff] at h
  obtain ⟨t, ht, _⟩ := h
  exact (List.getElem?_eq_some_iff.mp ht).1

theorem handle_lt {w : World φ} {i c : Nat} (h : handle w i = some c) : i < w.slots.length := by
  unfold handle at h
  rw [Option.bind_eq_some_iff] at h
  obtain ⟨s, hs, _⟩ := h
  exact (List.getElem?_eq_some_iff.mp hs).1

/-- The state changes below that leave the tasks alone leave what is observed of them alone. -/
theorem slotOf_congr {w w' : World φ} (h : w'.tasks = w.tasks) (c : Nat) :
    slotOf w' c = slotOf w c := by unfold slotOf; rw [h]

theorem abortReq_congr {w w' : World φ} (h : w'.tasks = w.tasks) (c : Nat) :
    abortReq w' c = abortReq w c := by unfold abortReq; rw [h]

theorem endingOf_congr {w w' : World φ} (h : w'.tasks = w.tasks) (c : Nat) :
    w'.endingOf c = w.endingOf c := by unfold World.endingOf; rw [h]

theorem handle_congr {w w' : World φ} (h : w'.slots = w.slots) (i : Nat) :
    handle w' i = handle w i := by unfold handle; rw [h]

@[simp] theorem goto_slotOf (w : World φ) (pc : Pc) : slotOf (w.goto pc) = slotOf w := rfl

@[simp] theorem goto_endingOf (w : World φ) (pc : Pc) :
    (w.goto pc).endingOf = w.endingOf := rfl

@[simp] theorem goto_abortReq (w : World φ) (pc : Pc) : abortReq (w.goto pc) = abortReq w := rfl

@[simp] theorem goto_handle (w : World φ) (pc : Pc) : handle (w.goto pc) = handle w := rfl

/-! ## `spawn_child` -/

theorem spawnChild_slotOf (w : World φ) (i : Nat) (spec : ChildSpec φ) (c : Nat) :
    slotOf (w.spawnChild i spec) c = if c = w.tasks.length then some i else slotOf w c := by
  unfold slotOf World.spawnChild
  dsimp only
  by_cases hc : c = w.tasks.length
  · subst hc; simp
  · rw [if_neg hc]
    rcases Nat.lt_or_gt_of_ne hc with hlt | hgt
    · rw [List.getElem?_append_left hlt]
    · rw [List.getElem?_eq_none (by simp; omega), List.getElem?_eq_none (by omega)]

theorem spawnChild_endingOf (w : World φ) (i : Nat) (spec : ChildSpec φ) (c : Nat) :
    (w.spawnChild i spec).endingOf c = w.endingOf c := by
  unfold World.endingOf World.spawnChild
  dsimp only
  rcases Nat.lt_trichotomy c w.tasks.length with hlt | heq | hgt
  · rw [List.getElem?_append_left hlt]
  · subst heq; simp
  · rw [List.getElem?_eq_none (by simp; omega), List.getElem?_eq_none (by omega)]

theorem spawnChild_abortReq (w : World φ) (i : Nat) (spec : ChildSpec φ) (c : Nat) :
    abortReq (w.spawnChild i spec) c = abortReq w c := by
  unfold abortReq World.spawnChild
  dsimp only
  rcases Nat.lt_trichotomy c w.tasks.length with hlt | heq | hgt
  · rw [List.getElem?_append_left hlt]
  · subst heq; simp
  · rw [List.getElem?_eq_none (by simp; omega), List.getElem?_eq_none (by omega)]

/-- The placeholders `spawn_child` pads `slots` with hold no handle. -/
theorem spawnChild_handle (w : World φ) (i : Nat) (spec : ChildSpec φ) (j : Nat) :
    handle (w.spawnChild i spec) j = if j = i then some w.tasks.length else handle w j := by
  unfold handle World.spawnChild
  dsimp only
  by_cases hj : j = i
  · subst hj
    rw [List.getElem?_set_self (by simp; omega), if_pos rfl]
    rfl
  · rw [List.getElem?_set_ne (fun h => hj h.symm), if_neg hj]
    rcases Nat.lt_or_ge j w.slots.length with hlt | hge
    · rw [List.getElem?_append_left hlt]
    · rw [List.getElem?_append_right hge, List.getElem?_eq_none hge, List.getElem?_replicate]
      split <;> rfl

theorem spawnChild_length (w : World φ) (i : Nat) (spec : ChildSpec φ) :
    (w.spawnChild i spec).slots.length = max w.slots.length (i + 1) := by
  unfold World.spawnChild
  simp only [List.length_set, List.length_append, List.length_replicate]
  omega

/-- Starting slot `i` when the slots below it are there appends it. -/
theorem spawnChild_specs_append (w : World φ) (spec : ChildSpec φ) :
    (w.spawnChild w.slots.length spec).slots.map Slot.spec
      = w.slots.map Slot.spec ++ [spec] := by
  unfold World.spawnChild
  simp only [Nat.add_sub_cancel_left, List.replicate_one]
  rw [List.set_append_right _ _ (Nat.le_refl _)]
  simp

/-- Respawning a slot from its own spec changes no spec. -/
theorem spawnChild_specs_same {w : World φ} {i : Nat} {slot : Slot φ}
    (h : w.slots[i]? = some slot) :
    (w.spawnChild i slot.spec).slots.map Slot.spec = w.slots.map Slot.spec := by
  obtain ⟨hlt, hget⟩ := List.getElem?_eq_some_iff.mp h
  unfold World.spawnChild
  simp only [show i + 1 - w.slots.length = 0 by omega, List.replicate_zero, List.append_nil,
    List.map_set]
  rw [← hget, ← List.getElem_map Slot.spec (h := by simpa using hlt)]
  exact List.set_getElem_self _

/-! ## `abort` -/

theorem abortTasks_length (ts : List Task) (hs : List Nat) :
    (abortTasks ts hs).length = ts.length := by
  unfold abortTasks
  induction hs generalizing ts with
  | nil => rfl
  | cons h hs ih => rw [List.foldl_cons, ih, List.length_modify]

/-- What a batch of aborts leaves of a task: the request flag is all that moves. -/
theorem abortTasks_getElem? (ts : List Task) (hs : List Nat) (c : Nat) :
    (abortTasks ts hs)[c]? = (ts[c]?).map (fun t => if c ∈ hs then t.requestAbort else t) := by
  unfold abortTasks
  induction hs generalizing ts with
  | nil => simp
  | cons h hs ih =>
      rw [List.foldl_cons, ih, List.getElem?_modify]
      by_cases hc : h = c
      · subst hc
        cases ts[h]? with
        | none => rfl
        | some t =>
            by_cases hmem : h ∈ hs <;> simp [hmem, Task.requestAbort]
      · simp only [if_neg hc, List.mem_cons, show ¬ c = h from fun he => hc he.symm, false_or]
        cases ts[c]? <;> rfl

theorem requestAborts_slotOf (w : World φ) (hs : List Nat) (c : Nat) :
    slotOf (w.requestAborts hs) c = slotOf w c := by
  unfold slotOf World.requestAborts
  dsimp only
  rw [abortTasks_getElem?]
  cases w.tasks[c]? with
  | none => rfl
  | some t => by_cases hc : c ∈ hs <;> simp [hc, Task.requestAbort]

theorem requestAborts_endingOf (w : World φ) (hs : List Nat) (c : Nat) :
    (w.requestAborts hs).endingOf c = w.endingOf c := by
  unfold World.endingOf World.requestAborts
  dsimp only
  rw [abortTasks_getElem?]
  cases w.tasks[c]? with
  | none => rfl
  | some t => by_cases hc : c ∈ hs <;> simp [hc, Task.requestAbort]

theorem requestAborts_abortReq {w : World φ} (hs : List Nat) {c : Nat}
    (hlt : c < w.tasks.length) :
    abortReq (w.requestAborts hs) c = (abortReq w c || decide (c ∈ hs)) := by
  unfold abortReq World.requestAborts
  dsimp only
  rw [abortTasks_getElem?, List.getElem?_eq_getElem hlt]
  by_cases hc : c ∈ hs <;> simp [hc, Task.requestAbort]

/-! ## Clearing a handle -/

theorem clearAbort_handle {w : World φ} {i : Nat} {slot : Slot φ} (hs : w.slots[i]? = some slot)
    (j : Nat) : handle (w.clearAbort i slot) j = if j = i then none else handle w j := by
  obtain ⟨hlt, _⟩ := List.getElem?_eq_some_iff.mp hs
  unfold handle World.clearAbort
  dsimp only
  by_cases hj : j = i
  · subst hj; rw [List.getElem?_set_self hlt, if_pos rfl]; rfl
  · rw [List.getElem?_set_ne (fun he => hj he.symm), if_neg hj]

theorem clearAbort_specs {w : World φ} {i : Nat} {slot : Slot φ} (hs : w.slots[i]? = some slot) :
    (w.clearAbort i slot).slots.map Slot.spec = w.slots.map Slot.spec := by
  obtain ⟨hlt, hget⟩ := List.getElem?_eq_some_iff.mp hs
  unfold World.clearAbort
  rw [List.map_set, ← hget, ← List.getElem_map Slot.spec (h := by simpa using hlt)]
  exact List.set_getElem_self _

/-- The handles `escalate` aborts are those of all slots. -/
theorem mem_handles {w : World φ} {c : Nat} :
    c ∈ w.slots.filterMap Slot.abort ↔ ∃ i, handle w i = some c := by
  rw [List.mem_filterMap]
  refine ⟨?_, ?_⟩
  · intro h
    obtain ⟨s, hs, hc⟩ := h
    obtain ⟨i, hi⟩ := List.mem_iff_getElem?.mp hs
    exact ⟨i, by unfold handle; rw [hi]; exact hc⟩
  · intro h
    obtain ⟨i, hi⟩ := h
    unfold handle at hi
    rw [Option.bind_eq_some_iff] at hi
    obtain ⟨s, hs, hc⟩ := hi
    exact ⟨s, List.mem_of_getElem? hs, hc⟩

theorem escalate_handle (w : World φ) (i : Nat) : handle w.escalate i = none := by
  unfold handle World.escalate World.finish World.requestAborts
  dsimp only
  rw [List.getElem?_map]
  cases w.slots[i]? <;> rfl

theorem escalate_specs (w : World φ) :
    w.escalate.slots.map Slot.spec = w.slots.map Slot.spec := by
  unfold World.escalate World.finish World.requestAborts
  simp [Function.comp_def]

/-! ## A child ends -/

theorem endTask_slotOf (w : World φ) (d : Nat) (how : Ending) (c : Nat) :
    slotOf (w.endTask d how) c = slotOf w c := by
  unfold slotOf World.endTask
  dsimp only
  rw [List.getElem?_modify]
  cases w.tasks[c]? with
  | none => rfl
  | some t => by_cases hc : d = c <;> simp [hc]

theorem endTask_abortReq (w : World φ) (d : Nat) (how : Ending) (c : Nat) :
    abortReq (w.endTask d how) c = abortReq w c := by
  unfold abortReq World.endTask
  dsimp only
  rw [List.getElem?_modify]
  cases w.tasks[c]? with
  | none => rfl
  | some t => by_cases hc : d = c <;> simp [hc]

theorem endTask_endingOf {w : World φ} {d : Nat} (hd : d < w.tasks.length) (how : Ending)
    (c : Nat) :
    (w.endTask d how).endingOf c = if c = d then some how else w.endingOf c := by
  unfold World.endingOf World.endTask
  dsimp only
  rw [List.getElem?_modify]
  by_cases hc : d = c
  · subst hc; rw [List.getElem?_eq_getElem hd]; simp
  · rw [if_neg (fun he => hc he.symm)]
    cases w.tasks[c]? with
    | none => rfl
    | some t => simp [hc]

/-! ## The ways a step can go -/

/-- A report that counts as a failure: anything but `Normal`, of anything but a `Temporary`
child. -/
def Counts (how : Ending) (slot : Slot φ) : Prop :=
  how.reason ≠ .normal ∧ slot.spec.restart ≠ .temporary

/-- The report of `f` taken and its slot's handle cleared, before the reason is looked at. -/
def taken (w : World φ) (f : Forwarder) (how : Ending) (slot : Slot φ) : World φ :=
  (w.takeReport f (w.reportOf f how)).clearAbort f.idx slot

theorem taken_length (w : World φ) (f : Forwarder) (how : Ending) (slot : Slot φ) :
    (taken w f how slot).slots.length = w.slots.length := List.length_set ..

/-- The ways the supervisor's task ends without taking a report. -/
inductive Leaves (w : World φ) : Event → Pc → Prop where
  | factoryPanics {i : Nat} :
      (w.pc = .starting i ∨ ∃ rest, w.pc = .respawning i rest) →
      Leaves w .factoryPanics (.unwound .factoryPanicked)
  | badIndex {i : Nat} {rest : List Nat} :
      (w.pc = .restarting i rest ∨ w.pc = .respawning i rest) → w.slots[i]? = none →
      Leaves w .advance (.unwound .indexOutOfBounds)
  | forwarder {f : Forwarder} {how : Ending} :
      w.pc = .loopHead → f ∈ w.joinset → w.endingOf f.child = some how →
      Leaves w (.forwarderPanics f) (.returned .forwarderPanicked)
  | stopped :
      w.pc = .loopHead → w.joinset = [] → (∀ i, handle w i = none) →
      Leaves w .joinNone (.returned .allStopped)
  | cutOff :
      (w.pc = .loopHead ∨ w.pc = .starting 0) → Leaves w .cutOff .cut

/-- A task that leaves was there. -/
theorem Leaves.live {w : World φ} {e : Event} {pc : Pc} (h : Leaves w e pc) :
    w.pc.live = true := by
  cases h with
  | factoryPanics hpc => rcases hpc with hpc | ⟨_, hpc⟩ <;> rw [hpc] <;> rfl
  | badIndex hpc _ => rcases hpc with hpc | hpc <;> rw [hpc] <;> rfl
  | forwarder hpc _ _ => rw [hpc]; rfl
  | stopped hpc _ _ => rw [hpc]; rfl
  | cutOff hpc => rcases hpc with hpc | hpc <;> rw [hpc] <;> rfl

/-- Everything one step can do. -/
inductive Moves (sup : Supervisor φ) (w : World φ) : Event → World φ → Prop where
  | spawn {i : Nat} {spec : ChildSpec φ} :
      w.pc = .starting i → sup.children[i]? = some spec →
      Moves sup w .advance ((w.spawnChild i spec).goto (.start sup.children.length (i + 1)))
  | abort {i : Nat} {rest : List Nat} {slot : Slot φ} :
      w.pc = .restarting i rest → w.slots[i]? = some slot →
      Moves sup w .advance
        (((w.clearAbort i slot).requestAborts slot.abort.toList).goto (.respawning i rest))
  | respawn {i : Nat} {rest : List Nat} {slot : Slot φ} :
      w.pc = .respawning i rest → w.slots[i]? = some slot →
      Moves sup w .advance ((w.spawnChild i slot.spec).goto (.pass rest))
  | badReport {f : Forwarder} {how : Ending} :
      w.pc = .loopHead → f ∈ w.joinset → w.slots[f.idx]? = none →
      Moves sup w (.joinNext f)
        ((w.takeReport f (w.reportOf f how)).finish (.unwound .indexOutOfBounds))
  | ignore {f : Forwarder} {how : Ending} {slot : Slot φ} :
      w.pc = .loopHead → f ∈ w.joinset → w.endingOf f.child = some how →
      w.slots[f.idx]? = some slot → ¬ Counts how slot →
      Moves sup w (.joinNext f) (taken w f how slot)
  | escalate {f : Forwarder} {how : Ending} {slot : Slot φ} :
      w.pc = .loopHead → f ∈ w.joinset → w.endingOf f.child = some how →
      w.slots[f.idx]? = some slot → Counts how slot → w.exceeds sup.spec = true →
      Moves sup w (.joinNext f)
        ((taken w f how slot).pushHistory sup.spec (w.reportOf f how)).escalate
  | pass {f : Forwarder} {how : Ending} {slot : Slot φ} :
      w.pc = .loopHead → f ∈ w.joinset → w.endingOf f.child = some how →
      w.slots[f.idx]? = some slot → Counts how slot → w.exceeds sup.spec = false →
      Moves sup w (.joinNext f)
        (((taken w f how slot).pushHistory sup.spec (w.reportOf f how)).beginPass sup.spec
          (w.reportOf f how))
  | leave {e : Event} {pc : Pc} : Leaves w e pc → Moves sup w e (w.finish pc)
  | spin {i c : Nat} :
      w.pc = .loopHead → w.joinset = [] → handle w i = some c → Moves sup w .joinNone w
  | ends {c : Nat} {how : Ending} :
      c < w.tasks.length → w.endingOf c = none →
      (how = .abortedBySupervisor → abortReq w c = true) →
      Moves sup w (.childEnds c how) (w.endTask c how)
  | tick {d : Nat} : Moves sup w (.tick d) { w with clock := w.clock + d }

/-- A counted failure escalates or starts a pass, by the rolling-window check alone. -/
theorem restartOrEscalate_moves {sup : Supervisor φ} {w : World φ} {f : Forwarder} {how : Ending}
    {slot : Slot φ} (hpc : w.pc = .loopHead) (hf : f ∈ w.joinset)
    (hend : w.endingOf f.child = some how) (hs : w.slots[f.idx]? = some slot)
    (hc : Counts how slot) :
    Moves sup w (.joinNext f)
      ((taken w f how slot).restartOrEscalate sup.spec (w.reportOf f how)) := by
  have hex : (taken w f how slot).exceeds sup.spec = w.exceeds sup.spec := rfl
  unfold World.restartOrEscalate
  rw [hex]
  cases hx : w.exceeds sup.spec with
  | true => exact Moves.escalate hpc hf hend hs hc hx
  | false => exact Moves.pass hpc hf hend hs hc hx

/-- The body of the loop does one of the four things `Moves` lists for a report. -/
theorem handleReport_moves {sup : Supervisor φ} {w : World φ} {f : Forwarder} {how : Ending}
    (hpc : w.pc = .loopHead) (hf : f ∈ w.joinset) (hend : w.endingOf f.child = some how) :
    Moves sup w (.joinNext f)
      ((w.takeReport f (w.reportOf f how)).handleReport sup.spec (w.reportOf f how)) := by
  unfold World.handleReport
  have hslots : (w.takeReport f (w.reportOf f how)).slots[(w.reportOf f how).idx]?
      = w.slots[f.idx]? := rfl
  rw [hslots]
  cases hs : w.slots[f.idx]? with
  | none => exact Moves.badReport hpc hf hs
  | some slot =>
      -- the three failure branches of the source are the same code
      have hfail : how.reason ≠ .normal → Moves sup w (.joinNext f)
          (if slot.spec.restart = .temporary then taken w f how slot
            else (taken w f how slot).restartOrEscalate sup.spec (w.reportOf f how)) := by
        intro hr
        by_cases hp : slot.spec.restart = .temporary
        · rw [if_pos hp]
          exact Moves.ignore hpc hf hend hs (fun hc => hc.2 hp)
        · rw [if_neg hp]
          exact restartOrEscalate_moves hpc hf hend hs ⟨hr, hp⟩
      dsimp only
      have hreason : (w.reportOf f how).reason = how.reason := rfl
      rw [hreason]
      cases hr : how.reason with
      | normal => exact Moves.ignore hpc hf hend hs (fun hc => hc.1 hr)
      | panic msg => exact hfail (by rw [hr]; simp)
      | aborted => exact hfail (by rw [hr]; simp)
      | other msg => exact hfail (by rw [hr]; simp)

/-- **`Moves` lists every step there is.** -/
theorem step_moves {sup : Supervisor φ} {w w' : World φ} {e : Event}
    (h : step sup w e = some w') : Moves sup w e w' := by
  cases e with
  | advance =>
      rw [step] at h
      cases hpc : w.pc with
      | starting i =>
          rw [hpc] at h
          dsimp only at h
          rw [Option.map_eq_some_iff] at h
          obtain ⟨spec, hspec, heq⟩ := h
          exact heq ▸ Moves.spawn hpc hspec
      | restarting i rest =>
          rw [hpc] at h
          obtain rfl := Option.some.inj h
          unfold World.abortSlot
          cases hs : w.slots[i]? with
          | none => exact Moves.leave (Leaves.badIndex (Or.inl hpc) hs)
          | some slot => exact Moves.abort hpc hs
      | respawning i rest =>
          rw [hpc] at h
          obtain rfl := Option.some.inj h
          unfold World.respawn
          cases hs : w.slots[i]? with
          | none => exact Moves.leave (Leaves.badIndex (Or.inr hpc) hs)
          | some slot => exact Moves.respawn hpc hs
      | loopHead => rw [hpc] at h; simp at h
      | returned p => rw [hpc] at h; simp at h
      | unwound c => rw [hpc] at h; simp at h
      | cut => rw [hpc] at h; simp at h
  | factoryPanics =>
      rw [step] at h
      cases hpc : w.pc with
      | starting i =>
          rw [hpc] at h
          exact Option.some.inj h ▸ Moves.leave (Leaves.factoryPanics (Or.inl hpc))
      | respawning i rest =>
          rw [hpc] at h
          exact Option.some.inj h ▸ Moves.leave (Leaves.factoryPanics (Or.inr ⟨rest, hpc⟩))
      | restarting i rest => rw [hpc] at h; simp at h
      | loopHead => rw [hpc] at h; simp at h
      | returned p => rw [hpc] at h; simp at h
      | unwound c => rw [hpc] at h; simp at h
      | cut => rw [hpc] at h; simp at h
  | joinNext f =>
      rw [step] at h
      split at h
      · rename_i hg
        rw [Option.map_eq_some_iff] at h
        obtain ⟨how, hend, heq⟩ := h
        exact heq ▸ handleReport_moves hg.1 hg.2 hend
      · exact absurd h (by simp)
  | forwarderPanics f =>
      rw [step] at h
      split at h
      · rename_i hg
        rw [Option.map_eq_some_iff] at h
        obtain ⟨how, hend, heq⟩ := h
        exact heq ▸ Moves.leave (Leaves.forwarder hg.1 hg.2 hend)
      · exact absurd h (by simp)
  | joinNone =>
      rw [step] at h
      split at h
      · rename_i hg
        obtain rfl := Option.some.inj h
        unfold World.joinNone
        by_cases hany : w.slots.any (fun s => s.abort.isSome) = true
        · rw [if_pos hany]
          -- the `continue` of the source, which `join_next` answers with `None` again
          obtain ⟨s, hs, hsome⟩ := List.any_eq_true.mp hany
          obtain ⟨c, hc⟩ := Option.isSome_iff_exists.mp hsome
          obtain ⟨i, hi⟩ := mem_handles.mp (List.mem_filterMap.mpr ⟨s, hs, hc⟩)
          exact Moves.spin hg.1 hg.2 hi
        · rw [if_neg hany]
          refine Moves.leave (Leaves.stopped hg.1 hg.2 ?_)
          intro i
          cases hi : handle w i with
          | none => rfl
          | some c =>
              obtain ⟨s, hs, hc⟩ := List.mem_filterMap.mp (mem_handles.mpr ⟨i, hi⟩)
              exact absurd (List.any_eq_true.mpr ⟨s, hs, by rw [hc]; rfl⟩) hany
      · exact absurd h (by simp)
  | cutOff =>
      rw [step] at h
      split at h
      · rename_i hg
        exact Option.some.inj h ▸ Moves.leave (Leaves.cutOff hg)
      · exact absurd h (by simp)
  | childEnds c how =>
      rw [step, Option.bind_eq_some_iff] at h
      obtain ⟨t, ht, hmay⟩ := h
      split at hmay
      · rename_i hm
        obtain rfl := Option.some.inj hmay
        -- a task that is still running, and asked to abort if it ends aborted
        simp only [Task.mayEnd, Bool.and_eq_true, Option.isNone_iff_eq_none, Bool.or_eq_true,
          bne_iff_ne, ne_eq] at hm
        refine Moves.ends (List.getElem?_eq_some_iff.mp ht).1 ?_ ?_
        · unfold World.endingOf; rw [ht]; exact hm.1
        · intro hs
          unfold abortReq
          rw [ht]
          exact hm.2.resolve_left (fun hn => hn hs)
      · exact absurd hmay (by simp)
  | tick d => rw [step] at h; exact Option.some.inj h ▸ Moves.tick

/-! ## What a step leaves alone -/

/-- Only its own end changes whether and how a child has ended. -/
theorem endingOf_step_other {sup : Supervisor φ} {w w' : World φ} {e : Event} {c : Nat}
    (hs : step sup w e = some w') (hne : ∀ how, e ≠ .childEnds c how) :
    w'.endingOf c = w.endingOf c := by
  have hm := step_moves hs
  cases hm with
  | spawn _ _ => rw [goto_endingOf, spawnChild_endingOf]
  | abort _ _ => rw [goto_endingOf, requestAborts_endingOf]; rfl
  | respawn _ _ => rw [goto_endingOf, spawnChild_endingOf]
  | @escalate f how slot _ _ _ _ _ _ =>
      exact requestAborts_endingOf ((taken w f how slot).pushHistory sup.spec
        (w.reportOf f how)) _ c
  | @ends d how hlt _ _ =>
      rw [endTask_endingOf hlt, if_neg (fun he => hne how (by rw [he]))]
  | _ => rfl

/-- An ended child stays ended, and by the same ending. -/
theorem endingOf_step {sup : Supervisor φ} {w w' : World φ} {e : Event} {c : Nat} {how : Ending}
    (h : w.endingOf c = some how) (hs : step sup w e = some w') : w'.endingOf c = some how := by
  by_cases he : ∃ how', e = .childEnds c how'
  · obtain ⟨how', rfl⟩ := he
    cases step_moves hs with
    | leave hl => cases hl
    | ends _ hrun _ => rw [hrun] at h; exact absurd h (by simp)
  · rw [endingOf_step_other hs (fun how' hh => he ⟨how', hh⟩)]
    exact h

/-- A child belongs to one slot for good. -/
theorem slotOf_step {sup : Supervisor φ} {w w' : World φ} {e : Event} {c i : Nat}
    (h : slotOf w c = some i) (hs : step sup w e = some w') : slotOf w' c = some i := by
  have hnew : c ≠ w.tasks.length := Nat.ne_of_lt (slotOf_lt h)
  have hm := step_moves hs
  cases hm with
  | spawn _ _ => rw [goto_slotOf, spawnChild_slotOf, if_neg hnew]; exact h
  | abort _ _ => rw [goto_slotOf, requestAborts_slotOf]; exact h
  | respawn _ _ => rw [goto_slotOf, spawnChild_slotOf, if_neg hnew]; exact h
  | @escalate f how slot _ _ _ _ _ _ =>
      exact (requestAborts_slotOf ((taken w f how slot).pushHistory sup.spec
        (w.reportOf f how)) _ c).trans h
  | ends _ _ _ => rw [endTask_slotOf]; exact h
  | _ => exact h

/-- An abort once requested stays requested. -/
theorem abortReq_step {sup : Supervisor φ} {w w' : World φ} {e : Event} {c : Nat}
    (h : abortReq w c = true) (hs : step sup w e = some w') : abortReq w' c = true := by
  have hlt : c < w.tasks.length := by
    rcases Nat.lt_or_ge c w.tasks.length with hlt | hge
    · exact hlt
    · unfold abortReq at h
      rw [List.getElem?_eq_none hge] at h
      exact Bool.noConfusion h
  have hm := step_moves hs
  cases hm with
  | spawn _ _ => rw [goto_abortReq, spawnChild_abortReq]; exact h
  | @abort i rest slot _ _ =>
      have hw : abortReq (w.clearAbort i slot) c = true := h
      rw [goto_abortReq, requestAborts_abortReq (w := w.clearAbort i slot) _ hlt, hw]
      rfl
  | respawn _ _ => rw [goto_abortReq, spawnChild_abortReq]; exact h
  | @escalate f how slot _ _ _ _ _ _ =>
      have hreq := requestAborts_abortReq (w := (taken w f how slot).pushHistory sup.spec
        (w.reportOf f how)) ((taken w f how slot).slots.filterMap Slot.abort) hlt
      have hw : abortReq ((taken w f how slot).pushHistory sup.spec (w.reportOf f how)) c = true :=
        h
      rw [hw, Bool.true_or] at hreq
      exact hreq
  | ends _ _ _ => rw [endTask_abortReq]; exact h
  | _ => exact h

/-- A task that is over stays where it ended. -/
theorem pc_step_of_over {sup : Supervisor φ} {w w' : World φ} {e : Event}
    (hover : w.pc.live = false) (hs : step sup w e = some w') : w'.pc = w.pc := by
  have hgo : ∀ {pc : Pc}, w.pc = pc → pc.live = true → w'.pc = w.pc := by
    intro pc hpc hlive
    rw [hpc, hlive] at hover
    exact Bool.noConfusion hover
  have hm := step_moves hs
  cases hm with
  | spawn hpc _ => exact hgo hpc rfl
  | abort hpc _ => exact hgo hpc rfl
  | respawn hpc _ => exact hgo hpc rfl
  | badReport hpc _ _ => exact hgo hpc rfl
  | ignore _ _ _ _ _ => rfl
  | escalate hpc _ _ _ _ _ => exact hgo hpc rfl
  | pass hpc _ _ _ _ _ => exact hgo hpc rfl
  | leave hl => exact hgo rfl hl.live
  | spin _ _ _ => rfl
  | ends _ _ _ => rfl
  | tick => rfl

end ErlangActors.Proof
