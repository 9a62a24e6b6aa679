import ErlangActors.Proof.Inv

/-!
# How often each factory is called

A slot's factory is called once when the supervisor starts and once in every restart
pass whose set contains the slot, and a pass is started by a report: one that counts
as a failure and does not escalate. `Restarts` names those reports by the state they
are taken in, so that the number of calls can be read off the trace.

The slot's own policy is consulted only for its own reports. A pass started by a
sibling calls the factory of a `Temporary` slot like any other.
-/

namespace ErlangActors.Proof

open Supervision Transition

variable {φ : Type}

/-- How often slot `j`'s factory has returned a task. -/
def factoryCalls (w : World φ) (j : Nat) : Nat := w.tasks.countP (fun t => t.slot == j)

/-- The slots the pass at hand has still to start. -/
def passTodo : Pc → List Nat
  | .restarting i rest => i :: rest
  | .respawning i rest => i :: rest
  | _ => []

instance (how : Ending) (slot : Slot φ) : Decidable (Counts how slot) :=
  inferInstanceAs (Decidable (_ ∧ _))

/-- The report taken starts a pass that contains slot `j`. -/
def Restarts (sup : Supervisor φ) (j : Nat) (w : World φ) : Event → Prop
  | .joinNext f => ∃ how ∈ w.endingOf f.child, ∃ slot ∈ w.slots[f.idx]?,
      Counts how slot ∧ w.exceeds sup.spec = false ∧ sup.spec.strategy.covers f.idx j = true
  | _ => False

instance (sup : Supervisor φ) (j : Nat) (w : World φ) : DecidablePred (Restarts sup j w)
  | .joinNext f =>
      inferInstanceAs (Decidable (∃ how ∈ w.endingOf f.child, ∃ slot ∈ w.slots[f.idx]?, _))
  | .advance | .factoryPanics | .forwarderPanics _ | .joinNone | .cutOff | .childEnds _ _
  | .tick _ => inferInstanceAs (Decidable False)

/-- The passes so far that contain slot `j`. -/
def passesOf (sup : Supervisor φ) (w : World φ) (j : Nat) : Nat :=
  w.passes.countP (fun r => sup.spec.strategy.covers r.idx j)

@[simp] theorem start_passTodo (n i : Nat) : passTodo (Pc.start n i) = [] := by
  unfold Pc.start; split <;> rfl

@[simp] theorem pass_passTodo (l : List Nat) : passTodo (Pc.pass l) = l := by
  cases l <;> rfl

/-! ## Calls and passes -/

/--
One call for being there and one for each pass that contains the slot, less the one
a pass still owes. A factory that panics in mid-pass ends the supervisor, and then
the rest of the pass never happens.
-/
def CallsOwed (sup : Supervisor φ) (w : World φ) : Prop :=
  (∀ cause, w.pc ≠ .unwound cause) → ∀ j, j < sup.children.length →
    factoryCalls w j + (passTodo w.pc).count j
      = (if j < w.slots.length then 1 else 0) + passesOf sup w j

theorem factoryCalls_spawn (w : World φ) (i : Nat) (spec : ChildSpec φ) (pc : Pc) (j : Nat) :
    factoryCalls ((w.spawnChild i spec).goto pc) j
      = factoryCalls w j + if i = j then 1 else 0 := by
  unfold factoryCalls World.goto World.spawnChild
  simp [List.countP_append, List.countP_cons]

theorem factoryCalls_of_slots {w w' : World φ}
    (h : w'.tasks.map Task.slot = w.tasks.map Task.slot) (j : Nat) :
    factoryCalls w' j = factoryCalls w j := by
  have hmap : ∀ ts : List Task, ts.countP (fun t => t.slot == j)
      = (ts.map Task.slot).countP (fun i => i == j) := fun ts => by
    rw [List.countP_map]; rfl
  unfold factoryCalls
  rw [hmap, hmap, h]

theorem modify_slots (ts : List Task) (c : Nat) (g : Task → Task)
    (hg : ∀ t, (g t).slot = t.slot) :
    (ts.modify c g).map Task.slot = ts.map Task.slot := by
  refine List.ext_getElem? fun k => ?_
  rw [List.getElem?_map, List.getElem?_map, List.getElem?_modify]
  cases ts[k]? with
  | none => rfl
  | some t => by_cases hc : c = k <;> simp [hc, hg]

theorem abortTasks_slots (ts : List Task) (hs : List Nat) :
    (abortTasks ts hs).map Task.slot = ts.map Task.slot := by
  unfold abortTasks
  induction hs generalizing ts with
  | nil => rfl
  | cons h hs ih => rw [List.foldl_cons, ih, modify_slots ts h Task.requestAbort (fun _ => rfl)]

theorem count_toRestart {strategy : Restart} {n idx j : Nat} (hidx : idx < n) (hj : j < n) :
    (toRestart strategy n idx).count j = if strategy.covers idx j = true then 1 else 0 := by
  rw [(toRestart_nodup strategy n idx).count]
  refine if_congr ?_ rfl rfl
  rw [mem_toRestart hidx]
  exact ⟨fun h => h.2, fun h => ⟨hj, h⟩⟩

theorem callsOwed_init (sup : Supervisor φ) : CallsOwed sup (World.init sup) := by
  intro _ j _
  have : passTodo (World.init sup).pc = [] := start_passTodo _ _
  rw [this]
  rfl

theorem factoryCalls_endTask (w : World φ) (c : Nat) (how : Ending) (j : Nat) :
    factoryCalls (w.endTask c how) j = factoryCalls w j :=
  factoryCalls_of_slots
    (modify_slots w.tasks c (fun t => { t with ended := some how }) (fun _ => rfl)) j

/-- What is owed, read off where the program counter is. -/
theorem CallsOwed.of_pc {sup : Supervisor φ} {w : World φ} {pc : Pc} (h : CallsOwed sup w)
    (hpc : w.pc = pc) (hun : ∀ cause, pc ≠ .unwound cause) {j : Nat}
    (hj : j < sup.children.length) :
    factoryCalls w j + (passTodo pc).count j
      = (if j < w.slots.length then 1 else 0) + passesOf sup w j := by
  subst hpc
  exact h hun j hj

/-- **`CallsOwed` is preserved by every step.** -/
theorem callsOwed_step {sup : Supervisor φ} {w w' : World φ} {e : Event} (hi : Inv sup w)
    (h : CallsOwed sup w) (hs : step sup w e = some w') : CallsOwed sup w' := by
  have hm := step_moves hs
  cases hm with
  | @spawn i spec hpc hspec =>
      intro _ j hj
      have hlen : w.slots.length = i := hi.size i (by rw [hpc]; rfl)
      have hold := h.of_pc hpc nofun hj
      have hlen' : ((w.spawnChild i spec).goto (.start sup.children.length (i + 1))).slots.length
          = max w.slots.length (i + 1) := spawnChild_length w i spec
      have htodo : passTodo ((w.spawnChild i spec).goto
          (.start sup.children.length (i + 1))).pc = [] := start_passTodo _ _
      have hpasses : passesOf sup ((w.spawnChild i spec).goto
          (.start sup.children.length (i + 1))) j = passesOf sup w j := rfl
      rw [factoryCalls_spawn, htodo, hlen', hpasses]
      simp only [passTodo, List.count_nil] at hold ⊢
      split at hold <;> split <;> split <;> omega
  | @abort i rest slot hpc hslot =>
      intro _ j hj
      have hold := h.of_pc hpc nofun hj
      have hcalls : factoryCalls (((w.clearAbort i slot).requestAborts slot.abort.toList).goto
          (.respawning i rest)) j = factoryCalls w j :=
        factoryCalls_of_slots (abortTasks_slots _ _) j
      have hlen : (w.clearAbort i slot).slots.length = w.slots.length := List.length_set ..
      rw [hcalls]
      show factoryCalls w j + (passTodo (.respawning i rest)).count j
        = (if j < (w.clearAbort i slot).slots.length then 1 else 0) + passesOf sup w j
      rw [hlen]
      exact hold
  | @respawn i rest slot hpc hslot =>
      -- the call just made is the one the pass owed slot `i`
      intro _ j hj
      have hold := h.of_pc hpc nofun hj
      have hlt : i < w.slots.length := (List.getElem?_eq_some_iff.mp hslot).1
      have hlen' : ((w.spawnChild i slot.spec).goto (.pass rest)).slots.length
          = max w.slots.length (i + 1) := spawnChild_length w i slot.spec
      have htodo : passTodo ((w.spawnChild i slot.spec).goto (.pass rest)).pc = rest :=
        pass_passTodo rest
      have hpasses : passesOf sup ((w.spawnChild i slot.spec).goto (.pass rest)) j
          = passesOf sup w j := rfl
      rw [factoryCalls_spawn, htodo, hlen', hpasses, Nat.max_eq_left hlt]
      simp only [passTodo, List.count_cons, beq_iff_eq] at hold
      omega
  | @badReport f how _ hf hslot =>
      exact (hi.no_badReport hf hslot).elim
  | @ignore f how slot hpc hf hend hslot hc =>
      intro hnot j hj
      rw [taken_length]
      exact h hnot j hj
  | @escalate f how slot hpc hf hend hslot hc hx =>
      intro _ j hj
      have hold := h.of_pc hpc nofun hj
      have hlen : ((taken w f how slot).pushHistory sup.spec (w.reportOf f how)).escalate.slots.length
          = w.slots.length := by
        unfold World.escalate World.finish
        exact (List.length_map ..).trans (taken_length w f how slot)
      have hcalls : factoryCalls ((taken w f how slot).pushHistory sup.spec
          (w.reportOf f how)).escalate j = factoryCalls w j :=
        factoryCalls_of_slots (abortTasks_slots _ _) j
      rw [hcalls, hlen]
      exact hold
  | @pass f how slot hpc hf hend hslot hc hx =>
      -- the pass added is owed one call for each slot it contains
      intro _ j hj
      have hold := h.of_pc hpc nofun hj
      have hfull : w.slots.length = sup.children.length := hi.size _ (by rw [hpc]; rfl)
      have hidx : f.idx < w.slots.length := (List.getElem?_eq_some_iff.mp hslot).1
      show factoryCalls w j + (passTodo (Pc.pass (toRestart sup.spec.strategy
          (taken w f how slot).slots.length f.idx))).count j
        = (if j < (taken w f how slot).slots.length then 1 else 0)
          + (w.passes ++ [w.reportOf f how]).countP (fun r => sup.spec.strategy.covers r.idx j)
      rw [pass_passTodo, taken_length, count_toRestart hidx (hfull ▸ hj), List.countP_append]
      simp only [passTodo, List.count_nil, passesOf] at hold
      simp only [List.countP_cons, List.countP_nil, World.reportOf]
      split <;> omega
  | leave hl =>
      intro hnot j hj
      cases hl with
      | factoryPanics _ => exact absurd rfl (hnot _)
      | badIndex _ _ => exact absurd rfl (hnot _)
      | forwarder hpc _ _ => exact h.of_pc hpc nofun hj
      | stopped hpc _ _ => exact h.of_pc hpc nofun hj
      | cutOff hpc =>
          rcases hpc with hpc | hpc
          · exact h.of_pc hpc nofun hj
          · exact h.of_pc hpc nofun hj
  | spin _ _ _ => exact h
  | @ends c how _ _ _ =>
      intro hnot j hj
      rw [factoryCalls_endTask]
      exact h hnot j hj
  | tick => exact h

theorem callsOwed_reachable {sup : Supervisor φ} {w : World φ} {tr : List (World φ × Event)}
    (h : Run (step sup) (World.init sup) tr w) : CallsOwed sup w :=
  (h.invariant (P := fun s => Inv sup s ∧ CallsOwed sup s) ⟨inv_init sup, callsOwed_init sup⟩
    (fun _ _ _ hs hstep => ⟨inv_step hs.1 hstep, callsOwed_step hs.1 hs.2 hstep⟩)).2

/-- A pass adds itself to the passes of every slot it contains; nothing else adds any. -/
theorem passesOf_step {sup : Supervisor φ} {w w' : World φ} {e : Event} {j : Nat}
    (hi : Inv sup w) (hs : step sup w e = some w') :
    passesOf sup w' j = passesOf sup w j + if Restarts sup j w e then 1 else 0 := by
  have hsame : passesOf sup w' j = passesOf sup w j → ¬ Restarts sup j w e →
      passesOf sup w' j = passesOf sup w j + if Restarts sup j w e then 1 else 0 := by
    intro hp hr
    rw [if_neg hr]
    exact hp
  have hm := step_moves hs
  cases hm with
  | @badReport f how _ hf hslot =>
      exact (hi.no_badReport hf hslot).elim
  | @ignore f how slot _ _ hend hslot hc =>
      refine hsame rfl ?_
      intro hr
      obtain ⟨how', hend', slot', hslot', hc', _⟩ := hr
      obtain rfl := Option.some.inj (hend.symm.trans hend')
      obtain rfl := Option.some.inj (hslot.symm.trans hslot')
      exact hc hc'
  | @escalate f how slot _ _ _ _ _ hx =>
      refine hsame rfl ?_
      intro hr
      obtain ⟨_, _, _, _, _, hx', _⟩ := hr
      rw [hx] at hx'
      exact Bool.noConfusion hx'
  | @pass f how slot _ _ hend hslot hc hx =>
      have hiff : Restarts sup j w (.joinNext f) ↔ sup.spec.strategy.covers f.idx j = true :=
        ⟨fun ⟨_, _, _, _, _, _, hcov⟩ => hcov, fun hcov => ⟨how, hend, slot, hslot, hc, hx, hcov⟩⟩
      show (w.passes ++ [w.reportOf f how]).countP (fun r => sup.spec.strategy.covers r.idx j) = _
      rw [List.countP_append, if_congr hiff rfl rfl]
      simp [passesOf, World.reportOf, List.countP_cons]
  | leave hl => exact hsame rfl (by cases hl <;> exact id)
  | _ => exact hsame rfl id

/-- **The passes that contain a slot are the reports of the trace that restart it.** -/
theorem passesOf_eq_countP {sup : Supervisor φ} {w : World φ} {tr : List (World φ × Event)}
    (h : Run (step sup) (World.init sup) tr w) (j : Nat) :
    passesOf sup w j = tr.countP (fun p => Restarts sup j p.1 p.2) := by
  have hcount := h.count (R := Inv sup) (f := fun s => passesOf sup s j)
    (C := fun s e => Restarts sup j s e) (inv_init sup) (fun _ _ _ hi hs => inv_step hi hs)
    (fun _ _ _ hi hs => passesOf_step hi hs)
  rw [hcount]
  exact Nat.zero_add _

/-- Whenever no pass is under way, every slot's factory has been called once for each pass
containing it and once at the start. -/
theorem factoryCalls_eq {sup : Supervisor φ} {w : World φ} {tr : List (World φ × Event)}
    (h : Run (step sup) (World.init sup) tr w)
    (hpc : w.pc = .loopHead ∨ ∃ path, w.pc = .returned path) {j : Nat}
    (hj : j < sup.children.length) : factoryCalls w j = 1 + passesOf sup w j := by
  have hinv := inv_reachable h
  have howed := callsOwed_reachable h
  rcases hpc with hpc | ⟨path, hpc⟩
  · have hlen : w.slots.length = sup.children.length := hinv.size _ (by rw [hpc]; rfl)
    have hcalls := howed.of_pc hpc nofun hj
    rw [hlen, if_pos hj] at hcalls
    exact hcalls
  · have hlen : w.slots.length = sup.children.length := hinv.size _ (by rw [hpc]; rfl)
    have hcalls := howed.of_pc hpc nofun hj
    rw [hlen, if_pos hj] at hcalls
    exact hcalls

/-- No factory is called more often than that, not even by a supervisor that unwound. -/
theorem factoryCalls_le {sup : Supervisor φ} {w : World φ} {tr : List (World φ × Event)}
    (h : Run (step sup) (World.init sup) tr w) {j : Nat} (hj : j < sup.children.length) :
    factoryCalls w j + (passTodo w.pc).count j ≤ 1 + passesOf sup w j := by
  have hle : ∀ {x : World φ}, CallsOwed sup x → (∀ cause, x.pc ≠ .unwound cause) →
      factoryCalls x j + (passTodo x.pc).count j ≤ 1 + passesOf sup x j := by
    intro x hx hpc
    have := hx hpc j hj
    split at this <;> omega
  induction h with
  | nil =>
      refine hle (callsOwed_init sup) (fun cause he => ?_)
      exact absurd he (start_ne rfl)
  | @snoc tr w w' e hr hs ih =>
      by_cases hun : ∃ cause, w'.pc = .unwound cause
      · obtain ⟨cause, hun⟩ := hun
        -- unwinding starts nothing, and neither does anything after it
        have htodo : passTodo w'.pc = [] := by rw [hun]; rfl
        have hold : factoryCalls w j ≤ 1 + passesOf sup w j := by omega
        rw [htodo, List.count_nil, Nat.add_zero]
        cases step_moves hs with
        | spawn _ _ => exact absurd hun (start_ne rfl)
        | abort _ _ => exact Pc.noConfusion hun
        | respawn _ _ => exact absurd hun (pass_ne rfl)
        | badReport _ _ _ => exact hold
        | ignore _ _ _ _ _ => exact hold
        | escalate _ _ _ _ _ _ => exact Pc.noConfusion hun
        | pass _ _ _ _ _ _ => exact absurd hun (pass_ne rfl)
        | leave _ => exact hold
        | spin _ _ _ => exact hold
        | @ends c how _ _ _ =>
            rw [factoryCalls_endTask]
            exact hold
        | tick => exact hold
      · exact hle (callsOwed_reachable (Run.snoc hr hs)) (fun cause he => hun ⟨cause, he⟩)

/-! ## A `Temporary` slot -/

/-- A report that restarts a `Temporary` slot is a sibling's. -/
theorem restarts_temporary {sup : Supervisor φ} {w : World φ} (hi : Inv sup w) {i : Nat}
    {spec : ChildSpec φ} (hspec : sup.children[i]? = some spec)
    (htemp : spec.restart = .temporary) {f : Forwarder} (hr : Restarts sup i w (.joinNext f)) :
    f.idx ≠ i := by
  obtain ⟨_, _, slot, hslot, hc, _⟩ := hr
  intro he
  have hsame := hi.spec_eq hslot
  rw [he, hspec] at hsame
  exact hc.2 (Option.some.inj hsame ▸ htemp)

/-- Only a report that restarts slot `i` puts it on a pass's list. -/
theorem not_passTodo_step {sup : Supervisor φ} {w w' : World φ} {e : Event} {i : Nat}
    (h : i ∉ passTodo w.pc) (hr : ¬ Restarts sup i w e)
    (hs : step sup w e = some w') : i ∉ passTodo w'.pc := by
  have hm := step_moves hs
  cases hm with
  | @spawn k _ _ _ =>
      show i ∉ passTodo (Pc.start sup.children.length (k + 1))
      rw [start_passTodo]
      simp
  | @abort k rest slot hpc _ => rw [hpc] at h; exact h
  | @respawn k rest slot hpc _ =>
      rw [hpc] at h
      show i ∉ passTodo (Pc.pass rest)
      rw [pass_passTodo]
      exact fun hmem => h (List.mem_cons_of_mem _ hmem)
  | badReport _ _ _ => simp [World.finish, passTodo]
  | ignore _ _ _ _ _ => exact h
  | escalate _ _ _ _ _ _ => simp [World.escalate, World.finish, passTodo]
  | @pass f how slot hpc _ hend hslot hc hx =>
      have hidx : f.idx < w.slots.length := (List.getElem?_eq_some_iff.mp hslot).1
      show i ∉ passTodo (Pc.pass (toRestart sup.spec.strategy
        (taken w f how slot).slots.length f.idx))
      rw [pass_passTodo, taken_length, mem_toRestart hidx]
      exact fun hmem => hr ⟨how, hend, slot, hslot, hc, hx, hmem.2⟩
  | leave hl => cases hl <;> simp [World.finish, passTodo]
  | spin _ _ _ => exact h
  | ends _ _ _ => exact h
  | tick => exact h

/--
**A `Temporary` child is called once, unless a sibling's failure restarts it.**

At every loop head and after every return the slot's factory has been called exactly
once if and only if no report of the run started a pass containing the slot. Such a
report is never the slot's own, so under `OneForOne` there is none; and without one
the slot is never even about to be started again, whatever the program point.
-/
theorem temporary_called_once {sup : Supervisor φ} {w : World φ} {tr : List (World φ × Event)}
    (h : Run (step sup) (World.init sup) tr w) {i : Nat} {spec : ChildSpec φ}
    (hspec : sup.children[i]? = some spec) (htemp : spec.restart = .temporary) :
    ((w.pc = .loopHead ∨ ∃ path, w.pc = .returned path) →
        (factoryCalls w i = 1 ↔ ∀ p ∈ tr, ¬ Restarts sup i p.1 p.2))
      ∧ ((∀ p ∈ tr, ¬ Restarts sup i p.1 p.2) → ∀ x, Visits tr w x →
        factoryCalls x i ≤ 1 ∧ ∀ rest, x.pc ≠ .respawning i rest)
      ∧ (∀ x f, (x, Event.joinNext f) ∈ tr → Restarts sup i x (.joinNext f) → f.idx ≠ i)
      ∧ (sup.spec.strategy = .oneForOne → ∀ p ∈ tr, ¬ Restarts sup i p.1 p.2) := by
  have hlt : i < sup.children.length := (List.getElem?_eq_some_iff.mp hspec).1
  have hown : ∀ x f, (x, Event.joinNext f) ∈ tr → Restarts sup i x (.joinNext f) → f.idx ≠ i := by
    intro x f hx hr
    obtain ⟨_, _, _, hrun, _, _⟩ := h.split hx
    exact restarts_temporary (inv_reachable hrun) hspec htemp hr
  have hzero : ∀ {tr' : List (World φ × Event)}, (∀ p ∈ tr', ¬ Restarts sup i p.1 p.2) →
      tr'.countP (fun p => Restarts sup i p.1 p.2) = 0 := by
    intro tr' hnone
    exact List.countP_eq_zero.mpr (fun p hp => by simpa using hnone p hp)
  refine ⟨?_, ?_, hown, ?_⟩
  · intro hpc
    -- one call at the start, and one for each pass that covers the slot
    rw [factoryCalls_eq h hpc hlt, passesOf_eq_countP h]
    refine ⟨?_, ?_⟩
    · intro hone p hp
      have hzero' : tr.countP (fun p => Restarts sup i p.1 p.2) = 0 := by omega
      simpa using List.countP_eq_zero.mp hzero' p hp
    · intro hnone
      rw [hzero hnone]
  · intro hnone x hx
    obtain ⟨tr', hpre, hrun⟩ := h.upTo hx
    have hle := factoryCalls_le hrun hlt
    rw [passesOf_eq_countP hrun, hzero (fun p hp => hnone p (hpre.subset hp))] at hle
    refine ⟨by omega, ?_⟩
    intro rest hpc
    -- a slot is in the respawning half only if a pass has it to do
    have hidle : i ∉ passTodo x.pc := by
      refine hrun.guarded (P := fun s => i ∉ passTodo s.pc)
        (C := fun s e => ¬ Restarts sup i s e) ?_
        (fun _ _ _ hP hC hs => not_passTodo_step hP hC hs)
        (fun p hp => hnone p (hpre.subset hp))
      have : passTodo (World.init sup).pc = [] := start_passTodo _ _
      rw [this]
      simp
    rw [hpc] at hidle
    exact hidle (List.mem_cons_self ..)
  · intro hone p hp hr
    obtain ⟨x, e⟩ := p
    cases e with
    | joinNext f =>
        -- under `OneForOne` the pass covers the reporting slot alone
        have hne := hown x f hp hr
        obtain ⟨_, _, _, _, _, _, hcov⟩ := hr
        rw [hone] at hcov
        exact hne (by simpa [Restart.covers] using hcov : i = f.idx).symm
    | _ => exact hr

/-- A `Temporary` child panics under `OneForAll`: its report is ignored. -/
theorem temporary_called_once_secondPanics :
    factoryCalls (stateOn (twoWorkers .oneForAll 5 .temporary)
      (started ++ [.childEnds 1 .panicked, .joinNext ⟨1, 1⟩])) 1 = 1 :=
  have hspec : (twoWorkers .oneForAll 5 .temporary).children[1]?
      = some ⟨"second", .temporary, ()⟩ := rfl
  ((temporary_called_once (runOn (twoWorkers .oneForAll 5 .temporary)
    (started ++ [.childEnds 1 .panicked, .joinNext ⟨1, 1⟩]) (by decide +kernel)) hspec rfl).1
    (Or.inl (by decide +kernel))).mpr (by decide +kernel)

/-- Its sibling panics, and the pass that follows calls the `Temporary` child's factory again. -/
theorem temporary_called_once_firstPanics :
    ¬ ∀ (sup : Supervisor Unit) (tr : List (World Unit × Event)) (w : World Unit) (i : Nat)
      (spec : ChildSpec Unit), Run (step sup) (World.init sup) tr w → w.pc = .loopHead →
        sup.children[i]? = some spec → spec.restart = .temporary → factoryCalls w i = 1 := by
  intro hall
  have hrun := runOn (twoWorkers .oneForAll 5 .temporary) firstPanics (by decide +kernel)
  have hone := hall _ _ _ 1 ⟨"second", .temporary, ()⟩ hrun (by decide +kernel) rfl rfl
  exact absurd hone (by decide +kernel)

end ErlangActors.Proof
