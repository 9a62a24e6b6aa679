import ErlangActors.Proof.Cascade

/-!
# When one failure is enough

`failure_cost` bounds what one failure can lead to; here the bound is met. Given one
failure of child `k` and nothing else — no time passing, every later ending a child
answering the supervisor's own abort — a schedule that always lets an aborted child's
report in next makes the supervisor count entry after entry until it gives up, unless
the price of that failure is within `max_restarts`.
-/

namespace ErlangActors.Proof

open Supervision Transition Weighing

variable {φ : Type}

/-! ## Failures, by the runtime's record -/

/-- The slots of the children that failed: by panic, join error, or an abort from elsewhere. -/
def failedSlots (w : World φ) : List Nat :=
  (w.tasks.filter (fun t => t.ended.any Ending.spontaneous)).map Task.slot

/-- The slot and the ending of every child. -/
def endings (ts : List Task) : List (Nat × Option Ending) := ts.map (fun t => (t.slot, t.ended))

theorem failedSlots_eq (w : World φ) : failedSlots w
    = ((endings w.tasks).filter (fun p => p.2.any Ending.spontaneous)).map Prod.fst := by
  unfold failedSlots endings
  rw [List.filter_map, List.map_map]
  rfl

theorem failedSlots_congr {w w' : World φ} (h : endings w'.tasks = endings w.tasks) :
    failedSlots w' = failedSlots w := by
  rw [failedSlots_eq, failedSlots_eq, h]

/-- Requesting aborts ends nobody. -/
theorem endings_abortTasks (ts : List Task) (hs : List Nat) :
    endings (abortTasks ts hs) = endings ts := by
  unfold endings
  refine List.ext_getElem? fun c => ?_
  rw [List.getElem?_map, List.getElem?_map, abortTasks_getElem?, Option.map_map]
  cases ts[c]? with
  | none => rfl
  | some t => by_cases hc : c ∈ hs <;> simp [hc, Task.requestAbort]

/-- A child just started has not failed. -/
theorem failedSlots_spawn (w : World φ) (i : Nat) (spec : ChildSpec φ) (pc : Pc) :
    failedSlots ((w.spawnChild i spec).goto pc) = failedSlots w := by
  show ((w.tasks ++ [(⟨i, none, false⟩ : Task)]).filter _).map Task.slot = _
  rw [List.filter_append, List.map_append]
  simp [failedSlots]

/-- Failures are children's endings and nothing else. -/
theorem failedSlots_step {sup : Supervisor φ} {w w' : World φ} {e : Event}
    (hs : step sup w e = some w') (hne : ∀ c how, e ≠ .childEnds c how) :
    failedSlots w' = failedSlots w := by
  have hm := step_moves hs
  cases hm with
  | spawn _ _ => exact failedSlots_spawn ..
  | respawn _ _ => exact failedSlots_spawn ..
  | abort _ _ => exact failedSlots_congr (endings_abortTasks _ _)
  | escalate _ _ _ _ _ _ => exact failedSlots_congr (endings_abortTasks _ _)
  | ends _ _ _ => exact absurd rfl (hne _ _)
  | _ => rfl

/-- A child that ends adds its slot if it failed, and nothing else. -/
theorem failedSlots_endTask {w : World φ} {c : Nat} (how : Ending) {t : Task}
    (ht : w.tasks[c]? = some t) (hrun : t.ended = none) :
    ∃ before behind, failedSlots w = before ++ behind
      ∧ failedSlots (w.endTask c how)
        = before ++ (if how.spontaneous = true then [t.slot] else []) ++ behind := by
  obtain ⟨hlt, hget⟩ := List.getElem?_eq_some_iff.mp ht
  have hsplit : w.tasks = w.tasks.take c ++ t :: w.tasks.drop (c + 1) := by
    rw [← hget, List.getElem_cons_drop, List.take_append_drop]
  refine ⟨((w.tasks.take c).filter (fun t => t.ended.any Ending.spontaneous)).map Task.slot,
    ((w.tasks.drop (c + 1)).filter (fun t => t.ended.any Ending.spontaneous)).map Task.slot,
    ?_, ?_⟩
  · unfold failedSlots
    conv => lhs; rw [hsplit]
    rw [List.filter_append, List.filter_cons_of_neg (by simp [hrun]), List.map_append]
  · unfold failedSlots World.endTask
    dsimp only
    rw [List.modify_eq_take_cons_drop hlt, hget, List.filter_append, List.map_append,
      List.append_assoc]
    congr 1
    by_cases hsp : how.spontaneous = true
    · rw [if_pos hsp, List.filter_cons_of_pos (by simpa using hsp)]
      rfl
    · rw [if_neg hsp, List.filter_cons_of_neg (by simpa using hsp)]
      rfl

/-- A weight over the children of a list, read off the runtime's record. -/
theorem weigh_tasks (W : Nat → Nat) (p : Task → Bool) (ts : List Task) :
    weigh (fun c => (ts[c]?).elim 0 (fun t => W t.slot)) (fun c => (ts[c]?).any p)
      (List.range ts.length) = weigh (fun t => W t.slot) p ts := by
  unfold weigh
  congr 1
  refine List.ext_getElem? fun c => ?_
  rw [List.getElem?_map, List.getElem?_map]
  by_cases hc : c < ts.length
  · rw [List.getElem?_range hc, List.getElem?_eq_getElem hc]
    simp [List.getElem?_eq_getElem hc]
  · rw [List.getElem?_eq_none (by simpa using hc), List.getElem?_eq_none (by simpa using hc)]
    rfl

/-- An abort a child ended by was requested. -/
theorem abortReq_of_aborted {sup : Supervisor φ} {w : World φ} {tr : List (World φ × Event)}
    (h : Run (step sup) (World.init sup) tr w) {c : Nat}
    (hend : w.endingOf c = some .abortedBySupervisor) : abortReq w c = true := by
  induction h with
  | nil => exact absurd hend (by simp [World.init, World.endingOf])
  | @snoc tr w w' e _ hs ih =>
      by_cases he : ∃ how, e = .childEnds c how
      · obtain ⟨how, rfl⟩ := he
        have hm := step_moves hs
        cases hm with
        | leave hl => cases hl
        | ends hlt _ hreq =>
            rw [endTask_endingOf hlt, if_pos rfl] at hend
            rw [endTask_abortReq]
            exact hreq (Option.some.inj hend)
      · rw [endingOf_step_other hs (fun how hh => he ⟨how, hh⟩)] at hend
        exact abortReq_step (ih hend) hs

/-- A failure proper that was counted is on the runtime's record as one. -/
theorem failed_of_unprompted {sup : Supervisor φ} {w : World φ} {tr : List (World φ × Event)}
    (h : Run (step sup) (World.init sup) tr w) {r : Report} (hr : r ∈ unprompted w) :
    ∃ t, w.tasks[r.child]? = some t ∧ t.slot = r.idx ∧ t.ended.any Ending.spontaneous = true := by
  obtain ⟨hpushed, hreq⟩ := List.mem_filter.mp hr
  have hb := books_reachable h
  obtain ⟨hslot, how, hend, hreason⟩ := hb.inv.reported r (mem_reports_of_pushed hb.ledger hpushed)
  obtain ⟨t, ht, hslot⟩ := Option.map_eq_some_iff.mp hslot
  have hended : t.ended = some how := by
    unfold World.endingOf at hend
    rw [ht] at hend
    exact hend
  refine ⟨t, ht, hslot, ?_⟩
  rw [hended]
  refine Ending.spontaneous_iff.mpr ⟨?_, ?_⟩
  · rw [hb.ledger.pushed] at hpushed
    have hc := (List.mem_filter.mp hpushed).2
    rw [← hreason]
    simpa using (Bool.and_eq_true_iff.mp hc).1
  · intro he
    rw [abortReq_of_aborted h (he ▸ hend)] at hreq
    exact Bool.noConfusion hreq

/-- What the failures proper may cost is at most what the failures on record may. -/
theorem failureCost_le {sup : Supervisor φ} {w : World φ} {tr : List (World φ × Event)}
    (h : Run (step sup) (World.init sup) tr w) :
    failureCost sup w ≤ ((failedSlots w).map (fanOut sup)).sum := by
  have hb := books_reachable h
  have hnd : ((unprompted w).map Report.child).Nodup := by
    refine List.Nodup.sublist (List.filter_sublist.map _) ?_
    rw [hb.ledger.pushed]
    exact hb.inv.once.sublist (List.filter_sublist.map _)
  have hsub : (unprompted w).map Report.child ⊆ List.range w.tasks.length := by
    intro c hc
    obtain ⟨r, hr, rfl⟩ := List.mem_map.mp hc
    obtain ⟨t, ht, _⟩ := failed_of_unprompted h hr
    exact List.mem_range.mpr (List.getElem?_eq_some_iff.mp ht).1
  have hle := weigh_le_of_subset (W := fun c => (w.tasks[c]?).elim 0 (fun t => fanOut sup t.slot))
    (p := fun c => (w.tasks[c]?).any (fun t => t.ended.any Ending.spontaneous)) hnd hsub
  rw [weigh_tasks, weigh_map] at hle
  have hleft : failureCost sup w ≤ weigh
      (fun r : Report => (w.tasks[r.child]?).elim 0 (fun t => fanOut sup t.slot))
      (fun r => (w.tasks[r.child]?).any (fun t => t.ended.any Ending.spontaneous))
      (unprompted w) := by
    unfold failureCost
    rw [← weigh_all]
    refine weigh_mono fun r hr _ => ?_
    obtain ⟨t, ht, hslot, hsp⟩ := failed_of_unprompted h hr
    rw [ht, ← hslot]
    exact ⟨hsp, Nat.le_refl _⟩
  have hright : weigh (fun t : Task => fanOut sup t.slot)
      (fun t => t.ended.any Ending.spontaneous) w.tasks
      = ((failedSlots w).map (fanOut sup)).sum := by
    unfold failedSlots
    rw [List.map_map]
    show _ = (List.map _ _).sum
    rw [← weigh_all, weigh_filter]
    exact weigh_congr fun t _ => (Bool.and_true _).symm
  omega

/-! ## The schedule -/

/-- Slot `k` failed once, nothing else did, nobody returned, and no time has passed. -/
structure Lone (sup : Supervisor φ) (k : Nat) (w : World φ) : Prop where
  run : ∃ tr, Run (step sup) (World.init sup) tr w
  clock : w.clock = 0
  failed : failedSlots w = [k]
  clean : ∀ c, w.endingOf c ≠ some .returned
  begun : ∀ i, w.pc ≠ .starting i

theorem Lone.books {sup : Supervisor φ} {k : Nat} {w : World φ} (h : Lone sup k w) :
    Books sup w := by
  obtain ⟨tr, hrun⟩ := h.run
  exact books_reachable hrun

/-- Nobody returned, so nobody was reported as `Normal`. -/
theorem Lone.noNormal {sup : Supervisor φ} {k : Nat} {w : World φ} (h : Lone sup k w) :
    NoNormal w := by
  intro r hr hnormal
  obtain ⟨_, how, hend, hreason⟩ := h.books.inv.reported r hr
  rw [hnormal] at hreason
  exact h.clean r.child (hend.trans (congrArg some (Ending.reason_eq_normal.mp hreason.symm)))

/-- A step of the supervisor itself keeps the failure alone. -/
theorem Lone.own {sup : Supervisor φ} {k : Nat} {w w' : World φ} {e : Event} (h : Lone sup k w)
    (hs : step sup w e = some w') (hends : ∀ c how, e ≠ .childEnds c how)
    (htick : ∀ d, e ≠ .tick d) : Lone sup k w' := by
  obtain ⟨tr, hrun⟩ := h.run
  refine ⟨⟨_, Run.snoc hrun hs⟩, ?_, (failedSlots_step hs hends).trans h.failed, ?_, ?_⟩
  · have hm := step_moves hs
    cases hm with
    | tick => exact absurd rfl (htick _)
    | _ => exact h.clock
  · intro c
    rw [endingOf_step_other hs (hends c)]
    exact h.clean c
  · intro i hi
    have hm := step_moves hs
    cases hm with
    | spawn hpc _ => exact h.begun _ hpc
    | abort _ _ => exact Pc.noConfusion hi
    | @respawn j rest _ _ _ =>
        have : Pc.pass rest = .starting i := hi
        cases rest <;> exact Pc.noConfusion this
    | badReport _ _ _ => exact Pc.noConfusion hi
    | ignore _ _ _ _ _ => exact h.begun _ hi
    | escalate _ _ _ _ _ _ => exact Pc.noConfusion hi
    | @pass f how slot _ _ _ _ _ _ =>
        have hpass : Pc.pass (toRestart sup.spec.strategy (taken w f how slot).slots.length f.idx)
            = .starting i := hi
        cases hlist : toRestart sup.spec.strategy (taken w f how slot).slots.length f.idx <;>
          rw [hlist] at hpass <;> exact Pc.noConfusion hpass
    | leave hl => cases hl <;> exact Pc.noConfusion hi
    | spin _ _ _ => exact h.begun _ hi
    | ends _ _ _ => exact absurd rfl (hends _ _)
    | tick => exact absurd rfl (htick _)

/-- An aborted child coming to its end by that abort is no failure. -/
theorem Lone.obey {sup : Supervisor φ} {k : Nat} {w : World φ} (h : Lone sup k w) {c : Nat}
    (hrun : w.endingOf c = none) (hreq : abortReq w c = true) (hlt : c < w.tasks.length) :
    step sup w (.childEnds c .abortedBySupervisor) = some (w.endTask c .abortedBySupervisor)
      ∧ Lone sup k (w.endTask c .abortedBySupervisor) := by
  have ht := List.getElem?_eq_getElem hlt
  have hended : (w.tasks[c]).ended = none := by
    unfold World.endingOf at hrun
    rw [ht] at hrun
    exact hrun
  have hstep : step sup w (.childEnds c .abortedBySupervisor)
      = some (w.endTask c .abortedBySupervisor) := by
    have hflag : (w.tasks[c]).abortRequested = true := by
      unfold abortReq at hreq
      rw [ht] at hreq
      exact hreq
    rw [step, ht, Option.bind_some, if_pos]
    simp [Task.mayEnd, hended, hflag]
  obtain ⟨tr, hrun'⟩ := h.run
  refine ⟨hstep, ⟨_, Run.snoc hrun' hstep⟩, h.clock, ?_, ?_, h.begun⟩
  · obtain ⟨before, behind, hold, hnew⟩ := failedSlots_endTask .abortedBySupervisor ht hended
    rw [hnew, ← h.failed, hold]
    simp [Ending.spontaneous]
  · intro d
    rw [endTask_endingOf hlt]
    by_cases hd : d = c
    · rw [if_pos hd]; simp
    · rw [if_neg hd]; exact h.clean d

/-- A pass can always be run to its end. -/
theorem Lone.finishPass {sup : Supervisor φ} {k : Nat} {l : List Nat} :
    ∀ {w : World φ}, Lone sup k w → w.pc = .pass l →
      ∃ w', Lone sup k w' ∧ w'.pc = .loopHead ∧ w'.pushed = w.pushed := by
  induction l with
  | nil => intro w h hpc; exact ⟨w, h, hpc, rfl⟩
  | cons i rest ih =>
      intro w h hpc
      have hfill : filled sup.children.length w.pc = some sup.children.length := by
        rw [hpc]
        rfl
      obtain ⟨slot, hslot⟩ := h.books.inv.slot_of_todo hfill
        (by rw [hpc]; exact List.mem_cons_self ..)
      -- abort the slot, then call its factory
      have habort : step sup w .advance = some (w.abortSlot i rest) := by rw [step, hpc]; rfl
      have hw₁ := h.own habort (by simp) (by simp)
      have hpc₁ : (w.abortSlot i rest).pc = .respawning i rest := by
        unfold World.abortSlot
        rw [hslot]
        rfl
      obtain ⟨slot₁, hslot₁⟩ := hw₁.books.inv.slot_of_todo (by rw [hpc₁]; rfl)
        (by rw [hpc₁]; exact List.mem_cons_self ..)
      have hcall : step sup (w.abortSlot i rest) .advance
          = some ((w.abortSlot i rest).respawn i rest) := by
        rw [step, hpc₁]
      have hw₂ := hw₁.own hcall (by simp) (by simp)
      have hpc₂ : ((w.abortSlot i rest).respawn i rest).pc = .pass rest := by
        unfold World.respawn
        rw [hslot₁]
        rfl
      have hpushed₁ : (w.abortSlot i rest).pushed = w.pushed := by
        unfold World.abortSlot
        rw [hslot]
        rfl
      have hpushed₂ : ((w.abortSlot i rest).respawn i rest).pushed
          = (w.abortSlot i rest).pushed := by
        unfold World.respawn
        rw [hslot₁]
        rfl
      obtain ⟨w', hw', hpc', hpushed'⟩ := ih hw₂ hpc₂
      exact ⟨w', hw', hpc', hpushed'.trans (hpushed₂.trans hpushed₁)⟩

/-- Any report to come is counted, and either escalates or starts a pass. -/
theorem Lone.report {sup : Supervisor φ} {k : Nat} {w : World φ} (h : Lone sup k w)
    (hsup : NoTemporary sup) (hpc : w.pc = .loopHead) {f : Forwarder} (hf : f ∈ w.joinset)
    {how : Ending} (hend : w.endingOf f.child = some how) :
    ∃ w', Lone sup k w' ∧ w'.pushed = w.pushed ++ [w.reportOf f how]
      ∧ (Escalated w' ∨ ∃ l, w'.pc = .pass l) := by
  have hstep : step sup w (.joinNext f)
      = some ((w.takeReport f (w.reportOf f how)).handleReport sup.spec (w.reportOf f how)) := by
    rw [step, if_pos ⟨hpc, hf⟩, hend]
    rfl
  refine ⟨_, h.own hstep (by simp) (by simp), ?_⟩
  have hm := step_moves hstep
  generalize (w.takeReport f (w.reportOf f how)).handleReport sup.spec (w.reportOf f how) = w' at hm
  cases hm with
  | badReport _ _ hslot => exact (h.books.inv.no_badReport hf hslot).elim
  | @ignore _ how' slot _ _ hend' hslot hc =>
      obtain rfl := Option.some.inj (hend.symm.trans hend')
      refine absurd ⟨?_, ?_⟩ hc
      · rw [Ne, Ending.reason_eq_normal]
        rintro rfl
        exact h.clean _ hend
      · exact hsup slot.spec (List.mem_of_getElem? (h.books.inv.spec_eq hslot))
  | escalate _ _ hend' _ _ _ =>
      obtain rfl := Option.some.inj (hend.symm.trans hend')
      exact ⟨rfl, Or.inl rfl⟩
  | pass _ _ hend' _ _ _ =>
      obtain rfl := Option.some.inj (hend.symm.trans hend')
      exact ⟨rfl, Or.inr ⟨_, rfl⟩⟩
  | leave hl => cases hl

/-- A child asked to end can be let end, and its report in. -/
theorem Lone.answer {sup : Supervisor φ} {k : Nat} {w : World φ} (h : Lone sup k w)
    (hsup : NoTemporary sup) (hpc : w.pc = .loopHead) {f : Forwarder} (hf : f ∈ w.joinset)
    (hreq : abortReq w f.child = true) :
    ∃ w', Lone sup k w' ∧ w'.pushed.length = w.pushed.length + 1
      ∧ (Escalated w' ∨ ∃ l, w'.pc = .pass l) := by
  have hlen : ∀ r : Report, (w.pushed ++ [r]).length = w.pushed.length + 1 := by simp
  cases hend : w.endingOf f.child with
  | some how =>
      obtain ⟨w', hw', hpushed, hpc'⟩ := h.report hsup hpc hf hend
      exact ⟨w', hw', by rw [hpushed, hlen], hpc'⟩
  | none =>
      have hlt := slotOf_lt (h.books.inv.awaited f hf)
      obtain ⟨_, hw₁⟩ := h.obey hend hreq hlt
      have hend₁ : (w.endTask f.child .abortedBySupervisor).endingOf f.child
          = some .abortedBySupervisor := by rw [endTask_endingOf hlt, if_pos rfl]
      obtain ⟨w', hw', hpushed, hpc'⟩ := hw₁.report hsup hpc hf hend₁
      exact ⟨w', hw', by rw [hpushed]; exact hlen _, hpc'⟩

/-! ## The supervisor gives up -/

/-- As long as no time passes, nothing counted is pruned. -/
theorem history_of_clock {sup : Supervisor φ} {w : World φ} {tr : List (World φ × Event)}
    (h : Run (step sup) (World.init sup) tr w) (hwithin : 0 < sup.spec.withinSecs.toNat)
    (hclock : w.clock = 0) : w.restartHistory.length = w.pushed.length := by
  have hpushed : w.pushed.length = (countableTimes sup w).length := by
    unfold countableTimes
    rw [List.length_map, (books_reachable h).ledger.pushed]
  rw [hpushed]
  clear hpushed
  induction h with
  | nil => rfl
  | @snoc tr w w' e hr hs ih =>
      rcases countableTimes_step (inv_reachable hr) hs with ⟨htimes, hhist, hle, _⟩
          | ⟨_, htimes, hsame, hhist, _⟩
      · rw [htimes, hhist]
        exact ih (by omega)
      · have hzero : w.clock = 0 := hsame.symm.trans hclock
        rw [htimes, hhist, List.length_append, List.length_singleton, ← ih hzero]
        unfold World.nextHistory
        rw [List.length_append, List.length_singleton, List.filter_eq_self.mpr]
        intro t _
        rw [hzero, Nat.zero_sub]
        exact decide_eq_true (Nat.mul_pos hwithin (by omega))

/-- The failure of child `k` alone is more than the budget can take. -/
def TooDear (sup : Supervisor φ) (k : Nat) : Prop :=
  sup.spec.maxRestarts.toNat < fanOut sup k
    ∨ (sup.spec.strategy = .oneForAll ∧ 2 ≤ sup.children.length)

theorem bounded_of_not {sup : Supervisor φ}
    (h : ¬ (sup.spec.strategy = .oneForAll ∧ 2 ≤ sup.children.length)) : Bounded sup := by
  unfold Bounded
  rcases Nat.lt_or_ge sup.children.length 2 with hlt | hge
  · exact Or.inr (by omega)
  · exact Or.inl (fun hst => h ⟨hst, hge⟩)

/-- Until it gives up, a supervisor that cannot afford the failure has a report of its own to
come. -/
theorem Lone.owes {sup : Supervisor φ} {k : Nat} {w : World φ} (h : Lone sup k w)
    (hsup : NoTemporary sup) (hwithin : 0 < sup.spec.withinSecs.toNat)
    (hmax : sup.spec.maxRestarts.toNat + 1 < UInt32.size) (hdear : TooDear sup k)
    (hpc : w.pc = .loopHead) (hp : w.pushed ≠ []) :
    w.pushed.length ≤ sup.spec.maxRestarts.toNat
      ∧ ∃ f ∈ w.joinset, abortReq w f.child = true := by
  obtain ⟨tr, hrun⟩ := h.run
  have hlive : w.pc.live = true := by rw [hpc]; rfl
  have hle : w.pushed.length ≤ sup.spec.maxRestarts.toNat := by
    rw [← history_of_clock hrun hwithin h.clock]
    refine ((windowed_reachable hrun).quiet hmax ?_).2
    intro he
    rw [he] at hpc
    exact Pc.noConfusion hpc
  refine ⟨hle, ?_⟩
  by_cases hst : sup.spec.strategy = .oneForAll ∧ 2 ≤ sup.children.length
  · refine awaits_own_abort hrun hst.1 hst.2 hsup hpc h.noNormal ?_
    rw [(books_reachable hrun).ledger.passes (by rw [hpc]; simp)]
    exact hp
  · have hfan := hdear.resolve_right hst
    have hcost := cost_eq (bounded_of_not hst) hrun hsup hlive h.noNormal
    -- one failure proper has been counted, and it is of slot `k`
    have hone : fanOut sup k ≤ failureCost sup w := by
      obtain ⟨r, hr⟩ := List.exists_mem_of_ne_nil _ (unprompted_ne_nil hrun hp)
      obtain ⟨t, ht, hslot, hsp⟩ := failed_of_unprompted hrun hr
      have hmem : r.idx ∈ failedSlots w :=
        hslot ▸ List.mem_map_of_mem (List.mem_filter.mpr ⟨List.mem_of_getElem? ht, hsp⟩)
      rw [h.failed, List.mem_singleton] at hmem
      rw [← hmem]
      exact List.single_le_sum (fun _ _ => Nat.zero_le _) _
        (List.mem_map_of_mem (f := fun r : Report => fanOut sup r.idx) hr)
    have howed : 0 < weigh (fun f : Forwarder => fanOut sup f.idx)
        (fun f => abortReq w f.child) w.joinset := by
      have hsplit : owed (fanOut sup) w = weigh (fun f : Forwarder => fanOut sup f.idx)
          (fun f => abortReq w f.child) w.joinset := by
        unfold owed
        rw [hpc]
        rfl
      omega
    obtain ⟨f, hf, hreq, _⟩ := exists_of_weigh howed
    exact ⟨f, hf, hreq⟩

/-- So it gives up. -/
theorem Lone.gives_up {sup : Supervisor φ} {k : Nat} (hsup : NoTemporary sup)
    (hwithin : 0 < sup.spec.withinSecs.toNat)
    (hmax : sup.spec.maxRestarts.toNat + 1 < UInt32.size) (hdear : TooDear sup k) (left : Nat) :
    ∀ {w : World φ}, Lone sup k w → (∃ l, w.pc = .pass l) → w.pushed ≠ [] →
      sup.spec.maxRestarts.toNat < w.pushed.length + left →
      ∃ w', Lone sup k w' ∧ Escalated w' := by
  induction left with
  | zero =>
      intro w h hpass hp hleft
      obtain ⟨l, hpc⟩ := hpass
      obtain ⟨w₁, hw₁, hpc₁, hpushed⟩ := h.finishPass hpc
      have hle := (hw₁.owes hsup hwithin hmax hdear hpc₁ (hpushed ▸ hp)).1
      rw [hpushed] at hle
      omega
  | succ left ih =>
      intro w h hpass hp hleft
      obtain ⟨l, hpc⟩ := hpass
      obtain ⟨w₁, hw₁, hpc₁, hpushed⟩ := h.finishPass hpc
      obtain ⟨_, f, hf, hreq⟩ := hw₁.owes hsup hwithin hmax hdear hpc₁ (hpushed ▸ hp)
      obtain ⟨w₂, hw₂, hlen, hnext⟩ := hw₁.answer hsup hpc₁ hf hreq
      rcases hnext with hesc | hpass₂
      · exact ⟨w₂, hw₂, hesc⟩
      · refine ih hw₂ hpass₂ ?_ ?_
        · intro hnil
          rw [hnil] at hlen
          exact absurd hlen (by simp)
        · rw [hlen, hpushed]
          omega

/-! ## The failure -/

/-- The children of a supervisor that has just started its first `i`. -/
def fresh (i : Nat) : List Task :=
  (List.range i).map fun j => { slot := j, ended := none, abortRequested := false }

/-- The initial children can all be started, at once and without a failure. -/
theorem all_started (sup : Supervisor φ) (i : Nat) (hi : i ≤ sup.children.length) :
    ∃ tr w, Run (step sup) (World.init sup) tr w ∧ w.pc = .start sup.children.length i
      ∧ w.clock = 0 ∧ w.tasks = fresh i ∧ w.reports = [] := by
  induction i with
  | zero => exact ⟨[], World.init sup, Run.nil, rfl, rfl, rfl, rfl⟩
  | succ i ih =>
      obtain ⟨tr, w, hrun, hpc, hclock, htasks, hrep⟩ := ih (by omega)
      have hstart : w.pc = .starting i := by
        rw [hpc]
        unfold Pc.start
        rw [if_pos (by omega)]
      have hspec := List.getElem?_eq_getElem (l := sup.children) (i := i) (by omega)
      have hstep : step sup w .advance = some ((w.spawnChild i (sup.children[i])).goto
          (.start sup.children.length (i + 1))) := by
        rw [step, hstart]
        dsimp only
        rw [hspec]
        rfl
      refine ⟨_, _, Run.snoc hrun hstep, rfl, hclock, ?_, hrep⟩
      show w.tasks ++ [_] = fresh (i + 1)
      rw [htasks]
      unfold fresh
      rw [List.range_succ, List.map_append]
      rfl

/-- Child `k` panics first thing after the start. -/
theorem first_failure {sup : Supervisor φ} {k : Nat} (hk : k < sup.children.length) :
    ∃ w f, Lone sup k w ∧ w.pc = .loopHead ∧ f ∈ w.joinset
      ∧ w.endingOf f.child = some .panicked := by
  obtain ⟨tr, w, hrun, hpc, hclock, htasks, hrep⟩ := all_started sup _ (Nat.le_refl _)
  have hhead : w.pc = .loopHead := by
    rw [hpc]
    unfold Pc.start
    rw [if_neg (Nat.lt_irrefl _)]
  have hlive : w.pc.live = true := by rw [hhead]; rfl
  have hlen : w.tasks.length = sup.children.length := by rw [htasks]; simp [fresh]
  have ht : w.tasks[k]? = some ⟨k, none, false⟩ := by rw [htasks]; simp [fresh, hk]
  have hnone : ∀ c, w.endingOf c = none := by
    intro c
    unfold World.endingOf
    rw [htasks]
    unfold fresh
    rw [List.getElem?_map]
    cases (List.range sup.children.length)[c]? <;> rfl
  have hstep : step sup w (.childEnds k .panicked) = some (w.endTask k .panicked) := by
    rw [step, ht, Option.bind_some]
    rfl
  -- the forwarder that awaits child `k`
  have hmem : k ∈ w.joinset.map Forwarder.child := by
    have hacc := (inv_reachable hrun).accounted hlive
    rw [hrep, List.map_nil, List.append_nil] at hacc
    exact hacc.mem_iff.mpr (List.mem_range.mpr (hlen ▸ hk))
  obtain ⟨f, hf, hfk⟩ := List.mem_map.mp hmem
  have hzero : failedSlots w = [] := by
    unfold failedSlots
    rw [htasks, List.filter_eq_nil_iff.mpr]
    · rfl
    · intro t htm
      obtain ⟨j, _, rfl⟩ := List.mem_map.mp htm
      simp
  refine ⟨w.endTask k .panicked, f, ⟨⟨_, Run.snoc hrun hstep⟩, hclock, ?_, ?_, ?_⟩, hhead, hf, ?_⟩
  · obtain ⟨before, behind, hold, hnew⟩ := failedSlots_endTask .panicked ht rfl
    obtain ⟨rfl, rfl⟩ := List.append_eq_nil_iff.mp (hold.symm.trans hzero)
    rw [hnew]
    rfl
  · intro c
    rw [endTask_endingOf (hlen ▸ hk)]
    by_cases hc : c = k
    · rw [if_pos hc]; simp
    · rw [if_neg hc, hnone]; simp
  · intro i hi
    have : w.pc = .starting i := hi
    rw [hhead] at this
    exact Pc.noConfusion this
  · rw [endTask_endingOf (hlen ▸ hk), if_pos hfk]

/--
**When one failure brings the supervisor down.**

With no `Temporary` child, a window that is not empty and `max_restarts` not at the end
of its range: there is a run in which child `k` fails once, nobody else fails, no time
passes and the supervisor gives up, exactly if that one failure's price is above
`max_restarts` — the price being 1 under `OneForOne`, `2 ^ (n - 1 - k)` under
`RestForOne`, and beyond any bound under `OneForAll` with two children or more.
-/
theorem one_failure_escalates {sup : Supervisor φ} (hsup : NoTemporary sup)
    (hwithin : 0 < sup.spec.withinSecs.toNat)
    (hmax : sup.spec.maxRestarts.toNat + 1 < UInt32.size) {k : Nat}
    (hk : k < sup.children.length) :
    (∃ tr w, Run (step sup) (World.init sup) tr w ∧ w.clock = 0 ∧ failedSlots w = [k]
        ∧ Escalated w)
      ↔ sup.spec.maxRestarts.toNat < fanOut sup k
        ∨ (sup.spec.strategy = .oneForAll ∧ 2 ≤ sup.children.length) := by
  refine ⟨?_, ?_⟩
  · rintro ⟨tr, w, hrun, _, hfailed, hesc⟩
    by_cases hst : sup.spec.strategy = .oneForAll ∧ 2 ≤ sup.children.length
    · exact Or.inr hst
    · have hle := cost_le (bounded_of_not hst) hrun
      have hcost := failureCost_le hrun
      have hpushed := pushed_of_escalated (books_reachable hrun).ledger hesc
      rw [hfailed, List.map_singleton, List.sum_singleton] at hcost
      exact Or.inl (by omega)
  · intro hdear
    obtain ⟨w, f, hw, hpc, hf, hend⟩ := first_failure hk
    obtain ⟨w₁, hw₁, hpushed, hnext⟩ := hw.report hsup hpc hf hend
    have hdone : ∃ w', Lone sup k w' ∧ Escalated w' := by
      rcases hnext with hesc | hpass
      · exact ⟨w₁, hw₁, hesc⟩
      · exact Lone.gives_up hsup hwithin hmax hdear (sup.spec.maxRestarts.toNat + 1) hw₁ hpass
          (by rw [hpushed]; simp) (by omega)
    obtain ⟨w', hw', hesc⟩ := hdone
    obtain ⟨tr, hrun⟩ := hw'.run
    exact ⟨tr, w', hrun, hw'.clock, hw'.failed, hesc⟩

/-- Under `OneForAll` one panic can use up five restarts in no time. -/
theorem one_failure_escalates_oneForAll :
    ∃ tr w, Run (step (twoWorkers .oneForAll 5 .permanent))
        (World.init (twoWorkers .oneForAll 5 .permanent)) tr w
      ∧ w.clock = 0 ∧ failedSlots w = [0] ∧ Escalated w :=
  have hsup : NoTemporary (twoWorkers .oneForAll 5 .permanent) := by decide +kernel
  (one_failure_escalates hsup (by decide +kernel) (by decide +kernel) (by decide +kernel)).mpr
    (Or.inr ⟨by decide +kernel, by decide +kernel⟩)

end ErlangActors.Proof
