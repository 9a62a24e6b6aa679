import ErlangActors.Proof.StartOrder

/-!
# What a restart pass starts its children beside

OTP stops the old children before it starts the new ones. A pass here takes the slots
one at a time: it calls `abort`, which only asks the task to end, and then calls the
factory at once. Nothing waits for the aborted child, nor for the ones whose turn has
not come yet, so a pass starts its children after the old ones have ended only if they
had ended before it began.

`ClearPass` is that condition on the step that starts a pass.
-/

namespace ErlangActors.Proof

open Supervision Transition

variable {φ : Type}

/-- If the step starts a pass, every child of every slot it will restart has ended. -/
def ClearPass (sup : Supervisor φ) (w : World φ) (e : Event) : Prop :=
  ∀ t ∈ w.tasks, Restarts sup t.slot w e → t.ended.isSome = true

instance (sup : Supervisor φ) (w : World φ) (e : Event) : Decidable (ClearPass sup w e) :=
  inferInstanceAs (Decidable (∀ t ∈ w.tasks, _))

/--
When a pass is about to call a factory, every earlier child of every slot the pass
restarts has ended. (In the slots it has already restarted, the latest child is its own.)
-/
def StopsFirst (sup : Supervisor φ) (w : World φ) : Prop :=
  ∀ i rest, w.pc = .respawning i rest → ∀ r ∈ w.passes.getLast?, ∀ j c,
    sup.spec.strategy.covers r.idx j = true → slotOf w c = some j →
    (w.endingOf c).isSome = true ∨ j ∉ i :: rest ∧ latest w j = some c

/-- A child of slot `i` runs beside no older child of the same slot or of one after it. -/
def NoneBeside (w : World φ) : Prop :=
  ∀ i j c d, i ≤ j → slotOf w c = some i → slotOf w d = some j → d < c →
    (w.endingOf d).isSome = true

/-! ## Tasks, children and endings -/

theorem ClearPass.ended {sup : Supervisor φ} {w : World φ} {e : Event} (h : ClearPass sup w e)
    {j c : Nat} (hr : Restarts sup j w e) (hc : slotOf w c = some j) :
    (w.endingOf c).isSome = true := by
  unfold slotOf at hc
  rw [Option.map_eq_some_iff] at hc
  obtain ⟨t, ht, rfl⟩ := hc
  have := h t (List.mem_of_getElem? ht) hr
  unfold World.endingOf
  rw [ht]
  exact this

theorem not_clearPass {sup : Supervisor φ} {w : World φ} {e : Event} (h : ¬ ClearPass sup w e) :
    ∃ j c, Restarts sup j w e ∧ slotOf w c = some j ∧ w.endingOf c = none := by
  unfold ClearPass at h
  simp only [not_forall] at h
  obtain ⟨t, ht, hr, hrun⟩ := h
  obtain ⟨c, hc⟩ := List.mem_iff_getElem?.mp ht
  refine ⟨t.slot, c, hr, ?_, ?_⟩
  · unfold slotOf; rw [hc]; rfl
  · unfold World.endingOf
    rw [hc]
    exact Option.not_isSome_iff_eq_none.mp hrun

theorem isSome_endingOf_step {sup : Supervisor φ} {w w' : World φ} {e : Event} {c : Nat}
    (h : (w.endingOf c).isSome = true) (hs : step sup w e = some w') :
    (w'.endingOf c).isSome = true := by
  obtain ⟨how, hhow⟩ := Option.isSome_iff_exists.mp h
  rw [endingOf_step hhow hs]
  rfl

/-- The latest child of a slot is the one no other is after. -/
theorem latest_eq {w : World φ} {j c : Nat} (hc : slotOf w c = some j)
    (hlast : ∀ d, slotOf w d = some j → d ≤ c) : latest w j = some c := by
  obtain ⟨c', hc'⟩ := latest_of_slotOf hc
  obtain ⟨hslot, hmax⟩ := latest_spec hc'
  rw [hc', Nat.le_antisymm (hlast c' hslot) (hmax c hc)]

/-! ## The invariant -/

/-- What a pass leaves running behind it: of the slots it restarts, only its own children. -/
structure Cleared (sup : Supervisor φ) (w : World φ) : Prop where
  nodup : (passTodo w.pc).Nodup
  ended : passTodo w.pc ≠ [] → ∀ r ∈ w.passes.getLast?, ∀ j c,
    sup.spec.strategy.covers r.idx j = true → slotOf w c = some j →
    (w.endingOf c).isSome = true
      ∨ j ∉ passTodo w.pc ∧ ∀ d, slotOf w d = some j → d ≤ c

theorem cleared_idle {sup : Supervisor φ} {w : World φ} (h : passTodo w.pc = []) :
    Cleared sup w where
  nodup := by rw [h]; exact List.nodup_nil
  ended := fun hne => absurd h hne

/-- A step in mid-pass that starts nothing. -/
theorem cleared_frame {sup : Supervisor φ} {w w' : World φ} {e : Event} (h : Cleared sup w)
    (hs : step sup w e = some w') (htodo : passTodo w'.pc = passTodo w.pc)
    (hpasses : w'.passes = w.passes) (hof : ∀ c, slotOf w' c = slotOf w c) : Cleared sup w' where
  nodup := htodo ▸ h.nodup
  ended := by
    intro hne r hr j c hcov hc
    rw [htodo] at hne ⊢
    rw [hpasses] at hr
    rw [hof] at hc
    rcases h.ended hne r hr j c hcov hc with hend | ⟨hj, hlast⟩
    · exact Or.inl (isSome_endingOf_step hend hs)
    · exact Or.inr ⟨hj, fun d hd => hlast d (hof d ▸ hd)⟩

/-- **Preserved by every step that meets the condition.** -/
theorem cleared_step {sup : Supervisor φ} {w w' : World φ} {e : Event} (hi : Inv sup w)
    (h : Cleared sup w) (hclear : ClearPass sup w e) (hs : step sup w e = some w') :
    Cleared sup w' := by
  have hm := step_moves hs
  cases hm with
  | spawn _ _ => exact cleared_idle (start_passTodo _ _)
  | @abort k rest slot hpc _ =>
      exact cleared_frame h hs (by rw [hpc]; rfl) rfl
        (fun c => requestAborts_slotOf (w.clearAbort k slot) _ c)
  | @respawn k rest slot hpc _ =>
      have htodo : passTodo ((w.spawnChild k slot.spec).goto (.pass rest)).pc = rest :=
        pass_passTodo rest
      have hold : passTodo w.pc = k :: rest := by rw [hpc]; rfl
      have hnd := h.nodup
      rw [hold, List.nodup_cons] at hnd
      refine ⟨htodo.symm ▸ hnd.2, ?_⟩
      intro _ r hr j c hcov hc
      rw [htodo]
      rw [goto_slotOf, spawnChild_slotOf] at hc
      have hnew : ∀ {d i : Nat}, i ≠ k → slotOf ((w.spawnChild k slot.spec).goto (.pass rest)) d
          = some i → slotOf w d = some i := by
        intro d i hik hd
        rw [goto_slotOf, spawnChild_slotOf] at hd
        split at hd
        · exact absurd (Option.some.inj hd).symm hik
        · exact hd
      split at hc
      · -- the child just started is the latest of its slot, whose turn is over
        rename_i heq
        subst heq
        obtain rfl := Option.some.inj hc
        refine Or.inr ⟨hnd.1, fun d hd => ?_⟩
        rw [goto_slotOf, spawnChild_slotOf] at hd
        split at hd
        · rename_i he
          exact Nat.le_of_eq he
        · exact Nat.le_of_lt (slotOf_lt hd)
      · rcases h.ended (by rw [hold]; simp) r hr j c hcov hc with hend | ⟨hj, hlast⟩
        · exact Or.inl (isSome_endingOf_step hend hs)
        · rw [hold] at hj
          have hjk : j ≠ k := fun he => hj (he ▸ List.mem_cons_self ..)
          refine Or.inr ⟨fun hmem => hj (List.mem_cons_of_mem _ hmem), fun d hd => ?_⟩
          exact hlast d (hnew hjk hd)
  | @badReport f how _ hf hslot => exact (hi.no_badReport hf hslot).elim
  | ignore hpc _ _ _ _ => exact cleared_frame h hs rfl rfl (fun _ => rfl)
  | escalate _ _ _ _ _ _ => exact cleared_idle rfl
  | @pass f how slot hpc _ hend hslot hc hx =>
      have htodo : passTodo (((taken w f how slot).pushHistory sup.spec
          (w.reportOf f how)).beginPass sup.spec (w.reportOf f how)).pc
          = toRestart sup.spec.strategy (taken w f how slot).slots.length f.idx :=
        pass_passTodo _
      refine ⟨htodo.symm ▸ toRestart_nodup .., ?_⟩
      intro _ r hr j c hcov hcs
      have hlast : r = w.reportOf f how := by
        have : (w.passes ++ [w.reportOf f how]).getLast? = some r := hr
        rw [List.getLast?_concat] at this
        exact (Option.some.inj this).symm
      subst hlast
      have hr' : Restarts sup j w (.joinNext f) := ⟨how, hend, slot, hslot, hc, hx, hcov⟩
      exact Or.inl (isSome_endingOf_step (hclear.ended hr' hcs) hs)
  | leave hl => exact cleared_idle (by cases hl <;> rfl)
  | spin _ _ _ => exact h
  | @ends c how _ _ _ => exact cleared_frame h hs rfl rfl (fun d => endTask_slotOf w c how d)
  | tick => exact cleared_frame h hs rfl rfl (fun _ => rfl)

theorem Cleared.stopsFirst {sup : Supervisor φ} {w : World φ} (h : Cleared sup w) :
    StopsFirst sup w := by
  intro i rest hpc r hr j c hcov hc
  have htodo : passTodo w.pc = i :: rest := by rw [hpc]; rfl
  have := h.ended (by rw [htodo]; simp) r hr j c hcov hc
  rw [htodo] at this
  rcases this with hend | ⟨hj, hlast⟩
  · exact Or.inl hend
  · exact Or.inr ⟨hj, latest_eq hc hlast⟩

/-! ## Old beside new -/

/-- In a pass there is a report that started it, and it covers the slots still to come. -/
def PassCovers (sup : Supervisor φ) (w : World φ) : Prop :=
  ∀ j ∈ passTodo w.pc, ∃ r ∈ w.passes.getLast?, sup.spec.strategy.covers r.idx j = true

theorem passCovers_step {sup : Supervisor φ} {w w' : World φ} {e : Event} (h : PassCovers sup w)
    (hs : step sup w e = some w') : PassCovers sup w' := by
  have hnone : passTodo w'.pc = [] → PassCovers sup w' := by
    intro he j hj
    rw [he] at hj
    exact absurd hj (by simp)
  have hm := step_moves hs
  cases hm with
  | spawn _ _ => exact hnone (start_passTodo _ _)
  | @abort k rest slot hpc _ =>
      intro j hj
      exact h j (by rw [hpc]; exact hj)
  | @respawn k rest slot hpc _ =>
      intro j hj
      have hj' : j ∈ rest := by
        have : passTodo ((w.spawnChild k slot.spec).goto (.pass rest)).pc = rest :=
          pass_passTodo rest
        exact this ▸ hj
      exact h j (by rw [hpc]; exact List.mem_cons_of_mem _ hj')
  | badReport _ _ _ => exact hnone rfl
  | ignore _ _ _ _ _ => exact h
  | escalate _ _ _ _ _ _ => exact hnone rfl
  | @pass f how slot _ _ _ hslot _ _ =>
      intro j hj
      have hj' : j ∈ toRestart sup.spec.strategy (taken w f how slot).slots.length f.idx := by
        have : passTodo (((taken w f how slot).pushHistory sup.spec
            (w.reportOf f how)).beginPass sup.spec (w.reportOf f how)).pc
            = toRestart sup.spec.strategy (taken w f how slot).slots.length f.idx :=
          pass_passTodo _
        exact this ▸ hj
      rw [taken_length, mem_toRestart (List.getElem?_eq_some_iff.mp hslot).1] at hj'
      refine ⟨w.reportOf f how, ?_, hj'.2⟩
      show (w.passes ++ [w.reportOf f how]).getLast? = some (w.reportOf f how)
      exact List.getLast?_concat
  | leave hl => exact hnone (by cases hl <;> rfl)
  | spin _ _ _ => exact h
  | ends _ _ _ => exact h
  | tick => exact h

/-- A child started where nothing older runs, in its own slot or after it. -/
theorem noneBeside_spawn {w : World φ} (h : NoneBeside w) {k : Nat} {spec : ChildSpec φ} {pc : Pc}
    (hold : ∀ j d, k ≤ j → slotOf w d = some j → (w.endingOf d).isSome = true) :
    NoneBeside ((w.spawnChild k spec).goto pc) := by
  intro i j c d hij hc hd hdc
  rw [goto_slotOf, spawnChild_slotOf] at hc hd
  rw [goto_endingOf, spawnChild_endingOf]
  have hdlt : d ≠ w.tasks.length := by
    split at hc
    · omega
    · exact Nat.ne_of_lt (Nat.lt_trans hdc (slotOf_lt hc))
  rw [if_neg hdlt] at hd
  split at hc
  · obtain rfl := Option.some.inj hc
    exact hold j d hij hd
  · exact h i j c d hij hc hd hdc

/-- While every pass stops the old children first, no old child runs beside a new one. -/
theorem noneBeside_step {sup : Supervisor φ} {w w' : World φ} {e : Event} (hi : Inv sup w)
    (ho : Ordered sup w) (hcov : PassCovers sup w) (hc : Cleared sup w) (h : NoneBeside w)
    (hs : step sup w e = some w') : NoneBeside w' := by
  have hframe : (∀ c, slotOf w' c = slotOf w c) → NoneBeside w' := by
    intro hof i j c d hij hic hjd hdc
    rw [hof] at hic hjd
    exact isSome_endingOf_step (h i j c d hij hic hjd hdc) hs
  have hm := step_moves hs
  cases hm with
  | @spawn k spec hpc _ =>
      refine noneBeside_spawn h fun j d hkj hd => ?_
      have hlen : w.slots.length = k := hi.size k (by rw [hpc]; rfl)
      have := hi.slotted d j hd
      omega
  | @abort k rest slot _ _ =>
      exact hframe (fun c => requestAborts_slotOf (w.clearAbort k slot) _ c)
  | @respawn k rest slot hpc _ =>
      refine noneBeside_spawn h fun j d hkj hd => ?_
      have htodo : passTodo w.pc = k :: rest := by rw [hpc]; rfl
      obtain ⟨a, ha⟩ := ho.suffix
      rw [htodo] at ha
      obtain ⟨_, _, hrest⟩ := range'_tail ha
      have hfull : w.slots.length = sup.children.length := hi.size _ (by rw [hpc]; rfl)
      have hj : j ∈ passTodo w.pc := by
        have := hi.slotted d j hd
        rw [htodo]
        rcases Nat.eq_or_lt_of_le hkj with rfl | hlt
        · exact List.mem_cons_self ..
        · refine List.mem_cons_of_mem _ ?_
          rw [hrest, List.mem_range'_1]
          omega
      obtain ⟨r, hr, hcovers⟩ := hcov j hj
      rcases hc.ended (by rw [htodo]; simp) r hr j d hcovers hd with hend | ⟨hnot, _⟩
      · exact hend
      · exact absurd hj hnot
  | @escalate f how slot _ _ _ _ _ _ =>
      exact hframe (fun c => requestAborts_slotOf ((taken w f how slot).pushHistory sup.spec
        (w.reportOf f how)) _ c)
  | @ends c how _ _ _ => exact hframe (fun d => endTask_slotOf w c how d)
  | _ => exact hframe (fun _ => rfl)

/-! ## The condition is exact -/

/-- A pass that does not find its slots clear calls its first factory beside an old child. -/
theorem not_stopsFirst {sup : Supervisor φ} {w w' : World φ} {e : Event} (hi : Inv sup w)
    (hclear : ¬ ClearPass sup w e) (hs : step sup w e = some w') :
    ∃ y, step sup w' .advance = some y ∧ ¬ StopsFirst sup y := by
  obtain ⟨j, c, hr, hc, hrun⟩ := not_clearPass hclear
  have hm := step_moves hs
  have hno : ∀ {g : Forwarder} {how : Ending} {slot : Slot φ},
      Restarts sup j w (.joinNext g) → w.endingOf g.child = some how →
      w.slots[g.idx]? = some slot → Counts how slot ∧ w.exceeds sup.spec = false
        ∧ sup.spec.strategy.covers g.idx j = true := by
    intro g how slot hg hend hslot
    obtain ⟨how', hend', slot', hslot', hcnt, hx, hcov⟩ := hg
    obtain rfl := Option.some.inj (hend.symm.trans hend')
    obtain rfl := Option.some.inj (hslot.symm.trans hslot')
    exact ⟨hcnt, hx, hcov⟩
  cases hm with
  | @badReport f how _ hf hslot => exact (hi.no_badReport hf hslot).elim
  | @ignore f how slot _ _ hend hslot hcnt => exact absurd (hno hr hend hslot).1 hcnt
  | @escalate f how slot _ _ hend hslot _ hx =>
      have := (hno hr hend hslot).2.1
      rw [hx] at this
      exact Bool.noConfusion this
  | @pass f how slot hpc hf hend hslot hcnt hx =>
      obtain ⟨_, _, hcov⟩ := hno hr hend hslot
      have hi' := inv_step hi hs
      have hidx : f.idx < w.slots.length := (List.getElem?_eq_some_iff.mp hslot).1
      -- the pass is at the first slot of its list, and slot `j` is on it
      obtain ⟨k, rest, hlist⟩ : ∃ k rest,
          toRestart sup.spec.strategy w.slots.length f.idx = k :: rest := by
        have hmem : f.idx ∈ toRestart sup.spec.strategy w.slots.length f.idx :=
          (mem_toRestart hidx).mpr ⟨hidx, sup.spec.strategy.covers_self f.idx⟩
        exact List.exists_cons_of_ne_nil (List.ne_nil_of_mem hmem)
      have hjmem : j ∈ k :: rest :=
        hlist ▸ (mem_toRestart hidx).mpr ⟨hi.slotted c j hc, hcov⟩
      have hpc' : (((taken w f how slot).pushHistory sup.spec (w.reportOf f how)).beginPass
          sup.spec (w.reportOf f how)).pc = .restarting k rest := by
        show Pc.pass (toRestart sup.spec.strategy (taken w f how slot).slots.length f.idx) = _
        rw [taken_length, hlist]
        rfl
      obtain ⟨slot', hslot'⟩ := hi'.slot_of_todo (by rw [hpc']; rfl)
        (by rw [hpc']; exact List.mem_cons_self ..)
      refine ⟨_, by rw [step, hpc'], ?_⟩
      unfold World.abortSlot
      rw [hslot']
      -- asking the child of slot `k` to end has ended nobody
      let passing := ((taken w f how slot).pushHistory sup.spec (w.reportOf f how)).beginPass
        sup.spec (w.reportOf f how)
      have hslotc : slotOf ((passing.clearAbort k slot').requestAborts slot'.abort.toList) c
          = some j := (requestAborts_slotOf (passing.clearAbort k slot') _ c).trans hc
      have hendc : ((passing.clearAbort k slot').requestAborts slot'.abort.toList).endingOf c
          = none := (requestAborts_endingOf (passing.clearAbort k slot') _ c).trans hrun
      intro hstops
      rcases hstops k rest rfl (w.reportOf f how) List.getLast?_concat j c hcov hslotc
        with hsome | ⟨hnot, _⟩
      · rw [goto_endingOf, hendc] at hsome
        exact Bool.noConfusion hsome
      · exact hnot hjmem
  | leave hl => cases hl <;> exact hr.elim
  | spawn _ _ => exact hr.elim
  | abort _ _ => exact hr.elim
  | respawn _ _ => exact hr.elim
  | spin _ _ _ => exact hr.elim
  | ends _ _ _ => exact hr.elim
  | tick => exact hr.elim

/--
**A pass starts its children after the old ones have ended if they had ended before it.**

In every run whose passes all start with no child of their slots left running, each
factory is called with every earlier child of every slot of its pass ended, and no child
ever runs beside an older one of its own slot or of a later slot. And every pass that
starts otherwise can call its first factory beside an old child: the very next step of
the supervisor takes it there.
-/
theorem stop_before_start {sup : Supervisor φ} {w : World φ} {tr : List (World φ × Event)}
    (hstrat : sup.spec.strategy = .restForOne ∨ sup.spec.strategy = .oneForAll)
    (h : Run (step sup) (World.init sup) tr w) :
    ((∀ p ∈ tr, ClearPass sup p.1 p.2) →
        ∀ x, Visits tr w x → StopsFirst sup x ∧ NoneBeside x)
      ∧ ∀ x e x', (x, e) ∈ tr → step sup x e = some x' → ¬ ClearPass sup x e →
        ∃ y, step sup x' .advance = some y ∧ ¬ StopsFirst sup y := by
  have hne : sup.spec.strategy ≠ .oneForOne := by
    rcases hstrat with hs | hs <;> rw [hs] <;> simp
  refine ⟨?_, ?_⟩
  · intro hclear x hx
    have hinit : passTodo (World.init sup).pc = [] := start_passTodo _ _
    obtain ⟨_, _, _, hcl, hbeside⟩ := h.always_guarded
      (P := fun s => Inv sup s ∧ Ordered sup s ∧ PassCovers sup s ∧ Cleared sup s ∧ NoneBeside s)
      (C := fun s e => ClearPass sup s e)
      ⟨inv_init sup, ordered_init sup, fun j hj => absurd (hinit ▸ hj) (by simp),
        cleared_idle hinit, fun i j c d _ hc _ _ => absurd (slotOf_lt hc) (Nat.not_lt_zero _)⟩
      (fun s e s' ⟨hi, ho, hcov, hcl, hb⟩ hcp hs =>
        ⟨inv_step hi hs, ordered_step hne hi ho hs, passCovers_step hcov hs,
          cleared_step hi hcl hcp hs, noneBeside_step hi ho hcov hcl hb hs⟩)
      hclear hx
    exact ⟨hcl.stopsFirst, hbeside⟩
  · intro x e x' hx hs hclear
    obtain ⟨_, _, _, hrun, _, _⟩ := h.split hx
    exact not_stopsFirst (inv_reachable hrun) hclear hs

/-- The second child returns before the first panics: the pass starts both with nothing running. -/
theorem stop_before_start_secondReturned :
    StopsFirst (twoWorkers .restForOne 5 .permanent)
      (stateOn (twoWorkers .restForOne 5 .permanent)
        (started ++ [.childEnds 1 .returned, .childEnds 0 .panicked, .joinNext ⟨0, 0⟩, .advance])) :=
  ((stop_before_start (Or.inl rfl) (runOn (twoWorkers .restForOne 5 .permanent)
    (started ++ [.childEnds 1 .returned, .childEnds 0 .panicked, .joinNext ⟨0, 0⟩, .advance])
    (by decide +kernel))).1 (by decide +kernel) _ Visits.last).1

/-- The first child panics while the second runs: its factory is called beside the old second. -/
theorem stop_before_start_secondRunning :
    ¬ ∀ (sup : Supervisor Unit) (tr : List (World Unit × Event)) (w : World Unit),
      (sup.spec.strategy = .restForOne ∨ sup.spec.strategy = .oneForAll) →
      Run (step sup) (World.init sup) tr w → StopsFirst sup w := by
  intro hall
  have hrun := runOn (twoWorkers .restForOne 5 .permanent)
    (started ++ [.childEnds 0 .panicked, .joinNext ⟨0, 0⟩, .advance]) (by decide +kernel)
  rcases hall _ _ _ (Or.inl rfl) hrun 0 [1] (by decide +kernel) ⟨0, 0, .panic anyDebug, 0⟩
    (by decide +kernel) 1 1 rfl (by decide +kernel) with hend | ⟨hnot, _⟩
  · exact absurd hend (by decide +kernel)
  · exact absurd hnot (by decide)

end ErlangActors.Proof
