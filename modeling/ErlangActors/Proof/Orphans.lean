import ErlangActors.Proof.LoopHead
import ErlangActors.Proof.Tracking

/-!
# Who is left behind when the supervisor returns

`run_supervisor` returns by three paths, and they do not clean up alike.

* *All children stopped*: the `JoinSet` is empty, so everything has ended.
* *`max_restarts` exceeded*: every slot's handle is aborted. That reaches exactly the
  tracked children, less the one whose handle the escalating report has just cleared.
* *A forwarder panicked*: the function returns at once and aborts nothing.

`ReturnsClean` says of the state before a return step what each path needs.
-/

namespace ErlangActors.Proof

open Supervision Transition

variable {φ : Type}

/-- Every child ever spawned has ended or has had its abort requested. -/
def NoOrphan (w : World φ) : Prop :=
  ∀ c, c < w.tasks.length → (w.endingOf c).isSome = true ∨ abortReq w c = true

instance (w : World φ) : Decidable (NoOrphan w) :=
  inferInstanceAs (Decidable (∀ c, c < w.tasks.length → _))

/-- A forwarder's panic aborts nobody, so it needs everyone to be accounted for already. -/
def PanicsClean (w : World φ) : Event → Prop
  | .forwarderPanics _ => NoOrphan w
  | _ => True

instance (w : World φ) : DecidablePred (PanicsClean w)
  | .forwarderPanics _ => inferInstanceAs (Decidable (NoOrphan w))
  | .advance | .factoryPanics | .joinNext _ | .joinNone | .cutOff | .childEnds _ _
  | .tick _ => inferInstanceAs (Decidable True)

/-- What a return step needs of the state it is taken in. -/
def ReturnsClean (w : World φ) : Event → Prop
  | .joinNext f => ∀ i c, AtLarge w i c → i ≠ f.idx ∧ handle w i = some c
  | e => PanicsClean w e

/-- No orphan means no child at large. -/
theorem noOrphan_iff {w : World φ} : NoOrphan w ↔ ∀ i c, ¬ AtLarge w i c := by
  refine ⟨?_, ?_⟩
  · intro h i c hc
    rcases h c (slotOf_lt hc.1) with hend | hreq
    · rw [hc.2.1] at hend; exact absurd hend (by simp)
    · rw [hc.2.2] at hreq; exact absurd hreq (by simp)
  · intro h c hlt
    have hslot : slotOf w c = some w.tasks[c].slot := by
      unfold slotOf; rw [List.getElem?_eq_getElem hlt]; rfl
    cases hend : w.endingOf c with
    | some how => exact Or.inl rfl
    | none =>
        right
        cases hreq : abortReq w c with
        | true => rfl
        | false => exact absurd ⟨hslot, hend, hreq⟩ (h _ c)

/-- **A return leaves no orphan exactly if the state it is taken in is what its path needs.** -/
theorem return_noOrphan_iff {sup : Supervisor φ} {w w' : World φ} {e : Event} (hi : Inv sup w)
    (hpc : w.pc = .loopHead) (hs : step sup w e = some w') {path : ReturnPath}
    (hret : w'.pc = .returned path) : NoOrphan w' ↔ ReturnsClean w e := by
  have hlive : w.pc.live = true := by rw [hpc]; rfl
  have hm := step_moves hs
  cases hm with
  | spawn hpc' _ => rw [hpc] at hpc'; exact Pc.noConfusion hpc'
  | abort hpc' _ => rw [hpc] at hpc'; exact Pc.noConfusion hpc'
  | respawn hpc' _ => rw [hpc] at hpc'; exact Pc.noConfusion hpc'
  | badReport _ _ _ => exact Pc.noConfusion hret
  | ignore _ _ _ _ _ => exact Pc.noConfusion (hpc.symm.trans hret)
  | @escalate f how slot _ hf hend hslot hc hx =>
      have hhandle : ∀ j, handle (taken w f how slot) j
          = if j = f.idx then none else handle w j :=
        fun j => clearAbort_handle (w := w.takeReport f (w.reportOf f how)) hslot j
      have hlarge : ∀ i c, AtLarge ((taken w f how slot).pushHistory sup.spec
          (w.reportOf f how)) i c ↔ AtLarge w i c := fun i c => Iff.rfl
      have hkeep : ∀ j, handle ((taken w f how slot).pushHistory sup.spec
          (w.reportOf f how)) j = handle (taken w f how slot) j := fun j => rfl
      -- the escalating path asks every task to abort whose handle is left
      rw [noOrphan_iff]
      refine ⟨?_, ?_⟩
      · intro hnone i c hc'
        have := hnone i c
        rw [escalate_atLarge, hlarge] at this
        obtain ⟨j, hj⟩ := not_forall.mp (not_and.mp this hc')
        have hj' := not_not.mp hj
        rw [hkeep, hhandle] at hj'
        by_cases hjf : j = f.idx
        · rw [if_pos hjf] at hj'; exact absurd hj' (by simp)
        · rw [if_neg hjf] at hj'
          -- a handle is of a child of its own slot
          have hji := hi.awaited _ (hi.handles hlive j c hj').1
          have hje : j = i := Option.some.inj (hji.symm.trans hc'.1)
          exact ⟨hje ▸ hjf, hje ▸ hj'⟩
      · intro hclean i c hc'
        rw [escalate_atLarge, hlarge] at hc'
        obtain ⟨hne, hh⟩ := hclean i c hc'.1
        refine hc'.2 i ?_
        rw [hkeep, hhandle, if_neg hne]
        exact hh
  | @pass f how slot _ _ _ _ _ _ =>
      have := pass_live (toRestart sup.spec.strategy (taken w f how slot).slots.length f.idx)
      have hret' : Pc.pass (toRestart sup.spec.strategy (taken w f how slot).slots.length f.idx)
          = .returned path := hret
      rw [hret'] at this
      exact Bool.noConfusion this
  | leave hl =>
      cases hl with
      | forwarder _ _ _ => exact Iff.rfl
      | stopped _ hempty _ =>
          exact ⟨fun _ => trivial, fun _ c hc => Or.inl (ended_of_empty hi hlive hempty hc)⟩
      | factoryPanics _ => exact Pc.noConfusion hret
      | badIndex _ _ => exact Pc.noConfusion hret
      | cutOff _ => exact Pc.noConfusion hret
  | spin _ hempty hh =>
      rw [no_handle_of_empty hi hlive hempty] at hh
      exact absurd hh (by simp)
  | ends _ _ _ => exact Pc.noConfusion (hpc.symm.trans hret)
  | tick => exact Pc.noConfusion (hpc.symm.trans hret)

/-- A supervisor that has returned got there from the loop head, and lets go of nobody since. -/
theorem returned_from {sup : Supervisor φ} {w w' : World φ} {e : Event}
    (hs : step sup w e = some w') {path : ReturnPath} (hret : w'.pc = .returned path) :
    w.pc = .loopHead
      ∨ w.pc = .returned path ∧ ∀ i c, AtLarge w' i c → AtLarge w i c := by
  have hm := step_moves hs
  cases hm with
  | @spawn i spec _ _ =>
      have := start_live sup.children.length (i + 1)
      have hret' : Pc.start sup.children.length (i + 1) = .returned path := hret
      rw [hret'] at this
      exact Bool.noConfusion this
  | abort _ _ => exact Pc.noConfusion hret
  | @respawn i rest slot _ _ =>
      have := pass_live rest
      have hret' : Pc.pass rest = .returned path := hret
      rw [hret'] at this
      exact Bool.noConfusion this
  | badReport hpc _ _ => exact Or.inl hpc
  | ignore hpc _ _ _ _ => exact Or.inl hpc
  | escalate hpc _ _ _ _ _ => exact Or.inl hpc
  | pass hpc _ _ _ _ _ => exact Or.inl hpc
  | leave hl =>
      cases hl with
      | forwarder hpc _ _ => exact Or.inl hpc
      | stopped hpc _ _ => exact Or.inl hpc
      | factoryPanics _ => exact Pc.noConfusion hret
      | badIndex _ _ => exact Pc.noConfusion hret
      | cutOff _ => exact Pc.noConfusion hret
  | spin hpc _ _ => exact Or.inl hpc
  | ends hlt _ _ => exact Or.inr ⟨hret, fun _ _ hc => ends_atLarge hlt hc⟩
  | tick => exact Or.inr ⟨hret, fun _ _ hc => hc⟩

/-- A step that neither untracks a child nor leaves on a forwarder's panic returns clean. -/
theorem returnsClean_of_tracked {sup : Supervisor φ} {w : World φ} {e : Event} (hi : Inv sup w)
    (ht : Tracked w) (hpc : w.pc = .loopHead) {w' : World φ} (hs : step sup w e = some w')
    (hu : ¬ Untracks w e) (hf : PanicsClean w e) : ReturnsClean w e := by
  cases e with
  | joinNext f =>
      intro i c hc
      refine ⟨?_, ht i c hc⟩
      intro hif
      rw [step] at hs
      split at hs
      · rename_i hg
        rw [Option.map_eq_some_iff] at hs
        obtain ⟨how, hend, _⟩ := hs
        exact hu ((untracks_iff hi ht hpc hend).mpr ⟨c, hif ▸ hc⟩)
      · exact absurd hs (by simp)
  | _ => exact hf

/--
**No orphan when `run_supervisor` returns**, and when not.

Return by return: no orphan is left exactly if `ReturnsClean` held before. Over a
whole run: none is left if no report untracked a child and no forwarder panicked
while a child was at large.
-/
theorem no_orphan {sup : Supervisor φ} {w : World φ} {tr : List (World φ × Event)}
    (h : Run (step sup) (World.init sup) tr w) :
    (∀ x e x' path, (x, e) ∈ tr → step sup x e = some x' → x.pc = .loopHead →
        x'.pc = .returned path → (NoOrphan x' ↔ ReturnsClean x e))
      ∧ ((∀ p ∈ tr, ¬ Untracks p.1 p.2 ∧ PanicsClean p.1 p.2) →
          ∀ x path, Visits tr w x → x.pc = .returned path → NoOrphan x) := by
  refine ⟨?_, ?_⟩
  · intro x e x' path hx hs hpc hret
    obtain ⟨_, _, _, hrun, _, _⟩ := h.split hx
    exact return_noOrphan_iff (inv_reachable hrun) hpc hs hret
  · intro hC x path hx hret
    refine (h.always_guarded (P := fun s => Inv sup s ∧ Tracked s ∧
      ∀ path, s.pc = .returned path → NoOrphan s)
      (C := fun s e => ¬ Untracks s e ∧ PanicsClean s e) ?_ ?_ hC hx).2.2 path hret
    · refine ⟨inv_init sup, tracked_init sup, fun path hpc => ?_⟩
      have := start_live sup.children.length 0
      have hpc' : Pc.start sup.children.length 0 = .returned path := hpc
      rw [hpc'] at this
      exact Bool.noConfusion this
    · intro s e s' hP hc hs
      obtain ⟨hi, ht, hno⟩ := hP
      refine ⟨inv_step hi hs, (tracked_step_iff hi ht hs).mpr hc.1, ?_⟩
      intro path' hpath
      rcases returned_from hs hpath with hpc | ⟨hpc, hshrink⟩
      · exact (return_noOrphan_iff hi hpc hs hpath).mpr
          (returnsClean_of_tracked hi ht hpc hs hc.1 hc.2)
      · rw [noOrphan_iff]
        intro i c hc'
        exact noOrphan_iff.mp (hno path' hpc) i c (hshrink i c hc')

/-- One child is restarted, and then both stop: nobody is left behind. -/
theorem no_orphan_bothStopped :
    NoOrphan (stateOn (twoWorkers .oneForOne 5 .permanent) bothStopped) :=
  (no_orphan (runOn (twoWorkers .oneForOne 5 .permanent) bothStopped (by decide +kernel))).2
    (by decide +kernel) _ .allStopped Visits.last (by decide +kernel)

/-- A forwarder panics while the other child is running: that child is left behind. -/
theorem no_orphan_forwarderPanics :
    ¬ ∀ (sup : Supervisor Unit) (tr : List (World Unit × Event)) (w : World Unit)
      (path : ReturnPath), Run (step sup) (World.init sup) tr w → w.pc = .returned path →
        NoOrphan w := by
  intro hall
  have hrun := runOn (twoWorkers .oneForOne 5 .permanent)
    (started ++ [.childEnds 0 .panicked, .forwarderPanics ⟨0, 0⟩]) (by decide +kernel)
  have hno := hall _ _ _ .forwarderPanicked hrun (by decide +kernel) 1 (by decide +kernel)
  exact absurd hno (by decide +kernel)

end ErlangActors.Proof
