import ErlangActors.Lib.Weigh
import ErlangActors.Proof.Window
import Mathlib.Data.List.Nodup

/-!
# The account of the supervisor's own aborts

A restart pass aborts the siblings it is about to restart. Their forwarders stay in
the `JoinSet`, so each abort comes back later as a report of its own. The account
follows those aborts: every one is *owed* until its report comes back, and *repaid*
once it has been counted, and passes are the only thing that runs the account up.

The account holds for any weight `W` put on the slots, so that `Cascade` can weigh an
abort by what its report will cost in turn.
-/

namespace ErlangActors.Proof

open Supervision Transition Weighing

variable {φ : Type}

/-! ## The account -/

/-- The siblings a failure of slot `idx` restarts. -/
def struck (sup : Supervisor φ) (idx : Nat) : List Nat :=
  (toRestart sup.spec.strategy sup.children.length idx).filter (· != idx)

/-- The slots the pass at hand has still to abort. -/
def toAbort : Pc → List Nat
  | .restarting i rest => i :: rest
  | .respawning _ rest => rest
  | _ => []

/-- Aborts requested, or about to be by the pass at hand, whose reports are still to come. -/
def owed (W : Nat → Nat) (w : World φ) : Nat :=
  weigh (fun f => W f.idx) (fun f => abortReq w f.child) w.joinset
    + weigh W (fun j => (handle w j).isSome) (toAbort w.pc)

/-- Aborts whose report came back and was counted like any other failure. -/
def repaid (W : Nat → Nat) (w : World φ) : Nat :=
  weigh (fun r => W r.idx) (fun r => abortReq w r.child) w.pushed

/-- What the passes so far have struck. -/
def strikes (W : Nat → Nat) (sup : Supervisor φ) (w : World φ) : Nat :=
  (w.passes.map fun r => ((struck sup r.idx).map W).sum).sum

/-- Counted reports of children the supervisor had not asked to abort: the failures proper. -/
def unprompted (w : World φ) : List Report := w.pushed.filter (fun r => !abortReq w r.child)

@[simp] theorem start_toAbort (n i : Nat) : toAbort (Pc.start n i) = [] := by
  unfold Pc.start; split <;> rfl

@[simp] theorem pass_toAbort (l : List Nat) : toAbort (Pc.pass l) = l := by
  cases l <;> rfl

/-- What is counted is either a failure proper or an answer. -/
theorem pushed_eq_unprompted (W : Nat → Nat) (w : World φ) :
    ((unprompted w).map fun r => W r.idx).sum + repaid W w
      = (w.pushed.map fun r => W r.idx).sum := by
  have hsplit := weigh_add_not (W := fun r : Report => W r.idx)
    (p := fun r : Report => abortReq w r.child) (l := w.pushed)
  have hun : ((unprompted w).map fun r => W r.idx).sum
      = weigh (fun r : Report => W r.idx) (fun r => !abortReq w r.child) w.pushed := by
    rw [← weigh_all]
    unfold unprompted
    rw [weigh_filter]
    exact weigh_congr fun r _ => Bool.and_true _
  unfold repaid
  omega

/-! ## What moves the account -/

/-- The children awaited are all different, so no forwarder is in the `JoinSet` twice. -/
theorem Inv.joinset_nodup {sup : Supervisor φ} {w : World φ} (h : Inv sup w)
    (hlive : w.pc.live = true) : w.joinset.Nodup := by
  have hnd : (w.joinset.map Forwarder.child ++ w.reports.map Report.child).Nodup :=
    (h.accounted hlive).nodup_iff.mpr List.nodup_range
  exact List.Nodup.of_map _ (List.nodup_append.mp hnd).1

/-- Two forwarders await two children. -/
theorem Inv.child_ne {sup : Supervisor φ} {w : World φ} (h : Inv sup w)
    (hlive : w.pc.live = true) {f g : Forwarder} (hf : f ∈ w.joinset) (hg : g ∈ w.joinset)
    (hne : f ≠ g) : f.child ≠ g.child := by
  have hnd : (w.joinset.map Forwarder.child ++ w.reports.map Report.child).Nodup :=
    (h.accounted hlive).nodup_iff.mpr List.nodup_range
  exact fun he => hne (List.inj_on_of_nodup_map (List.nodup_append.mp hnd).1 hf hg he)

/-- Escalating at a report aborts nothing that has been reported, that report included. -/
theorem abortReq_escalate {sup : Supervisor φ} {w : World φ} (hi : Inv sup w)
    (hpc : w.pc = .loopHead) {f : Forwarder} (hf : f ∈ w.joinset) {how : Ending}
    (hend : w.endingOf f.child = some how) {slot : Slot φ} (hs : w.slots[f.idx]? = some slot)
    {r : Report} (hr : r ∈ w.reports ++ [w.reportOf f how]) :
    abortReq ((taken w f how slot).pushHistory sup.spec (w.reportOf f how)).escalate r.child
      = abortReq w r.child := by
  have ht := inv_taken hi hpc hf hend hs
  have hlive : (taken w f how slot).pc.live = true := by
    show w.pc.live = true
    rw [hpc]
    rfl
  have hlt : r.child < w.tasks.length := slotOf_lt (ht.reported r hr).1
  have hreq := requestAborts_abortReq (w := (taken w f how slot).pushHistory sup.spec
    (w.reportOf f how)) ((taken w f how slot).slots.filterMap Slot.abort) hlt
  have hno : r.child ∉ (taken w f how slot).slots.filterMap Slot.abort := by
    intro hmem
    obtain ⟨i, hc⟩ := mem_handles.mp hmem
    exact ht.awaited_not_reported hlive (ht.handles hlive i _ hc).1 (List.mem_map_of_mem hr)
  rw [decide_eq_false hno, Bool.or_false] at hreq
  exact hreq

/-- What has been reported is not aborted any more: aborts go through handles. -/
theorem abortReq_reported {sup : Supervisor φ} {w w' : World φ} {e : Event} (hi : Inv sup w)
    (hs : step sup w e = some w') {r : Report} (hr : r ∈ w.reports) :
    abortReq w' r.child = abortReq w r.child := by
  have hm := step_moves hs
  cases hm with
  | spawn _ _ => rw [goto_abortReq, spawnChild_abortReq]
  | respawn _ _ => rw [goto_abortReq, spawnChild_abortReq]
  | @abort i rest slot hpc hslot =>
      have hlive : w.pc.live = true := by rw [hpc]; rfl
      have hno : r.child ∉ slot.abort.toList := by
        intro hmem
        have hc : handle w i = some r.child := by
          unfold handle
          rw [hslot]
          exact Option.mem_toList.mp hmem
        exact hi.awaited_not_reported hlive (hi.handles hlive i _ hc).1 (List.mem_map_of_mem hr)
      rw [goto_abortReq, requestAborts_abortReq (w := w.clearAbort i slot) _
        (slotOf_lt (hi.reported r hr).1), decide_eq_false hno, Bool.or_false]
      rfl
  | escalate hpc hf hend hslot _ _ =>
      exact abortReq_escalate hi hpc hf hend hslot (List.mem_append_left _ hr)
  | ends _ _ _ => rw [endTask_abortReq]
  | _ => rfl

/-- Taking a report leaves its child's abort as it was. -/
theorem abortReq_joinNext {sup : Supervisor φ} {w w' : World φ} {f : Forwarder} (hi : Inv sup w)
    (hs : step sup w (.joinNext f) = some w') :
    w.pc = .loopHead ∧ f ∈ w.joinset ∧ abortReq w' f.child = abortReq w f.child := by
  have hm := step_moves hs
  cases hm with
  | badReport hpc hf _ => exact ⟨hpc, hf, rfl⟩
  | ignore hpc hf _ _ _ => exact ⟨hpc, hf, rfl⟩
  | escalate hpc hf hend hslot _ _ =>
      exact ⟨hpc, hf, abortReq_escalate hi hpc hf hend hslot
        (List.mem_append_right _ (List.mem_singleton.mpr rfl))⟩
  | pass hpc hf _ _ _ _ => exact ⟨hpc, hf, rfl⟩
  | leave hl => cases hl

/-- A pass has each slot on its list once. -/
theorem passTodo_nodup_step {sup : Supervisor φ} {w w' : World φ} {e : Event}
    (h : (passTodo w.pc).Nodup) (hs : step sup w e = some w') : (passTodo w'.pc).Nodup := by
  have hm := step_moves hs
  cases hm with
  | spawn _ _ =>
      show (passTodo (Pc.start _ _)).Nodup
      rw [start_passTodo]
      exact List.nodup_nil
  | abort hpc _ => rw [hpc] at h; exact h
  | @respawn i rest slot hpc _ =>
      rw [hpc] at h
      show (passTodo (Pc.pass rest)).Nodup
      rw [pass_passTodo]
      exact (List.nodup_cons.mp h).2
  | badReport _ _ _ => exact List.nodup_nil
  | ignore _ _ _ _ _ => exact h
  | escalate _ _ _ _ _ _ => exact List.nodup_nil
  | pass _ _ _ _ _ _ =>
      show (passTodo (Pc.pass _)).Nodup
      rw [pass_passTodo]
      exact toRestart_nodup ..
  | leave hl => cases hl <;> exact List.nodup_nil
  | spin _ _ _ => exact h
  | ends _ _ _ => exact h
  | tick => exact h

/-- What the account rests on. -/
structure Orderly (sup : Supervisor φ) (w : World φ) : Prop where
  books : Books sup w
  todo : (passTodo w.pc).Nodup

theorem orderly_init (sup : Supervisor φ) : Orderly sup (World.init sup) where
  books := books_init sup
  todo := by
    have : passTodo (World.init sup).pc = [] := start_passTodo _ _
    rw [this]
    exact List.nodup_nil

theorem orderly_step {sup : Supervisor φ} {w w' : World φ} {e : Event} (h : Orderly sup w)
    (hs : step sup w e = some w') : Orderly sup w' :=
  ⟨books_step h.books hs, passTodo_nodup_step h.todo hs⟩

/-- Both sides of the account, less the passes that run it up. -/
def due (W : Nat → Nat) (w : World φ) : Nat := owed W w + repaid W w

/-- The answers are the same as long as nothing more is counted. -/
theorem repaid_step {sup : Supervisor φ} {w w' : World φ} {e : Event} (W : Nat → Nat)
    (h : Books sup w) (hs : step sup w e = some w') :
    weigh (fun r => W r.idx) (fun r => abortReq w' r.child) w.pushed = repaid W w := by
  refine weigh_congr fun r hr => ?_
  exact abortReq_reported h.inv hs (mem_reports_of_pushed h.ledger hr)

/-- Taking a report moves it from what is owed to what is repaid. -/
theorem owed_taken {w : World φ} (W : Nat → Nat) (hpc : w.pc = .loopHead)
    {f : Forwarder} (hf : f ∈ w.joinset) :
    owed W w = (if abortReq w f.child then W f.idx else 0)
      + weigh (fun g => W g.idx) (fun g => abortReq w g.child) (w.joinset.erase f) := by
  unfold owed
  rw [hpc, weigh_erase hf]
  rfl

/-- Starting a child owes nothing: no one has asked to abort it. -/
theorem owed_spawn (W : Nat → Nat) {w : World φ} {i : Nat} {spec : ChildSpec φ} {pc : Pc}
    (hsame : toAbort pc = toAbort w.pc) (hi : i ∉ toAbort w.pc) :
    owed W ((w.spawnChild i spec).goto pc) = owed W w := by
  have hreq : ∀ c, abortReq ((w.spawnChild i spec).goto pc) c = abortReq w c := by
    intro c
    rw [goto_abortReq, spawnChild_abortReq]
  have hnew : abortReq w w.tasks.length = false := by
    unfold abortReq
    rw [List.getElem?_eq_none (Nat.le_refl _)]
    rfl
  have hcoming : weigh W (fun j => (handle ((w.spawnChild i spec).goto pc) j).isSome) (toAbort pc)
      = weigh W (fun j => (handle w j).isSome) (toAbort w.pc) := by
    rw [hsame]
    refine weigh_congr fun j hj => ?_
    have hne : j ≠ i := fun he => hi (he ▸ hj)
    rw [goto_handle, spawnChild_handle, if_neg hne]
  unfold owed
  show weigh _ _ (w.joinset ++ [(⟨i, w.tasks.length⟩ : Forwarder)])
    + weigh W (fun j => (handle ((w.spawnChild i spec).goto pc) j).isSome) (toAbort pc) = _
  rw [hcoming, weigh_append,
    weigh_congr (q := fun f => abortReq w f.child) (fun f _ => hreq f.child)]
  simp [hreq, hnew]

/-- Aborting a slot turns an abort to come into one requested. -/
theorem owed_abort {sup : Supervisor φ} {w : World φ} (W : Nat → Nat) (h : Orderly sup w)
    {i : Nat} {rest : List Nat} (hpc : w.pc = .restarting i rest) {slot : Slot φ}
    (hs : w.slots[i]? = some slot) :
    owed W (((w.clearAbort i slot).requestAborts slot.abort.toList).goto (.respawning i rest))
      = owed W w := by
  have hlive : w.pc.live = true := by rw [hpc]; rfl
  have hnd := h.todo
  rw [hpc] at hnd
  have hslot : handle w i = slot.abort := by unfold handle; rw [hs]; rfl
  have hreq : ∀ f ∈ w.joinset,
      abortReq (((w.clearAbort i slot).requestAborts slot.abort.toList).goto (.respawning i rest))
        f.child = (abortReq w f.child || decide (f.child ∈ slot.abort.toList)) := by
    intro f hf
    exact requestAborts_abortReq (w := w.clearAbort i slot) _ (slotOf_lt (h.books.inv.awaited f hf))
  -- the slots still to come lose no handle
  have hrest : weigh W (fun j => (handle (((w.clearAbort i slot).requestAborts
        slot.abort.toList).goto (.respawning i rest)) j).isSome) rest
      = weigh W (fun j => (handle w j).isSome) rest := by
    refine weigh_congr fun j hj => ?_
    have hne : j ≠ i := fun he => (List.nodup_cons.mp hnd).1 (he ▸ hj)
    rw [goto_handle]
    exact congrArg Option.isSome ((clearAbort_handle hs j).trans (if_neg hne))
  unfold owed
  show weigh _ _ w.joinset + weigh W (fun j => (handle (((w.clearAbort i slot).requestAborts
    slot.abort.toList).goto (.respawning i rest)) j).isSome) rest = _
  rw [hrest, hpc]
  show _ = _ + ((if (handle w i).isSome then W i else 0)
    + weigh W (fun j => (handle w j).isSome) rest)
  cases hc : slot.abort with
  | none =>
      rw [hslot, hc]
      have hsame : ∀ f ∈ w.joinset, abortReq (((w.clearAbort i slot).requestAborts
          (none : Option Nat).toList).goto (.respawning i rest)) f.child = abortReq w f.child := by
        intro f hf
        have := hreq f hf
        rw [hc] at this
        simpa using this
      rw [weigh_congr hsame]
      simp
  | some c =>
      rw [hslot, hc]
      obtain ⟨hmem, hfalse⟩ := h.books.inv.handles hlive i c (hslot.trans hc)
      -- the handle was of a child that had not been asked: one more mark in the `JoinSet`
      have hmark := weigh_mark (W := fun f : Forwarder => W f.idx)
        (p := fun f => abortReq w f.child)
        (q := fun f => abortReq (((w.clearAbort i slot).requestAborts
          (some c).toList).goto (.respawning i rest)) f.child)
        (h.books.inv.joinset_nodup hlive) hmem hfalse
        (by have := hreq _ hmem; rw [hc] at this; rw [this]; simp)
        (by
          intro f hf hne
          have hreq' := hreq f hf
          rw [hc] at hreq'
          have hother : f.child ≠ c := h.books.inv.child_ne hlive hf hmem hne
          rw [hreq']
          simp [hother])
      rw [hmark]
      simp
      omega

/-- Everything a pass aborts is a struck sibling: the slot that failed holds no handle by then. -/
theorem coming_pass {sup : Supervisor φ} {w : World φ} (W : Nat → Nat) (how : Ending)
    (hi : Inv sup w) (hpc : w.pc = .loopHead) {f : Forwarder} {slot : Slot φ}
    (hs : w.slots[f.idx]? = some slot) :
    weigh W (fun j => (handle (taken w f how slot) j).isSome)
        (toRestart sup.spec.strategy (taken w f how slot).slots.length f.idx)
      = weigh W (fun j => (handle w j).isSome) (struck sup f.idx) := by
  have hlen : w.slots.length = sup.children.length := hi.size _ (by rw [hpc]; rfl)
  unfold struck
  rw [weigh_filter, taken_length, hlen]
  refine weigh_congr fun j _ => ?_
  have hclear : handle (taken w f how slot) j = if j = f.idx then none else handle w j :=
    clearAbort_handle (w := w.takeReport f (w.reportOf f how)) hs j
  rw [hclear]
  by_cases hj : j = f.idx
  · simp [hj]
  · simp [hj]

/-- The step takes the report of a child that may stay down. -/
def Ignores (w : World φ) : Event → Prop
  | .joinNext f => ∃ how, w.endingOf f.child = some how ∧ ∃ slot, w.slots[f.idx]? = some slot
      ∧ ¬ Counts how slot
  | _ => False

/--
**What one step does to the account.** A pass runs it up by the siblings it strikes
that hold a handle; a report that is not counted, and the end of the supervisor, can
only write something off; nothing else moves it.
-/
theorem due_step {sup : Supervisor φ} {w w' : World φ} {e : Event} (W : Nat → Nat)
    (h : Orderly sup w) (hs : step sup w e = some w') :
    (due W w' = due W w ∧ w'.passes = w.passes)
      ∨ (∃ f how, w.pc = .loopHead ∧ f ∈ w.joinset ∧ w'.passes = w.passes ++ [w.reportOf f how]
        ∧ due W w' = due W w + weigh W (fun j => (handle w j).isSome) (struck sup f.idx))
      ∨ (due W w' ≤ due W w ∧ w'.passes = w.passes ∧ (w'.pc.live = false ∨ Ignores w e)) := by
  have hi := h.books.inv
  have hans := repaid_step W h.books hs
  have hm := step_moves hs
  cases hm with
  | @spawn i spec hpc _ =>
      have hnil : toAbort w.pc = [] := by rw [hpc]; rfl
      refine Or.inl ⟨?_, rfl⟩
      show owed W _ + weigh _ _ w.pushed = _
      rw [hans, owed_spawn W ((start_toAbort _ _).trans hnil.symm) (by rw [hnil]; simp)]
      rfl
  | @abort i rest slot hpc hslot =>
      refine Or.inl ⟨?_, rfl⟩
      show owed W _ + weigh _ _ w.pushed = _
      rw [hans, owed_abort W h hpc hslot]
      rfl
  | @respawn i rest slot hpc _ =>
      have hrest : toAbort w.pc = rest := by rw [hpc]; rfl
      have hnd := h.todo
      rw [hpc] at hnd
      refine Or.inl ⟨?_, rfl⟩
      show owed W _ + weigh _ _ w.pushed = _
      rw [hans, owed_spawn W ((pass_toAbort _).trans hrest.symm)
        (by rw [hrest]; exact (List.nodup_cons.mp hnd).1)]
      rfl
  | @badReport f how _ hf hslot => exact (hi.no_badReport hf hslot).elim
  | @ignore f how slot hpc hf hend hslot hc =>
      refine Or.inr (Or.inr ⟨?_, rfl, Or.inr ⟨how, hend, slot, hslot, hc⟩⟩)
      have htake := owed_taken W hpc hf
      -- what is owed by the report taken is written off
      have hleft : owed W (taken w f how slot) = weigh (fun g => W g.idx)
          (fun g => abortReq w g.child) (w.joinset.erase f) := by
        unfold owed
        show _ + weigh W _ (toAbort w.pc) = _
        rw [hpc]
        rfl
      have hsame : repaid W (taken w f how slot) = repaid W w := hans
      unfold due
      omega
  | @escalate f how slot hpc hf hend hslot _ _ =>
      refine Or.inr (Or.inr ⟨?_, rfl, Or.inl rfl⟩)
      have htake := owed_taken W hpc hf
      have hone := abortReq_escalate hi hpc hf hend hslot
        (List.mem_append_right _ (List.mem_singleton.mpr rfl))
      -- the `JoinSet` is dropped with all it owes; the last report is an answer at most
      show 0 + 0 + weigh _ _ (w.pushed ++ [w.reportOf f how]) ≤ _
      rw [weigh_append, hans, weigh_cons, weigh_nil, hone]
      show 0 + 0 + (repaid W w + ((if abortReq w f.child then W f.idx else 0) + 0)) ≤ _
      unfold due
      omega
  | @pass f how slot hpc hf hend hslot _ _ =>
      refine Or.inr (Or.inl ⟨f, how, hpc, hf, rfl, ?_⟩)
      have htake := owed_taken W hpc hf
      have hcoming := coming_pass W how hi hpc hslot
      -- the report leaves the `JoinSet`, and the pass is about to strike
      have howed : owed W (((taken w f how slot).pushHistory sup.spec (w.reportOf f how)).beginPass
          sup.spec (w.reportOf f how))
          = weigh (fun g => W g.idx) (fun g => abortReq w g.child) (w.joinset.erase f)
            + weigh W (fun j => (handle w j).isSome) (struck sup f.idx) := by
        rw [← hcoming]
        unfold owed
        show _ + weigh W _ (toAbort (Pc.pass _)) = _
        rw [pass_toAbort]
        rfl
      have hanswered : repaid W (((taken w f how slot).pushHistory sup.spec
          (w.reportOf f how)).beginPass sup.spec (w.reportOf f how))
          = repaid W w + if abortReq w f.child then W f.idx else 0 := by
        show weigh _ _ (w.pushed ++ [w.reportOf f how]) = _
        rw [weigh_append, weigh_cons, weigh_nil]
        rfl
      unfold due
      omega
  | @leave e pc hl =>
      refine Or.inr (Or.inr ⟨?_, rfl, Or.inl (by cases hl <;> rfl)⟩)
      have hzero : owed W (w.finish pc) = 0 := by cases hl <;> rfl
      have hsame : repaid W (w.finish pc) = repaid W w := hans
      unfold due
      omega
  | spin _ _ _ => exact Or.inl ⟨rfl, rfl⟩
  | @ends c how _ _ _ =>
      refine Or.inl ⟨?_, rfl⟩
      have hjoin : weigh (fun f : Forwarder => W f.idx) (fun f => abortReq (w.endTask c how) f.child)
          w.joinset = weigh (fun f => W f.idx) (fun f => abortReq w f.child) w.joinset :=
        weigh_congr fun f _ => endTask_abortReq w c how f.child
      show weigh _ _ w.joinset + weigh W (fun j => (handle w j).isSome) (toAbort w.pc)
        + weigh _ _ w.pushed = _
      rw [hans, hjoin]
      rfl
  | tick => exact Or.inl ⟨rfl, rfl⟩

/-! ## The account never shows more than was struck -/

theorem strikes_snoc (W : Nat → Nat) (sup : Supervisor φ) {w w' : World φ} {r : Report}
    (h : w'.passes = w.passes ++ [r]) :
    strikes W sup w' = strikes W sup w + ((struck sup r.idx).map W).sum := by
  unfold strikes
  rw [h, List.map_append, List.sum_append, List.map_singleton, List.sum_singleton]

theorem strikes_congr {W : Nat → Nat} {sup : Supervisor φ} {w w' : World φ}
    (h : w'.passes = w.passes) : strikes W sup w' = strikes W sup w := by unfold strikes; rw [h]

theorem due_le_strikes {sup : Supervisor φ} {w : World φ} {tr : List (World φ × Event)}
    (W : Nat → Nat) (h : Run (step sup) (World.init sup) tr w) : due W w ≤ strikes W sup w := by
  refine (h.invariant (P := fun s => Orderly sup s ∧ due W s ≤ strikes W sup s) ?_ ?_).2
  · refine ⟨orderly_init sup, Nat.le_of_eq ?_⟩
    show weigh _ _ [] + weigh W _ (toAbort (Pc.start _ _)) + weigh _ _ [] = 0
    rw [start_toAbort]
    rfl
  · intro s e s' hP hs
    refine ⟨orderly_step hP.1 hs, ?_⟩
    have hle := hP.2
    rcases due_step W hP.1 hs with ⟨hdue, hpasses⟩ | ⟨f, how, _, _, hpasses, hdue⟩
        | ⟨hdue, hpasses, _⟩
    · rw [strikes_congr hpasses]
      omega
    · have hgain : weigh W (fun j => (handle s j).isSome) (struck sup f.idx)
          ≤ ((struck sup f.idx).map W).sum := by
        rw [← weigh_all]
        exact weigh_mono fun _ _ _ => ⟨rfl, Nat.le_refl _⟩
      have hsnoc := strikes_snoc W sup hpasses
      have hidx : (s.reportOf f how).idx = f.idx := rfl
      rw [hidx] at hsnoc
      omega
    · rw [strikes_congr hpasses]
      omega

/-! ## And exactly that, when every child is to be kept running -/

/-- No child is `Temporary`. -/
def NoTemporary (sup : Supervisor φ) : Prop := ∀ spec ∈ sup.children, spec.restart ≠ .temporary

/-- No child has been reported as `Normal`. -/
def NoNormal (w : World φ) : Prop := ∀ r ∈ w.reports, r.reason ≠ .normal

instance (sup : Supervisor φ) : Decidable (NoTemporary sup) :=
  inferInstanceAs (Decidable (∀ spec ∈ sup.children, _))

instance (w : World φ) : Decidable (NoNormal w) := inferInstanceAs (Decidable (∀ r ∈ w.reports, _))

/-- The only slots without a handle are those the pass at hand will fill. -/
def Manned (w : World φ) : Prop :=
  ∀ j, j < w.slots.length → handle w j = none → j ∈ passTodo w.pc

theorem reports_step {sup : Supervisor φ} {w w' : World φ} {e : Event}
    (hs : step sup w e = some w') : w.reports <+: w'.reports := by
  have hm := step_moves hs
  cases hm with
  | badReport _ _ _ => exact List.prefix_append ..
  | ignore _ _ _ _ _ => exact List.prefix_append ..
  | escalate _ _ _ _ _ _ => exact List.prefix_append ..
  | pass _ _ _ _ _ _ => exact List.prefix_append ..
  | _ => exact List.prefix_rfl

/-- A supervisor that is live was live before. -/
theorem live_step {sup : Supervisor φ} {w w' : World φ} {e : Event}
    (hs : step sup w e = some w') (h : w'.pc.live = true) : w.pc.live = true := by
  cases hlive : w.pc.live with
  | true => rfl
  | false =>
      rw [pc_step_of_over hlive hs, hlive] at h
      exact h

/-- With no `Temporary` child, a report that is ignored is of a child that returned. -/
theorem normal_of_ignores {sup : Supervisor φ} {w w' : World φ} {e : Event} (hi : Inv sup w)
    (hsup : NoTemporary sup) (hs : step sup w e = some w') (h : Ignores w e) : ¬ NoNormal w' := by
  cases e with
  | joinNext f =>
      obtain ⟨how, hend, slot, hslot, hc⟩ := h
      have hperm := hsup slot.spec (List.mem_of_getElem? (hi.spec_eq hslot))
      have hnormal : how.reason = .normal := by
        by_contra hne
        exact hc ⟨hne, hperm⟩
      have hmem : w.reportOf f how ∈ w'.reports := by
        have hm := step_moves hs
        cases hm with
        | leave hl => cases hl
        | badReport _ _ hnone => rw [hslot] at hnone; exact absurd hnone (by simp)
        | ignore _ _ hend' _ _ =>
            obtain rfl := Option.some.inj (hend.symm.trans hend')
            exact List.mem_append_right _ (List.mem_singleton.mpr rfl)
        | escalate _ _ hend' _ _ _ =>
            obtain rfl := Option.some.inj (hend.symm.trans hend')
            exact List.mem_append_right _ (List.mem_singleton.mpr rfl)
        | pass _ _ hend' _ _ _ =>
            obtain rfl := Option.some.inj (hend.symm.trans hend')
            exact List.mem_append_right _ (List.mem_singleton.mpr rfl)
      exact fun hall => hall _ hmem hnormal
  | _ => exact h.elim

/-- **Slots stay manned** for as long as every report is counted. -/
theorem manned_step {sup : Supervisor φ} {w w' : World φ} {e : Event} (hi : Inv sup w)
    (hsup : NoTemporary sup) (h : Manned w) (hs : step sup w e = some w')
    (hlive : w'.pc.live = true) (hnormal : NoNormal w') : Manned w' := by
  have hig := normal_of_ignores hi hsup hs
  have hm := step_moves hs
  intro j hj hnone
  cases hm with
  | @spawn i spec hpc _ =>
      have hlen : w.slots.length = i := hi.size i (by rw [hpc]; rfl)
      rw [goto_handle, spawnChild_handle] at hnone
      by_cases hji : j = i
      · rw [if_pos hji] at hnone; exact absurd hnone (by simp)
      · -- a slot before the new one has its handle
        rw [if_neg hji] at hnone
        have hj' : j < max w.slots.length (i + 1) := spawnChild_length w i spec ▸ hj
        have hold := h j (by omega) hnone
        rw [hpc] at hold
        exact absurd hold (by simp [passTodo])
  | @abort i rest slot hpc hslot =>
      have hclear : handle (((w.clearAbort i slot).requestAborts slot.abort.toList).goto
          (.respawning i rest)) j = if j = i then none else handle w j := clearAbort_handle hslot j
      rw [hclear] at hnone
      by_cases hji : j = i
      · rw [hji]; exact List.mem_cons_self ..
      · rw [if_neg hji] at hnone
        have hlen : (w.clearAbort i slot).slots.length = w.slots.length := List.length_set ..
        have hold := h j (hlen ▸ hj) hnone
        rw [hpc] at hold
        exact hold
  | @respawn i rest slot hpc hslot =>
      have hlt : i < w.slots.length := (List.getElem?_eq_some_iff.mp hslot).1
      rw [goto_handle, spawnChild_handle] at hnone
      by_cases hji : j = i
      · rw [if_pos hji] at hnone; exact absurd hnone (by simp)
      · rw [if_neg hji] at hnone
        have hj' : j < max w.slots.length (i + 1) := spawnChild_length w i slot.spec ▸ hj
        have hold := h j (by omega) hnone
        rw [hpc] at hold
        show j ∈ passTodo (Pc.pass rest)
        rw [pass_passTodo]
        exact (List.mem_cons.mp hold).resolve_left hji
  | badReport _ _ _ => exact Bool.noConfusion hlive
  | @ignore f how slot _ _ hend hslot hc =>
      -- an ignored report is a normal one, as no child is `Temporary`
      exact absurd hnormal (hig ⟨how, hend, slot, hslot, hc⟩)
  | escalate _ _ _ _ _ _ => exact Bool.noConfusion hlive
  | @pass f how slot hpc _ _ hslot _ _ =>
      have hclear : handle (((taken w f how slot).pushHistory sup.spec (w.reportOf f how)).beginPass
          sup.spec (w.reportOf f how)) j = if j = f.idx then none else handle w j :=
        clearAbort_handle (w := w.takeReport f (w.reportOf f how)) hslot j
      rw [hclear] at hnone
      have hidx : f.idx < w.slots.length := (List.getElem?_eq_some_iff.mp hslot).1
      by_cases hji : j = f.idx
      · show j ∈ passTodo (Pc.pass (toRestart sup.spec.strategy
          (taken w f how slot).slots.length f.idx))
        rw [pass_passTodo, taken_length, mem_toRestart hidx, hji]
        exact ⟨hidx, Restart.covers_self _ _⟩
      · rw [if_neg hji] at hnone
        have hold := h j (taken_length w f how slot ▸ hj) hnone
        rw [hpc] at hold
        exact absurd hold (by simp [passTodo])
  | leave hl => cases hl <;> exact Bool.noConfusion hlive
  | spin _ _ _ => exact h j hj hnone
  | ends _ _ _ => exact h j hj hnone
  | tick => exact h j hj hnone

theorem due_eq_strikes {sup : Supervisor φ} {w : World φ} {tr : List (World φ × Event)}
    (W : Nat → Nat) (h : Run (step sup) (World.init sup) tr w) (hsup : NoTemporary sup)
    (hlive : w.pc.live = true) (hnormal : NoNormal w) :
    Manned w ∧ due W w = strikes W sup w := by
  refine (h.invariant (P := fun s => Orderly sup s ∧ (s.pc.live = true → NoNormal s →
    Manned s ∧ due W s = strikes W sup s)) ?_ ?_).2 hlive hnormal
  · refine ⟨orderly_init sup, fun _ _ => ⟨fun j hj => absurd hj (Nat.not_lt_zero j), ?_⟩⟩
    show weigh _ _ [] + weigh W _ (toAbort (Pc.start _ _)) + weigh _ _ [] = 0
    rw [start_toAbort]
    rfl
  · intro s e s' hP hs
    refine ⟨orderly_step hP.1 hs, ?_⟩
    intro hlive' hnormal'
    obtain ⟨hman, heq⟩ := hP.2 (live_step hs hlive')
      (fun r hr => hnormal' r ((reports_step hs).subset hr))
    have hi := hP.1.books.inv
    refine ⟨manned_step hi hsup hman hs hlive' hnormal', ?_⟩
    rcases due_step W hP.1 hs with ⟨hdue, hpasses⟩ | ⟨f, how, hpc, hf, hpasses, hdue⟩
        | ⟨_, _, hout⟩
    · rw [hdue, strikes_congr hpasses, heq]
    · -- at the loop head every sibling has a handle, so the pass strikes them all
      have hfull : s.slots.length = sup.children.length := hi.size _ (by rw [hpc]; rfl)
      obtain ⟨slot, hslot⟩ := hi.slot_of_forwarder hf
      have hidx : f.idx < sup.children.length := hfull ▸ (List.getElem?_eq_some_iff.mp hslot).1
      have hgain : weigh W (fun j => (handle s j).isSome) (struck sup f.idx)
          = ((struck sup f.idx).map W).sum := by
        rw [← weigh_all]
        refine weigh_congr fun j hj => ?_
        have hlt : j < s.slots.length :=
          hfull ▸ ((mem_toRestart hidx).mp (List.mem_of_mem_filter hj)).1
        cases hh : handle s j with
        | some c => rfl
        | none =>
            have := hman j hlt hh
            rw [hpc] at this
            exact absurd this (by simp [passTodo])
      rw [hdue, hgain, heq, strikes_snoc W sup hpasses]
      rfl
    · rcases hout with hdead | hig
      · rw [hdead] at hlive'; exact Bool.noConfusion hlive'
      · exact absurd hnormal' (normal_of_ignores hi hsup hs hig)

end ErlangActors.Proof
