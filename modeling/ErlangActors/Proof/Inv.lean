import ErlangActors.Proof.Moves
import Mathlib.Data.List.Perm.Basic
import Mathlib.Data.List.Range

/-!
# The bookkeeping invariant

What ties the slots, the `JoinSet` and the children together at every point of
`run_supervisor`, whatever the strategy and in whatever order children end and
reports come back.

* `accounted` — every child ever started is either still awaited by a forwarder in
  the `JoinSet` or has been reported, and never both or twice.
* `handles` — a slot's abort handle is of a child whose forwarder is still in the
  `JoinSet`, and whose abort has not been requested.

The converse of `handles` is false: a child can be awaited, running, and in no
slot's handle. That gap is what `ErlangActors.Proof.Tracking` is about.
-/

namespace ErlangActors.Proof

open Supervision Transition

variable {φ : Type}

/-! ## Program points -/

/-- How many slots there are at a program point of a supervisor with `n` children. -/
def filled (n : Nat) : Pc → Option Nat
  | .starting i => some i
  | .loopHead => some n
  | .restarting _ _ => some n
  | .respawning _ _ => some n
  | .returned _ => some n
  | _ => none

/-- The slots whose factory the straight-line code at hand is still to call. -/
def todo : Pc → List Nat
  | .starting i => [i]
  | .restarting i rest => i :: rest
  | .respawning i rest => i :: rest
  | _ => []

theorem start_live (n i : Nat) : (Pc.start n i).live = true := by
  unfold Pc.start; split <;> rfl

theorem pass_live (l : List Nat) : (Pc.pass l).live = true := by
  cases l <;> rfl

theorem start_ne {n i : Nat} {pc : Pc} (h : pc.live = false) : Pc.start n i ≠ pc := by
  rintro rfl
  rw [start_live] at h
  exact Bool.noConfusion h

theorem pass_ne {l : List Nat} {pc : Pc} (h : pc.live = false) : Pc.pass l ≠ pc := by
  rintro rfl
  rw [pass_live] at h
  exact Bool.noConfusion h

theorem start_filled {n i : Nat} (h : i ≤ n) : filled n (Pc.start n i) = some i := by
  unfold Pc.start
  split
  · rfl
  · have : n = i := by omega
    rw [this]; rfl

theorem start_todo {n i j : Nat} (h : j ∈ todo (Pc.start n i)) : j = i ∧ i < n := by
  unfold Pc.start at h
  split at h
  · rename_i hlt
    exact ⟨List.mem_singleton.mp h, hlt⟩
  · exact absurd h (by simp [todo])

@[simp] theorem pass_filled (n : Nat) (l : List Nat) : filled n (Pc.pass l) = some n := by
  cases l <;> rfl

@[simp] theorem pass_todo (l : List Nat) : todo (Pc.pass l) = l := by
  cases l <;> rfl

theorem pass_ne_respawning {l rest : List Nat} {i : Nat} : Pc.pass l ≠ .respawning i rest := by
  cases l <;> simp [Pc.pass]

theorem start_ne_respawning {n k i : Nat} {rest : List Nat} :
    Pc.start n k ≠ .respawning i rest := by
  unfold Pc.start; split <;> simp

/-! ## The invariant -/

structure Inv (sup : Supervisor φ) (w : World φ) : Prop where
  /-- The slots hold the first registered specs, in order. -/
  specs : w.slots.map Slot.spec <+: sup.children
  /-- There are as many slots as the program point says. -/
  size : ∀ k, filled sup.children.length w.pc = some k → w.slots.length = k
  /-- Every slot still to be started or restarted exists. -/
  todoLt : ∀ j ∈ todo w.pc, j < sup.children.length
  /-- Between the abort and the factory call of a slot there is no handle. -/
  emptied : ∀ i rest, w.pc = .respawning i rest → handle w i = none
  /-- Every child is awaited or has been reported, once. -/
  accounted : w.pc.live = true →
    (w.joinset.map Forwarder.child ++ w.reports.map Report.child).Perm
      (List.range w.tasks.length)
  /-- A forwarder carries the slot its child was started for. -/
  awaited : ∀ f ∈ w.joinset, slotOf w f.child = some f.idx
  /-- A report carries the slot and the ending of its child. -/
  reported : ∀ r ∈ w.reports, slotOf w r.child = some r.idx ∧
    ∃ how, w.endingOf r.child = some how ∧ r.reason = how.reason
  /-- No child is reported twice. -/
  once : (w.reports.map Report.child).Nodup
  /-- Every child was started for a slot that is there. -/
  slotted : ∀ c i, slotOf w c = some i → i < w.slots.length
  /-- A handle is of a child of its own slot, awaited and not aborted. -/
  handles : w.pc.live = true → ∀ i c, handle w i = some c →
    { idx := i, child := c } ∈ w.joinset ∧ abortReq w c = false

theorem inv_init (sup : Supervisor φ) : Inv sup (World.init sup) where
  specs := List.nil_prefix
  size := by
    intro k hk
    rw [World.init] at hk
    dsimp only at hk
    rw [start_filled (Nat.zero_le _)] at hk
    exact Option.some.inj hk
  todoLt := by
    intro j hj
    have h := start_todo hj
    omega
  emptied := by intro i rest h; exact absurd h start_ne_respawning
  accounted := by intro _; simp [World.init]
  awaited := by intro f hf; simp [World.init] at hf
  reported := by intro r hr; simp [World.init] at hr
  once := by simp [World.init]
  slotted := by intro c i h; simp [slotOf, World.init] at h
  handles := by intro _ i c h; simp [handle, World.init] at h

/-! ## What the invariant gives -/

/-- An awaited child has not been reported. -/
theorem Inv.awaited_not_reported {sup : Supervisor φ} {w : World φ} (h : Inv sup w)
    (hlive : w.pc.live = true) {f : Forwarder} (hf : f ∈ w.joinset) :
    f.child ∉ w.reports.map Report.child := by
  have hnd : (w.joinset.map Forwarder.child ++ w.reports.map Report.child).Nodup :=
    (h.accounted hlive).nodup_iff.mpr List.nodup_range
  exact fun hr => (List.nodup_append.mp hnd).2.2 _ (List.mem_map_of_mem hf) _ hr rfl

/-- The spec in a slot is the registered one. -/
theorem Inv.spec_eq {sup : Supervisor φ} {w : World φ} (h : Inv sup w) {i : Nat} {slot : Slot φ}
    (hs : w.slots[i]? = some slot) : sup.children[i]? = some slot.spec := by
  have hmap : (w.slots.map Slot.spec)[i]? = some slot.spec := by rw [List.getElem?_map, hs]; rfl
  obtain ⟨rest, hrest⟩ := h.specs
  rw [← hrest, List.getElem?_append_left (List.getElem?_eq_some_iff.mp hmap).1]
  exact hmap

/-- The slot a forwarder names is there: `slots[idx]` cannot be out of bounds. -/
theorem Inv.slot_of_forwarder {sup : Supervisor φ} {w : World φ} (h : Inv sup w) {f : Forwarder}
    (hf : f ∈ w.joinset) : ∃ slot, w.slots[f.idx]? = some slot :=
  ⟨_, List.getElem?_eq_getElem (h.slotted f.child f.idx (h.awaited f hf))⟩

/-- The slot a pass is at is there too. -/
theorem Inv.slot_of_todo {sup : Supervisor φ} {w : World φ} (h : Inv sup w) {i : Nat}
    (hfill : filled sup.children.length w.pc = some sup.children.length) (hi : i ∈ todo w.pc) :
    ∃ slot, w.slots[i]? = some slot := by
  have hlt : i < w.slots.length := by rw [h.size _ hfill]; exact h.todoLt i hi
  exact ⟨_, List.getElem?_eq_getElem hlt⟩

/-- So no report is of a slot that is not there, -/
theorem Inv.no_badReport {sup : Supervisor φ} {w : World φ} (h : Inv sup w) {f : Forwarder}
    (hf : f ∈ w.joinset) (hnone : w.slots[f.idx]? = none) : False := by
  obtain ⟨slot, hs⟩ := h.slot_of_forwarder hf
  rw [hnone] at hs
  exact absurd hs (by simp)

/-- and no pass is at one. -/
theorem Inv.no_badIndex {sup : Supervisor φ} {w : World φ} (h : Inv sup w) {i : Nat}
    {rest : List Nat} (hpc : w.pc = .restarting i rest ∨ w.pc = .respawning i rest)
    (hnone : w.slots[i]? = none) : False := by
  have hslot : ∃ slot, w.slots[i]? = some slot := by
    rcases hpc with hpc | hpc
    · exact h.slot_of_todo (by rw [hpc]; rfl) (by rw [hpc]; exact List.mem_cons_self ..)
    · exact h.slot_of_todo (by rw [hpc]; rfl) (by rw [hpc]; exact List.mem_cons_self ..)
  obtain ⟨slot, hs⟩ := hslot
  rw [hnone] at hs
  exact absurd hs (by simp)

/-! ## Preservation -/

/-- A prefix grows by the element that comes next. -/
theorem specs_snoc {l m : List (ChildSpec φ)} {spec : ChildSpec φ} (h : l <+: m)
    (hnext : m[l.length]? = some spec) : l ++ [spec] <+: m := by
  obtain ⟨rest, hrest⟩ := h
  subst hrest
  rw [List.getElem?_append_right (Nat.le_refl _), Nat.sub_self] at hnext
  cases rest with
  | nil => exact absurd hnext (by simp)
  | cons x rest =>
      obtain rfl : x = spec := by simpa using hnext
      exact ⟨rest, by simp⟩

/-- Starting a child: the new task is awaited, and its slot's handle is the only one that moves. -/
theorem inv_spawn {sup : Supervisor φ} {w : World φ} (h : Inv sup w) (hlive : w.pc.live = true)
    {i : Nat} {spec : ChildSpec φ} {pc : Pc} (hi : i ≤ w.slots.length)
    (hspecs : (w.spawnChild i spec).slots.map Slot.spec <+: sup.children)
    (hsize : ∀ k, filled sup.children.length pc = some k → max w.slots.length (i + 1) = k)
    (htodo : ∀ j ∈ todo pc, j < sup.children.length)
    (hpc : ∀ j rest, pc ≠ .respawning j rest) :
    Inv sup ((w.spawnChild i spec).goto pc) where
  specs := hspecs
  size := by
    intro k hk
    exact (spawnChild_length w i spec).trans (hsize k hk)
  todoLt := htodo
  emptied := by intro j rest hj; exact absurd hj (hpc j rest)
  accounted := by
    intro _
    -- the new task is the next number, and it is in the `JoinSet`
    have hacc := h.accounted hlive
    show List.Perm
      ((w.joinset ++ [(⟨i, w.tasks.length⟩ : Forwarder)]).map Forwarder.child
        ++ w.reports.map Report.child)
      (List.range (w.tasks ++ [(⟨i, none, false⟩ : Task)]).length)
    rw [List.length_append, List.length_singleton, List.range_succ, List.map_append,
      List.append_assoc]
    refine List.Perm.trans ?_ (hacc.append_right [w.tasks.length])
    rw [List.append_assoc]
    exact List.Perm.append_left _ List.perm_append_comm
  awaited := by
    intro f hf
    rw [goto_slotOf, spawnChild_slotOf]
    rcases List.mem_append.mp hf with hf' | hf'
    · have hold := h.awaited f hf'
      rw [if_neg (Nat.ne_of_lt (slotOf_lt hold))]
      exact hold
    · rw [List.mem_singleton.mp hf', if_pos rfl]
  reported := by
    intro r hr
    obtain ⟨hslot, how, hend, hreason⟩ := h.reported r hr
    rw [goto_slotOf, spawnChild_slotOf,
      if_neg (Nat.ne_of_lt (slotOf_lt hslot))]
    refine ⟨hslot, how, ?_, hreason⟩
    rw [goto_endingOf, spawnChild_endingOf]
    exact hend
  once := h.once
  slotted := by
    intro c j hc
    rw [goto_slotOf, spawnChild_slotOf] at hc
    show j < (w.spawnChild i spec).slots.length
    rw [spawnChild_length]
    -- the new task's slot is the one filled; `max` covers a slot filled anew
    by_cases hnew : c = w.tasks.length
    · rw [if_pos hnew] at hc
      have := Option.some.inj hc
      omega
    · rw [if_neg hnew] at hc
      have := h.slotted c j hc
      omega
  handles := by
    intro _ j c hc
    rw [goto_handle, spawnChild_handle] at hc
    rw [goto_abortReq, spawnChild_abortReq]
    by_cases hj : j = i
    · rw [if_pos hj] at hc
      obtain rfl := Option.some.inj hc
      subst hj
      refine ⟨List.mem_append_right _ (List.mem_singleton.mpr rfl), ?_⟩
      unfold abortReq
      rw [List.getElem?_eq_none (Nat.le_refl _)]
      rfl
    · rw [if_neg hj] at hc
      obtain ⟨hmem, hreq⟩ := h.handles hlive j c hc
      exact ⟨List.mem_append_left _ hmem, hreq⟩

/-- The abort half of a slot's turn in a pass. -/
theorem inv_abort {sup : Supervisor φ} {w : World φ} (h : Inv sup w) {i : Nat} {rest : List Nat}
    (hpc : w.pc = .restarting i rest) {slot : Slot φ} (hs : w.slots[i]? = some slot) :
    Inv sup (((w.clearAbort i slot).requestAborts slot.abort.toList).goto
      (.respawning i rest)) := by
  have hlive : w.pc.live = true := by rw [hpc]; rfl
  have hslot : ∀ c, slotOf ((w.clearAbort i slot).requestAborts slot.abort.toList) c
      = slotOf w c :=
    fun c => requestAborts_slotOf (w.clearAbort i slot) _ c
  have hending : ∀ c, ((w.clearAbort i slot).requestAborts slot.abort.toList).endingOf c
      = w.endingOf c :=
    fun c => requestAborts_endingOf (w.clearAbort i slot) _ c
  have hhandle : ∀ j, handle ((w.clearAbort i slot).requestAborts slot.abort.toList) j
      = if j = i then none else handle w j :=
    fun j => clearAbort_handle hs j
  have hlen : (w.clearAbort i slot).slots.length = w.slots.length := List.length_set ..
  exact {
    specs := (clearAbort_specs hs).symm ▸ h.specs
    size := by
      intro k hk
      exact hlen.trans (h.size k (by rw [hpc]; exact hk))
    todoLt := by
      intro j hj
      exact h.todoLt j (by rw [hpc]; exact hj)
    emptied := by
      intro j rest' hj
      obtain ⟨rfl, _⟩ := Pc.respawning.inj hj
      rw [goto_handle, hhandle, if_pos rfl]
    accounted := by
      intro _
      show List.Perm _ (List.range (abortTasks w.tasks slot.abort.toList).length)
      rw [abortTasks_length]
      exact h.accounted hlive
    awaited := by
      intro f hf
      rw [goto_slotOf, hslot]
      exact h.awaited f hf
    reported := by
      intro r hr
      rw [goto_slotOf, goto_endingOf, hslot, hending]
      exact h.reported r hr
    once := h.once
    slotted := by
      intro c j hc
      rw [goto_slotOf, hslot] at hc
      exact Nat.lt_of_lt_of_eq (h.slotted c j hc) hlen.symm
    handles := by
      intro _ j c hc
      rw [goto_handle, hhandle] at hc
      by_cases hj : j = i
      · rw [if_pos hj] at hc; exact absurd hc (by simp)
      · rw [if_neg hj] at hc
        obtain ⟨hmem, hreq⟩ := h.handles hlive j c hc
        refine ⟨hmem, ?_⟩
        have hlt : c < w.tasks.length := slotOf_lt (h.awaited _ hmem)
        have hreq' : abortReq (w.clearAbort i slot) c = false := hreq
        rw [goto_abortReq, requestAborts_abortReq (w := w.clearAbort i slot) _ hlt, hreq']
        -- the aborted child belongs to slot `i`, and `c` to slot `j`
        have hother : c ∉ slot.abort.toList := by
          intro hmem'
          have hi : handle w i = some c := by
            unfold handle; rw [hs]; exact Option.mem_toList.mp hmem'
          have h1 := h.awaited _ hmem
          have h2 := h.awaited _ (h.handles hlive i c hi).1
          dsimp only at h1 h2
          rw [h1] at h2
          exact hj (Option.some.inj h2)
        simp [hother] }

/-- Taking a report and clearing its slot's handle. -/
theorem inv_taken {sup : Supervisor φ} {w : World φ} (h : Inv sup w) (hpc : w.pc = .loopHead)
    {f : Forwarder} (hf : f ∈ w.joinset) {how : Ending} (hend : w.endingOf f.child = some how)
    {slot : Slot φ} (hs : w.slots[f.idx]? = some slot) : Inv sup (taken w f how slot) := by
  have hlive : w.pc.live = true := by rw [hpc]; rfl
  have hlen := taken_length w f how slot
  have hhandle : ∀ j, handle (taken w f how slot) j = if j = f.idx then none else handle w j :=
    fun j => clearAbort_handle (w := w.takeReport f (w.reportOf f how)) hs j
  exact {
    specs := (clearAbort_specs (w := w.takeReport f (w.reportOf f how)) hs).symm ▸ h.specs
    size := by
      intro k hk
      exact hlen.trans (h.size k hk)
    todoLt := h.todoLt
    emptied := by
      intro i rest hi
      have : w.pc = .respawning i rest := hi
      rw [hpc] at this
      exact Pc.noConfusion this
    accounted := by
      intro _
      refine List.Perm.trans ?_ (h.accounted hlive)
      show List.Perm ((w.joinset.erase f).map Forwarder.child
        ++ (w.reports ++ [w.reportOf f how]).map Report.child) _
      -- one entry goes from the `JoinSet` to the reports
      have herase := (List.perm_cons_erase hf).map Forwarder.child
      refine List.Perm.trans ?_ (herase.symm.append_right _)
      simp only [List.map_append, List.map_cons, List.map_nil, ← List.append_assoc]
      exact List.perm_append_comm
    awaited := by
      intro g hg
      exact h.awaited g (List.mem_of_mem_erase hg)
    reported := by
      intro r hr
      rcases List.mem_append.mp hr with hr' | hr'
      · exact h.reported r hr'
      · rw [List.mem_singleton.mp hr']
        exact ⟨h.awaited f hf, how, hend, rfl⟩
    once := by
      show ((w.reports ++ [w.reportOf f how]).map Report.child).Nodup
      rw [List.map_append, List.nodup_append]
      refine ⟨h.once, by simp, ?_⟩
      intro c hc d hd he
      have hd' : d = f.child := List.mem_singleton.mp hd
      exact h.awaited_not_reported hlive hf (hd' ▸ he ▸ hc)
    slotted := by
      intro c j hc
      exact Nat.lt_of_lt_of_eq (h.slotted c j hc) hlen.symm
    handles := by
      intro _ j c hc
      rw [hhandle] at hc
      by_cases hj : j = f.idx
      · rw [if_pos hj] at hc; exact absurd hc (by simp)
      · rw [if_neg hj] at hc
        obtain ⟨hmem, hreq⟩ := h.handles hlive j c hc
        refine ⟨(List.mem_erase_of_ne ?_).mpr hmem, hreq⟩
        intro he
        -- another slot's handle is of another child
        exact hj (congrArg Forwarder.idx he) }

/-- The history, the ghosts and the clock are no part of the invariant. -/
theorem inv_of_eq {sup : Supervisor φ} {w w' : World φ} (h : Inv sup w)
    (hslots : w'.slots = w.slots) (htasks : w'.tasks = w.tasks) (hjoin : w'.joinset = w.joinset)
    (hrep : w'.reports = w.reports) (hlive : w'.pc.live = true → w.pc.live = true)
    (hsize : ∀ k, filled sup.children.length w'.pc = some k → w.slots.length = k)
    (htodo : ∀ j ∈ todo w'.pc, j < sup.children.length)
    (hpc : ∀ i rest, w'.pc = .respawning i rest → w.pc = .respawning i rest) : Inv sup w' where
  specs := hslots ▸ h.specs
  size := by intro k hk; rw [hslots]; exact hsize k hk
  todoLt := htodo
  emptied := by intro i rest hi; rw [handle_congr hslots]; exact h.emptied i rest (hpc i rest hi)
  accounted := by intro hl; rw [hjoin, hrep, htasks]; exact h.accounted (hlive hl)
  awaited := by intro f hf; rw [slotOf_congr htasks]; exact h.awaited f (hjoin ▸ hf)
  reported := by
    intro r hr
    rw [slotOf_congr htasks, endingOf_congr htasks]
    exact h.reported r (hrep ▸ hr)
  once := hrep ▸ h.once
  slotted := by intro c i hc; rw [slotOf_congr htasks] at hc; rw [hslots]; exact h.slotted c i hc
  handles := by
    intro hl i c hc
    rw [handle_congr hslots] at hc
    rw [hjoin, abortReq_congr htasks]
    exact h.handles (hlive hl) i c hc

/-- A supervisor whose task is over keeps what it recorded. -/
theorem inv_finish {sup : Supervisor φ} {w : World φ} (h : Inv sup w) {pc : Pc}
    (hpc : pc.live = false)
    (hsize : ∀ k, filled sup.children.length pc = some k → w.slots.length = k) :
    Inv sup (w.finish pc) where
  specs := h.specs
  size := hsize
  todoLt := by
    intro j hj
    rw [World.finish] at hj
    cases pc <;> simp [todo, Pc.live] at hj hpc
  emptied := by
    intro i rest hi
    have hi' : pc = .respawning i rest := hi
    rw [hi'] at hpc
    exact Bool.noConfusion hpc
  accounted := by intro hl; exact absurd (hpc.symm.trans hl) (by simp)
  awaited := by intro f hf; exact absurd hf (by simp [World.finish])
  reported := h.reported
  once := h.once
  slotted := h.slotted
  handles := by intro hl; exact absurd (hpc.symm.trans hl) (by simp)

/-- Escalation aborts through every slot's handle and leaves none. -/
theorem inv_escalate {sup : Supervisor φ} {w : World φ} (h : Inv sup w)
    (hfull : w.slots.length = sup.children.length) : Inv sup w.escalate := by
  have hslot : ∀ c, slotOf w.escalate c = slotOf w c := fun c => requestAborts_slotOf w _ c
  have hending : ∀ c, w.escalate.endingOf c = w.endingOf c :=
    fun c => requestAborts_endingOf w _ c
  have hlen : w.escalate.slots.length = w.slots.length := by
    unfold World.escalate World.finish World.requestAborts; simp
  exact {
    specs := by rw [escalate_specs]; exact h.specs
    size := by intro k hk; rw [hlen]; exact (hfull.trans (Option.some.inj hk))
    todoLt := by intro j hj; exact absurd hj (by simp [World.escalate, World.finish, todo])
    emptied := by intro i rest hi; exact Pc.noConfusion hi
    accounted := by intro hl; exact absurd hl (by simp [World.escalate, World.finish, Pc.live])
    awaited := by intro f hf; exact absurd hf (by simp [World.escalate, World.finish])
    reported := by intro r hr; rw [hslot, hending]; exact h.reported r hr
    once := h.once
    slotted := by intro c i hc; rw [hslot] at hc; rw [hlen]; exact h.slotted c i hc
    handles := by intro hl; exact absurd hl (by simp [World.escalate, World.finish, Pc.live]) }

/-- A child ending touches nothing the supervisor holds. -/
theorem inv_ends {sup : Supervisor φ} {w : World φ} (h : Inv sup w) {c : Nat} {how : Ending}
    (hlt : c < w.tasks.length) (hrun : w.endingOf c = none) : Inv sup (w.endTask c how) where
  specs := h.specs
  size := h.size
  todoLt := h.todoLt
  emptied := h.emptied
  accounted := by
    intro hl
    show List.Perm _ (List.range (w.tasks.modify c _).length)
    rw [List.length_modify]
    exact h.accounted hl
  awaited := by intro f hf; rw [endTask_slotOf]; exact h.awaited f hf
  reported := by
    intro r hr
    obtain ⟨hslot, how', hend, hreason⟩ := h.reported r hr
    rw [endTask_slotOf, endTask_endingOf hlt]
    by_cases hc : r.child = c
    · rw [hc, hrun] at hend; exact absurd hend (by simp)
    · rw [if_neg hc]; exact ⟨hslot, how', hend, hreason⟩
  once := h.once
  slotted := by intro d i hd; rw [endTask_slotOf] at hd; exact h.slotted d i hd
  handles := by
    intro hl i d hd
    rw [endTask_abortReq]
    exact h.handles hl i d hd

/-- **The invariant is preserved by every step.** -/
theorem inv_step {sup : Supervisor φ} {w w' : World φ} {e : Event} (h : Inv sup w)
    (hs : step sup w e = some w') : Inv sup w' := by
  have hm := step_moves hs
  cases hm with
  | @spawn i spec hpc hspec =>
      -- the slots are filled in order
      have hlen : w.slots.length = i := h.size i (by rw [hpc]; rfl)
      have hlt : i < sup.children.length := (List.getElem?_eq_some_iff.mp hspec).1
      refine inv_spawn h (by rw [hpc]; rfl) (Nat.le_of_eq hlen.symm) ?_ ?_ ?_ ?_
      · subst hlen
        rw [spawnChild_specs_append]
        exact specs_snoc h.specs (by rw [List.length_map]; exact hspec)
      · intro k hk
        rw [start_filled hlt] at hk
        have := Option.some.inj hk
        omega
      · intro j hj
        have := start_todo hj
        omega
      · intro j rest; exact start_ne_respawning
  | @abort i rest slot hpc hslot => exact inv_abort h hpc hslot
  | @respawn i rest slot hpc hslot =>
      have hlt : i < w.slots.length := (List.getElem?_eq_some_iff.mp hslot).1
      have hlen : w.slots.length = sup.children.length := h.size _ (by rw [hpc]; rfl)
      refine inv_spawn h (by rw [hpc]; rfl) (Nat.le_of_lt hlt) ?_ ?_ ?_ ?_
      · rw [spawnChild_specs_same hslot]; exact h.specs
      · intro k hk
        rw [pass_filled] at hk
        have := Option.some.inj hk
        omega
      · intro j hj
        rw [pass_todo] at hj
        exact h.todoLt j (by rw [hpc]; exact List.mem_cons_of_mem _ hj)
      · intro j rest'; exact pass_ne_respawning
  | @badReport f how hpc hf hslot =>
      exact (h.no_badReport hf hslot).elim
  | @ignore f how slot hpc hf hend hslot hc => exact inv_taken h hpc hf hend hslot
  | @escalate f how slot hpc hf hend hslot hc hx =>
      have ht := inv_taken h hpc hf hend hslot
      refine inv_escalate (inv_of_eq ht rfl rfl rfl rfl id ht.size ht.todoLt (fun _ _ => id)) ?_
      exact ht.size _ (by show filled _ w.pc = _; rw [hpc]; rfl)
  | @pass f how slot hpc hf hend hslot hc hx =>
      have ht := inv_taken h hpc hf hend hslot
      have hlen : (taken w f how slot).slots.length = sup.children.length :=
        ht.size _ (by show filled _ w.pc = _; rw [hpc]; rfl)
      refine inv_of_eq ht rfl rfl rfl rfl ?_ ?_ ?_ ?_
      · intro _; show w.pc.live = true; rw [hpc]; rfl
      · intro k hk
        have := Option.some.inj ((pass_filled _ _).symm.trans hk)
        omega
      · intro j hj
        have hj' := (pass_todo _).symm ▸ hj
        have hidx : f.idx < (taken w f how slot).slots.length :=
          hlen ▸ h.size _ (by rw [hpc]; rfl) ▸ (List.getElem?_eq_some_iff.mp hslot).1
        exact hlen ▸ ((mem_toRestart hidx).mp hj').1
      · intro i rest hi; exact absurd hi pass_ne_respawning
  | leave hl =>
      refine inv_finish h (by cases hl <;> rfl) ?_
      intro k hk
      cases hl with
      | forwarder hpc _ _ => exact h.size k (by rw [hpc]; exact hk)
      | stopped hpc _ _ => exact h.size k (by rw [hpc]; exact hk)
      | _ => exact absurd hk (by simp [filled])
  | spin _ _ _ => exact h
  | @ends c how hlt hrun _ => exact inv_ends h hlt hrun
  | tick => exact inv_of_eq h rfl rfl rfl rfl id h.size h.todoLt (fun _ _ => id)

theorem inv_reachable {sup : Supervisor φ} {w : World φ} {tr : List (World φ × Event)}
    (h : Run (step sup) (World.init sup) tr w) : Inv sup w :=
  h.invariant (inv_init sup) (fun _ _ _ hi hs => inv_step hi hs)

/-! ## A supervisor to run

Two workers, the second started after the first; the runs the theorems are tried on
all start here.
-/

def twoWorkers (strategy : Restart) (maxRestarts : UInt32) (second : RestartPolicy) :
    Supervisor Unit :=
  let spec : SupervisorSpec := ⟨"sup", strategy, maxRestarts, 10⟩
  ((Supervisor.new spec).child ⟨"first", .permanent, ()⟩).child ⟨"second", second, ()⟩

/-- The trace a supervisor leaves on the given events. -/
def traceOn (sup : Supervisor φ) (es : List Event) : List (World φ × Event) :=
  traceOf (step sup) (World.init sup) es

/-- Where the given events take a supervisor. -/
def stateOn (sup : Supervisor φ) (es : List Event) : World φ :=
  after (step sup) (World.init sup) es

theorem runOn (sup : Supervisor φ) (es : List Event)
    (h : (exec (step sup) (World.init sup) es).isSome = true) :
    Run (step sup) (World.init sup) (traceOn sup es) (stateOn sup es) := Run.after h

/-- Both children started. -/
def started : List Event := [.advance, .advance]

/-- The first child panics, `OneForOne` restarts it, and then the second returns. -/
def oneStopped : List Event :=
  started ++ [.childEnds 0 .panicked, .joinNext ⟨0, 0⟩, .advance, .advance, .childEnds 1 .returned,
    .joinNext ⟨1, 1⟩]

/-- And then the first, the one that took the place of the one that panicked. -/
def bothStopped : List Event := oneStopped ++ [.childEnds 2 .returned, .joinNext ⟨0, 2⟩, .joinNone]

/-- The first child panics; `RestForOne` or `OneForAll` then aborts the second and restarts both. -/
def firstPanics : List Event :=
  started ++ [.childEnds 0 .panicked, .joinNext ⟨0, 0⟩, .advance, .advance, .advance, .advance]

/-- And then the aborted child's report comes back, and starts a pass of its own. -/
def lateReport : List Event :=
  firstPanics ++ [.childEnds 1 .abortedBySupervisor, .joinNext ⟨1, 1⟩, .advance, .advance]

end ErlangActors.Proof
