import ErlangActors.Proof.Window

/-!
# `OneForOne` isolates its children

Under `OneForOne` a pass consists of the slot that reported and nothing else, and its
handle has just been cleared: there is nothing to abort. So what a slot is at — whether
it holds a handle, and how often it has been started — is a function of what that slot
itself has reported. All children share one `JoinSet`, one vector of slots and one
history, but as long as the history does not run over, the order in which different
children's reports come in shows nowhere.
-/

namespace ErlangActors.Proof

open Supervision Transition

variable {φ : Type}

/-- What slot `j` has reported, in order. -/
def slotReasons (w : World φ) (j : Nat) : List ExitReason :=
  (w.reports.filter fun r => r.idx == j).map Report.reason

/-- Which incarnation of slot `j` child `c` is: how often the slot was started before it. -/
def incarnation (w : World φ) (j c : Nat) : Nat :=
  (w.tasks.take c).countP fun t => t.slot == j

/-- Child `c` is an incarnation of slot `j` that has not been reported. -/
def Outstanding (w : World φ) (j c : Nat) : Prop :=
  slotOf w c = some j ∧ c ∉ w.reports.map Report.child

/-- All that has been reported has been dealt with, and the supervisor has not escalated. -/
def AtRest (w : World φ) : Prop :=
  (w.pc = .loopHead ∨ ∃ path, w.pc = .returned path) ∧ ¬ Escalated w

/-! ## The invariant -/

structure Solo (w : World φ) : Prop where
  noAbort : ∀ c, abortReq w c = false
  /-- A slot's handle is of its one outstanding incarnation. -/
  outstanding : ∀ j c, Outstanding w j c ↔ handle w j = some c
  /-- Every other incarnation of it has been reported. -/
  counted : ∀ j, factoryCalls w j = (slotReasons w j).length + (handle w j).toList.length
  /-- The outstanding incarnation is the last one. -/
  newest : ∀ j c, handle w j = some c → incarnation w j c + 1 = factoryCalls w j
  /-- A pass is at a slot with no handle, and at no other. -/
  restarts : ∀ i rest, w.pc = .restarting i rest → handle w i = none ∧ rest = []
  respawns : ∀ i rest, w.pc = .respawning i rest → rest = []

theorem solo_init (sup : Supervisor φ) : Solo (World.init sup) where
  noAbort := fun _ => rfl
  outstanding := fun _ _ => ⟨fun h => absurd h.1 (by simp [slotOf, World.init]),
    fun h => absurd h (by simp [handle, World.init])⟩
  counted := fun _ => rfl
  newest := fun _ _ h => absurd h (by simp [handle, World.init])
  restarts := by
    intro i rest h
    unfold World.init Pc.start at h
    dsimp only at h
    split at h
    · exact Pc.noConfusion h
    · exact Pc.noConfusion h
  respawns := fun _ _ h => absurd h start_ne_respawning

theorem incarnation_of_slots {w w' : World φ}
    (h : w'.tasks.map Task.slot = w.tasks.map Task.slot) (j c : Nat) :
    incarnation w' j c = incarnation w j c := by
  have hmap : ∀ ts : List Task, (ts.take c).countP (fun t => t.slot == j)
      = ((ts.map Task.slot).take c).countP (fun i => i == j) := fun ts => by
    rw [← List.map_take, List.countP_map]; rfl
  unfold incarnation
  rw [hmap, hmap, h]

/-- A step that takes no report and starts nothing keeps what the slots are at. -/
theorem solo_frame {w w' : World φ} (h : Solo w)
    (hslots : w'.tasks.map Task.slot = w.tasks.map Task.slot)
    (hreq : ∀ c, abortReq w' c = abortReq w c) (hof : ∀ c, slotOf w' c = slotOf w c)
    (hrep : w'.reports = w.reports) (hhandle : ∀ j, handle w' j = handle w j)
    (hrest : ∀ i rest, w'.pc = .restarting i rest → handle w i = none ∧ rest = [])
    (hresp : ∀ i rest, w'.pc = .respawning i rest → rest = []) : Solo w' where
  noAbort := fun c => (hreq c).trans (h.noAbort c)
  outstanding := by
    intro j c
    unfold Outstanding
    rw [hof, hrep, hhandle]
    exact h.outstanding j c
  counted := by
    intro j
    unfold slotReasons
    rw [factoryCalls_of_slots hslots, hrep, hhandle]
    exact h.counted j
  newest := by
    intro j c hc
    rw [factoryCalls_of_slots hslots, incarnation_of_slots hslots]
    exact h.newest j c (hhandle j ▸ hc)
  restarts := by
    intro i rest hpc
    rw [hhandle]
    exact hrest i rest hpc
  respawns := hresp

/-- Starting a slot that holds no handle. -/
theorem solo_spawn {sup : Supervisor φ} {w : World φ} (hi : Inv sup w) (h : Solo w) {i : Nat}
    {spec : ChildSpec φ} {pc : Pc} (hnone : handle w i = none)
    (hpc : ∀ j rest, pc ≠ .restarting j rest ∧ pc ≠ .respawning j rest) :
    Solo ((w.spawnChild i spec).goto pc) := by
  -- the new task has not reported
  have hnew : w.tasks.length ∉ w.reports.map Report.child := by
    intro hmem
    obtain ⟨r, hr, hrc⟩ := List.mem_map.mp hmem
    have := slotOf_lt (hi.reported r hr).1
    omega
  have hlt : ∀ {j c : Nat}, handle w j = some c → c < w.tasks.length :=
    fun hc => slotOf_lt ((h.outstanding _ _).mpr hc).1
  exact {
    noAbort := by
      intro c
      rw [goto_abortReq, spawnChild_abortReq]
      exact h.noAbort c
    outstanding := by
      intro j c
      have hiff : Outstanding ((w.spawnChild i spec).goto pc) j c
          ↔ (if c = w.tasks.length then some i else slotOf w c) = some j
            ∧ c ∉ w.reports.map Report.child := by
        unfold Outstanding
        rw [goto_slotOf, spawnChild_slotOf]
        rfl
      rw [hiff, goto_handle, spawnChild_handle]
      by_cases hc : c = w.tasks.length
      · subst hc
        rw [if_pos rfl]
        by_cases hj : j = i
        · subst hj
          rw [if_pos rfl]
          exact ⟨fun _ => rfl, fun _ => ⟨rfl, hnew⟩⟩
        · rw [if_neg hj]
          refine ⟨fun ⟨he, _⟩ => absurd (Option.some.inj he).symm hj, fun he => ?_⟩
          exact absurd (hlt he) (Nat.lt_irrefl _)
      · rw [if_neg hc]
        by_cases hj : j = i
        · subst hj
          rw [if_pos rfl]
          refine ⟨fun ho => ?_, fun he => absurd (Option.some.inj he).symm hc⟩
          have := (h.outstanding j c).mp ho
          rw [hnone] at this
          exact absurd this (by simp)
        · rw [if_neg hj]
          exact h.outstanding j c
    counted := by
      intro j
      have hreasons : slotReasons ((w.spawnChild i spec).goto pc) j = slotReasons w j := rfl
      rw [factoryCalls_spawn, goto_handle, spawnChild_handle, hreasons, h.counted j]
      by_cases hj : j = i
      · subst hj
        rw [if_pos rfl, if_pos rfl, hnone]
        rfl
      · rw [if_neg (fun he => hj he.symm), if_neg hj]
        rfl
    newest := by
      intro j c hc
      rw [goto_handle, spawnChild_handle] at hc
      rw [factoryCalls_spawn]
      -- only the tasks before one count for its incarnation
      have htake : incarnation ((w.spawnChild i spec).goto pc) j c
          = ((w.tasks ++ [(⟨i, none, false⟩ : Task)]).take c).countP (fun t => t.slot == j) := rfl
      rw [htake]
      by_cases hj : j = i
      · subst hj
        rw [if_pos rfl] at hc
        obtain rfl := Option.some.inj hc
        rw [List.take_left' rfl, if_pos rfl]
        rfl
      · rw [if_neg hj] at hc
        rw [List.take_append_of_le_length (Nat.le_of_lt (hlt hc)),
          if_neg (fun he => hj he.symm)]
        exact h.newest j c hc
    restarts := by
      intro j rest hj
      exact absurd hj (hpc j rest).1
    respawns := by
      intro j rest hj
      exact absurd hj (hpc j rest).2 }

/-- Taking a report: its child was the outstanding one of its slot. -/
theorem solo_report {sup : Supervisor φ} {w w' : World φ} (hi : Inv sup w) (h : Solo w)
    (hlive : w.pc.live = true) {f : Forwarder} (hf : f ∈ w.joinset) {how : Ending}
    (htasks : w'.tasks = w.tasks) (hrep : w'.reports = w.reports ++ [w.reportOf f how])
    (hhandle : ∀ j, handle w' j = if j = f.idx then none else handle w j)
    (hrest : ∀ i rest, w'.pc = .restarting i rest → i = f.idx ∧ rest = [])
    (hresp : ∀ i rest, w'.pc = .respawning i rest → rest = []) : Solo w' := by
  -- the child that reports is the one its slot holds, as it has not reported before
  have hown : handle w f.idx = some f.child :=
    (h.outstanding f.idx f.child).mp ⟨hi.awaited f hf, hi.awaited_not_reported hlive hf⟩
  have hslots : w'.tasks.map Task.slot = w.tasks.map Task.slot := by rw [htasks]
  exact {
    noAbort := by
      intro c
      rw [abortReq_congr htasks]
      exact h.noAbort c
    outstanding := by
      intro j c
      have hiff : Outstanding w' j c ↔ Outstanding w j c ∧ c ≠ f.child := by
        unfold Outstanding
        rw [slotOf_congr htasks, hrep, List.map_append, List.mem_append, not_or, and_assoc]
        simp [World.reportOf]
      rw [hiff, h.outstanding, hhandle]
      by_cases hj : j = f.idx
      · subst hj
        rw [if_pos rfl, hown]
        refine ⟨fun hc => absurd (Option.some.inj hc.1).symm hc.2, fun he => ?_⟩
        exact absurd he (by simp)
      · rw [if_neg hj]
        refine ⟨fun hc => hc.1, fun hc => ⟨hc, ?_⟩⟩
        rintro rfl
        have hslot := ((h.outstanding j f.child).mpr hc).1
        rw [hi.awaited f hf] at hslot
        exact hj (Option.some.inj hslot).symm
    counted := by
      intro j
      have hreasons : slotReasons w' j
          = slotReasons w j ++ if f.idx = j then [how.reason] else [] := by
        unfold slotReasons
        rw [hrep, List.filter_append, List.map_append]
        congr 1
        by_cases hj : f.idx = j
        · have hmine : ((w.reportOf f how).idx == j) = true := beq_iff_eq.mpr hj
          rw [if_pos hj, List.filter_cons, if_pos hmine]
          rfl
        · have hother : ¬ ((w.reportOf f how).idx == j) = true := fun he => hj (eq_of_beq he)
          rw [if_neg hj, List.filter_cons, if_neg hother]
          rfl
      rw [factoryCalls_of_slots hslots, hhandle, hreasons, h.counted j]
      by_cases hj : j = f.idx
      · subst hj
        rw [if_pos rfl, if_pos rfl, hown]
        simp
      · rw [if_neg (fun he => hj he.symm), if_neg hj, List.append_nil]
    newest := by
      intro j c hc
      rw [hhandle] at hc
      rw [factoryCalls_of_slots hslots, incarnation_of_slots hslots]
      by_cases hj : j = f.idx
      · rw [if_pos hj] at hc
        exact absurd hc (by simp)
      · rw [if_neg hj] at hc
        exact h.newest j c hc
    restarts := by
      intro i rest hpc
      obtain ⟨rfl, hnil⟩ := hrest i rest hpc
      exact ⟨(hhandle f.idx).trans (if_pos rfl), hnil⟩
    respawns := hresp }

/-- **Preserved by every step that does not escalate.** -/
theorem solo_step {sup : Supervisor φ} (hone : sup.spec.strategy = .oneForOne) {w w' : World φ}
    {e : Event} (hi : Inv sup w) (h : ¬ Escalated w → Solo w) (hs : step sup w e = some w') :
    ¬ Escalated w' → Solo w' := by
  intro hne
  have hbefore : ¬ Escalated w := by
    intro he
    have hpc := pc_step_of_over (by rw [he]; rfl) hs
    exact hne (hpc.trans he)
  have hsolo := h hbefore
  have hm := step_moves hs
  cases hm with
  | @spawn i spec hpc _ =>
      have hlen : w.slots.length = i := hi.size i (by rw [hpc]; rfl)
      refine solo_spawn hi hsolo ?_ ?_
      · cases hh : handle w i with
        | none => rfl
        | some c => exact absurd (handle_lt hh) (by omega)
      · intro j rest
        refine ⟨?_, start_ne_respawning⟩
        unfold Pc.start
        split <;> simp
  | @abort i rest slot hpc hslot =>
      -- the handle is gone already: `take` finds nothing to abort
      obtain ⟨hnone, rfl⟩ := hsolo.restarts i rest hpc
      have habort : slot.abort = none := by
        unfold handle at hnone
        rw [hslot] at hnone
        exact hnone
      rw [habort]
      refine solo_frame hsolo rfl (fun _ => rfl) (fun _ => rfl) rfl ?_ ?_ ?_
      · intro j
        refine (clearAbort_handle hslot j).trans ?_
        by_cases hj : j = i
        · rw [if_pos hj, hj, hnone]
        · rw [if_neg hj]
      · intro j rest hj
        exact Pc.noConfusion hj
      · intro j rest hj
        exact (Pc.respawning.inj hj).2.symm
  | @respawn i rest slot hpc _ =>
      obtain rfl := hsolo.respawns i rest hpc
      refine solo_spawn hi hsolo (hi.emptied i [] hpc) ?_
      intro j rest
      exact ⟨Pc.noConfusion, Pc.noConfusion⟩
  | @badReport f how _ hf hslot => exact (hi.no_badReport hf hslot).elim
  | @ignore f how slot hpc hf _ hslot _ =>
      have hpc' : (taken w f how slot).pc = .loopHead := hpc
      refine solo_report hi hsolo (by rw [hpc]; rfl) hf rfl rfl
        (fun j => clearAbort_handle (w := w.takeReport f (w.reportOf f how)) hslot j) ?_ ?_
      · intro i rest hi'
        rw [hpc'] at hi'
        exact Pc.noConfusion hi'
      · intro i rest hi'
        rw [hpc'] at hi'
        exact Pc.noConfusion hi'
  | escalate _ _ _ _ _ _ => exact absurd rfl hne
  | @pass f how slot hpc hf _ hslot _ _ =>
      have htodo : (((taken w f how slot).pushHistory sup.spec (w.reportOf f how)).beginPass
          sup.spec (w.reportOf f how)).pc = .restarting f.idx [] := by
        unfold World.beginPass
        rw [hone]
        rfl
      refine solo_report hi hsolo (by rw [hpc]; rfl) hf rfl rfl
        (fun j => clearAbort_handle (w := w.takeReport f (w.reportOf f how)) hslot j) ?_ ?_
      · intro i rest hi'
        rw [htodo] at hi'
        exact ⟨(Pc.restarting.inj hi').1.symm, (Pc.restarting.inj hi').2.symm⟩
      · intro i rest hi'
        rw [htodo] at hi'
        exact Pc.noConfusion hi'
  | leave hl =>
      refine solo_frame hsolo rfl (fun _ => rfl) (fun _ => rfl) rfl (fun _ => rfl) ?_ ?_
      · intro i rest hi'
        cases hl <;> exact Pc.noConfusion hi'
      · intro i rest hi'
        cases hl <;> exact Pc.noConfusion hi'
  | spin _ _ _ => exact hsolo
  | @ends c how _ _ _ =>
      exact solo_frame hsolo
        (modify_slots w.tasks c (fun t => { t with ended := some how }) (fun _ => rfl))
        (fun d => endTask_abortReq w c how d) (fun d => endTask_slotOf w c how d) rfl
        (fun _ => rfl) hsolo.restarts hsolo.respawns
  | tick =>
      exact solo_frame hsolo rfl (fun _ => rfl) (fun _ => rfl) rfl (fun _ => rfl) hsolo.restarts
        hsolo.respawns

theorem solo_reachable {sup : Supervisor φ} (hone : sup.spec.strategy = .oneForOne) {w : World φ}
    {tr : List (World φ × Event)} (h : Run (step sup) (World.init sup) tr w)
    (hne : ¬ Escalated w) : Solo w :=
  (h.invariant (P := fun s => Inv sup s ∧ (¬ Escalated s → Solo s))
    ⟨inv_init sup, fun _ => solo_init sup⟩
    (fun _ _ _ hs hstep => ⟨inv_step hs.1 hstep, solo_step hone hs.1 hs.2 hstep⟩)).2 hne

/-- A supervisor that has not escalated had not escalated before. -/
theorem not_escalated_visited {sup : Supervisor φ} {w : World φ} {tr : List (World φ × Event)}
    (h : Run (step sup) (World.init sup) tr w) (hne : ¬ Escalated w) :
    ∀ x, Visits tr w x → ¬ Escalated x := by
  induction h with
  | nil =>
      intro x hx
      rcases hx with rfl | ⟨e, he⟩
      · exact hne
      · exact absurd he (by simp)
  | @snoc tr w w' e _ hs ih =>
      have hbefore : ¬ Escalated w :=
        fun he => hne ((pc_step_of_over (by rw [he]; rfl) hs).trans he)
      intro x hx
      rcases hx with rfl | ⟨e', he⟩
      · exact hne
      · rcases List.mem_append.mp he with he | he
        · exact ih hbefore x (Visits.before he)
        · obtain ⟨rfl, _⟩ := Prod.mk.inj (List.mem_singleton.mp he)
          exact hbefore

/-! ## What a slot is at -/

/-- The passes of a slot are its own reports, where its policy has it restarted. -/
theorem passesOf_oneForOne {sup : Supervisor φ} (hone : sup.spec.strategy = .oneForOne)
    {w : World φ} (hl : Ledger sup w) (hne : ¬ Escalated w) (j : Nat) :
    passesOf sup w j
      = if restartable sup j = true then (slotReasons w j).countP (· != .normal) else 0 := by
  have hcount : passesOf sup w j
      = w.reports.countP (fun r => (r.reason != .normal && restartable sup j) && r.idx == j) := by
    unfold passesOf
    rw [hl.passes hne, hl.pushed, List.countP_filter, hone]
    refine List.countP_congr fun r _ => ?_
    simp only [Restart.covers, countable, Bool.and_eq_true, beq_iff_eq]
    refine ⟨?_, ?_⟩
    · rintro ⟨rfl, hr⟩
      exact ⟨hr, rfl⟩
    · rintro ⟨hr, rfl⟩
      exact ⟨rfl, hr⟩
  rw [hcount]
  split
  · rename_i hr
    unfold slotReasons
    rw [List.countP_map, List.countP_filter]
    refine List.countP_congr fun r _ => ?_
    simp [hr]
  · rename_i hr
    exact List.countP_eq_zero.mpr (fun r _ => by simp [hr])

/-- What `OneForOne` promises of one run. -/
structure Isolated (sup : Supervisor φ) (tr : List (World φ × Event)) (w : World φ) : Prop where
  /-- The supervisor requests no child's abort. -/
  noAborts : ∀ x, Visits tr w x → ∀ c, abortReq x c = false
  /-- A slot holds a handle exactly while one incarnation of it is outstanding, -/
  outstanding : ∀ x, Visits tr w x → ∀ j, (handle x j).isSome = true ↔ ∃ c, Outstanding x j c
  /-- and it never has two. -/
  one : ∀ x, Visits tr w x → ∀ j c d, Outstanding x j c → Outstanding x j d → c = d
  /-- Its factory is called once, and once more for each of its own failures. -/
  calls : ∀ j, j < sup.children.length → factoryCalls w j
    = if restartable sup j = true then 1 + (slotReasons w j).countP (· != .normal) else 1

theorem isolated_reachable {sup : Supervisor φ} (hone : sup.spec.strategy = .oneForOne)
    {w : World φ} {tr : List (World φ × Event)} (h : Run (step sup) (World.init sup) tr w)
    (hw : AtRest w) : Isolated sup tr w := by
  have hsolo : ∀ x, Visits tr w x → Solo x := by
    intro x hx
    obtain ⟨_, _, hrun⟩ := h.upTo hx
    exact solo_reachable hone hrun (not_escalated_visited h hw.2 x hx)
  refine ⟨fun x hx => (hsolo x hx).noAbort, ?_, ?_, ?_⟩
  · intro x hx j
    rw [Option.isSome_iff_exists]
    exact exists_congr fun c => ((hsolo x hx).outstanding j c).symm
  · intro x hx j c d hc hd
    have hc' := ((hsolo x hx).outstanding j c).mp hc
    have hd' := ((hsolo x hx).outstanding j d).mp hd
    exact Option.some.inj (hc'.symm.trans hd')
  · intro j hj
    rw [factoryCalls_eq h hw.1 hj, passesOf_oneForOne hone (books_reachable h).ledger hw.2]
    split
    · rfl
    · rfl

/--
**`OneForOne` isolates children.**

Two runs in which each slot reports the same reasons in the same order, however the
reports of different slots are interleaved, leave every slot in the same state: holding
a handle or not, at the same incarnation, its factory called equally often. And each run
for itself is isolated in the sense of `Isolated`.
-/
theorem oneForOne_isolates {sup : Supervisor φ} (hone : sup.spec.strategy = .oneForOne)
    {w₁ w₂ : World φ} {tr₁ tr₂ : List (World φ × Event)}
    (h₁ : Run (step sup) (World.init sup) tr₁ w₁) (h₂ : Run (step sup) (World.init sup) tr₂ w₂)
    (hs₁ : AtRest w₁) (hs₂ : AtRest w₂) (hsame : ∀ j, slotReasons w₁ j = slotReasons w₂ j) :
    (∀ j, j < sup.children.length →
        (handle w₁ j).isSome = (handle w₂ j).isSome
          ∧ (handle w₁ j).map (incarnation w₁ j) = (handle w₂ j).map (incarnation w₂ j)
          ∧ factoryCalls w₁ j = factoryCalls w₂ j)
      ∧ Isolated sup tr₁ w₁ ∧ Isolated sup tr₂ w₂ := by
  have hi₁ := isolated_reachable hone h₁ hs₁
  have hi₂ := isolated_reachable hone h₂ hs₂
  refine ⟨?_, hi₁, hi₂⟩
  intro j hj
  have hsolo₁ := solo_reachable hone h₁ hs₁.2
  have hsolo₂ := solo_reachable hone h₂ hs₂.2
  have hcalls : factoryCalls w₁ j = factoryCalls w₂ j := by
    rw [hi₁.calls j hj, hi₂.calls j hj, hsame j]
  -- calls less reports tell whether an incarnation is outstanding
  have hlen : (handle w₁ j).toList.length = (handle w₂ j).toList.length := by
    have hc₁ := hsolo₁.counted j
    have hc₂ := hsolo₂.counted j
    rw [hsame j] at hc₁
    omega
  cases hh₁ : handle w₁ j with
  | none =>
      cases hh₂ : handle w₂ j with
      | none => exact ⟨rfl, rfl, hcalls⟩
      | some d => rw [hh₁, hh₂] at hlen; exact absurd hlen (by simp)
  | some c =>
      cases hh₂ : handle w₂ j with
      | none => rw [hh₁, hh₂] at hlen; exact absurd hlen (by simp)
      | some d =>
          refine ⟨rfl, ?_, hcalls⟩
          have hn₁ := hsolo₁.newest j c hh₁
          have hn₂ := hsolo₂.newest j d hh₂
          exact congrArg some (by omega)

/-- The first child panics and the second returns; the panic is reported first, -/
def panicFirst : List Event :=
  started ++ [.childEnds 0 .panicked, .childEnds 1 .returned, .joinNext ⟨0, 0⟩, .advance,
    .advance, .joinNext ⟨1, 1⟩]

/-- or last. -/
def panicLast : List Event :=
  started ++ [.childEnds 0 .panicked, .childEnds 1 .returned, .joinNext ⟨1, 1⟩, .joinNext ⟨0, 0⟩,
    .advance, .advance]

theorem oneForOne_isolates_panicFirst :
    (handle (stateOn (twoWorkers .oneForOne 5 .permanent) panicFirst) 0).map
        (incarnation (stateOn (twoWorkers .oneForOne 5 .permanent) panicFirst) 0)
      = (handle (stateOn (twoWorkers .oneForOne 5 .permanent) panicLast) 0).map
        (incarnation (stateOn (twoWorkers .oneForOne 5 .permanent) panicLast) 0) := by
  have hfirst : (stateOn (twoWorkers .oneForOne 5 .permanent) panicFirst).reports
      = [⟨0, 0, .panic anyDebug, 0⟩, ⟨1, 1, .normal, 0⟩] := by decide +kernel
  have hlast : (stateOn (twoWorkers .oneForOne 5 .permanent) panicLast).reports
      = [⟨1, 1, .normal, 0⟩, ⟨0, 0, .panic anyDebug, 0⟩] := by decide +kernel
  have hsame : ∀ j, slotReasons (stateOn (twoWorkers .oneForOne 5 .permanent) panicFirst) j
      = slotReasons (stateOn (twoWorkers .oneForOne 5 .permanent) panicLast) j := by
    intro j
    unfold slotReasons
    rw [hfirst, hlast]
    match j with
    | 0 => rfl
    | 1 => rfl
    | _ + 2 => rfl
  exact ((oneForOne_isolates rfl
    (runOn (twoWorkers .oneForOne 5 .permanent) panicFirst (by decide +kernel))
    (runOn (twoWorkers .oneForOne 5 .permanent) panicLast (by decide +kernel))
    ⟨Or.inl (by decide +kernel), by decide +kernel⟩
    ⟨Or.inl (by decide +kernel), by decide +kernel⟩ hsame).1 0 (by decide)).2.1

end ErlangActors.Proof
