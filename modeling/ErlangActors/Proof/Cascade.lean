import ErlangActors.Proof.Account

/-!
# What one failure costs

A report of the supervisor's own abort is taken for a failure like any other, and
starts a pass that aborts further siblings. Weighing each abort by what it will cost
in turn, the account says what a failure costs in all. Under `OneForOne` a pass
strikes nobody, and a failure costs one entry of `restart_history`. Under `RestForOne`
a failure of child `k` of `n` costs up to `2 ^ (n - 1 - k)`. Under `OneForAll` there is
no bound at all: with two children or more, the supervisor that has handled one
failure always has another report of its own making to come.
-/

namespace ErlangActors.Proof

open Supervision Transition Weighing

variable {φ : Type}

/-! ## What a failure costs under `OneForOne` and `RestForOne` -/

/-- The entries a failure of child `idx` may cost, its own included. -/
def fanOut (sup : Supervisor φ) (idx : Nat) : Nat :=
  match sup.spec.strategy with
  | .oneForOne => 1
  | .restForOne => 2 ^ (sup.children.length - 1 - idx)
  | .oneForAll => 1

theorem fanOut_pos (sup : Supervisor φ) (idx : Nat) : 0 < fanOut sup idx := by
  unfold fanOut
  split
  · exact Nat.one_pos
  · exact Nat.two_pow_pos _
  · exact Nat.one_pos

/-- The powers of two a `RestForOne` failure strikes add up to one less than its own. -/
theorem sum_pow_range' (k i : Nat) :
    ((List.range' (i + 1) k).map fun j => 2 ^ (i + k - j)).sum + 1 = 2 ^ k := by
  induction k generalizing i with
  | zero => rfl
  | succ k ih =>
      have hrest := ih (i + 1)
      have hshift : (fun j => 2 ^ (i + (k + 1) - j)) = fun j => 2 ^ (i + 1 + k - j) := by
        funext j
        rw [show i + (k + 1) = i + 1 + k by omega]
      rw [List.range'_succ, List.map_cons, List.sum_cons, hshift, Nat.pow_succ,
        show i + (k + 1) - (i + 1) = k by omega]
      omega

/-- A strategy under which no failure strikes itself through its siblings. -/
def Bounded (sup : Supervisor φ) : Prop :=
  sup.spec.strategy ≠ .oneForAll ∨ sup.children.length ≤ 1

/-- The weight of a failure pays for its own entry and for everything it strikes. -/
theorem struck_fanOut {sup : Supervisor φ} (hb : Bounded sup) {idx : Nat}
    (hidx : idx < sup.children.length) :
    ((struck sup idx).map (fanOut sup)).sum + 1 = fanOut sup idx := by
  have hself : ∀ j ∈ struck sup idx, j < sup.children.length ∧ j ≠ idx
      ∧ sup.spec.strategy.covers idx j = true := by
    intro j hj
    obtain ⟨hmem, hne⟩ := List.mem_filter.mp hj
    obtain ⟨hlt, hcov⟩ := (mem_toRestart hidx).mp hmem
    exact ⟨hlt, by simpa using hne, hcov⟩
  cases hst : sup.spec.strategy with
  | oneForOne =>
      have hnil : struck sup idx = [] := by
        unfold struck
        rw [hst]
        simp [toRestart]
      rw [hnil]
      unfold fanOut
      rw [hst]
      rfl
  | oneForAll =>
      have hnil : struck sup idx = [] := by
        refine List.eq_nil_iff_forall_not_mem.mpr fun j hj => ?_
        obtain ⟨hlt, hne, _⟩ := hself j hj
        have hone : sup.children.length ≤ 1 := hb.resolve_left (fun hn => hn hst)
        omega
      rw [hnil]
      unfold fanOut
      rw [hst]
      rfl
  | restForOne =>
      -- the siblings struck are the ones after it, each at half the price of the one before
      have hlist : struck sup idx
          = List.range' (idx + 1) (sup.children.length - 1 - idx) := by
        unfold struck
        rw [hst]
        show (List.range' idx (sup.children.length - idx)).filter (· != idx) = _
        rw [show sup.children.length - idx = (sup.children.length - 1 - idx) + 1 by omega,
          List.range'_succ, List.filter_cons_of_neg (by simp)]
        refine List.filter_eq_self.mpr fun j hj => ?_
        have := List.mem_range'_1.mp hj
        simp only [bne_iff_ne, ne_eq]
        omega
      have hsum := sum_pow_range' (sup.children.length - 1 - idx) idx
      rw [show idx + (sup.children.length - 1 - idx) = sup.children.length - 1 by omega] at hsum
      have hfan : fanOut sup = fun j => 2 ^ (sup.children.length - 1 - j) := by
        funext j
        unfold fanOut
        rw [hst]
      rw [hlist, hfan]
      exact hsum

/-- A counted report is of a registered child. -/
theorem pushed_idx_lt {sup : Supervisor φ} {w : World φ} (h : Books sup w) {r : Report}
    (hr : r ∈ w.pushed) : r.idx < sup.children.length := by
  have hslot := (h.inv.reported r (mem_reports_of_pushed h.ledger hr)).1
  have hlt := h.inv.slotted _ _ hslot
  have hle := h.inv.specs.length_le
  rw [List.length_map] at hle
  omega

/-- Every pass came of an entry. -/
theorem passes_pushed {sup : Supervisor φ} {w : World φ} (h : Ledger sup w) :
    w.passes <+: w.pushed := by
  by_cases hpc : w.pc = .returned .maxRestartsExceeded
  · obtain ⟨r, hr, _⟩ := h.escalated hpc
    rw [hr]
    exact List.prefix_append _ _
  · rw [h.passes hpc]

/-- What the passes struck, and one for each of them, is the weight of the reports behind them. -/
theorem strikes_fanOut {sup : Supervisor φ} {w : World φ} (hb : Bounded sup) (h : Books sup w) :
    strikes (fanOut sup) sup w + w.passes.length
      = (w.passes.map fun r => fanOut sup r.idx).sum := by
  have hlt : ∀ r ∈ w.passes, r.idx < sup.children.length := fun r hr =>
    pushed_idx_lt h ((passes_pushed h.ledger).subset hr)
  unfold strikes
  generalize w.passes = l at hlt ⊢
  induction l with
  | nil => rfl
  | cons r rs ih =>
      have hrest := ih (fun x hx => hlt x (List.mem_cons_of_mem _ hx))
      have hone := struck_fanOut hb (hlt r (List.mem_cons_self ..))
      simp only [List.map_cons, List.sum_cons, List.length_cons]
      omega

/-- What the failures proper among the counted reports may cost in all. -/
def failureCost (sup : Supervisor φ) (w : World φ) : Nat :=
  ((unprompted w).map fun r => fanOut sup r.idx).sum

/-- An escalation has counted more than `max_restarts` reports. -/
theorem pushed_of_escalated {sup : Supervisor φ} {w : World φ} (h : Ledger sup w)
    (he : Escalated w) : sup.spec.maxRestarts.toNat < w.pushed.length := by
  obtain ⟨r, hr, hover, _⟩ := h.escalated he
  have hcount := List.countP_le_length (l := w.passes)
    (p := fun p => decide (r.time - p.time < fromSecs sup.spec.withinSecs))
  rw [hr, List.length_append, List.length_singleton]
  omega

theorem cost_le {sup : Supervisor φ} {w : World φ} {tr : List (World φ × Event)}
    (hb : Bounded sup) (h : Run (step sup) (World.init sup) tr w) :
    w.pushed.length + owed (fanOut sup) w ≤ failureCost sup w := by
  have hbooks := books_reachable h
  have hdue := due_le_strikes (fanOut sup) h
  have hstrikes := strikes_fanOut hb hbooks
  have hsplit := pushed_eq_unprompted (fanOut sup) w
  unfold due at hdue
  unfold failureCost
  by_cases hpc : w.pc = .returned .maxRestartsExceeded
  · obtain ⟨r, hr, _⟩ := hbooks.ledger.escalated hpc
    have hpos := fanOut_pos sup r.idx
    rw [hr, List.map_append, List.sum_append, List.map_singleton, List.sum_singleton] at hsplit
    rw [hr, List.length_append, List.length_singleton]
    omega
  · rw [hbooks.ledger.passes hpc] at hstrikes
    omega

theorem cost_eq {sup : Supervisor φ} {w : World φ} {tr : List (World φ × Event)}
    (hb : Bounded sup) (h : Run (step sup) (World.init sup) tr w) (hsup : NoTemporary sup)
    (hlive : w.pc.live = true) (hnormal : NoNormal w) :
    w.pushed.length + owed (fanOut sup) w = failureCost sup w := by
  have hbooks := books_reachable h
  have hdue := (due_eq_strikes (fanOut sup) h hsup hlive hnormal).2
  have hstrikes := strikes_fanOut hb hbooks
  have hsplit := pushed_eq_unprompted (fanOut sup) w
  have hpc : w.pc ≠ .returned .maxRestartsExceeded := by
    intro hpc
    rw [hpc] at hlive
    exact Bool.noConfusion hlive
  rw [hbooks.ledger.passes hpc] at hstrikes
  unfold due at hdue
  unfold failureCost
  omega

/--
**What failures cost under `OneForOne` and `RestForOne`.**

The entries made in `restart_history`, with the aborts whose reports are still to come
at their full price, never exceed the price of the failures proper it has counted: one
entry each under `OneForOne`, and `2 ^ (n - 1 - k)` for child `k` of `n` under
`RestForOne`. With no `Temporary` child and no child that returned, the price is paid in
full as long as the supervisor lives; the failure it gives up on is one it does not work
off. So a supervisor escalates only when that price is above `max_restarts`.
-/
theorem failure_cost {sup : Supervisor φ} {w : World φ} {tr : List (World φ × Event)}
    (h : Run (step sup) (World.init sup) tr w) (hstrat : sup.spec.strategy ≠ .oneForAll) :
    w.pushed.length + owed (fanOut sup) w ≤ failureCost sup w
      ∧ (NoTemporary sup → w.pc.live = true → NoNormal w →
        w.pushed.length + owed (fanOut sup) w = failureCost sup w)
      ∧ (Escalated w → sup.spec.maxRestarts.toNat < failureCost sup w) := by
  have hle := cost_le (Or.inl hstrat) h
  refine ⟨hle, cost_eq (Or.inl hstrat) h, ?_⟩
  intro he
  have := pushed_of_escalated (books_reachable h).ledger he
  omega

/-- The first of two children panics once, and `RestForOne` makes two entries of it. -/
theorem failure_cost_lateReport :
    (stateOn (twoWorkers .restForOne 5 .permanent) lateReport).pushed.length = 2
      ∧ failureCost (twoWorkers .restForOne 5 .permanent)
        (stateOn (twoWorkers .restForOne 5 .permanent) lateReport) = 2 := by
  have h := (failure_cost (runOn (twoWorkers .restForOne 5 .permanent) lateReport
    (by decide +kernel)) (by decide +kernel)).2.1 (by decide +kernel) (by decide +kernel)
    (by decide +kernel)
  have hlen : (stateOn (twoWorkers .restForOne 5 .permanent) lateReport).pushed.length = 2 := by
    decide +kernel
  have howed : owed (fanOut (twoWorkers .restForOne 5 .permanent))
      (stateOn (twoWorkers .restForOne 5 .permanent) lateReport) = 0 := by decide +kernel
  exact ⟨hlen, by rw [← h, hlen, howed]⟩

/-! ## `OneForAll` never settles -/

/-- Nothing is owed before the first pass. -/
theorem not_abortReq_of_passes_nil {sup : Supervisor φ} {w : World φ}
    {tr : List (World φ × Event)} (h : Run (step sup) (World.init sup) tr w)
    (hnil : w.passes = []) {f : Forwarder} (hf : f ∈ w.joinset) : abortReq w f.child = false := by
  have hdue := due_le_strikes (fun _ => 1) h
  have hzero : strikes (fun _ => 1) sup w = 0 := by unfold strikes; rw [hnil]; rfl
  have howed : owed (fun _ => 1) w = 0 := by
    unfold due at hdue
    omega
  have hjoin : weigh (fun _ => 1) (fun g : Forwarder => abortReq w g.child) w.joinset = 0 :=
    (Nat.add_eq_zero_iff.mp howed).1
  rw [weigh_one, List.countP_eq_zero] at hjoin
  simpa using hjoin f hf

/-- The first report counted is of a failure proper. -/
theorem unprompted_ne_nil {sup : Supervisor φ} {w : World φ} {tr : List (World φ × Event)}
    (h : Run (step sup) (World.init sup) tr w) (hp : w.pushed ≠ []) : unprompted w ≠ [] := by
  have hmem : ∃ r ∈ w.pushed, abortReq w r.child = false := by
    induction h with
    | nil => exact absurd rfl hp
    | @snoc tr w w' e hr hs ih =>
        have hb := books_reachable hr
        have hkeep : ∀ r ∈ w.reports, abortReq w r.child = false → abortReq w' r.child = false :=
          fun r hmem hreq => (abortReq_reported hb.inv hs hmem).trans hreq
        by_cases hnil : w.pushed = []
        · rcases pushed_step hb.inv hs with ⟨hsame, _⟩ | ⟨f, how, rfl, hend, _, hnew⟩
          · exact absurd (hsame.trans hnil) hp
          · obtain ⟨hpc, hf, hreq⟩ := abortReq_joinNext hb.inv hs
            have hpasses : w.passes = [] := (hb.ledger.passes (by rw [hpc]; simp)).trans hnil
            refine ⟨w.reportOf f how, ?_, hreq.trans (not_abortReq_of_passes_nil hr hpasses hf)⟩
            rw [hnew]
            exact List.mem_append_right _ (List.mem_singleton.mpr rfl)
        · obtain ⟨r, hmem, hreq⟩ := ih hnil
          have hpre : w.pushed <+: w'.pushed := by
            rcases pushed_step hb.inv hs with ⟨hsame, _⟩ | ⟨_, _, _, _, _, hnew⟩
            · rw [hsame]
            · rw [hnew]
              exact List.prefix_append ..
          exact ⟨r, hpre.subset hmem, hkeep r (mem_reports_of_pushed hb.ledger hmem) hreq⟩
  obtain ⟨r, hr, hreq⟩ := hmem
  exact List.ne_nil_of_mem (List.mem_filter.mpr ⟨hr, by rw [hreq]; rfl⟩)

/-- Under `OneForAll` every failure strikes all the others. -/
theorem struck_oneForAll {sup : Supervisor φ} (hst : sup.spec.strategy = .oneForAll) {idx : Nat}
    (hidx : idx < sup.children.length) : (struck sup idx).length + 1 = sup.children.length := by
  unfold struck
  rw [hst]
  show ((List.range sup.children.length).filter (· != idx)).length + 1 = _
  rw [← List.nodup_range.erase_eq_filter, List.length_erase_of_mem (List.mem_range.mpr hidx),
    List.length_range]
  omega

/-- So every pass owes one report for each of the others. -/
theorem strikes_oneForAll {sup : Supervisor φ} {w : World φ} (hst : sup.spec.strategy = .oneForAll)
    (h : Books sup w) : strikes (fun _ => 1) sup w + w.passes.length
      = w.passes.length * sup.children.length := by
  have hlt : ∀ r ∈ w.passes, r.idx < sup.children.length := fun r hr =>
    pushed_idx_lt h ((passes_pushed h.ledger).subset hr)
  unfold strikes
  generalize w.passes = l at hlt ⊢
  induction l with
  | nil => simp
  | cons r rs ih =>
      have hrest := ih (fun x hx => hlt x (List.mem_cons_of_mem _ hx))
      have hone := struck_oneForAll hst (hlt r (List.mem_cons_self ..))
      simp only [List.map_cons, List.sum_cons, List.length_cons, List.map_const',
        List.sum_replicate_nat, Nat.mul_one, Nat.succ_mul]
      simp only [List.map_const', List.sum_replicate_nat, Nat.mul_one] at hrest
      omega

/-- What is owed under `OneForAll`, in reports. -/
theorem owed_oneForAll {sup : Supervisor φ} {w : World φ} {tr : List (World φ × Event)}
    (h : Run (step sup) (World.init sup) tr w) (hst : sup.spec.strategy = .oneForAll)
    (hn : 2 ≤ sup.children.length) (hsup : NoTemporary sup) (hlive : w.pc.live = true)
    (hnormal : NoNormal w) : owed (fun _ => 1) w
      = w.passes.length * (sup.children.length - 2) + (unprompted w).length := by
  have hbooks := books_reachable h
  have hdue := (due_eq_strikes (fun _ => 1) h hsup hlive hnormal).2
  have hstrikes := strikes_oneForAll hst hbooks
  have hsplit := pushed_eq_unprompted (fun _ => 1) w
  have hpc : w.pc ≠ .returned .maxRestartsExceeded := by
    intro hpc
    rw [hpc] at hlive
    exact Bool.noConfusion hlive
  simp only [List.map_const', List.sum_replicate_nat, Nat.mul_one] at hsplit
  rw [← hbooks.ledger.passes hpc] at hsplit
  obtain ⟨k, hk⟩ := Nat.exists_eq_add_of_le hn
  rw [hk, Nat.mul_add] at hstrikes
  rw [hk, Nat.add_sub_cancel_left]
  unfold due at hdue
  omega

/-- At the loop head all that is owed is awaited. -/
theorem owed_loopHead {w : World φ} (hpc : w.pc = .loopHead) :
    owed (fun _ => 1) w = w.joinset.countP (fun f => abortReq w f.child) := by
  unfold owed
  rw [hpc]
  exact weigh_one

/-- The supervisor still has something to wait for once it has handled a failure. -/
theorem awaits_own_abort {sup : Supervisor φ} {w : World φ} {tr : List (World φ × Event)}
    (h : Run (step sup) (World.init sup) tr w) (hst : sup.spec.strategy = .oneForAll)
    (hn : 2 ≤ sup.children.length) (hsup : NoTemporary sup) (hpc : w.pc = .loopHead)
    (hnormal : NoNormal w) (hp : w.passes ≠ []) :
    ∃ f ∈ w.joinset, abortReq w f.child = true := by
  have hlive : w.pc.live = true := by rw [hpc]; rfl
  have howed := owed_oneForAll h hst hn hsup hlive hnormal
  have hpushed : w.pushed ≠ [] := by
    rw [← (books_reachable h).ledger.passes (by rw [hpc]; simp)]
    exact hp
  have hpos := List.length_pos_of_ne_nil (unprompted_ne_nil h hpushed)
  rw [owed_loopHead hpc] at howed
  exact List.countP_pos_iff.mp (by omega)

/--
**`OneForAll` with two children or more never settles after its first failure.**

As long as no child is `Temporary` and none returns: at every loop head the supervisor
awaits exactly `passes * (n - 2)` reports of its own aborts, and one more for every
failure proper it has counted — so after the first failure there is always one to come,
each of them will be counted and strike everyone again, with three children or more
they pile up, and "all children stopped" is never reached.
-/
theorem oneForAll_never_settles {sup : Supervisor φ} {w : World φ} {tr : List (World φ × Event)}
    (h : Run (step sup) (World.init sup) tr w) (hst : sup.spec.strategy = .oneForAll)
    (hn : 2 ≤ sup.children.length) (hsup : NoTemporary sup) (hnormal : NoNormal w) :
    (w.pc = .loopHead → w.joinset.countP (fun f => abortReq w f.child)
        = w.passes.length * (sup.children.length - 2) + (unprompted w).length)
      ∧ (w.pc = .loopHead → w.passes ≠ [] → ∃ f ∈ w.joinset, abortReq w f.child = true)
      ∧ (w.passes ≠ [] → w.pc ≠ .returned .allStopped) := by
  refine ⟨?_, ?_, ?_⟩
  · intro hpc
    rw [← owed_loopHead hpc]
    exact owed_oneForAll h hst hn hsup (by rw [hpc]; rfl) hnormal
  · intro hpc
    exact awaits_own_abort h hst hn hsup hpc hnormal
  · induction h with
    | nil => exact fun hp => absurd rfl hp
    | @snoc tr w w' e hr hs ih =>
        intro hp hpc
        have hold : NoNormal w := fun r hmem => hnormal r ((reports_step hs).subset hmem)
        have hm := step_moves hs
        cases hm with
        | spawn _ _ => exact absurd hpc (start_ne rfl)
        | abort _ _ => exact Pc.noConfusion hpc
        | respawn _ _ => exact absurd hpc (pass_ne rfl)
        | badReport _ _ _ => exact Pc.noConfusion hpc
        | ignore _ _ _ _ _ => exact ih hold hp hpc
        | escalate _ _ _ _ _ _ => exact absurd hpc (by simp [World.escalate, World.finish])
        | pass _ _ _ _ _ _ => exact absurd hpc (pass_ne rfl)
        | leave hl =>
            cases hl with
            | stopped hhead hempty _ =>
                -- an empty `JoinSet` awaits no one
                obtain ⟨f, hf, _⟩ := awaits_own_abort hr hst hn hsup hhead hold hp
                rw [hempty] at hf
                exact absurd hf (by simp)
            | _ => exact absurd hpc (by simp [World.finish])
        | spin _ _ _ => exact ih hold hp hpc
        | ends _ _ _ => exact ih hold hp hpc
        | tick => exact ih hold hp hpc

/-- One panic of two children under `OneForAll`, two passes later. -/
theorem oneForAll_never_settles_lateReport :
    ∃ f ∈ (stateOn (twoWorkers .oneForAll 5 .permanent)
        (lateReport ++ [.advance, .advance])).joinset,
      abortReq (stateOn (twoWorkers .oneForAll 5 .permanent)
        (lateReport ++ [.advance, .advance])) f.child = true :=
  (oneForAll_never_settles (runOn (twoWorkers .oneForAll 5 .permanent)
    (lateReport ++ [.advance, .advance]) (by decide +kernel)) (by decide +kernel)
    (by decide +kernel) (by decide +kernel) (by decide +kernel)).2.1 (by decide +kernel)
    (by decide +kernel)

end ErlangActors.Proof
