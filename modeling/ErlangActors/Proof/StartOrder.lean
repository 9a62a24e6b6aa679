import ErlangActors.Proof.Passes

/-!
# Start order

Children are started in the order they were registered, and a pass under `RestForOne`
or `OneForAll` restarts a suffix of the slots in that same order. So of two slots the
later one always has the later incarnation, except while a pass has restarted the
earlier one and still owes the later one its turn. A pass can start at any index and
passes pile up as aborted children report, but each is over before the next begins.
-/

namespace ErlangActors.Proof

open Supervision Transition

variable {φ : Type}

/-! ## The latest incarnation -/

/-- The latest incarnation of slot `j`. -/
def latest (w : World φ) (j : Nat) : Option Nat :=
  (List.range w.tasks.length).reverse.find? fun c => slotOf w c == some j

/-- Some incarnation of slot `j` was started after every one of slot `i`. -/
def StartedAfter (w : World φ) (i j : Nat) : Prop :=
  ∃ c, slotOf w c = some j ∧ ∀ d, slotOf w d = some i → d < c

theorem latest_spec {w : World φ} {c j : Nat} (h : latest w j = some c) :
    slotOf w c = some j ∧ ∀ d, slotOf w d = some j → d ≤ c := by
  unfold latest at h
  obtain ⟨hc, as, bs, hsplit, has⟩ := List.find?_eq_some_iff_append.mp h
  refine ⟨eq_of_beq hc, ?_⟩
  intro d hd
  have hmem : d ∈ as ++ c :: bs := by
    rw [← hsplit, List.mem_reverse, List.mem_range]
    exact slotOf_lt hd
  have hdesc : (as ++ c :: bs).Pairwise (fun a b => b < a) := by
    rw [← hsplit, List.pairwise_reverse]
    exact List.pairwise_lt_range
  rcases List.mem_append.mp hmem with hmem | hmem
  · have := has d hmem
    rw [hd] at this
    simp at this
  · rcases List.mem_cons.mp hmem with rfl | hmem
    · exact Nat.le_refl _
    · exact Nat.le_of_lt ((List.pairwise_cons.mp (List.pairwise_append.mp hdesc).2.1).1 d hmem)

/-- A slot that was ever started has a latest incarnation. -/
theorem latest_of_slotOf {w : World φ} {c j : Nat} (h : slotOf w c = some j) :
    ∃ c', latest w j = some c' := by
  refine Option.isSome_iff_exists.mp (List.find?_isSome.mpr ⟨c, ?_, beq_iff_eq.mpr h⟩)
  rw [List.mem_reverse, List.mem_range]
  exact slotOf_lt h

/-- A slot whose factory was called was started. -/
theorem slotOf_of_factoryCalls {w : World φ} {j : Nat} (h : 0 < factoryCalls w j) :
    ∃ c, slotOf w c = some j := by
  obtain ⟨t, ht, hj⟩ := List.countP_pos_iff.mp h
  obtain ⟨c, hc⟩ := List.mem_iff_getElem?.mp ht
  refine ⟨c, ?_⟩
  unfold slotOf
  rw [hc]
  exact congrArg some (eq_of_beq hj)

theorem StartedAfter.latest {w : World φ} {i j : Nat} (h : StartedAfter w i j)
    (hi : 0 < factoryCalls w i) :
    ∃ ci cj, latest w i = some ci ∧ latest w j = some cj ∧ ci < cj := by
  obtain ⟨c, hc, hbefore⟩ := h
  obtain ⟨d, hd⟩ := slotOf_of_factoryCalls hi
  obtain ⟨ci, hci⟩ := latest_of_slotOf hd
  obtain ⟨cj, hcj⟩ := latest_of_slotOf hc
  have h1 := hbefore ci (latest_spec hci).1
  have h2 := (latest_spec hcj).2 c hc
  exact ⟨ci, cj, hci, hcj, Nat.lt_of_lt_of_le h1 h2⟩

/-! ## The invariant -/

structure Ordered (sup : Supervisor φ) (w : World φ) : Prop where
  /-- What a pass has still to restart is a suffix of the slots. -/
  suffix : ∃ a, passTodo w.pc = List.range' a (sup.children.length - a)
  /-- Two slots are in order unless the pass has done the first and owes the second. -/
  order : (∀ cause, w.pc ≠ .unwound cause) → ∀ i j, i < j → j < w.slots.length →
    (j ∈ passTodo w.pc → i ∈ passTodo w.pc) → StartedAfter w i j

theorem startedAfter_congr {w w' : World φ} (h : ∀ c, slotOf w' c = slotOf w c) (i j : Nat) :
    StartedAfter w' i j ↔ StartedAfter w i j := by
  unfold StartedAfter
  simp only [h]

/-- What is started last comes after everything. -/
theorem startedAfter_spawn {w : World φ} {k : Nat} {spec : ChildSpec φ} {i : Nat} (hi : i ≠ k) :
    StartedAfter (w.spawnChild k spec) i k := by
  refine ⟨w.tasks.length, by rw [spawnChild_slotOf, if_pos rfl], ?_⟩
  intro d hd
  rw [spawnChild_slotOf] at hd
  split at hd
  · exact absurd (Option.some.inj hd).symm hi
  · exact slotOf_lt hd

/-- Starting another slot keeps the order of two. -/
theorem startedAfter_spawn_ne {w : World φ} {k : Nat} {spec : ChildSpec φ} {i j : Nat}
    (h : StartedAfter w i j) (hi : i ≠ k) : StartedAfter (w.spawnChild k spec) i j := by
  obtain ⟨c, hc, hbefore⟩ := h
  refine ⟨c, ?_, ?_⟩
  · rw [spawnChild_slotOf, if_neg (Nat.ne_of_lt (slotOf_lt hc))]
    exact hc
  · intro d hd
    rw [spawnChild_slotOf] at hd
    split at hd
    · exact absurd (Option.some.inj hd).symm hi
    · exact hbefore d hd

theorem range'_tail {a n k : Nat} {rest : List Nat} (h : k :: rest = List.range' a (n - a)) :
    k = a ∧ k < n ∧ rest = List.range' (k + 1) (n - (k + 1)) := by
  cases hlen : n - a with
  | zero => rw [hlen] at h; exact absurd h (by simp)
  | succ m =>
      rw [hlen, List.range'_succ] at h
      obtain ⟨rfl, rfl⟩ := List.cons.inj h
      refine ⟨rfl, by omega, ?_⟩
      rw [show n - (k + 1) = m by omega]

/-- The slots a pass restarts are a suffix, except under `OneForOne`. -/
theorem toRestart_suffix {strategy : Restart} (h : strategy ≠ .oneForOne) (n idx : Nat) :
    ∃ a, toRestart strategy n idx = List.range' a (n - a) := by
  cases strategy with
  | oneForOne => exact absurd rfl h
  | restForOne => exact ⟨idx, rfl⟩
  | oneForAll => exact ⟨0, by rw [Nat.sub_zero]; exact List.range_eq_range'⟩

theorem ordered_init (sup : Supervisor φ) : Ordered sup (World.init sup) where
  suffix := by
    refine ⟨sup.children.length, ?_⟩
    rw [Nat.sub_self]
    exact start_passTodo _ _
  order := by intro _ i j _ hj; exact absurd hj (Nat.not_lt_zero _)

/-- A step outside a pass that starts nothing keeps the order. -/
theorem ordered_frame {sup : Supervisor φ} {w w' : World φ} (h : Ordered sup w)
    (hslots : w'.slots.length = w.slots.length) (hof : ∀ c, slotOf w' c = slotOf w c)
    (htodo : passTodo w'.pc = passTodo w.pc)
    (hun : (∀ cause, w'.pc ≠ .unwound cause) → ∀ cause, w.pc ≠ .unwound cause) :
    Ordered sup w' where
  suffix := htodo ▸ h.suffix
  order := by
    intro hpc i j hij hj hmem
    rw [htodo] at hmem
    exact (startedAfter_congr hof i j).mpr (h.order (hun hpc) i j hij (hslots ▸ hj) hmem)

/-- **Preserved by every step.** -/
theorem ordered_step {sup : Supervisor φ} (hstrat : sup.spec.strategy ≠ .oneForOne)
    {w w' : World φ} {e : Event} (hi : Inv sup w) (h : Ordered sup w)
    (hs : step sup w e = some w') : Ordered sup w' := by
  have hempty : ∃ a, ([] : List Nat) = List.range' a (sup.children.length - a) :=
    ⟨sup.children.length, by rw [Nat.sub_self]; rfl⟩
  have hm := step_moves hs
  cases hm with
  | @spawn k spec hpc hspec =>
      have hlen : w.slots.length = k := hi.size k (by rw [hpc]; rfl)
      refine ⟨(start_passTodo _ _).symm ▸ hempty, ?_⟩
      intro _ i j hij hj _
      have hj' : j < max w.slots.length (k + 1) := spawnChild_length w k spec ▸ hj
      refine (startedAfter_congr (fun c => congrFun (goto_slotOf _ _) c) i j).mpr ?_
      by_cases hjk : j = k
      · subst hjk
        exact startedAfter_spawn (Nat.ne_of_lt hij)
      · have hold : StartedAfter w i j := by
          refine h.order (by rw [hpc]; simp) i j hij (by omega) ?_
          rw [hpc]
          exact fun hmem => absurd hmem (by simp [passTodo])
        exact startedAfter_spawn_ne hold (by omega)
  | @abort k rest slot hpc hslot =>
      refine ordered_frame h ?_ (fun c => requestAborts_slotOf (w.clearAbort k slot) _ c) ?_ ?_
      · exact List.length_set ..
      · rw [hpc]
        rfl
      · intro _; rw [hpc]; simp
  | @respawn k rest slot hpc hslot =>
      -- slot `k` gets the last incarnation of all, and what is still owed comes after it
      obtain ⟨a, ha⟩ := h.suffix
      rw [hpc] at ha
      obtain ⟨_, _, hrest⟩ := range'_tail ha
      have hlt : k < w.slots.length := (List.getElem?_eq_some_iff.mp hslot).1
      have hfull : w.slots.length = sup.children.length := hi.size _ (by rw [hpc]; rfl)
      have htodo : passTodo ((w.spawnChild k slot.spec).goto (.pass rest)).pc = rest :=
        pass_passTodo rest
      refine ⟨⟨k + 1, htodo.trans hrest⟩, ?_⟩
      intro _ i j hij hj hmem
      have hj' : j < max w.slots.length (k + 1) := spawnChild_length w k slot.spec ▸ hj
      rw [htodo] at hmem
      refine (startedAfter_congr (fun c => congrFun (goto_slotOf _ _) c) i j).mpr ?_
      by_cases hjk : j = k
      · subst hjk
        exact startedAfter_spawn (Nat.ne_of_lt hij)
      · have hik : i ≠ k := by
          rintro rfl
          have hin : j ∈ rest := by
            rw [hrest, List.mem_range'_1]
            omega
          have := hmem hin
          rw [hrest, List.mem_range'_1] at this
          omega
        refine startedAfter_spawn_ne (h.order (by rw [hpc]; simp) i j hij (by omega) ?_) hik
        rw [hpc]
        intro hin
        rcases List.mem_cons.mp hin with rfl | hin
        · exact absurd rfl hjk
        · exact List.mem_cons_of_mem _ (hmem hin)
  | @badReport f how _ hf hslot => exact (hi.no_badReport hf hslot).elim
  | @ignore f how slot hpc _ _ _ _ =>
      exact ordered_frame h (taken_length w f how slot) (fun _ => rfl) rfl id
  | @escalate f how slot hpc _ _ _ _ _ =>
      refine ordered_frame h ?_ (fun c => requestAborts_slotOf ((taken w f how slot).pushHistory
        sup.spec (w.reportOf f how)) _ c) (by rw [hpc]; rfl) (fun _ => by rw [hpc]; simp)
      unfold World.escalate World.finish
      exact (List.length_map ..).trans (taken_length w f how slot)
  | @pass f how slot hpc _ _ hslot _ _ =>
      have hfull : w.slots.length = sup.children.length := hi.size _ (by rw [hpc]; rfl)
      have hlen := taken_length w f how slot
      obtain ⟨a, ha⟩ := toRestart_suffix hstrat w.slots.length f.idx
      refine ⟨⟨a, ?_⟩, ?_⟩
      · show passTodo (Pc.pass (toRestart sup.spec.strategy (taken w f how slot).slots.length
          f.idx)) = _
        rw [pass_passTodo, hlen, ha, hfull]
      · intro _ i j hij hj _
        refine h.order (by rw [hpc]; simp) i j hij (hlen ▸ hj) ?_
        rw [hpc]
        exact fun hmem => absurd hmem (by simp [passTodo])
  | leave hl =>
      refine ⟨?_, ?_⟩
      · have : ∀ pc, passTodo (World.finish w pc).pc = passTodo pc := fun _ => rfl
        rw [this]
        cases hl <;> exact hempty
      · intro hpc i j hij hj _
        have hidle : passTodo w.pc = [] ∧ ∀ cause, w.pc ≠ .unwound cause := by
          cases hl with
          | factoryPanics _ => exact absurd rfl (hpc _)
          | badIndex _ _ => exact absurd rfl (hpc _)
          | forwarder hpc' _ _ => rw [hpc']; exact ⟨rfl, by simp⟩
          | stopped hpc' _ _ => rw [hpc']; exact ⟨rfl, by simp⟩
          | cutOff hpc' => rcases hpc' with hpc' | hpc' <;> rw [hpc'] <;> exact ⟨rfl, by simp⟩
        refine h.order hidle.2 i j hij hj ?_
        rw [hidle.1]
        exact fun hmem => absurd hmem (by simp)
  | spin _ _ _ => exact h
  | ends _ _ _ => exact ordered_frame h rfl (fun c => endTask_slotOf w _ _ c) rfl id
  | tick => exact ordered_frame h rfl (fun _ => rfl) rfl id

theorem ordered_reachable {sup : Supervisor φ} (hstrat : sup.spec.strategy ≠ .oneForOne)
    {w : World φ} {tr : List (World φ × Event)} (h : Run (step sup) (World.init sup) tr w) :
    Ordered sup w :=
  (h.invariant (P := fun s => Inv sup s ∧ Ordered sup s) ⟨inv_init sup, ordered_init sup⟩
    (fun _ _ _ hs hstep => ⟨inv_step hs.1 hstep, ordered_step hstrat hs.1 hs.2 hstep⟩)).2

/-! ## At a loop head -/

/-- A pass that restarts a slot restarts every slot after it. -/
theorem passesOf_mono {sup : Supervisor φ} (hstrat : sup.spec.strategy ≠ .oneForOne)
    (w : World φ) {i j : Nat} (hij : i ≤ j) : passesOf sup w i ≤ passesOf sup w j := by
  refine List.countP_mono_left fun r _ hcov => ?_
  cases hs : sup.spec.strategy with
  | oneForOne => exact absurd hs hstrat
  | restForOne =>
      simp only [hs, Restart.covers, decide_eq_true_eq] at hcov ⊢
      omega
  | oneForAll => rfl

/--
**Start order respects dependencies.**

Whenever the supervisor is back at its loop head, of two slots the later one has the
later incarnation, and its factory has been called at least as often: exactly as often
under `OneForAll`, and under `RestForOne` once plus once for each pass started by a
report of that slot or one before it.
-/
theorem start_order {sup : Supervisor φ} {w : World φ} {tr : List (World φ × Event)}
    (hstrat : sup.spec.strategy = .restForOne ∨ sup.spec.strategy = .oneForAll)
    (h : Run (step sup) (World.init sup) tr w) {x : World φ} (hx : Visits tr w x)
    (hpc : x.pc = .loopHead) :
    (∀ i j, i < j → j < sup.children.length →
      (∃ ci cj, latest x i = some ci ∧ latest x j = some cj ∧ ci < cj)
        ∧ factoryCalls x i ≤ factoryCalls x j
        ∧ (sup.spec.strategy = .oneForAll → factoryCalls x i = factoryCalls x j))
      ∧ (sup.spec.strategy = .restForOne → ∀ j, j < sup.children.length →
        factoryCalls x j = 1 + x.passes.countP (fun r => r.idx ≤ j)) := by
  have hne : sup.spec.strategy ≠ .oneForOne := by
    rcases hstrat with hs | hs <;> rw [hs] <;> simp
  obtain ⟨_, _, hrun⟩ := h.upTo hx
  have hcalls : ∀ j, j < sup.children.length → factoryCalls x j = 1 + passesOf sup x j :=
    fun j hj => factoryCalls_eq hrun (Or.inl hpc) hj
  refine ⟨?_, ?_⟩
  · intro i j hij hj
    have hi : i < sup.children.length := Nat.lt_trans hij hj
    refine ⟨?_, ?_, ?_⟩
    · have hfull : x.slots.length = sup.children.length :=
        (inv_reachable hrun).size _ (by rw [hpc]; rfl)
      have hafter : StartedAfter x i j := by
        refine (ordered_reachable hne hrun).order (by rw [hpc]; simp) i j hij (hfull ▸ hj) ?_
        rw [hpc]
        exact fun hmem => absurd hmem (by simp [passTodo])
      have hpos := hcalls i hi
      exact hafter.latest (by omega)
    · rw [hcalls i hi, hcalls j hj]
      exact Nat.add_le_add_left (passesOf_mono hne x (Nat.le_of_lt hij)) 1
    · intro hall
      have hsame : ∀ k, passesOf sup x k = x.passes.length := by
        intro k
        unfold passesOf
        rw [hall]
        exact List.countP_eq_length.mpr (fun _ _ => rfl)
      rw [hcalls i hi, hcalls j hj, hsame, hsame]
  · intro hrest j hj
    rw [hcalls j hj]
    unfold passesOf
    rw [hrest]
    rfl

/-- The first child panics, the second is aborted and reports late: it is called three times. -/
theorem start_order_lateReport :
    factoryCalls (stateOn (twoWorkers .restForOne 5 .permanent) lateReport) 0
      ≤ factoryCalls (stateOn (twoWorkers .restForOne 5 .permanent) lateReport) 1 :=
  ((start_order (Or.inl rfl) (runOn (twoWorkers .restForOne 5 .permanent) lateReport
    (by decide +kernel)) Visits.last (by decide +kernel)).1 0 1 (by decide) (by decide)).2.1

end ErlangActors.Proof
