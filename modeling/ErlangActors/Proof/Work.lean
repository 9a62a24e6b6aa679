import ErlangActors.Proof.Account
import ErlangActors.Proof.LoopHead

/-!
# The supervisor works only when a child ends

Even a supervisor that restarts everything over and over does nothing on its own:
each turn of its loop takes the report of a child that has ended, and leads to at most
one abort and one factory call for each slot. So the steps of its task are bounded by
the endings of children, and when those run out it is asleep — waiting for children
that all run.
-/

namespace ErlangActors.Proof

open Supervision Transition Weighing

variable {φ : Type}

/-- A step of the supervisor's own task; the others are its children's and the clock's. -/
def ownStep : Event → Bool
  | .advance => true
  | .factoryPanics => true
  | .joinNext _ => true
  | .forwarderPanics _ => true
  | .joinNone => true
  | .cutOff => true
  | .childEnds _ _ => false
  | .tick _ => false

/-- A child comes to its end. -/
def isEnding : Event → Bool
  | .childEnds _ _ => true
  | _ => false

/-- Steps to the next loop head, for a supervisor with `n` children. -/
def toLoopHead (n : Nat) : Pc → Nat
  | .starting i => n - i
  | .restarting _ rest => 2 * rest.length + 2
  | .respawning _ rest => 2 * rest.length + 1
  | _ => 0

/-- Reports the supervisor could take. -/
def ready (w : World φ) : Nat := w.joinset.countP (fun f => (w.endingOf f.child).isSome)

/-- Steps the supervisor can still make if no more children end: each report may cost a pass. -/
def stepsLeft (n : Nat) (w : World φ) : Nat :=
  if w.pc.live then 1 + toLoopHead n w.pc + (2 * n + 1) * ready w else 0

@[simp] theorem pass_toLoopHead (n : Nat) (l : List Nat) :
    toLoopHead n (Pc.pass l) = 2 * l.length := by
  cases l with
  | nil => rfl
  | cons i rest => simp [Pc.pass, toLoopHead, Nat.mul_add]

theorem start_toLoopHead {n i : Nat} (h : i ≤ n) : toLoopHead n (Pc.start n i) = n - i := by
  unfold Pc.start
  split
  · rfl
  · show 0 = n - i
    omega

theorem toRestart_length (strategy : Restart) {n idx : Nat} (hidx : idx < n) :
    (toRestart strategy n idx).length ≤ n := by
  cases strategy with
  | oneForOne => show 1 ≤ n; omega
  | restForOne => rw [toRestart, List.length_range']; omega
  | oneForAll => rw [toRestart, List.length_range]

theorem stepsLeft_live (n : Nat) {w : World φ} (h : w.pc.live = true) :
    stepsLeft n w = 1 + toLoopHead n w.pc + (2 * n + 1) * ready w := if_pos h

/-- A child just started is awaited but has not ended. -/
theorem ready_spawn (w : World φ) (i : Nat) (spec : ChildSpec φ) (pc : Pc) :
    ready ((w.spawnChild i spec).goto pc) = ready w := by
  have hnew : w.endingOf w.tasks.length = none := by
    unfold World.endingOf
    rw [List.getElem?_eq_none (Nat.le_refl _)]
    rfl
  unfold ready
  show (w.joinset ++ [(⟨i, w.tasks.length⟩ : Forwarder)]).countP _ = _
  rw [List.countP_append, List.countP_singleton, goto_endingOf, spawnChild_endingOf, hnew]
  refine List.countP_congr fun f _ => ?_
  rw [spawnChild_endingOf]

/-- Taking the report of an ended child leaves one less. -/
theorem ready_erase {w : World φ} (w' : World φ) {f : Forwarder} (hf : f ∈ w.joinset)
    (hend : (w.endingOf f.child).isSome = true) (hjoin : w'.joinset = w.joinset.erase f)
    (htasks : w'.tasks = w.tasks) : ready w = ready w' + 1 := by
  have hperm := (List.perm_cons_erase hf).countP_eq (fun g => (w.endingOf g.child).isSome)
  unfold ready
  rw [hjoin, hperm, List.countP_cons_of_pos (by exact hend)]
  refine congrArg (· + 1) (List.countP_congr fun g _ => ?_)
  rw [endingOf_congr htasks]

/-- An ending readies at most one report. -/
theorem ready_ends {sup : Supervisor φ} {w : World φ} (hi : Inv sup w)
    (hlive : w.pc.live = true) {c : Nat} (hlt : c < w.tasks.length) (how : Ending) :
    ready (w.endTask c how) ≤ ready w + 1 := by
  have hnd : (w.joinset.map Forwarder.child ++ w.reports.map Report.child).Nodup :=
    (hi.accounted hlive).nodup_iff.mpr List.nodup_range
  have hone : w.joinset.countP (fun f => f.child == c) ≤ 1 := by
    have hcount := List.nodup_iff_count_le_one.mp (List.nodup_append.mp hnd).1 c
    rw [List.count, List.countP_map] at hcount
    exact hcount
  have hsplit : w.joinset.countP (fun f => ((w.endTask c how).endingOf f.child).isSome)
      ≤ w.joinset.countP (fun f => (w.endingOf f.child).isSome)
        + w.joinset.countP (fun f => f.child == c) := by
    generalize w.joinset = l
    induction l with
    | nil => exact Nat.le_refl _
    | cons f l ih =>
        simp only [List.countP_cons]
        have hhead : (if ((w.endTask c how).endingOf f.child).isSome = true then 1 else 0)
            ≤ (if (w.endingOf f.child).isSome = true then 1 else 0)
              + if (f.child == c) = true then 1 else 0 := by
          rw [endTask_endingOf hlt]
          by_cases hc : f.child = c
          · simp [hc]
          · simp [hc]
        omega
  unfold ready
  show w.joinset.countP (fun f => ((w.endTask c how).endingOf f.child).isSome) ≤ _
  omega

/-- **Every step of the supervisor is paid for**, and only a child's ending brings credit. -/
theorem stepsLeft_step {sup : Supervisor φ} {w w' : World φ} {e : Event} (hi : Inv sup w)
    (hs : step sup w e = some w') :
    stepsLeft sup.children.length w' + (if ownStep e then 1 else 0)
      ≤ stepsLeft sup.children.length w
        + if isEnding e then 2 * sup.children.length + 1 else 0 := by
  have hm := step_moves hs
  cases hm with
  | @spawn i spec hpc hspec =>
      have hlive : w.pc.live = true := by rw [hpc]; rfl
      have hlt : i < sup.children.length := (List.getElem?_eq_some_iff.mp hspec).1
      rw [stepsLeft_live _ (start_live _ _), stepsLeft_live _ hlive, ready_spawn, hpc]
      show 1 + toLoopHead _ (Pc.start _ _) + _ + 1 ≤ 1 + (sup.children.length - i) + _ + 0
      -- one slot fewer to start
      rw [start_toLoopHead hlt]
      omega
  | @abort i rest slot hpc hslot =>
      have hlive : w.pc.live = true := by rw [hpc]; rfl
      -- asking a task to abort does not end it
      have hready : ready (((w.clearAbort i slot).requestAborts slot.abort.toList).goto
          (.respawning i rest)) = ready w := by
        refine List.countP_congr fun f _ => ?_
        rw [goto_endingOf, requestAborts_endingOf]
        rfl
      rw [stepsLeft_live _ (show (Pc.respawning i rest).live = true from rfl),
        stepsLeft_live _ hlive, hready, hpc]
      show 1 + (2 * rest.length + 1) + _ + 1 ≤ 1 + (2 * rest.length + 2) + _ + 0
      omega
  | @respawn i rest slot hpc _ =>
      have hlive : w.pc.live = true := by rw [hpc]; rfl
      rw [stepsLeft_live _ (pass_live _), stepsLeft_live _ hlive, ready_spawn, hpc]
      show 1 + toLoopHead _ (Pc.pass rest) + _ + 1 ≤ 1 + (2 * rest.length + 1) + _ + 0
      rw [pass_toLoopHead]
      omega
  | badReport _ hf hslot => exact (hi.no_badReport hf hslot).elim
  | @ignore f how slot hpc hf hend _ _ =>
      have hlive : w.pc.live = true := by rw [hpc]; rfl
      have htake := ready_erase (taken w f how slot) hf (by rw [hend]; rfl) rfl rfl
      rw [stepsLeft_live _ (show (taken w f how slot).pc.live = true from hlive),
        stepsLeft_live _ hlive, htake, Nat.mul_add]
      show 1 + toLoopHead _ w.pc + _ + 1 ≤ 1 + toLoopHead _ w.pc + _ + 0
      omega
  | @escalate f how slot hpc _ _ _ _ _ =>
      have hlive : w.pc.live = true := by rw [hpc]; rfl
      rw [stepsLeft_live _ hlive]
      show 0 + 1 ≤ _
      omega
  | @pass f how slot hpc hf hend hslot _ _ =>
      have hlive : w.pc.live = true := by rw [hpc]; rfl
      have hlen : w.slots.length = sup.children.length := hi.size _ (by rw [hpc]; rfl)
      have hidx : f.idx < sup.children.length :=
        hlen ▸ (List.getElem?_eq_some_iff.mp hslot).1
      -- the report taken pays for the whole pass, two steps a slot
      have htake := ready_erase (((taken w f how slot).pushHistory sup.spec
        (w.reportOf f how)).beginPass sup.spec (w.reportOf f how)) hf (by rw [hend]; rfl) rfl rfl
      have hset := toRestart_length sup.spec.strategy hidx
      rw [stepsLeft_live _ (pass_live _), stepsLeft_live _ hlive, htake, Nat.mul_add]
      show 1 + toLoopHead _ (Pc.pass (toRestart sup.spec.strategy
        (taken w f how slot).slots.length f.idx)) + _ + 1 ≤ 1 + toLoopHead _ w.pc + _ + 0
      rw [pass_toLoopHead, taken_length, hlen]
      omega
  | @leave e pc hl =>
      rw [stepsLeft_live _ hl.live]
      have hzero : stepsLeft sup.children.length (w.finish pc) = 0 := by cases hl <;> rfl
      have hone : ownStep e = true := by cases hl <;> rfl
      rw [hzero, if_pos hone]
      omega
  | @spin i c hpc hempty hc =>
      rw [no_handle_of_empty hi (by rw [hpc]; rfl) hempty i] at hc
      exact absurd hc (by simp)
  | @ends c how hlt _ _ =>
      show stepsLeft sup.children.length (w.endTask c how) + 0
        ≤ stepsLeft sup.children.length w + (2 * sup.children.length + 1)
      by_cases hlive : w.pc.live = true
      · -- one more report to take
        have hready := ready_ends hi hlive hlt how
        have hmul := Nat.mul_le_mul_left (2 * sup.children.length + 1) hready
        rw [stepsLeft_live _ (show (w.endTask c how).pc.live = true from hlive),
          stepsLeft_live _ hlive]
        rw [Nat.mul_add] at hmul
        show 1 + toLoopHead _ w.pc + _ + 0 ≤ _
        omega
      · have hzero : stepsLeft sup.children.length (w.endTask c how) = 0 := if_neg hlive
        omega
  | tick => exact Nat.le_refl _

/-- A supervisor that is not asleep can make a step of its own. -/
theorem awake {sup : Supervisor φ} {w : World φ} {tr : List (World φ × Event)}
    (h : Run (step sup) (World.init sup) tr w) (hlive : w.pc.live = true)
    (hidle : ∀ e, ownStep e = true → e ≠ .cutOff → step sup w e = none) :
    w.pc = .loopHead ∧ w.joinset ≠ [] ∧ ∀ f ∈ w.joinset, w.endingOf f.child = none := by
  have hi := inv_reachable h
  have hadvance := hidle .advance rfl (by simp)
  cases hpc : w.pc with
  | starting i =>
      have hlt : i < sup.children.length := hi.todoLt i (by rw [hpc]; exact List.mem_cons_self ..)
      rw [step, hpc] at hadvance
      dsimp only at hadvance
      rw [List.getElem?_eq_getElem hlt] at hadvance
      exact absurd hadvance (by simp)
  | restarting i rest => rw [step, hpc] at hadvance; exact absurd hadvance (by simp)
  | respawning i rest => rw [step, hpc] at hadvance; exact absurd hadvance (by simp)
  | loopHead =>
      refine ⟨rfl, ?_, ?_⟩
      · intro hempty
        have hnone := hidle .joinNone rfl (by simp)
        rw [step, if_pos ⟨hpc, hempty⟩] at hnone
        exact absurd hnone (by simp)
      · intro f hf
        have hnone := hidle (.joinNext f) rfl (by simp)
        rw [step, if_pos ⟨hpc, hf⟩] at hnone
        exact Option.map_eq_none_iff.mp hnone
  | returned _ => rw [hpc] at hlive; exact Bool.noConfusion hlive
  | unwound _ => rw [hpc] at hlive; exact Bool.noConfusion hlive
  | cut => rw [hpc] at hlive; exact Bool.noConfusion hlive

/-- One that waits for running children can not. -/
theorem asleep {sup : Supervisor φ} {w : World φ} (hpc : w.pc = .loopHead)
    (hne : w.joinset ≠ []) (hrun : ∀ f ∈ w.joinset, w.endingOf f.child = none) {e : Event}
    (hown : ownStep e = true) (hcut : e ≠ .cutOff) : step sup w e = none := by
  cases hs : step sup w e with
  | none => rfl
  | some w' =>
      have hm := step_moves hs
      cases hm with
      | spawn hpc' _ => rw [hpc] at hpc'; exact Pc.noConfusion hpc'
      | abort hpc' _ => rw [hpc] at hpc'; exact Pc.noConfusion hpc'
      | respawn hpc' _ => rw [hpc] at hpc'; exact Pc.noConfusion hpc'
      | @badReport f how _ hf _ =>
          rw [step, if_pos ⟨hpc, hf⟩, hrun f hf] at hs
          exact absurd hs (by simp)
      | ignore _ hf hend _ _ => rw [hrun _ hf] at hend; exact absurd hend (by simp)
      | escalate _ hf hend _ _ _ => rw [hrun _ hf] at hend; exact absurd hend (by simp)
      | pass _ hf hend _ _ _ => rw [hrun _ hf] at hend; exact absurd hend (by simp)
      | leave hl =>
          cases hl with
          | factoryPanics hpc' =>
              rw [hpc] at hpc'
              rcases hpc' with hpc' | ⟨_, hpc'⟩ <;> exact Pc.noConfusion hpc'
          | badIndex hpc' _ =>
              rw [hpc] at hpc'
              rcases hpc' with hpc' | hpc' <;> exact Pc.noConfusion hpc'
          | forwarder _ hf hend => rw [hrun _ hf] at hend; exact absurd hend (by simp)
          | stopped _ hempty _ => exact absurd hempty hne
          | cutOff _ => exact absurd rfl hcut
      | spin _ hempty _ => exact absurd hempty hne
      | ends _ _ _ => exact Bool.noConfusion hown
      | tick => exact Bool.noConfusion hown

/--
**The supervisor does no work of its own accord, and never stops short.**

In a run in which children came to an end `k` times, a supervisor of `n` children has
made at most `n + (2n + 1) * k + 1` steps, whatever the strategy and however many
passes it went through. And while it lives it has a step to make unless it waits, with
something to wait for, for children that all run.
-/
theorem works_only_on_endings {sup : Supervisor φ} {w : World φ} {tr : List (World φ × Event)}
    (h : Run (step sup) (World.init sup) tr w) :
    tr.countP (fun p => ownStep p.2)
        ≤ sup.children.length
          + (2 * sup.children.length + 1) * tr.countP (fun p => isEnding p.2) + 1
      ∧ (w.pc.live = true →
        ((∀ e, ownStep e = true → e ≠ .cutOff → step sup w e = none)
          ↔ w.pc = .loopHead ∧ w.joinset ≠ [] ∧ ∀ f ∈ w.joinset, w.endingOf f.child = none)) := by
  refine ⟨?_, ?_⟩
  · have hpaid := h.amortised (R := Inv sup) (inv_init sup) (fun _ _ _ hi hs => inv_step hi hs)
      (fun _ _ _ hi hs => stepsLeft_step hi hs)
    have hcost : (tr.map fun p => if ownStep p.2 then 1 else 0).sum
        = tr.countP (fun p => ownStep p.2) := weigh_one
    have hgain : (tr.map fun p => if isEnding p.2 then 2 * sup.children.length + 1 else 0).sum
        = (2 * sup.children.length + 1) * tr.countP (fun p => isEnding p.2) := weigh_const _
    have hstart : stepsLeft sup.children.length (World.init sup) = 1 + sup.children.length := by
      rw [stepsLeft_live _ (start_live _ _)]
      show 1 + toLoopHead _ (Pc.start _ 0) + _ = _
      rw [start_toLoopHead (Nat.zero_le _)]
      rfl
    rw [hcost, hgain, hstart] at hpaid
    omega
  · intro hlive
    refine ⟨awake h hlive, ?_⟩
    rintro ⟨hpc, hne, hrun⟩ e hown hcut
    exact asleep hpc hne hrun hown hcut

/-- Two passes after one panic, `RestForOne` is asleep again. -/
theorem works_only_on_endings_lateReport :
    step (twoWorkers .restForOne 5 .permanent)
        (stateOn (twoWorkers .restForOne 5 .permanent) lateReport) .advance = none
      ∧ step (twoWorkers .restForOne 5 .permanent)
        (stateOn (twoWorkers .restForOne 5 .permanent) lateReport) .joinNone = none := by
  have hrun := runOn (twoWorkers .restForOne 5 .permanent) lateReport (by decide +kernel)
  have hasleep := ((works_only_on_endings hrun).2 (by decide +kernel)).mpr
    ⟨by decide +kernel, by decide +kernel, by decide +kernel⟩
  exact ⟨hasleep .advance rfl (by simp), hasleep .joinNone rfl (by simp)⟩

end ErlangActors.Proof
