import ErlangActors.Supervisor.Tree
import ErlangActors.Proof.LoopHead

/-!
# A tree is made of supervisors

Everything proved of one supervisor holds of every node of a tree, because the
history of a node, cut out of the history of the tree, is a run of that one
supervisor: its own steps, the ends of its children, and the ticks. `Grown` says so,
and ties each nested node to its parent's record of it.

`move_cases` lists what one step can do to the node at any path.
-/

namespace ErlangActors.Proof

open Supervision Transition

/-! ## One step, seen from every path -/

theorem set_self (F : Forest) (p : Path) (n : Node) : (F.set p n) p = some n := by
  unfold Forest.set; rw [if_pos rfl]

theorem set_ne (F : Forest) {p q : Path} (n : Node) (h : q ≠ p) : (F.set p n) q = F q := by
  unfold Forest.set; rw [if_neg h]

/-- A path is neither one nor two steps above itself. -/
theorem path_ne_cons (q : Path) (c : Nat) : q ≠ c :: q := fun he => List.cons_ne_self c q he.symm

theorem path_ne_cons_cons (q : Path) (c d : Nat) : q ≠ d :: c :: q := by
  intro he
  have := congrArg List.length he
  simp only [List.length_cons] at this
  omega

/-- The node the move started, if it started one, and where. -/
inductive Fresh (p : Path) (n : Node) (w : World Factory) : Path → Node → Prop where
  | mk {sup : Supervisor Factory} : startedBy n.world w = some sup →
      Fresh p n w (n.world.tasks.length :: p) { sup := sup, world := World.init sup }

/-- The move ends the node's task, by `how`, in the record of its parent at `q`, as child `c`. -/
def Finishes (p : Path) (n : Node) (w : World Factory) (q : Path) (c : Nat) (how : Ending) : Prop :=
  p = c :: q ∧ n.world.pc.ending = none ∧ w.pc.ending = some how

/-- What the node at `r` is after the node `n` at `p` has gone on to `w`. -/
inductive NodeMove (F : Forest) (p : Path) (n : Node) (w : World Factory) : Path → Node → Prop where
  | self : NodeMove F p n w p { n with world := w }
  | fresh {r : Path} {m : Node} : Fresh p n w r m → NodeMove F p n w r m
  | parent {q : Path} {m : Node} {c : Nat} {how : Ending} : F q = some m →
      Finishes p n w q c how → NodeMove F p n w q { m with world := m.world.endTask c how }
  | same {r : Path} {m : Node} : F r = some m → r ≠ p → (∀ c how, ¬ Finishes p n w r c how) →
      NodeMove F p n w r m

theorem enter_cases {F : Forest} {p r : Path} {n m : Node} {w : World Factory}
    (h : (F.enter p n.world w) r = some m) : Fresh p n w r m ∨ F r = some m := by
  unfold Forest.enter at h
  cases hs : startedBy n.world w with
  | none => rw [hs] at h; exact Or.inr h
  | some sup =>
      rw [hs] at h
      dsimp only at h
      by_cases hr : r = n.world.tasks.length :: p
      · subst hr
        rw [set_self] at h
        obtain rfl := Option.some.inj h
        exact Or.inl (Fresh.mk hs)
      · rw [set_ne _ _ hr] at h
        exact Or.inr h

/-- The step that moves a node reaches no path but its own, its parent's and the new child's. -/
theorem enter_of_ne {F : Forest} {p r : Path} {old new : World Factory}
    (h : r ≠ old.tasks.length :: p) : (F.enter p old new) r = F r := by
  unfold Forest.enter
  cases startedBy old new with
  | none => rfl
  | some sup => exact set_ne _ _ h

theorem leave_eq (F : Forest) {p : Path} {n : Node} {w : World Factory} {q : Path} {m : Node}
    {c : Nat} {how : Ending} (hfin : Finishes p n w q c how) (hq : F q = some m) :
    F.leave p n.world w = F.set q { m with world := m.world.endTask c how } := by
  obtain ⟨rfl, hold, hnew⟩ := hfin
  unfold Forest.leave
  dsimp only
  rw [hold, hnew, hq]

theorem leave_of_not (F : Forest) {p : Path} {n : Node} {w : World Factory} {r : Path}
    (h : ∀ c how, ¬ Finishes p n w r c how) : (F.leave p n.world w) r = F r := by
  unfold Forest.leave
  cases p with
  | nil => rfl
  | cons c q =>
      dsimp only
      cases hold : n.world.pc.ending with
      | some _ => rfl
      | none =>
          cases hnew : w.pc.ending with
          | none => rfl
          | some how =>
              cases F q with
              | none => rfl
              | some m =>
                  refine set_ne _ _ ?_
                  intro hr
                  exact h c how ⟨by rw [hr], hold, hnew⟩

/-- **What one step does to the node at any path.** -/
theorem move_cases {F : Forest} {p r : Path} {n m : Node} {w : World Factory}
    (h : (F.move p n w) r = some m) : NodeMove F p n w r m := by
  unfold Forest.move at h
  by_cases hfin : ∃ c how, Finishes p n w r c how
  · obtain ⟨c, how, hfin⟩ := hfin
    obtain ⟨rfl, hold, hnew⟩ := hfin
    -- the parent's path is neither the node's own nor below it
    have hq : ((F.set (c :: r) { n with world := w }).enter (c :: r) n.world w) r = F r := by
      rw [enter_of_ne (path_ne_cons_cons r c _), set_ne _ _ (path_ne_cons r c)]
    cases hF : F r with
    | none =>
        unfold Forest.leave at h
        dsimp only at h
        rw [hold, hnew, hq, hF] at h
        dsimp only at h
        rw [hq, hF] at h
        exact absurd h (by simp)
    | some m' =>
        rw [leave_eq _ ⟨rfl, hold, hnew⟩ (hq.trans hF), set_self] at h
        obtain rfl := Option.some.inj h
        exact NodeMove.parent hF ⟨rfl, hold, hnew⟩
  · have hnot : ∀ c how, ¬ Finishes p n w r c how := fun c how hf => hfin ⟨c, how, hf⟩
    rw [leave_of_not _ hnot] at h
    rcases enter_cases h with hfresh | h
    · exact NodeMove.fresh hfresh
    · by_cases hr : r = p
      · subst hr
        rw [set_self] at h
        obtain rfl := Option.some.inj h
        exact NodeMove.self
      · rw [set_ne _ _ hr] at h
        exact NodeMove.same h hr hnot

theorem move_self (F : Forest) (p : Path) (n : Node) (w : World Factory) :
    (F.move p n w) p = some { n with world := w } := by
  unfold Forest.move
  rw [leave_of_not, enter_of_ne, set_self]
  · exact path_ne_cons p _
  · intro c how hf
    exact path_ne_cons p c hf.1

/-- The parent of a task that ends records its end. -/
theorem move_parent {F : Forest} {p q : Path} {n m : Node} {w : World Factory} {c : Nat}
    {how : Ending} (hq : F q = some m) (hf : Finishes p n w q c how) :
    (F.move p n w) q = some { m with world := m.world.endTask c how } := by
  obtain rfl := hf.1
  unfold Forest.move
  have hkeep : ((F.set (c :: q) { n with world := w }).enter (c :: q) n.world w) q = some m := by
    rw [enter_of_ne (path_ne_cons_cons q c _), set_ne _ _ (path_ne_cons q c), hq]
  rw [leave_eq _ hf hkeep, set_self]

/-- Nobody else notices. -/
theorem move_same {F : Forest} {p r : Path} {n : Node} {w : World Factory} (hr : r ≠ p)
    (hnew : r ≠ n.world.tasks.length :: p) (hf : ∀ c how, ¬ Finishes p n w r c how) :
    (F.move p n w) r = F r := by
  unfold Forest.move
  rw [leave_of_not _ hf, enter_of_ne hnew, set_ne _ _ hr]

/-! ## The ends of tasks -/

theorem ending_none {pc : Pc} : pc.ending = none ↔ pc.live = true := by
  cases pc <;> simp [Pc.ending, Pc.live]

/-- Only a task that was cut ends as aborted. -/
theorem ending_aborted {pc : Pc} (h : pc.ending = some .abortedBySupervisor) : pc = .cut := by
  cases pc <;> simp_all [Pc.ending]

/-- A supervisor's task is cut only by the event that cuts it. -/
theorem cutOff_of_cut {φ : Type} {sup : Supervisor φ} {w w' : World φ} {e : Event}
    (hs : step sup w e = some w') (hlive : w.pc.live = true) (hcut : w'.pc = .cut) :
    e = .cutOff := by
  have hm := step_moves hs
  have hstay : w'.pc = w.pc → e = .cutOff := by
    intro he
    rw [he] at hcut
    rw [hcut] at hlive
    exact Bool.noConfusion hlive
  cases hm with
  | spawn _ _ => exact absurd hcut (start_ne rfl)
  | abort _ _ => exact Pc.noConfusion hcut
  | respawn _ _ => exact absurd hcut (pass_ne rfl)
  | badReport _ _ _ => exact Pc.noConfusion hcut
  | ignore _ _ _ _ _ => exact hstay rfl
  | escalate _ _ _ _ _ _ => exact Pc.noConfusion hcut
  | pass _ _ _ _ _ _ => exact absurd hcut (pass_ne rfl)
  | leave hl =>
      cases hl with
      | cutOff _ => rfl
      | _ => exact Pc.noConfusion hcut
  | spin _ _ _ => exact hstay rfl
  | ends _ _ _ => exact hstay rfl
  | tick => exact hstay rfl

/-- A child may end whenever it runs, by the supervisor's abort only if that was requested. -/
theorem step_childEnds {φ : Type} {sup : Supervisor φ} {w : World φ} {c : Nat} {how : Ending}
    (hlt : c < w.tasks.length) (hrun : w.endingOf c = none)
    (hreq : how = .abortedBySupervisor → abortReq w c = true) :
    step sup w (.childEnds c how) = some (w.endTask c how) := by
  have ht : w.tasks[c]? = some w.tasks[c] := List.getElem?_eq_getElem hlt
  rw [step, ht, Option.bind_some, if_pos]
  unfold World.endingOf at hrun
  rw [ht, Option.bind_some] at hrun
  unfold Task.mayEnd
  rw [hrun, Option.isNone_none, Bool.true_and, Bool.or_eq_true, bne_iff_ne]
  by_cases hhow : how = .abortedBySupervisor
  · have := hreq hhow
    unfold abortReq at this
    rw [ht] at this
    exact Or.inr this
  · exact Or.inl hhow

/-- A child just started is running, and belongs to the slot it was started for. -/
theorem started_cases {sup : Supervisor Factory} {w w' : World Factory} {e : Event}
    {s : Supervisor Factory} (hs : step sup w e = some w') (hinv : Inv sup w')
    (hst : startedBy w w' = some s) :
    w'.endingOf w.tasks.length = none ∧ ∃ i spec, slotOf w' w.tasks.length = some i
      ∧ sup.children[i]? = some spec ∧ spec.factory = .nested s := by
  unfold startedBy at hst
  rw [Option.bind_eq_some_iff] at hst
  obtain ⟨t, ht, hst⟩ := hst
  rw [Option.bind_eq_some_iff] at hst
  obtain ⟨slot, hslot, hst⟩ := hst
  have hfac : slot.spec.factory = .nested s := by
    cases hf : slot.spec.factory with
    | task => rw [hf] at hst; exact absurd hst (by simp)
    | nested s' => rw [hf] at hst; exact congrArg Factory.nested (Option.some.inj hst)
  refine ⟨?_, t.slot, slot.spec, ?_, hinv.spec_eq hslot, hfac⟩
  · by_cases he : ∃ how, e = .childEnds w.tasks.length how
    · obtain ⟨how, rfl⟩ := he
      cases step_moves hs with
      | leave hl => cases hl
      | ends hlt _ _ => exact absurd hlt (Nat.lt_irrefl _)
    · rw [endingOf_step_other hs (fun how hh => he ⟨how, hh⟩)]
      unfold World.endingOf
      rw [List.getElem?_eq_none (Nat.le_refl _)]
      rfl
  · unfold slotOf
    rw [ht]
    rfl

/-! ## The tree invariant -/

structure Grown (F : Forest) : Prop where
  /-- The history of a node is a run of its supervisor. -/
  reachable : ∀ p n, F p = some n → ∃ tr, Run (step n.sup) (World.init n.sup) tr n.world
  /-- A nested node is a child its parent started, from a spec that nests it, and records truly. -/
  recorded : ∀ c q n, F (c :: q) = some n → ∃ m, F q = some m
    ∧ m.world.endingOf c = n.world.pc.ending
    ∧ ∃ i spec, slotOf m.world c = some i ∧ m.sup.children[i]? = some spec
      ∧ spec.factory = .nested n.sup

theorem Grown.inv {F : Forest} (h : Grown F) {p : Path} {n : Node} (hn : F p = some n) :
    Inv n.sup n.world := by
  obtain ⟨_, hrun⟩ := h.reachable p n hn
  exact inv_reachable hrun

theorem grown_init (sup : Supervisor Factory) : Grown (Forest.init sup) where
  reachable := by
    intro p n hn
    unfold Forest.init at hn
    split at hn
    · obtain rfl := Option.some.inj hn
      exact ⟨[], Run.nil⟩
    · exact absurd hn (by simp)
  recorded := by
    intro c q n hn
    unfold Forest.init at hn
    rw [if_neg (List.cons_ne_nil c q)] at hn
    exact absurd hn (by simp)

/-- The path of the next child is still free. -/
theorem Grown.fresh_free {F : Forest} (h : Grown F) {p : Path} {n : Node} (hn : F p = some n) :
    F (n.world.tasks.length :: p) = none := by
  cases hF : F (n.world.tasks.length :: p) with
  | none => rfl
  | some m =>
      obtain ⟨n', hn', _, i, _, hslot, _⟩ := h.recorded _ _ _ hF
      obtain rfl := Option.some.inj (hn.symm.trans hn')
      exact absurd (slotOf_lt hslot) (Nat.lt_irrefl _)

/-- The node's own step, and what the rest of the tree lets it do. -/
theorem treeStep_act {F F' : Forest} {p : Path} {e : Event} (h : treeStep F (.act p e) = some F') :
    ∃ n w, F p = some n ∧ F.allows p e = true ∧ step n.sup n.world e = some w
      ∧ F' = F.move p n w := by
  rw [treeStep, Option.bind_eq_some_iff] at h
  obtain ⟨n, hn, h⟩ := h
  split at h
  · rename_i hallow
    rw [Option.map_eq_some_iff] at h
    obtain ⟨w, hw, hF⟩ := h
    exact ⟨n, w, hn, hallow, hw, hF.symm⟩
  · exact absurd h (by simp)

/-- When a nested task ends, its parent may record that end: it is a step of the parent. -/
theorem Grown.finish_step {F : Forest} (h : Grown F) {p q : Path} {n m : Node} {w : World Factory}
    {e : Event} {c : Nat} {how : Ending} (hn : F p = some n) (hallow : F.allows p e = true)
    (hs : step n.sup n.world e = some w) (hq : F q = some m) (hf : Finishes p n w q c how) :
    step m.sup m.world (.childEnds c how) = some (m.world.endTask c how) := by
  obtain ⟨rfl, hold, hnew⟩ := hf
  obtain ⟨m', hm', hend, i, spec, hslot, _⟩ := h.recorded _ _ _ hn
  obtain rfl := Option.some.inj (hq.symm.trans hm')
  refine step_childEnds (slotOf_lt hslot) (hend.trans hold) ?_
  intro hhow
  rw [hhow] at hnew
  have := cutOff_of_cut hs (ending_none.mp hold) (ending_aborted hnew)
  rw [this, Forest.allows, hq] at hallow
  exact hallow

theorem grown_reachable_act {F : Forest} (h : Grown F) {p : Path} {n : Node} {w : World Factory}
    {e : Event} (hn : F p = some n) (hallow : F.allows p e = true)
    (hs : step n.sup n.world e = some w) {r : Path} {m : Node} (hm : (F.move p n w) r = some m) :
    ∃ tr, Run (step m.sup) (World.init m.sup) tr m.world := by
  cases move_cases hm with
  | self =>
      obtain ⟨_, hrun⟩ := h.reachable p n hn
      exact ⟨_, Run.snoc hrun hs⟩
  | fresh hfresh =>
      cases hfresh with
      | mk _ => exact ⟨[], Run.nil⟩
  | parent hq hf =>
      obtain ⟨_, hrun⟩ := h.reachable _ _ hq
      exact ⟨_, Run.snoc hrun (h.finish_step hn hallow hs hq hf)⟩
  | same hr _ _ => exact h.reachable _ _ hr

/-- What the parent at `q` still says of child `c` after a step: its end, and its slot. -/
theorem parent_keeps {F : Forest} (h : Grown F) {p q : Path} {n m : Node} {w : World Factory}
    {e : Event} (hn : F p = some n) (hallow : F.allows p e = true)
    (hs : step n.sup n.world e = some w) (hq : F q = some m) {c : Nat} {k : Node}
    (hk : F (c :: q) = some k) (hne : c :: q ≠ p) :
    ∃ m', (F.move p n w) q = some m' ∧ m'.sup = m.sup
      ∧ m'.world.endingOf c = m.world.endingOf c
      ∧ ∀ i, slotOf m.world c = some i → slotOf m'.world c = some i := by
  by_cases hqp : q = p
  · subst hqp
    obtain rfl := Option.some.inj (hn.symm.trans hq)
    refine ⟨_, move_self F q n w, rfl, ?_, fun i hi => slotOf_step hi hs⟩
    refine endingOf_step_other hs ?_
    -- a nested child does not end by an event of its parent
    intro how he
    rw [he, Forest.allows, hk] at hallow
    exact Bool.noConfusion hallow
  · by_cases hfin : ∃ d how, Finishes p n w q d how
    · obtain ⟨d, how, hf⟩ := hfin
      refine ⟨_, move_parent hq hf, rfl, ?_, ?_⟩
      · have hstep := h.finish_step hn hallow hs hq hf
        refine endingOf_step_other hstep ?_
        intro how' he
        obtain ⟨hdc, _⟩ := Event.childEnds.inj he
        exact hne (hdc ▸ hf.1.symm)
      · intro i hi
        show slotOf (m.world.endTask d how) c = some i
        rw [endTask_slotOf]
        exact hi
    · refine ⟨m, ?_, rfl, rfl, fun i hi => hi⟩
      rw [move_same hqp ?_ (fun d how hf => hfin ⟨d, how, hf⟩)]
      · exact hq
      · intro he
        rw [he, h.fresh_free hn] at hq
        exact absurd hq (by simp)

/-- **Every step of a tree is a step of its supervisors.** -/
theorem grown_step {F F' : Forest} {e : TreeEvent} (h : Grown F) (hs : treeStep F e = some F') :
    Grown F' := by
  cases e with
  | tick d =>
      obtain rfl := Option.some.inj hs
      refine ⟨?_, ?_⟩
      · intro p n hn
        obtain ⟨m, hm, rfl⟩ := Option.map_eq_some_iff.mp hn
        obtain ⟨_, hrun⟩ := h.reachable p m hm
        exact ⟨_, Run.snoc hrun (e := .tick d) rfl⟩
      · intro c q n hn
        obtain ⟨k, hk, rfl⟩ := Option.map_eq_some_iff.mp hn
        obtain ⟨m, hm, hrest⟩ := h.recorded c q k hk
        exact ⟨_, Option.map_eq_some_iff.mpr ⟨m, hm, rfl⟩, hrest⟩
  | act p e =>
      obtain ⟨n, w, hn, hallow, hw, rfl⟩ := treeStep_act hs
      refine ⟨fun r m hm => grown_reachable_act h hn hallow hw hm, ?_⟩
      intro c q k hk
      cases move_cases hk with
      | self =>
          obtain ⟨m, hm, hend, i, spec, hslot, hspec, hfac⟩ := h.recorded _ _ _ hn
          by_cases hlive : n.world.pc.live = true
          · cases hnew : w.pc.ending with
            | some how =>
                have hf : Finishes (c :: q) n w q c how := ⟨rfl, ending_none.mpr hlive, hnew⟩
                refine ⟨_, move_parent hm hf, ?_, i, spec, ?_, hspec, hfac⟩
                · show (m.world.endTask c how).endingOf c = some how
                  rw [endTask_endingOf (slotOf_lt hslot), if_pos rfl]
                · show slotOf (m.world.endTask c how) c = some i
                  rw [endTask_slotOf]
                  exact hslot
            | none =>
                refine ⟨m, ?_, ?_, i, spec, hslot, hspec, hfac⟩
                · rw [move_same (path_ne_cons q c) (path_ne_cons_cons q c _), hm]
                  intro d how hf
                  rw [hf.2.2] at hnew
                  exact absurd hnew (by simp)
                · rw [hend]
                  exact ending_none.mpr hlive
          · have hover : n.world.pc.live = false := Bool.eq_false_iff.mpr hlive
            have hpc := pc_step_of_over hover hw
            refine ⟨m, ?_, ?_, i, spec, hslot, hspec, hfac⟩
            · rw [move_same (path_ne_cons q c) (path_ne_cons_cons q c _), hm]
              intro d how hf
              exact hlive (ending_none.mp hf.2.1)
            · rw [hend]
              show n.world.pc.ending = w.pc.ending
              rw [hpc]
      | fresh hfresh =>
          cases hfresh with
          | @mk s hst =>
              have hinv : Inv n.sup w := inv_step (h.inv hn) hw
              obtain ⟨hrun, i, spec, hslot, hspec, hfac⟩ := started_cases hw hinv hst
              refine ⟨_, move_self F p n w, ?_, i, spec, hslot, hspec, hfac⟩
              rw [hrun]
              exact (ending_none.mpr (start_live _ _)).symm
      | @parent _ m d how hq hf =>
          -- the parent that records an end goes on itself
          obtain ⟨g, hg, hend, i, spec, hslot, hrest⟩ := h.recorded _ _ _ hq
          have hne : c :: q ≠ p := fun he => path_ne_cons _ d (he.trans hf.1)
          obtain ⟨g', hg', hsup, hend', hslot'⟩ := parent_keeps h hn hallow hw hg hq hne
          refine ⟨g', hg', hend'.trans hend, i, spec, hslot' i hslot, ?_⟩
          rw [hsup]
          exact hrest
      | same hk hne _ =>
          obtain ⟨g, hg, hend, i, spec, hslot, hrest⟩ := h.recorded _ _ _ hk
          obtain ⟨g', hg', hsup, hend', hslot'⟩ := parent_keeps h hn hallow hw hg hk hne
          refine ⟨g', hg', hend'.trans hend, i, spec, hslot' i hslot, ?_⟩
          rw [hsup]
          exact hrest

theorem grown_reachable {root : Supervisor Factory} {F : Forest}
    {tr : List (Forest × TreeEvent)} (h : Run treeStep (Forest.init root) tr F) : Grown F :=
  h.invariant (grown_init root) (fun _ _ _ hg hs => grown_step hg hs)

end ErlangActors.Proof
