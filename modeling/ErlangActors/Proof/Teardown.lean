import ErlangActors.Proof.Forest
import ErlangActors.Proof.Orphans

/-!
# Tearing down a subtree

A supervisor's task that is aborted, or in which a factory panics, ends without
returning from `run_supervisor`. What that drops is the slots, whose `AbortHandle`s
abort nothing when dropped, and the `JoinSet`, which aborts the forwarders; each
forwarder drops the `JoinHandle` of a child, which detaches it. The children run on.
Only the escalation branch aborts them, and it is not taken.

So nothing below such a supervisor is aborted by its end, and what the end leaves
settled is exactly what was settled before. `Disturbs` names the two ways a tree can
come to have a task running, not aborted, below a supervisor torn down.
-/

namespace ErlangActors.Proof

open Supervision Transition

/-- The task ended without returning from `run_supervisor`. -/
def tornDown : Pc → Bool
  | .unwound _ => true
  | .cut => true
  | _ => false

/-- The supervisor at `p` was torn down. -/
def Torn (F : Forest) (p : Path) : Prop := ∃ n, F p = some n ∧ tornDown n.world.pc = true

/-- Every task that the supervisor at `p`, or any supervisor below it, has started has ended or
has had its abort requested. -/
def Settled (F : Forest) (p : Path) : Prop :=
  ∀ q n, p <:+ q → F q = some n → NoOrphan n.world

/-- Tearing down a subtree tears down all of it. -/
def CleanTeardown (F : Forest) : Prop := ∀ p, Torn F p → Settled F p

/-- The supervisor is about to call a factory. -/
def AtFactory {φ : Type} (w : World φ) : Prop :=
  (∃ i, w.pc = .starting i) ∨ ∃ i rest, w.pc = .respawning i rest

/-- A supervisor is torn down while a task at or below it runs, its abort not requested; or one
below a supervisor already torn down starts another. -/
def Disturbs (F : Forest) : TreeEvent → Prop
  | .act p .cutOff => ¬ Settled F p
  | .act p .factoryPanics => ¬ Settled F p
  | .act p .advance => (∃ n, F p = some n ∧ AtFactory n.world) ∧ ∃ a, a <:+ p ∧ Torn F a
  | _ => False

/-! ## One supervisor -/

section Local

variable {φ : Type} {sup : Supervisor φ} {w w' : World φ} {e : Event}

/-- Only a factory call adds a task. -/
theorem tasks_length_step (hs : step sup w e = some w') (hno : e = .advance → ¬ AtFactory w) :
    w'.tasks.length = w.tasks.length := by
  have hm := step_moves hs
  cases hm with
  | @spawn i _ hpc _ => exact absurd (Or.inl ⟨i, hpc⟩) (hno rfl)
  | abort _ _ => exact abortTasks_length _ _
  | @respawn i rest _ hpc _ => exact absurd (Or.inr ⟨i, rest, hpc⟩) (hno rfl)
  | escalate _ _ _ _ _ _ => exact abortTasks_length _ _
  | ends _ _ _ => exact List.length_modify ..
  | _ => rfl

/-- Nothing that has ended or been aborted comes back; only a factory call starts something. -/
theorem noOrphan_step (h : NoOrphan w) (hs : step sup w e = some w')
    (hno : e = .advance → ¬ AtFactory w) : NoOrphan w' := by
  intro c hc
  rw [tasks_length_step hs hno] at hc
  rcases h c hc with hend | hreq
  · obtain ⟨how, hhow⟩ := Option.isSome_iff_exists.mp hend
    rw [endingOf_step hhow hs]
    exact Or.inl rfl
  · exact Or.inr (abortReq_step hreq hs)

/-- A task just started runs, and nobody has asked for its abort yet. -/
theorem spawnChild_orphan (i : Nat) (spec : ChildSpec φ) (pc : Pc) :
    ¬ NoOrphan ((w.spawnChild i spec).goto pc) := by
  intro h
  have hlt : w.tasks.length < ((w.spawnChild i spec).goto pc).tasks.length := by
    show w.tasks.length < (w.tasks ++ [_]).length
    rw [List.length_append, List.length_singleton]
    omega
  rcases h _ hlt with hend | hreq
  · rw [goto_endingOf, spawnChild_endingOf] at hend
    unfold World.endingOf at hend
    rw [List.getElem?_eq_none (Nat.le_refl _)] at hend
    exact Bool.noConfusion hend
  · rw [goto_abortReq, spawnChild_abortReq] at hreq
    unfold abortReq at hreq
    rw [List.getElem?_eq_none (Nat.le_refl _)] at hreq
    exact Bool.noConfusion hreq

theorem atFactory_orphan (hi : Inv sup w) (hat : AtFactory w)
    (hs : step sup w .advance = some w') : ¬ NoOrphan w' := by
  have hm := step_moves hs
  cases hm with
  | spawn _ _ => exact spawnChild_orphan _ _ _
  | abort hpc _ =>
      rcases hat with ⟨i, hat⟩ | ⟨i, rest, hat⟩ <;> rw [hpc] at hat <;> exact Pc.noConfusion hat
  | respawn _ _ => exact spawnChild_orphan _ _ _
  | leave hl =>
      cases hl with
      | badIndex hpc hslot => exact (hi.no_badIndex hpc hslot).elim

/-- The two events that end a supervisor's task without a return. -/
def Tears (e : Event) : Prop := e = .cutOff ∨ e = .factoryPanics

theorem tears_step (ht : Tears e) (hs : step sup w e = some w') :
    tornDown w'.pc = true ∧ w'.tasks = w.tasks := by
  rcases ht with rfl | rfl
  · cases step_moves hs with
    | leave hl => cases hl; exact ⟨rfl, rfl⟩
  · cases step_moves hs with
    | leave hl => cases hl; exact ⟨rfl, rfl⟩

/-- And there are no others. -/
theorem tears_of_torn (hi : Inv sup w) (hs : step sup w e = some w')
    (hold : tornDown w.pc = false) (hnew : tornDown w'.pc = true) : Tears e := by
  have hstay : w'.pc = w.pc → Tears e := by
    intro he
    rw [he, hold] at hnew
    exact Bool.noConfusion hnew
  have hlive : ∀ {pc : Pc}, pc.live = true → tornDown pc = false := by
    intro pc hpc
    cases pc <;> simp_all [Pc.live, tornDown]
  have hgo : w'.pc.live = true → Tears e := by
    intro he
    rw [hlive he] at hnew
    exact Bool.noConfusion hnew
  have hm := step_moves hs
  cases hm with
  | spawn _ _ => exact hgo (start_live _ _)
  | abort _ _ => exact hgo rfl
  | respawn _ _ => exact hgo (pass_live _)
  | @badReport f how _ hf hslot =>
      exact (hi.no_badReport hf hslot).elim
  | ignore _ _ _ _ _ => exact hstay rfl
  | escalate _ _ _ _ _ _ => exact Bool.noConfusion hnew
  | pass _ _ _ _ _ _ => exact hgo (pass_live _)
  | leave hl =>
      cases hl with
      | factoryPanics _ => exact Or.inr rfl
      | badIndex hpc hslot => exact (hi.no_badIndex hpc hslot).elim
      | forwarder _ _ _ => exact Bool.noConfusion hnew
      | stopped _ _ _ => exact Bool.noConfusion hnew
      | cutOff _ => exact Or.inl rfl
  | spin _ _ _ => exact hstay rfl
  | ends _ _ _ => exact hstay rfl
  | tick => exact hstay rfl

end Local

/-! ## The tree -/

/-- A supervisor that has started nothing has no orphan. -/
theorem noOrphan_init {φ : Type} (sup : Supervisor φ) : NoOrphan (World.init sup) :=
  fun c hc => absurd hc (Nat.not_lt_zero c)

/-- What a step leaves of a node that is not the one taking it. -/
theorem move_other {F : Forest} (h : Grown F) {p : Path} {n : Node} {w : World Factory} {e : Event}
    (hn : F p = some n) (hallow : F.allows p e = true) (hs : step n.sup n.world e = some w)
    {r : Path} {m' : Node} (hr : (F.move p n w) r = some m') (hne : r ≠ p) :
    m'.world = World.init m'.sup ∨ ∃ m, F r = some m ∧ m'.world.pc = m.world.pc
      ∧ (NoOrphan m.world → NoOrphan m'.world) := by
  cases move_cases hr with
  | self => exact absurd rfl hne
  | fresh hfresh =>
      cases hfresh with
      | mk _ => exact Or.inl rfl
  | parent hq hf =>
      refine Or.inr ⟨_, hq, rfl, fun hno => noOrphan_step hno
        (h.finish_step hn hallow hs hq hf) (fun he => Event.noConfusion he)⟩
  | same hr _ _ => exact Or.inr ⟨_, hr, rfl, fun hno => hno⟩

/-- A node elsewhere keeps its place and its program counter. -/
theorem move_keeps {F : Forest} (h : Grown F) {p : Path} {n : Node} (w : World Factory)
    (hn : F p = some n) {r : Path} {m : Node} (hr : F r = some m) (hne : r ≠ p) :
    ∃ m', (F.move p n w) r = some m' ∧ m'.world.pc = m.world.pc := by
  by_cases hfin : ∃ c how, Finishes p n w r c how
  · obtain ⟨c, how, hf⟩ := hfin
    exact ⟨_, move_parent hr hf, rfl⟩
  · refine ⟨m, ?_, rfl⟩
    rw [move_same hne ?_ (fun c how hf => hfin ⟨c, how, hf⟩), hr]
    intro he
    rw [he, h.fresh_free hn] at hr
    exact absurd hr (by simp)

/-- A node below the one taking the step does not notice it. -/
theorem move_below {F : Forest} (h : Grown F) {p : Path} {n : Node} (w : World Factory)
    (hn : F p = some n) {r : Path} {m : Node} (hr : F r = some m) (hbelow : p <:+ r)
    (hne : r ≠ p) : (F.move p n w) r = some m := by
  rw [move_same hne, hr]
  · intro he
    rw [he, h.fresh_free hn] at hr
    exact absurd hr (by simp)
  · intro c how hf
    -- a parent is not below its child
    have hlen := hbelow.length_le
    rw [hf.1, List.length_cons] at hlen
    omega

/-- **Tearing a supervisor down settles nothing.** -/
theorem settled_tear_iff {F F' : Forest} (h : Grown F) {p : Path} {e : Event} (ht : Tears e)
    (hs : treeStep F (.act p e) = some F') : Settled F' p ↔ Settled F p := by
  obtain ⟨n, w, hn, hallow, hw, rfl⟩ := treeStep_act hs
  have htasks := (tears_step ht hw).2
  have hsame : NoOrphan w ↔ NoOrphan n.world := by
    unfold NoOrphan World.endingOf abortReq
    rw [htasks]
  refine ⟨?_, ?_⟩
  · intro hset r m hbelow hr
    by_cases hrp : r = p
    · subst hrp
      obtain rfl := Option.some.inj (hn.symm.trans hr)
      exact hsame.mp (hset _ _ hbelow (move_self F r n w))
    · exact hset r m hbelow (move_below h w hn hr hbelow hrp)
  · intro hset r m' hbelow hr
    by_cases hrp : r = p
    · subst hrp
      obtain rfl := Option.some.inj ((move_self F r n w).symm.trans hr)
      exact hsame.mpr (hset r n hbelow hn)
    · rcases move_other h hn hallow hw hr hrp with hinit | ⟨m, hm, _, hno⟩
      · rw [hinit]
        intro c hc
        exact absurd hc (Nat.not_lt_zero c)
      · exact hno (hset r m hbelow hm)

theorem init_untorn (sup : Supervisor Factory) : tornDown (World.init sup).pc = false := by
  have hlive := start_live sup.children.length 0
  show tornDown (Pc.start sup.children.length 0) = false
  cases hst : Pc.start sup.children.length 0 <;> rw [hst] at hlive <;>
    first | rfl | exact Bool.noConfusion hlive

/-- A supervisor is torn down in the step that tears it down, or was before. -/
theorem torn_move {F : Forest} (h : Grown F) {p : Path} {n : Node} {w : World Factory} {e : Event}
    (hn : F p = some n) (hallow : F.allows p e = true) (hs : step n.sup n.world e = some w)
    {a : Path} (ht : Torn (F.move p n w) a) : Torn F a ∨ a = p ∧ Tears e := by
  obtain ⟨m', hm', htorn⟩ := ht
  by_cases hap : a = p
  · subst hap
    obtain rfl := Option.some.inj ((move_self F a n w).symm.trans hm')
    cases hold : tornDown n.world.pc with
    | true => exact Or.inl ⟨n, hn, hold⟩
    | false => exact Or.inr ⟨rfl, tears_of_torn (h.inv hn) hs hold htorn⟩
  · rcases move_other h hn hallow hs hm' hap with hinit | ⟨m, hm, hpc, _⟩
    · rw [hinit, init_untorn] at htorn
      exact Bool.noConfusion htorn
    · rw [hpc] at htorn
      exact Or.inl ⟨m, hm, htorn⟩

theorem settled_init (root : Supervisor Factory) (p : Path) : Settled (Forest.init root) p := by
  intro q n _ hq
  unfold Forest.init at hq
  split at hq
  · obtain rfl := Option.some.inj hq
    exact noOrphan_init root
  · exact absurd hq (by simp)

/-- **A step keeps every teardown clean exactly if it does not disturb one.** -/
theorem cleanTeardown_step_iff {F F' : Forest} {e : TreeEvent} (h : Grown F)
    (hclean : CleanTeardown F) (hs : treeStep F e = some F') :
    CleanTeardown F' ↔ ¬ Disturbs F e := by
  cases e with
  | tick d =>
      obtain rfl := Option.some.inj hs
      refine ⟨fun _ hd => hd, fun _ a ht r m' hbelow hr => ?_⟩
      obtain ⟨k', hk', htorn⟩ := ht
      obtain ⟨k, hk, rfl⟩ := Option.map_eq_some_iff.mp hk'
      obtain ⟨m, hm, rfl⟩ := Option.map_eq_some_iff.mp hr
      exact hclean a ⟨k, hk, htorn⟩ r m hbelow hm
  | act p e =>
      have hs' := hs
      obtain ⟨n, w, hn, hallow, hw, rfl⟩ := treeStep_act hs
      refine ⟨?_, ?_⟩
      · intro hclean' hd
        have hself : ∀ {a}, a <:+ p → Torn (F.move p n w) a → NoOrphan w :=
          fun hap ht => hclean' _ ht p _ hap (move_self F p n w)
        have htears : Tears e → Settled F p := by
          intro ht
          have htorn : Torn (F.move p n w) p :=
            ⟨_, move_self F p n w, (tears_step ht hw).1⟩
          exact (settled_tear_iff h ht hs').mp (hclean' p htorn)
        cases e with
        | cutOff => exact hd (htears (Or.inl rfl))
        | factoryPanics => exact hd (htears (Or.inr rfl))
        | advance =>
            obtain ⟨⟨n', hn', hat⟩, a, hap, ha⟩ := hd
            obtain rfl := Option.some.inj (hn.symm.trans hn')
            obtain ⟨k, hk, htorn⟩ := ha
            have hne : a ≠ p := by
              rintro rfl
              obtain rfl := Option.some.inj (hn.symm.trans hk)
              rcases hat with ⟨i, hat⟩ | ⟨i, rest, hat⟩ <;> rw [hat] at htorn <;>
                exact Bool.noConfusion htorn
            obtain ⟨k', hk', hpc⟩ := move_keeps h w hn hk hne
            exact atFactory_orphan (h.inv hn) hat hw
              (hself hap ⟨k', hk', by rw [hpc]; exact htorn⟩)
        | _ => exact hd
      · intro hnd a ht
        have hor := torn_move h hn hallow hw ht
        have hset : Settled F a := by
          rcases hor with ha | ⟨rfl, rfl | rfl⟩
          · exact hclean a ha
          · exact not_not.mp hnd
          · exact not_not.mp hnd
        intro r m' hbelow hr
        by_cases hrp : r = p
        · subst hrp
          obtain rfl := Option.some.inj ((move_self F r n w).symm.trans hr)
          refine noOrphan_step (hset r n hbelow hn) hw ?_
          -- nobody below a supervisor torn down starts anything
          intro he hat
          subst he
          rcases hor with ha | ⟨_, he | he⟩
          · exact hnd ⟨⟨n, hn, hat⟩, a, hbelow, ha⟩
          · exact Event.noConfusion he
          · exact Event.noConfusion he
        · rcases move_other h hn hallow hw hr hrp with hinit | ⟨m, hm, _, hno⟩
          · rw [hinit]
            intro c hc
            exact absurd hc (Nat.not_lt_zero c)
          · exact hno (hset r m hbelow hm)

/--
**Tearing down.** A supervisor's task that ends without returning leaves settled, at
and below it, exactly what was settled before. So in a run of a tree everything below
every supervisor torn down stays settled exactly if no step of the run tears one down
over a running task, or starts a task below one torn down.
-/
theorem teardown_iff {root : Supervisor Factory} {F : Forest} {tr : List (Forest × TreeEvent)}
    (h : Run treeStep (Forest.init root) tr F) :
    (∀ X p e X', (X, TreeEvent.act p e) ∈ tr → Tears e → treeStep X (.act p e) = some X' →
        Torn X' p ∧ (Settled X' p ↔ Settled X p))
      ∧ ((∀ X, Visits tr F X → CleanTeardown X) ↔ ∀ p ∈ tr, ¬ Disturbs p.1 p.2) := by
  refine ⟨?_, ?_⟩
  · intro X p e X' hX ht hs
    obtain ⟨_, _, _, hrun, _, _⟩ := h.split hX
    refine ⟨?_, settled_tear_iff (grown_reachable hrun) ht hs⟩
    obtain ⟨n, w, _, _, hw, rfl⟩ := treeStep_act hs
    exact ⟨_, move_self X p n w, (tears_step ht hw).1⟩
  · exact h.always_iff (R := Grown) (P := CleanTeardown) (C := fun F e => ¬ Disturbs F e)
      (grown_init root) (fun _ _ _ hg hs => grown_step hg hs) (fun p _ => settled_init root p)
      (fun _ _ _ hg hc hs => cleanTeardown_step_iff hg hc hs)

/-! ## A nested supervisor restarted -/

/-- A worker, and after it `inner` with a worker of its own. -/
def workerInner : Supervisor Factory :=
  let inner : Supervisor Factory := (Supervisor.new (.defaultOneForOne "inner")).child
    ⟨"worker", .permanent, .task⟩
  ((Supervisor.new ⟨"outer", .restForOne, 5, 10⟩).child ⟨"first", .permanent, .task⟩).child
    (intoChildSpec inner "inner" .permanent)

/-- Where nothing has torn a supervisor down yet, nothing has disturbed one. -/
theorem undisturbed {root : Supervisor Factory} {F : Forest} {tr : List (Forest × TreeEvent)}
    (h : Run treeStep (Forest.init root) tr F)
    (hno : ∀ x ∈ tr, ∀ p, x.2 ≠ .act p .cutOff ∧ x.2 ≠ .act p .factoryPanics) :
    (∀ a, ¬ Torn F a) ∧ ∀ x ∈ tr, ¬ Disturbs x.1 x.2 := by
  induction h with
  | nil =>
      refine ⟨?_, fun x hx => absurd hx List.not_mem_nil⟩
      rintro a ⟨n, hn, htorn⟩
      unfold Forest.init at hn
      split at hn
      · obtain rfl := Option.some.inj hn
        exact Bool.noConfusion ((init_untorn root).symm.trans htorn)
      · exact absurd hn (by simp)
  | @snoc tr F F' e hr hs ih =>
      obtain ⟨hfree, hold⟩ := ih fun x hx => hno x (List.mem_append_left _ hx)
      have hlast := hno (F, e) (List.mem_append_right _ (List.mem_singleton.mpr rfl))
      refine ⟨fun a ht => ?_, fun x hx => ?_⟩
      · cases e with
        | tick d =>
            obtain rfl := Option.some.inj hs
            obtain ⟨k', hk', htorn⟩ := ht
            obtain ⟨k, hk, rfl⟩ := Option.map_eq_some_iff.mp hk'
            exact hfree a ⟨k, hk, htorn⟩
        | act p e =>
            obtain ⟨n, w, hn, hallow, hw, rfl⟩ := treeStep_act hs
            rcases torn_move (grown_reachable hr) hn hallow hw ht with hbefore | ⟨_, rfl | rfl⟩
            · exact hfree a hbefore
            · exact (hlast p).1 rfl
            · exact (hlast p).2 rfl
      · rcases List.mem_append.mp hx with hx | hx
        · exact hold x hx
        · obtain rfl := List.mem_singleton.mp hx
          cases e with
          | tick d => exact id
          | act p e =>
              cases e with
              | cutOff => exact absurd rfl (hlast p).1
              | factoryPanics => exact absurd rfl (hlast p).2
              | advance => exact fun hd => hd.2.elim fun a ha => hfree a ha.2
              | _ => exact id

/-- A supervisor that nests no other is settled if it leaves no orphan itself. -/
theorem settled_of_leaf {F : Forest} (h : Grown F) {p : Path} {n : Node} (hn : F p = some n)
    (hleaf : ∀ c, c < n.world.tasks.length → F (c :: p) = none) (hno : NoOrphan n.world) :
    Settled F p := by
  have hnone : ∀ (t : Path) (m : Node), F (t ++ p) = some m → t = [] := by
    intro t
    induction t with
    | nil => exact fun _ _ => rfl
    | cons c t ih =>
        intro m hm
        obtain ⟨m', hm', _, i, _, hslot, _⟩ := h.recorded _ _ _ hm
        obtain rfl := ih m' hm'
        obtain rfl := Option.some.inj (hn.symm.trans hm')
        rw [List.cons_append, List.nil_append, hleaf c (slotOf_lt hslot)] at hm
        exact absurd hm (by simp)
  rintro q m ⟨t, rfl⟩ hq
  obtain rfl := hnone t m hq
  obtain rfl := Option.some.inj (hn.symm.trans hq)
  exact hno

/-- `inner`'s worker panics, is restarted and panics again; then the first worker does, and `outer`
asks for `inner`'s abort and starts both again. -/
def innerDone : List TreeEvent :=
  [.act [] .advance, .act [] .advance, .act [1] .advance, .act [1] (.childEnds 0 .panicked),
    .act [1] (.joinNext ⟨0, 0⟩), .act [1] .advance, .act [1] .advance,
    .act [1] (.childEnds 1 .panicked), .act [] (.childEnds 0 .panicked),
    .act [] (.joinNext ⟨0, 0⟩), .act [] .advance, .act [] .advance, .act [] .advance,
    .act [] .advance]

def afterInnerDone : Forest := after treeStep (Forest.init workerInner) innerDone

theorem afterInnerDone_run : Run treeStep (Forest.init workerInner)
    (traceOf treeStep (Forest.init workerInner) innerDone) afterInnerDone :=
  Run.after (by decide +kernel)

theorem innerDone_isSome : (afterInnerDone [1]).isSome = true := by decide +kernel

/-- The abort takes, and of the tasks `inner` started there is none left to run on. -/
theorem teardown_iff_innerDone :
    CleanTeardown (after treeStep (Forest.init workerInner)
      (innerDone ++ [.act [1] .cutOff])) := by
  have hcut : treeStep afterInnerDone (.act [1] .cutOff)
      = some (after treeStep (Forest.init workerInner) (innerDone ++ [.act [1] .cutOff])) := rfl
  have hsettled : Settled afterInnerDone [1] :=
    settled_of_leaf (grown_reachable afterInnerDone_run) (Option.some_get innerDone_isSome).symm
      (by decide +kernel) (by decide +kernel)
  have hbefore := (undisturbed afterInnerDone_run fun x hx p => by
    have hmem := mem_of_traceOf hx
    revert hmem
    generalize x.2 = e
    rintro hmem
    constructor <;> rintro rfl <;> simp [innerDone] at hmem).2
  refine (teardown_iff (Run.snoc afterInnerDone_run hcut)).2.mpr (fun x hx => ?_) _ Visits.last
  rcases List.mem_append.mp hx with hx | hx
  · exact hbefore x hx
  · obtain rfl := List.mem_singleton.mp hx
    exact not_not.mpr hsettled

/-- The first worker panics; `outer` aborts `inner`, starts both again, and the abort takes. -/
def innerRestarted : List TreeEvent :=
  [.act [] .advance, .act [] .advance, .act [1] .advance, .act [] (.childEnds 0 .panicked),
    .act [] (.joinNext ⟨0, 0⟩), .act [] .advance, .act [] .advance, .act [] .advance,
    .act [] .advance, .act [1] .cutOff, .act [3] .advance]

theorem innerRestarted_possible :
    (exec treeStep (Forest.init workerInner) innerRestarted).isSome = true := by decide +kernel

def afterInnerRestarted : Forest :=
  after treeStep (Forest.init workerInner) innerRestarted

theorem oldInner_isSome : (afterInnerRestarted [1]).isSome = true := by decide +kernel

/-- The old `inner`'s worker runs on beside the new one's, and nobody asked for its abort. -/
theorem teardown_iff_innerRestarted :
    ¬ ∀ (root : Supervisor Factory) (tr : List (Forest × TreeEvent)) (F : Forest),
      Run treeStep (Forest.init root) tr F → CleanTeardown F := by
  intro hall
  have hold : afterInnerRestarted [1] = some ((afterInnerRestarted [1]).get oldInner_isSome) :=
    (Option.some_get _).symm
  have hno := hall _ _ afterInnerRestarted (Run.after innerRestarted_possible) [1]
    ⟨_, hold, by decide +kernel⟩ [1] _ List.suffix_rfl hold
  exact absurd hno (by decide +kernel)

end ErlangActors.Proof
