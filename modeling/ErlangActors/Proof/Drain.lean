import ErlangActors.Proof.Callers
import Mathlib.Data.Fintype.EquivFin

/-!
# The correlation-ID protocol comes to rest

Where `deadlock_bad.rs` sends its requests round for ever, here every request takes a
bounded way: to A, to B, back to A, and out. `work` is what A and B have still to do for
the requests there are. Every step of theirs uses up some of it and only a new call brings
more, so they stop; and where neither has anything to do, nothing is left on its way.
What the two mailboxes must hold for nothing to be lost on that way is the other half.
-/

namespace ErlangActors.Proof

open Channel DeadlockGood Transition

variable {s s' : System} {e : Event}

/-- A step of A or of B. -/
def ofActors : Event → Bool
  | .aReceives => true
  | .aHandles _ => true
  | .bReceives => true
  | .bHandles => true
  | _ => false

/-! ## The work left -/

/-- The steps it takes from A handling the message to its answer. -/
def stepsFrom : AMsg → Nat
  | .startCallB _ => 5
  | .bResponse _ _ => 1

/-- What the messages at one actor have still before them, if `W` is what each has from its handler
on: a queued one has to be received first. -/
def backlog {μ : Type} (W : μ → Nat) (hand : Option μ) (queue : List μ) : Nat :=
  ((hand.toList ++ queue).map W).sum + queue.length

def inA (s : System) : Nat := backlog stepsFrom s.aHandling s.aMailbox.queue

def inB (s : System) : Nat := backlog (fun _ => 3) s.bHandling s.bMailbox.queue

/-- The steps A and B have still to take, if no `tell` of theirs fails. -/
def work (s : System) : Nat := inA s + inB s + 6 * s.sending.length

section
variable {μ : Type} {W : μ → Nat} {hand hand' : Option μ} {queue queue' : List μ} {m : μ}

theorem backlog_same (hhand : hand' = hand) (hmail : queue' = queue) :
    backlog W hand' queue' = backlog W hand queue := by rw [hhand, hmail]

theorem backlog_sent (hhand : hand' = hand) (hmail : queue' = queue ++ [m]) :
    backlog W hand' queue' = backlog W hand queue + W m + 1 := by
  unfold backlog
  rw [hhand, hmail, ← List.append_assoc, List.map_append, List.sum_append, List.length_append]
  simp only [List.map_cons, List.map_nil, List.sum_singleton, List.length_singleton]
  omega

theorem backlog_received (hnone : hand = none) (hsome : hand' = some m)
    (hmail : queue = m :: queue') : backlog W hand' queue' + 1 = backlog W hand queue := by
  unfold backlog
  rw [hnone, hsome, hmail, List.length_cons]
  show _ + 1 = ((m :: queue').map W).sum + _
  simp only [Option.toList_some, List.singleton_append]
  omega

theorem backlog_handled (hsome : hand = some m) (hnone : hand' = none) (hmail : queue' = queue) :
    backlog W hand' queue' + W m = backlog W hand queue := by
  unfold backlog
  rw [hnone, hsome, hmail]
  simp only [Option.toList_some, Option.toList_none, List.singleton_append, List.nil_append,
    List.map_cons, List.sum_cons]
  omega

end

/-- Answering a caller is no work for anybody. -/
theorem work_answer (s : System) (id : Uuid) (payload : String) :
    work (s.answer id payload) = work s ∧ (s.answer id payload).calls = s.calls
      ∧ (s.answer id payload).sending = s.sending := by
  unfold System.answer
  cases s.pending.lookup id with
  | none => exact ⟨rfl, rfl, rfl⟩
  | some r => exact ⟨rfl, rfl, rfl⟩

/-- A has begun to handle a `StartCallB`. -/
theorem work_stashed {r : Reply} (id : Uuid) (hhand : s.aHandling = some (.startCallB r)) :
    work (stashed s r id) + 5 = work s := by
  have hA : inA (stashed s r id) + 5 = inA s := backlog_handled hhand rfl rfl
  have hB : inB (stashed s r id) = inB s := rfl
  have hline : (stashed s r id).sending.length = s.sending.length := rfl
  unfold work
  omega

/-- How A's handling of a `StartCallB` ends: not with B registered; the request told; or the
caller told that it cannot be. -/
theorem startCallB_cases {r : Reply} {id : Uuid}
    (hs' : s' = { s with aHandling := none }.startCallB r id) :
    s' = stashed s r id
      ∨ (∃ c, s.bMailbox.trySend (.aRequest id) = .ok c
        ∧ s' = { stashed s r id with bMailbox := c })
      ∨ ∃ err, s.bMailbox.trySend (.aRequest id) = .error err
        ∧ s' = (stashed s r id).answer id "B unreachable" := by
  cases hreg : s.bRegistered with
  | false => exact Or.inl (by rw [hs']; simp [System.startCallB, stashed, hreg])
  | true =>
      cases hc : s.bMailbox.trySend (.aRequest id) with
      | ok c =>
          exact Or.inr (Or.inl ⟨c, rfl, by rw [hs']; simp [System.startCallB, stashed, hreg, hc]⟩)
      | error err =>
          exact Or.inr (Or.inr ⟨err, rfl, by rw [hs']; simp [System.startCallB, stashed, hreg, hc]⟩)

/-- A's handler. -/
theorem work_aHandles {id : Uuid} (hs : step s (.aHandles id) = some s') :
    work s' + 1 ≤ work s ∧ s'.calls = s.calls ∧ s'.sending = s.sending := by
  obtain ⟨m, hhand, hs⟩ := Option.bind_eq_some_iff.mp hs
  split at hs
  · have hs' := (Option.some.inj hs).symm
    cases m with
    | bResponse id' payload =>
        obtain ⟨hwork, hsame⟩ := work_answer { s with aHandling := none } id' payload
        have hleft : work { s with aHandling := none } + 1 = work s := by
          have hA : inA { s with aHandling := none } + 1 = inA s := backlog_handled hhand rfl rfl
          unfold work
          show inA { s with aHandling := none } + inB s + 6 * s.sending.length + 1 = _
          omega
        rw [hs']
        exact ⟨by rw [System.aHandle, hwork]; omega, hsame⟩
    | startCallB r =>
        have hwork := work_stashed id hhand
        rcases startCallB_cases hs' with rfl | ⟨c, hc, rfl⟩ | ⟨_, _, rfl⟩
        · exact ⟨by omega, rfl, rfl⟩
        · have hA : inA { stashed s r id with bMailbox := c } = inA (stashed s r id) := rfl
          have hB : inB { stashed s r id with bMailbox := c } = inB (stashed s r id) + 3 + 1 :=
            backlog_sent rfl (Chan.trySend_queue hc)
          refine ⟨?_, rfl, rfl⟩
          unfold work at hwork ⊢
          show inA { stashed s r id with bMailbox := c } + inB { stashed s r id with bMailbox := c }
            + 6 * (stashed s r id).sending.length + 1 ≤ _
          omega
        · obtain ⟨hsame, hrest⟩ := work_answer (stashed s r id) id "B unreachable"
          exact ⟨by omega, hrest⟩
  · exact absurd hs (by simp)

/-- **A step of A or B uses up work**, -/
theorem work_own (he : ofActors e = true) (hs : step s e = some s') :
    work s' + 1 ≤ work s ∧ s'.calls = s.calls ∧ s'.sending = s.sending := by
  cases e with
  | registerB => exact Bool.noConfusion he
  | callTell => exact Bool.noConfusion he
  | callAsk => exact Bool.noConfusion he
  | callSends r => exact Bool.noConfusion he
  | callCancelled r => exact Bool.noConfusion he
  | aHandles id => exact work_aHandles hs
  | aReceives =>
      rw [step] at hs
      split at hs
      · rename_i hnone
        obtain ⟨⟨m, c⟩, hpop, hs'⟩ := Option.map_eq_some_iff.mp hs
        have hA : inA s' + 1 = inA s := backlog_received hnone (by rw [← hs'])
          (by rw [← hs']; exact Chan.pop_queue hpop)
        have hB : inB s' = inB s := by rw [← hs']; rfl
        have hline : s'.sending = s.sending := by rw [← hs']
        refine ⟨?_, by rw [← hs'], hline⟩
        unfold work
        rw [hline]
        omega
      · exact absurd hs (by simp)
  | bReceives =>
      rw [step] at hs
      split at hs
      · rename_i hnone
        obtain ⟨⟨m, c⟩, hpop, hs'⟩ := Option.map_eq_some_iff.mp hs
        have hA : inA s' = inA s := by rw [← hs']; rfl
        have hB : inB s' + 1 = inB s := backlog_received hnone (by rw [← hs'])
          (by rw [← hs']; exact Chan.pop_queue hpop)
        have hline : s'.sending = s.sending := by rw [← hs']
        refine ⟨?_, by rw [← hs'], hline⟩
        unfold work
        rw [hline]
        omega
      · exact absurd hs (by simp)
  | bHandles =>
      obtain ⟨⟨id⟩, hhand, hs'⟩ := Option.map_eq_some_iff.mp hs
      rw [System.bHandle] at hs'
      split at hs'
      · rename_i c hc
        -- the three steps from B's hands on: this one, and A's two with the answer
        have hfrom : stepsFrom (.bResponse id "hello from B") = 1 := rfl
        have hA : inA s' = inA s + stepsFrom (.bResponse id "hello from B") + 1 :=
          backlog_sent (by rw [← hs']) (by rw [← hs']; exact Chan.trySend_queue hc)
        have hB : inB s' + 3 = inB s := backlog_handled hhand (by rw [← hs']) (by rw [← hs'])
        have hline : s'.sending = s.sending := by rw [← hs']
        refine ⟨?_, by rw [← hs'], hline⟩
        unfold work
        rw [hline]
        omega
      · have hA : inA s' = inA s := by rw [← hs']; rfl
        have hB : inB s' + 3 = inB s := backlog_handled hhand (by rw [← hs']) (by rw [← hs'])
        have hline : s'.sending = s.sending := by rw [← hs']
        refine ⟨?_, by rw [← hs'], hline⟩
        unfold work
        rw [hline]
        omega

/-- **and only a call brings more**, as much as a request takes on its whole way. -/
theorem work_others (he : ofActors e = false) (hs : step s e = some s') :
    work s' + 6 * s.calls ≤ work s + 6 * s'.calls := by
  cases e with
  | aHandles id => exact Bool.noConfusion he
  | aReceives => exact Bool.noConfusion he
  | bReceives => exact Bool.noConfusion he
  | bHandles => exact Bool.noConfusion he
  | registerB => exact Option.some.inj hs ▸ Nat.le_refl _
  | callTell =>
      rw [step] at hs
      split at hs
      · rename_i c hc
        have hs' := (Option.some.inj hs).symm
        -- five steps from A's hands on, and the one that takes it up
        have hfrom : stepsFrom (.startCallB s.calls) = 5 := rfl
        have hA : inA s' = inA s + stepsFrom (.startCallB s.calls) + 1 :=
          backlog_sent (by rw [hs']) (by rw [hs']; exact Chan.trySend_queue hc)
        have hB : inB s' = inB s := by rw [hs']; rfl
        have hline : s'.sending = s.sending := by rw [hs']
        have hcalls : s'.calls = s.calls + 1 := by rw [hs']
        unfold work
        rw [hline, hcalls]
        omega
      · have hs' := (Option.some.inj hs).symm
        have hsame : work s' = work s := by rw [hs']; rfl
        have hcalls : s'.calls = s.calls + 1 := by rw [hs']
        omega
  | callAsk =>
      have hqueue := Chan.startSend_queue s.aMailbox s.calls (.startCallB s.calls)
      rw [step] at hs
      split at hs
      · rename_i c hc
        have hs' := (Option.some.inj hs).symm
        have hfrom : stepsFrom (.startCallB s.calls) = 5 := rfl
        have hA : inA s' = inA s + stepsFrom (.startCallB s.calls) + 1 :=
          backlog_sent (by rw [hs']) (by rw [hs']; exact hqueue.1 c hc)
        have hB : inB s' = inB s := by rw [hs']; rfl
        have hline : s'.sending = s.sending := by rw [hs']
        have hcalls : s'.calls = s.calls + 1 := by rw [hs']
        unfold work
        rw [hline, hcalls]
        omega
      · rename_i c hc
        have hs' := (Option.some.inj hs).symm
        have hA : inA s' = inA s :=
          backlog_same (by rw [hs']) (by rw [hs']; exact hqueue.2 c hc)
        have hB : inB s' = inB s := by rw [hs']; rfl
        -- no room yet: the caller waits in line, with the six steps to come
        have hline : s'.sending.length = s.sending.length + 1 := by
          rw [hs']
          exact List.length_append
        have hcalls : s'.calls = s.calls + 1 := by rw [hs']
        unfold work
        omega
      · have hs' := (Option.some.inj hs).symm
        have hsame : work s' = work s := by rw [hs']; rfl
        have hcalls : s'.calls = s.calls + 1 := by rw [hs']
        omega
  | callSends r =>
      rw [step] at hs
      split at hs
      · rename_i hr
        have hshort := List.length_erase_of_mem hr
        have hpos := List.length_pos_of_mem hr
        split at hs
        · rename_i c hc
          have hs' := (Option.some.inj hs).symm
          -- from the line into the mailbox: the six steps change places
          have hfrom : stepsFrom (.startCallB r) = 5 := rfl
          have hA : inA s' = inA s + stepsFrom (.startCallB r) + 1 :=
            backlog_sent (by rw [hs']) (by rw [hs']; exact Chan.resumeSend_queue hc)
          have hB : inB s' = inB s := by rw [hs']; rfl
          have hline : s'.sending = s.sending.erase r := by rw [hs']
          have hcalls : s'.calls = s.calls := by rw [hs']
          unfold work
          rw [hline, hcalls, hshort]
          omega
        · exact absurd hs (by simp)
        · have hs' := (Option.some.inj hs).symm
          have hA : inA s' = inA s := by rw [hs']; rfl
          have hB : inB s' = inB s := by rw [hs']; rfl
          have hline : s'.sending = s.sending.erase r := by rw [hs']
          have hcalls : s'.calls = s.calls := by rw [hs']
          unfold work
          rw [hline, hcalls, hshort]
          omega
      · exact absurd hs (by simp)
  | callCancelled r =>
      rw [step] at hs
      split at hs
      · rename_i hr
        have hshort := List.length_erase_of_mem hr
        have hs' := (Option.some.inj hs).symm
        have hA : inA s' = inA s :=
          backlog_same (by rw [hs']) (by rw [hs']; exact Chan.cancel_queue ..)
        have hB : inB s' = inB s := by rw [hs']; rfl
        have hline : s'.sending = s.sending.erase r := by rw [hs']
        have hcalls : s'.calls = s.calls := by rw [hs']
        unfold work
        rw [hline, hcalls, hshort]
        omega
      · exact absurd hs (by simp)

/-- Along a run: what A and B have done and have still to do is paid for by the calls. -/
theorem work_run {aBound bBound : Nat} {tr : List (System × Event)}
    (h : Run step (.init aBound bBound) tr s) :
    work s + tr.countP (fun x => ofActors x.2) ≤ 6 * s.calls := by
  induction h with
  | nil => exact Nat.le_refl _
  | @snoc tr s s' e _ hs ih =>
      rw [List.countP_append, List.countP_singleton]
      cases he : ofActors e with
      | true =>
          obtain ⟨hwork, hcalls, _⟩ := work_own he hs
          simp only [if_true]
          omega
      | false =>
          have hwork := work_others he hs
          simp only [Bool.false_eq_true, if_false]
          omega

/-! ## Rest -/

/-- Neither A nor B has a step to take, nor a caller that has its slot. -/
def Drained (s : System) : Prop :=
  (∀ e, ofActors e = true → step s e = none) ∧ ∀ r, step s (.callSends r) = none

/-- The callers that wait are the line of A's mailbox; nobody waits at B's. -/
structure Lined (aBound bBound : Nat) (s : System) : Prop where
  line : s.aMailbox.line = s.sending
  aSlots : s.aMailbox.capacity = aBound
  bSlots : s.bMailbox.capacity = bBound
  bLine : s.bMailbox.line = []

variable {aBound bBound : Nat}

theorem Lined.of_a {c : Chan AMsg Reply} (h : Lined aBound bBound s) (hmail : s'.aMailbox = c)
    (hline : c.line = s'.sending) (hlike : c.Like s.aMailbox) (hb : s'.bMailbox = s.bMailbox) :
    Lined aBound bBound s' where
  line := by rw [hmail, hline]
  aSlots := by rw [hmail, hlike.1, h.aSlots]
  bSlots := by rw [hb, h.bSlots]
  bLine := by rw [hb, h.bLine]

theorem Lined.of_b {c : Chan BMsg Reply} (h : Lined aBound bBound s) (hmail : s'.bMailbox = c)
    (hline : c.line = s.bMailbox.line) (hlike : c.Like s.bMailbox)
    (ha : s'.aMailbox = s.aMailbox) (hsending : s'.sending = s.sending) :
    Lined aBound bBound s' where
  line := by rw [ha, hsending, h.line]
  aSlots := by rw [ha, h.aSlots]
  bSlots := by rw [hmail, hlike.1, h.bSlots]
  bLine := by rw [hmail, hline, h.bLine]

theorem Lined.same {x : System} (h : Lined aBound bBound s) (ha : x.aMailbox = s.aMailbox)
    (hb : x.bMailbox = s.bMailbox) (hsending : x.sending = s.sending) : Lined aBound bBound x :=
  h.of_b hb rfl (Chan.Like.refl _) ha hsending

theorem lined_init (aBound bBound : Nat) : Lined aBound bBound (.init aBound bBound) :=
  ⟨rfl, rfl, rfl, rfl⟩

theorem lined_answer (h : Lined aBound bBound s) (id : Uuid) (payload : String) :
    Lined aBound bBound (s.answer id payload) := by
  unfold System.answer
  cases s.pending.lookup id with
  | none => exact h
  | some r => exact h.same rfl rfl rfl

theorem lined_step (h : Lined aBound bBound s) (hs : step s e = some s') :
    Lined aBound bBound s' := by
  cases e with
  | registerB => exact Option.some.inj hs ▸ h.same rfl rfl rfl
  | callTell =>
      rw [step] at hs
      split at hs
      · rename_i c hc
        exact Option.some.inj hs ▸ h.of_a rfl ((Chan.trySend_line hc).trans h.line)
          (Chan.trySend_like hc) rfl
      · exact Option.some.inj hs ▸ h.same rfl rfl rfl
  | callAsk =>
      rw [step] at hs
      have hline := Chan.startSend_line s.aMailbox s.calls (.startCallB s.calls)
      have hlike := Chan.startSend_like s.aMailbox s.calls (.startCallB s.calls)
      split at hs
      · rename_i c hc
        exact Option.some.inj hs ▸ h.of_a rfl ((hline.1 c hc).trans h.line) (hlike.1 c hc) rfl
      · rename_i c hc
        refine Option.some.inj hs ▸ h.of_a rfl ?_ (hlike.2 c hc) rfl
        rw [hline.2 c hc, h.line]
      · exact Option.some.inj hs ▸ h.same rfl rfl rfl
  | callSends r =>
      rw [step] at hs
      split at hs
      · rename_i hr
        split at hs
        · rename_i c hc
          refine Option.some.inj hs ▸ h.of_a rfl ?_ (Chan.resumeSend_like hc) rfl
          rw [Chan.resumeSend_line hc, h.line]
        · exact absurd hs (by simp)
        · rename_i hc
          -- A's mailbox is open, so a caller in line is not turned away
          rw [← h.line, Chan.resumeSend_closed hc] at hr
          exact absurd hr List.not_mem_nil
      · exact absurd hs (by simp)
  | callCancelled r =>
      rw [step] at hs
      split at hs
      · refine Option.some.inj hs ▸ h.of_a rfl ?_ (Chan.cancel_like ..) rfl
        rw [Chan.cancel_line, h.line]
      · exact absurd hs (by simp)
  | aReceives =>
      rw [step] at hs
      split at hs
      · obtain ⟨⟨m, c⟩, hpop, rfl⟩ := Option.map_eq_some_iff.mp hs
        exact h.of_a rfl ((Chan.pop_line hpop).trans h.line) (Chan.pop_like hpop) rfl
      · exact absurd hs (by simp)
  | aHandles id =>
      obtain ⟨m, _, hs⟩ := Option.bind_eq_some_iff.mp hs
      split at hs
      · have hs' := (Option.some.inj hs).symm
        cases m with
        | bResponse id' payload =>
            rw [hs']
            exact lined_answer (h.same (x := { s with aHandling := none }) rfl rfl rfl) id' payload
        | startCallB r =>
            have ht : Lined aBound bBound (stashed s r id) := h.same rfl rfl rfl
            rcases startCallB_cases hs' with rfl | ⟨c, hc, rfl⟩ | ⟨_, _, rfl⟩
            · exact ht
            · exact ht.of_b rfl (Chan.trySend_line hc) (Chan.trySend_like hc) rfl rfl
            · exact lined_answer ht id _
      · exact absurd hs (by simp)
  | bReceives =>
      rw [step] at hs
      split at hs
      · obtain ⟨⟨m, c⟩, hpop, rfl⟩ := Option.map_eq_some_iff.mp hs
        exact h.of_b rfl (Chan.pop_line hpop) (Chan.pop_like hpop) rfl rfl
      · exact absurd hs (by simp)
  | bHandles =>
      obtain ⟨⟨id⟩, _, hs⟩ := Option.map_eq_some_iff.mp hs
      rw [System.bHandle] at hs
      split at hs
      · rename_i c hc
        exact hs ▸ h.of_a rfl ((Chan.trySend_line hc).trans h.line) (Chan.trySend_like hc) rfl
      · exact hs ▸ h.same rfl rfl rfl

theorem receives_of_queue {m : AMsg} {l : List AMsg} (hnone : s.aHandling = none)
    (hq : s.aMailbox.queue = m :: l) : step s .aReceives ≠ none := by
  rw [step, hnone]
  intro hs
  have hempty := Chan.pop_eq_none.mp (Option.map_eq_none_iff.mp hs)
  rw [hq] at hempty
  exact absurd hempty (by simp)

theorem handles_of_hand {m : AMsg} (hhand : s.aHandling = some m) {id : Uuid}
    (hid : id ∉ s.issued) : step s (.aHandles id) ≠ none := by
  rw [step, hhand, Option.bind_some, if_pos hid]
  exact Option.some_ne_none _

/-- **At rest nothing is on its way**, and no caller waits for a slot. -/
theorem rest_empty (hA : 0 < aBound) (h : Lined aBound bBound s) (hrest : Drained s) :
    toA s = [] ∧ toB s = [] ∧ s.sending = [] := by
  have haHand : s.aHandling = none := by
    cases hhand : s.aHandling with
    | none => rfl
    | some m =>
        obtain ⟨id, hid⟩ := Infinite.exists_notMem_finset s.issued.toFinset
        rw [List.mem_toFinset] at hid
        exact absurd (hrest.1 (.aHandles id) rfl) (handles_of_hand hhand hid)
  have haQueue : s.aMailbox.queue = [] := by
    cases hq : s.aMailbox.queue with
    | nil => rfl
    | cons m l => exact absurd (hrest.1 .aReceives rfl) (receives_of_queue haHand hq)
  have hbHand : s.bHandling = none := by
    have hs := hrest.1 .bHandles rfl
    rw [step] at hs
    exact Option.map_eq_none_iff.mp hs
  have hbQueue : s.bMailbox.queue = [] := by
    have hs := hrest.1 .bReceives rfl
    rw [step, hbHand] at hs
    exact Chan.pop_eq_none.mp (Option.map_eq_none_iff.mp hs)
  have hgranted : ∀ r, r ∉ s.aMailbox.granted := by
    intro r hr
    have hline : r ∈ s.aMailbox.line := List.mem_append_left _ hr
    have hnone := hrest.2 r
    rw [step, if_pos (h.line ▸ hline)] at hnone
    have hclosed : ¬ s.aMailbox.closed = true := by
      intro hc
      rw [(s.aMailbox.drained hc).2.1] at hr
      exact absurd hr List.not_mem_nil
    rw [Chan.resumeSend, if_neg hclosed, dif_pos hr] at hnone
    exact absurd hnone (by simp)
  have hsending : s.sending = [] := by
    cases hw : s.aMailbox.waiting with
    | nil =>
        rw [← h.line, Chan.line, hw, List.append_nil]
        exact List.eq_nil_iff_forall_not_mem.mpr hgranted
    | cons r l =>
        -- somebody waits only while the slots are all taken, and they are all free
        have hfull := s.aMailbox.inLine (by rw [hw]; simp)
        rw [haQueue, List.eq_nil_iff_forall_not_mem.mpr hgranted, h.aSlots] at hfull
        simp only [List.length_nil] at hfull
        omega
  refine ⟨?_, ?_, hsending⟩
  · rw [toA, haHand, haQueue]
    rfl
  · rw [toB, hbHand, hbQueue]
    rfl

theorem sound_run {tr : List (System × Event)} (h : Run step (.init aBound bBound) tr s) :
    Sound s :=
  h.invariant (sound_init aBound bBound) fun _ _ _ hx hs => (sound_step hx hs).1

theorem lined_run {tr : List (System × Event)} (h : Run step (.init aBound bBound) tr s) :
    Lined aBound bBound s :=
  h.invariant (lined_init aBound bBound) fun _ _ _ hx hs => lined_step hx hs

/-- When nothing was lost, everybody whose message A took has been answered by then. -/
theorem rest_answered {tr : List (System × Event)} (h : Run step (.init aBound bBound) tr s)
    (hkeeps : ∀ x ∈ tr, ¬ Loses x.1 x.2) (ha : toA s = []) (hb : toB s = []) :
    ∀ r ∈ s.taken, (s.used.map Prod.fst).count r = 1 := by
  have hsound := sound_run h
  have hans : Answerable s := by
    refine (h.guarded (P := fun s => Sound s ∧ Answerable s) (C := fun s e => ¬ Loses s e)
      ⟨sound_init aBound bBound, fun id r hr => absurd hr (by simp [System.init])⟩ ?_ hkeeps).2
    intro s e s' hx hc hs
    obtain ⟨hsound', hiff⟩ := sound_step hx.1 hs
    exact ⟨hsound', (hiff hx.2).mpr hc⟩
  intro r hr
  rcases hsound.kept r hr with hused | ⟨id, hid⟩
  · exact List.count_eq_one_of_mem hsound.once hused
  · have hin := hans id r hid
    unfold inFlight at hin
    rw [ha, hb] at hin
    exact absurd hin List.not_mem_nil

/-- A step of A or B, or of a caller that has its slot. -/
def OfProtocol (e : Event) : Prop := ofActors e = true ∨ ∃ r, e = .callSends r

/-- A caller that has sent is out of the line. -/
theorem callSends_fewer {r : Reply} (hs : step s (.callSends r) = some s') :
    s'.calls = s.calls ∧ s'.sending.length < s.sending.length := by
  rw [step] at hs
  split at hs
  · rename_i hr
    have hshort := List.length_erase_of_mem hr
    have hpos := List.length_pos_of_mem hr
    split at hs
    · obtain rfl := Option.some.inj hs
      exact ⟨rfl, by show (s.sending.erase r).length < _; omega⟩
    · exact absurd hs (by simp)
    · obtain rfl := Option.some.inj hs
      exact ⟨rfl, by show (s.sending.erase r).length < _; omega⟩
  · exact absurd hs (by simp)

/-- Such a step brings rest nearer. -/
theorem nearer (he : OfProtocol e) (hs : step s e = some s') :
    work s' + s'.sending.length < work s + s.sending.length := by
  rcases he with he | ⟨r, rfl⟩
  · obtain ⟨hwork, _, hsending⟩ := work_own he hs
    rw [hsending]
    omega
  · obtain ⟨hcalls, hfewer⟩ := callSends_fewer hs
    have hwork := work_others rfl hs
    omega

theorem step_of_not_drained (h : ¬ Drained s) : ∃ e s', OfProtocol e ∧ step s e = some s' := by
  by_contra hno
  refine h ⟨fun e he => ?_, fun r => ?_⟩
  · cases hs : step s e with
    | none => rfl
    | some s' => exact absurd ⟨e, s', Or.inl he, hs⟩ hno
  · cases hs : step s (.callSends r) with
    | none => rfl
    | some s' => exact absurd ⟨_, s', Or.inr ⟨r, rfl⟩, hs⟩ hno

/-- Left to themselves, A, B and the callers in line come to rest. -/
theorem comes_to_rest : ∀ (n : Nat) (s : System), work s + s.sending.length ≤ n →
    ∃ tr s', Run step s tr s' ∧ (∀ x ∈ tr, OfProtocol x.2) ∧ Drained s' := by
  intro n
  induction n with
  | zero =>
      intro s hn
      refine ⟨[], s, Run.nil, fun x hx => absurd hx List.not_mem_nil, ?_⟩
      by_contra hrest
      obtain ⟨e, s', he, hs⟩ := step_of_not_drained hrest
      have hless := nearer he hs
      omega
  | succ n ih =>
      intro s hn
      by_cases hrest : Drained s
      · exact ⟨[], s, Run.nil, fun x hx => absurd hx List.not_mem_nil, hrest⟩
      · obtain ⟨e, s₁, he, hs⟩ := step_of_not_drained hrest
        have hless := nearer he hs
        obtain ⟨tr, s', hrun, hown, hend⟩ := ih s₁ (by omega)
        refine ⟨_, s', Run.cons hs hrun, fun x hx => ?_, hend⟩
        rcases List.mem_cons.mp hx with rfl | hx
        · exact he
        · exact hown x hx

/--
**The correlation-ID protocol always comes to rest.**

In every run A and B have taken at most six steps for each call there was. From every
state reached they, and the callers in line, come to rest with no step of anybody else;
and wherever they are at rest nothing is left in a mailbox or a handler and nobody waits
for a slot, and if no step has lost an entry, every reply sender A has taken has been used
exactly once.
-/
theorem protocol_comes_to_rest (hA : 0 < aBound) {tr : List (System × Event)}
    (h : Run step (.init aBound bBound) tr s) :
    tr.countP (fun x => ofActors x.2) ≤ 6 * s.calls
      ∧ (∃ tr' s', Run step s tr' s' ∧ (∀ x ∈ tr', OfProtocol x.2) ∧ Drained s')
      ∧ (Drained s → toA s = [] ∧ toB s = [] ∧ s.sending = []
        ∧ ((∀ x ∈ tr, ¬ Loses x.1 x.2) → ∀ r ∈ s.taken, (s.used.map Prod.fst).count r = 1)) := by
  have hpaid := work_run h
  refine ⟨by omega, comes_to_rest _ s (Nat.le_refl _), fun hrest => ?_⟩
  obtain ⟨ha, hb, hsending⟩ := rest_empty hA (lined_run h) hrest
  exact ⟨ha, hb, hsending, fun hkeeps => rest_answered h hkeeps ha hb⟩

/-- The one caller there was has its answer, and nothing is left to do. -/
theorem answered_drained : Drained (after step (.init 1 1) answered) := by
  refine ⟨fun e he => ?_, fun r => rfl⟩
  cases e with
  | aReceives => decide
  | aHandles id => rfl
  | bReceives => decide
  | bHandles => rfl
  | _ => exact Bool.noConfusion he

theorem protocol_comes_to_rest_answered :
    (traceOf step (.init 1 1) answered).countP (fun x => ofActors x.2)
        ≤ 6 * (after step (.init 1 1) answered).calls
      ∧ (∃ tr' s', Run step (after step (.init 1 1) answered) tr' s'
        ∧ (∀ x ∈ tr', OfProtocol x.2) ∧ Drained s')
      ∧ (after step (.init 1 1) answered).sending = []
      ∧ ∀ r ∈ (after step (.init 1 1) answered).taken,
        ((after step (.init 1 1) answered).used.map Prod.fst).count r = 1 := by
  have hrun : Run step (System.init 1 1) (traceOf step (System.init 1 1) answered)
      (after step (System.init 1 1) answered) := Run.after (by decide)
  obtain ⟨hsteps, hends, hrest⟩ := protocol_comes_to_rest (by decide) hrun
  obtain ⟨_, _, hsending, hused⟩ := hrest answered_drained
  exact ⟨hsteps, hends, hsending, hused answered_keeps⟩

/-! ## Mailboxes that are large enough -/

/-- How many calls are under way: in line, in A's mailbox, or in its map. -/
def outstanding (s : System) : Nat :=
  s.sending.length + (toA s).countP (fun m => (senderOf m).isSome) + s.pending.keys.length

theorem calls_or_replies (l : List AMsg) :
    l.length = l.countP (fun m => (senderOf m).isSome) + (l.filterMap replyId).length := by
  induction l with
  | nil => rfl
  | cons m l ih =>
      cases m with
      | startCallB r =>
          rw [List.length_cons, List.countP_cons_of_pos rfl, List.filterMap_cons_none rfl]
          omega
      | bResponse id payload =>
          rw [List.length_cons, List.countP_cons_of_neg Bool.noConfusion,
            List.filterMap_cons_some (show replyId (.bResponse id payload) = some id from rfl),
            List.length_cons]
          omega

/-- Each message on its way has an entry of its own in the map. -/
theorem inFlight_le (h : Sound s) :
    (toB s).length + ((toA s).filterMap replyId).length ≤ s.pending.keys.length := by
  have hsub : ∀ id ∈ inFlight s, id ∈ s.pending.keys := by
    intro id hid
    obtain ⟨r, hr⟩ := h.awaited id hid
    rw [← AList.mem_keys, ← AList.lookup_isSome, hr]
    rfl
  have hle := (List.subperm_of_subset h.single hsub).length_le
  unfold inFlight at hle
  rw [List.length_append, List.length_map] at hle
  exact hle

/-- B finds room for its answer, -/
theorem room_for_answer (h : Sound s) (hl : Lined aBound bBound s)
    (hsize : outstanding s ≤ aBound) (hb : 0 < (toB s).length) : s.aMailbox.full = false := by
  refine Bool.eq_false_iff.mpr fun hfull => ?_
  have hslots : s.aMailbox.queue.length + s.aMailbox.granted.length = aBound :=
    (eq_of_beq hfull).trans hl.aSlots
  have hqueue : s.aMailbox.queue.length ≤ (toA s).length := by
    unfold toA
    rw [List.length_append]
    omega
  have hgranted : s.aMailbox.granted.length ≤ s.sending.length := by
    rw [← hl.line, Chan.line, List.length_append]
    omega
  have hsplit := calls_or_replies (toA s)
  have hflight := inFlight_le h
  unfold outstanding at hsize
  omega

/-- and A for its request. -/
theorem room_for_request (h : Sound s) (hl : Lined aBound bBound s)
    (hsize : outstanding s ≤ bBound) {r : Reply} (hhand : s.aHandling = some (.startCallB r)) :
    s.bMailbox.full = false := by
  refine Bool.eq_false_iff.mpr fun hfull => ?_
  have hnone : s.bMailbox.granted.length = 0 := by
    have hline := hl.bLine
    rw [Chan.line, List.append_eq_nil_iff] at hline
    rw [hline.1]
    rfl
  have hslots : s.bMailbox.queue.length + s.bMailbox.granted.length = bBound :=
    (eq_of_beq hfull).trans hl.bSlots
  have hqueue : s.bMailbox.queue.length ≤ (toB s).length := by
    unfold toB
    rw [List.length_append]
    omega
  have hone : 1 ≤ (toA s).countP fun m => (senderOf m).isSome := by
    unfold toA
    rw [hhand]
    exact List.countP_pos_iff.mpr ⟨_, List.mem_cons_self, rfl⟩
  have hflight := inFlight_le h
  unfold outstanding at hsize
  omega

/-- What A answers, and what it is still told to answer, is what B says. -/
structure FromB (s : System) : Prop where
  told : ∀ id payload, .bResponse id payload ∈ toA s → payload = "hello from B"
  answered : ∀ y ∈ s.used, y.2 = "hello from B"

theorem fromB_frame (h : FromB s) (hused : s'.used = s.used)
    (hto : ∀ m ∈ toA s', m ∈ toA s ∨ (∃ r, m = .startCallB r)
      ∨ ∃ id, m = .bResponse id "hello from B") : FromB s' where
  told := by
    intro id payload hm
    rcases hto _ hm with hold | ⟨r, hr⟩ | ⟨id', hid⟩
    · exact h.told id payload hold
    · exact absurd hr (by simp)
    · exact (AMsg.bResponse.inj hid).2
  answered := by
    rw [hused]
    exact h.answered

theorem fromB_sent {m : AMsg} {c : Chan AMsg Reply} (h : FromB s) (hused : s'.used = s.used)
    (hmail : s'.aMailbox = c) (hq : c.queue = s.aMailbox.queue ++ [m])
    (hhand : s'.aHandling = s.aHandling)
    (hm : (∃ r, m = .startCallB r) ∨ ∃ id, m = .bResponse id "hello from B") : FromB s' := by
  refine fromB_frame h hused fun m' hm' => ?_
  unfold toA at hm'
  rw [hmail, hq, hhand, ← List.append_assoc] at hm'
  rcases List.mem_append.mp hm' with hold | hnew
  · exact Or.inl hold
  · rw [List.mem_singleton.mp hnew]
    exact Or.inr hm

theorem fromB_answer {id : Uuid} {payload : String} (h : FromB s)
    (hp : payload = "hello from B") : FromB (s.answer id payload) := by
  unfold System.answer
  cases s.pending.lookup id with
  | none => exact h
  | some r =>
      refine ⟨h.told, fun y hy => ?_⟩
      rcases List.mem_append.mp hy with hold | hnew
      · exact h.answered y hold
      · rw [List.mem_singleton.mp hnew]
        exact hp

theorem fromB_step (h : FromB s) (hsound : Sound s) (hl : Lined aBound bBound s)
    (hsize : outstanding s ≤ bBound) (hs : step s e = some s') : FromB s' := by
  cases e with
  | registerB => exact Option.some.inj hs ▸ fromB_frame h rfl fun m hm => Or.inl hm
  | callTell =>
      rw [step] at hs
      split at hs
      · rename_i c hc
        exact Option.some.inj hs ▸ fromB_sent h rfl rfl (Chan.trySend_queue hc) rfl
          (Or.inl ⟨_, rfl⟩)
      · exact Option.some.inj hs ▸ fromB_frame h rfl fun m hm => Or.inl hm
  | callAsk =>
      rw [step] at hs
      have hqueue := Chan.startSend_queue s.aMailbox s.calls (.startCallB s.calls)
      split at hs
      · rename_i c hc
        exact Option.some.inj hs ▸ fromB_sent h rfl rfl (hqueue.1 c hc) rfl (Or.inl ⟨_, rfl⟩)
      · rename_i c hc
        refine Option.some.inj hs ▸ fromB_frame h rfl fun m hm => Or.inl ?_
        unfold toA at hm ⊢
        rw [← hqueue.2 c hc]
        exact hm
      · exact Option.some.inj hs ▸ fromB_frame h rfl fun m hm => Or.inl hm
  | callSends r =>
      rw [step] at hs
      split at hs
      · split at hs
        · rename_i c hc
          exact Option.some.inj hs ▸ fromB_sent h rfl rfl (Chan.resumeSend_queue hc) rfl
            (Or.inl ⟨_, rfl⟩)
        · exact absurd hs (by simp)
        · exact Option.some.inj hs ▸ fromB_frame h rfl fun m hm => Or.inl hm
      · exact absurd hs (by simp)
  | callCancelled r =>
      rw [step] at hs
      split at hs
      · refine Option.some.inj hs ▸ fromB_frame h rfl fun m hm => Or.inl ?_
        unfold toA at hm ⊢
        rw [← Chan.cancel_queue s.aMailbox r]
        exact hm
      · exact absurd hs (by simp)
  | aReceives =>
      rw [step] at hs
      split at hs
      · rename_i hnone
        obtain ⟨⟨m, c⟩, hpop, rfl⟩ := Option.map_eq_some_iff.mp hs
        refine fromB_frame h rfl fun m' hm' => Or.inl ?_
        unfold toA
        rw [hnone, Chan.pop_queue hpop]
        exact hm'
      · exact absurd hs (by simp)
  | bReceives =>
      rw [step] at hs
      split at hs
      · obtain ⟨⟨m, c⟩, hpop, rfl⟩ := Option.map_eq_some_iff.mp hs
        exact fromB_frame h rfl fun m hm => Or.inl hm
      · exact absurd hs (by simp)
  | bHandles =>
      obtain ⟨⟨id⟩, _, hs⟩ := Option.map_eq_some_iff.mp hs
      rw [System.bHandle] at hs
      split at hs
      · rename_i c hc
        exact hs ▸ fromB_sent h rfl rfl (Chan.trySend_queue hc) rfl (Or.inr ⟨_, rfl⟩)
      · exact hs ▸ fromB_frame h rfl fun m hm => Or.inl hm
  | aHandles id =>
      obtain ⟨m, hhand, hs⟩ := Option.bind_eq_some_iff.mp hs
      -- with the message handled, what is left in the mailbox was there before
      have hidle : ∀ {t : System}, t.used = s.used → t.aHandling = none →
          t.aMailbox = s.aMailbox → FromB t := by
        intro t hused hnone hmail
        refine fromB_frame h hused fun m' hm' => Or.inl ?_
        unfold toA at hm' ⊢
        rw [hnone, hmail] at hm'
        exact List.mem_append_right _ hm'
      split at hs
      · have hs' := (Option.some.inj hs).symm
        cases m with
        | bResponse id' payload =>
            rw [hs']
            -- the answer given is the one that came from B
            refine fromB_answer (hidle rfl rfl rfl) (h.told id' payload ?_)
            unfold toA
            rw [hhand]
            exact List.mem_cons_self
        | startCallB r =>
            have hroom := room_for_request hsound hl hsize hhand
            rcases startCallB_cases hs' with rfl | ⟨c, _, rfl⟩ | ⟨err, hc, _⟩
            · exact hidle rfl rfl rfl
            · exact hidle rfl rfl rfl
            · -- the `tell` does not fail
              rcases (Chan.trySend_error_iff ..).mp hc with ⟨_, hfull, _⟩ | ⟨hclosed, _⟩
              · exact Bool.noConfusion (hroom.symm.trans hfull)
              · exact Bool.noConfusion (hsound.bOpen.symm.trans hclosed)
      · exact absurd hs (by simp)

/--
**Mailboxes as large as the calls under way lose nothing.**

If B is registered before A handles anything, and at no time more calls are outstanding
than either mailbox holds, then in every run no entry is lost, every answer given is B's own, and
everybody whose message A took has it once A and B are at rest.
-/
theorem large_mailboxes_answer (hA : 0 < aBound) {tr : List (System × Event)}
    (h : Run step (.init aBound bBound) tr s)
    (hreg : ∀ x ∈ tr, ∀ id, x.2 = .aHandles id → x.1.bRegistered = true)
    (hsize : ∀ x ∈ tr, outstanding x.1 ≤ aBound ∧ outstanding x.1 ≤ bBound) :
    (∀ x ∈ tr, ¬ Loses x.1 x.2) ∧ (∀ y ∈ s.used, y.2 = "hello from B")
      ∧ (Drained s → ∀ r ∈ s.taken, (r, "hello from B") ∈ s.used) := by
  have hkeeps : ∀ x ∈ tr, ¬ Loses x.1 x.2 := by
    rintro ⟨x, e⟩ hx hloses
    obtain ⟨_, x', _, hrun, hs, _⟩ := h.split hx
    cases e with
    | aHandles id => exact Bool.noConfusion (hloses.2.symm.trans (hreg _ hx id rfl))
    | bHandles =>
        obtain ⟨m, hhand, _⟩ := Option.map_eq_some_iff.mp hs
        -- B has a request in hand, so its answer is one of those outstanding
        have hb : 0 < (toB x).length := by
          unfold toB
          rw [hhand]
          exact Nat.zero_lt_succ _
        have hroom := room_for_answer (sound_run hrun) (lined_run hrun) (hsize _ hx).1 hb
        exact Bool.noConfusion (hroom.symm.trans hloses)
    | registerB => exact hloses
    | callTell => exact hloses
    | callAsk => exact hloses
    | callSends r => exact hloses
    | callCancelled r => exact hloses
    | aReceives => exact hloses
    | bReceives => exact hloses
  have hfrom : FromB s := by
    refine (h.guarded (P := fun s => (Sound s ∧ Lined aBound bBound s) ∧ FromB s)
      (C := fun s _ => outstanding s ≤ bBound)
      ⟨⟨sound_init aBound bBound, lined_init aBound bBound⟩,
        fun id payload hm => absurd hm (by simp [toA, System.init, Chan.new]),
        fun y hy => absurd hy List.not_mem_nil⟩ ?_ fun x hx => (hsize x hx).2).2
    intro s e s' hx hc hs
    exact ⟨⟨(sound_step hx.1.1 hs).1, lined_step hx.1.2 hs⟩,
      fromB_step hx.2 hx.1.1 hx.1.2 hc hs⟩
  refine ⟨hkeeps, hfrom.answered, fun hrest r hr => ?_⟩
  obtain ⟨ha, hb, _⟩ := rest_empty hA (lined_run h) hrest
  -- at rest nothing is on its way, so one answer is all there was
  have hone := rest_answered h hkeeps ha hb r hr
  have hmem : r ∈ s.used.map Prod.fst := List.count_pos_iff.mp (by omega)
  obtain ⟨⟨r', payload⟩, hy, rfl⟩ := List.mem_map.mp hmem
  exact hfrom.answered _ hy ▸ hy

theorem large_mailboxes_answer_answered :
    (after step (.init 1 1) answered).used.length = 1
      ∧ ∀ y ∈ (after step (.init 1 1) answered).used, y.2 = "hello from B" := by
  have hrun : Run step (System.init 1 1) (traceOf step (System.init 1 1) answered)
      (after step (System.init 1 1) answered) := Run.after (by decide)
  have hfirst : ∀ x ∈ traceOf step (System.init 1 1) answered,
      x.2 = .registerB ∨ x.1.bRegistered = true := by decide
  have hreg : ∀ x ∈ traceOf step (System.init 1 1) answered, ∀ id, x.2 = .aHandles id →
      x.1.bRegistered = true := by
    intro x hx id hid
    rcases hfirst x hx with he | hreg
    · exact absurd (he.symm.trans hid) (by simp)
    · exact hreg
  exact ⟨by decide, (large_mailboxes_answer (by decide) hrun hreg (by decide)).2.1⟩

end ErlangActors.Proof
