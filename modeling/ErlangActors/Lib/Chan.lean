import Mathlib.Data.List.Basic

/-!
# A bounded FIFO channel with a fair queue of senders

The channel keeps messages of type `α`; a sender that finds it full waits in line
under a name of type `ω`. Every slot is either free, or holds a queued message, or is
*granted*: set aside for a sender that waited and has not been back to fill it. A
slot that comes free goes to the head of the line, so nobody who arrives later can
take it.

`fits` and `inLine` say just that, and are fields of the structure: a channel that
overflows its bound, or that makes a sender wait beside a free slot, cannot be built.
Neither can a closed one that still holds something.
-/

namespace Channel

structure Chan (α ω : Type) where
  capacity : Nat
  queue : List α
  granted : List ω
  waiting : List ω
  closed : Bool
  fits : queue.length + granted.length ≤ capacity
  inLine : waiting ≠ [] → queue.length + granted.length = capacity
  drained : closed = true → queue = [] ∧ granted = [] ∧ waiting = []

variable {α ω : Type}

/-- An open channel with all its slots free. -/
def Chan.new (capacity : Nat) : Chan α ω where
  capacity := capacity
  queue := []
  granted := []
  waiting := []
  closed := false
  fits := Nat.zero_le _
  inLine := fun h => absurd rfl h
  drained := fun _ => ⟨rfl, rfl, rfl⟩

/-- No slot is free. -/
def Chan.full (c : Chan α ω) : Bool := c.queue.length + c.granted.length == c.capacity

theorem Chan.lt_of_not_full {c : Chan α ω} (h : c.full = false) :
    c.queue.length + c.granted.length < c.capacity := by
  have := c.fits
  have hne : c.queue.length + c.granted.length ≠ c.capacity := beq_eq_false_iff_ne.mp h
  omega

/-- The last message in: into a free slot. -/
def Chan.enqueue (c : Chan α ω) (a : α) (hopen : c.closed = false) (hfree : c.full = false) :
    Chan α ω :=
  { c with
    queue := c.queue ++ [a]
    fits := by
      have := Chan.lt_of_not_full hfree
      rw [List.length_append, List.length_singleton]
      omega
    inLine := by
      intro hw
      have := Chan.lt_of_not_full hfree
      have := c.inLine hw
      omega
    drained := by intro hc; rw [hopen] at hc; exact Bool.noConfusion hc }

/-- Join the end of the line: for a sender that found the channel full. -/
def Chan.await (c : Chan α ω) (w : ω) (hopen : c.closed = false) (hfull : c.full = true) :
    Chan α ω :=
  { c with
    waiting := c.waiting ++ [w]
    inLine := fun _ => eq_of_beq hfull
    drained := by intro hc; rw [hopen] at hc; exact Bool.noConfusion hc }

/-- Take the first message out; its slot goes to the head of the line. -/
def Chan.pop (c : Chan α ω) : Option (α × Chan α ω) :=
  match hq : c.queue with
  | [] => none
  | a :: rest =>
      have hopen : c.closed = true → False := fun hc => by
        rw [(c.drained hc).1] at hq
        exact absurd hq (by simp)
      have hlen : c.queue.length = rest.length + 1 := by rw [hq]; rfl
      some (a, match hw : c.waiting with
        | [] =>
            { c with
              queue := rest
              waiting := []
              fits := by have := c.fits; omega
              inLine := fun h => absurd rfl h
              drained := fun hc => (hopen hc).elim }
        | w :: line =>
            have hfull := c.inLine (by rw [hw]; simp)
            { c with
              queue := rest
              granted := c.granted ++ [w]
              waiting := line
              fits := by rw [List.length_append, List.length_singleton]; omega
              inLine := by intro _; rw [List.length_append, List.length_singleton]; omega
              drained := fun hc => (hopen hc).elim })

/-- The receiver is gone: what is queued is discarded, and nobody waits any more. -/
def Chan.close (c : Chan α ω) : Chan α ω where
  capacity := c.capacity
  queue := []
  granted := []
  waiting := []
  closed := true
  fits := Nat.zero_le _
  inLine := fun h => absurd rfl h
  drained := fun _ => ⟨rfl, rfl, rfl⟩

@[simp] theorem Chan.close_queue (c : Chan α ω) : c.close.queue = [] := rfl

/-- A message taken out was the first of the queue. -/
theorem Chan.pop_queue {c c' : Chan α ω} {a : α} (h : c.pop = some (a, c')) :
    c.queue = a :: c'.queue := by
  unfold Chan.pop at h
  split at h
  · exact absurd h (by simp)
  · rename_i b rest hq
    obtain ⟨rfl, hc⟩ := Prod.mk.inj (Option.some.inj h)
    rw [hq, ← hc]
    split <;> rfl

/-- There is nothing to take out exactly when nothing is queued. -/
theorem Chan.pop_eq_none {c : Chan α ω} : c.pop = none ↔ c.queue = [] := by
  unfold Chan.pop
  split
  · rename_i hq
    exact ⟨fun _ => hq, fun _ => rfl⟩
  · rename_i hq
    exact ⟨fun h => absurd h (by simp), fun h => by rw [hq] at h; exact absurd h (by simp)⟩

/-! ## Sending -/

inductive TrySendError where
  | full
  | closed
  deriving DecidableEq, Repr

/-- Send without waiting. -/
def Chan.trySend (c : Chan α ω) (a : α) : Except TrySendError (Chan α ω) :=
  if hopen : c.closed = false then
    if hfree : c.full = false then .ok (c.enqueue a hopen hfree) else .error .full
  else .error .closed

/-- Where a send that may wait has got to. -/
inductive SendPoll (α ω : Type) where
  | sent (c : Chan α ω)
  | pending (c : Chan α ω)
  | closed

/-- The first poll of a send: into a free slot, or to the end of the line. -/
def Chan.startSend (c : Chan α ω) (w : ω) (a : α) : SendPoll α ω :=
  if hopen : c.closed = false then
    if hfull : c.full = true then .pending (c.await w hopen hfull)
    else .sent (c.enqueue a hopen (Bool.eq_false_iff.mpr hfull))
  else .closed

theorem Chan.trySend_queue {c c' : Chan α ω} {a : α} (h : c.trySend a = .ok c') :
    c'.queue = c.queue ++ [a] := by
  unfold Chan.trySend at h
  split at h
  · split at h
    · rw [← Except.ok.inj h]; rfl
    · exact absurd h (by simp)
  · exact absurd h (by simp)

/-- A send sent at its first poll queued its message; one made to wait queued nothing. -/
theorem Chan.startSend_queue (c : Chan α ω) (w : ω) (a : α) :
    (∀ c', c.startSend w a = .sent c' → c'.queue = c.queue ++ [a])
      ∧ ∀ c', c.startSend w a = .pending c' → c'.queue = c.queue := by
  unfold Chan.startSend
  split
  · split
    · exact ⟨nofun, fun c' h => by rw [← SendPoll.pending.inj h]; rfl⟩
    · exact ⟨fun c' h => by rw [← SendPoll.sent.inj h]; rfl, nofun⟩
  · exact ⟨nofun, nofun⟩

/-- A send has to wait exactly when the channel is open and full. -/
theorem Chan.startSend_pending_iff (c : Chan α ω) (w : ω) (a : α) :
    (∃ c', c.startSend w a = .pending c') ↔ c.closed = false ∧ c.full = true := by
  unfold Chan.startSend
  split
  · rename_i hopen
    split
    · rename_i hfull
      exact ⟨fun _ => ⟨hopen, hfull⟩, fun _ => ⟨_, rfl⟩⟩
    · rename_i hfree
      exact ⟨nofun, fun h => absurd h.2 hfree⟩
  · rename_i hclosed
    exact ⟨nofun, fun h => absurd h.1 hclosed⟩

/-- Sending without waiting fails exactly when the channel is full or closed. -/
theorem Chan.trySend_error_iff (c : Chan α ω) (a : α) (err : TrySendError) :
    c.trySend a = .error err
      ↔ (c.closed = false ∧ c.full = true ∧ err = .full) ∨ (c.closed = true ∧ err = .closed) := by
  unfold Chan.trySend
  split
  · rename_i hopen
    split
    · rename_i hfree
      refine ⟨nofun, ?_⟩
      rintro (⟨_, hfull, _⟩ | ⟨hclosed, _⟩)
      · exact Bool.noConfusion (hfree.symm.trans hfull)
      · exact Bool.noConfusion (hopen.symm.trans hclosed)
    · rename_i hfull
      refine ⟨fun h => Or.inl ⟨hopen, eq_true_of_ne_false hfull, (Except.error.inj h).symm⟩, ?_⟩
      rintro (⟨_, _, rfl⟩ | ⟨hclosed, _⟩)
      · rfl
      · exact Bool.noConfusion (hopen.symm.trans hclosed)
  · rename_i hclosed
    refine ⟨fun h => Or.inr ⟨eq_true_of_ne_false hclosed, (Except.error.inj h).symm⟩, ?_⟩
    rintro (⟨hopen, _⟩ | ⟨_, rfl⟩)
    · exact absurd hopen hclosed
    · rfl

/-! ## What no send and no receipt changes -/

/-- The same channel, with other contents. -/
def Chan.Like (c' c : Chan α ω) : Prop := c'.capacity = c.capacity ∧ c'.closed = c.closed

theorem Chan.Like.refl (c : Chan α ω) : c.Like c := ⟨rfl, rfl⟩

theorem Chan.pop_like {c c' : Chan α ω} {a : α} (h : c.pop = some (a, c')) : c'.Like c := by
  unfold Chan.pop at h
  split at h
  · exact absurd h (by simp)
  · obtain ⟨_, hc⟩ := Prod.mk.inj (Option.some.inj h)
    rw [← hc]
    split <;> exact ⟨rfl, rfl⟩

theorem Chan.trySend_like {c c' : Chan α ω} {a : α} (h : c.trySend a = .ok c') : c'.Like c := by
  unfold Chan.trySend at h
  split at h
  · split at h
    · rw [← Except.ok.inj h]; exact ⟨rfl, rfl⟩
    · exact absurd h (by simp)
  · exact absurd h (by simp)

theorem Chan.trySend_open {c c' : Chan α ω} {a : α} (h : c.trySend a = .ok c') :
    c.closed = false := by
  unfold Chan.trySend at h
  split at h
  · assumption
  · exact absurd h (by simp)

theorem Chan.startSend_open {c c' : Chan α ω} {w : ω} {a : α} (h : c.startSend w a = .sent c') :
    c.closed = false := by
  unfold Chan.startSend at h
  split at h
  · assumption
  · exact nomatch h

theorem Chan.startSend_like (c : Chan α ω) (w : ω) (a : α) :
    (∀ c', c.startSend w a = .sent c' → c'.Like c)
      ∧ ∀ c', c.startSend w a = .pending c' → c'.Like c := by
  unfold Chan.startSend
  split
  · split
    · exact ⟨nofun, fun c' h => by rw [← SendPoll.pending.inj h]; exact ⟨rfl, rfl⟩⟩
    · exact ⟨fun c' h => by rw [← SendPoll.sent.inj h]; exact ⟨rfl, rfl⟩, nofun⟩
  · exact ⟨nofun, nofun⟩

/-! ## Waiting senders come back by name -/

variable [DecidableEq ω]

/-- Fill the slot granted to `w`. -/
def Chan.fill (c : Chan α ω) (w : ω) (a : α) (hw : w ∈ c.granted) : Chan α ω :=
  have hlen : (c.queue ++ [a]).length + (c.granted.erase w).length
      = c.queue.length + c.granted.length := by
    have := List.length_pos_of_mem hw
    rw [List.length_append, List.length_singleton, List.length_erase_of_mem hw]
    omega
  { c with
    queue := c.queue ++ [a]
    granted := c.granted.erase w
    fits := by rw [hlen]; exact c.fits
    inLine := fun h => hlen.trans (c.inLine h)
    drained := by
      intro hc
      rw [(c.drained hc).2.1] at hw
      exact absurd hw (by simp) }

/-- Leave the line, or give back a slot granted: it goes to the head of the line. -/
def Chan.cancel (c : Chan α ω) (w : ω) : Chan α ω :=
  if hg : w ∈ c.granted then
    have hopen : c.closed = true → False := fun hc => by
      rw [(c.drained hc).2.1] at hg
      exact absurd hg (by simp)
    have hlen : (c.granted.erase w).length + 1 = c.granted.length := by
      have := List.length_pos_of_mem hg
      rw [List.length_erase_of_mem hg]
      omega
    match hw : c.waiting with
    | [] =>
        { c with
          granted := c.granted.erase w
          waiting := []
          fits := by have := c.fits; omega
          inLine := fun h => absurd rfl h
          drained := fun hc => (hopen hc).elim }
    | next :: line =>
        have hfull := c.inLine (by rw [hw]; simp)
        { c with
          granted := c.granted.erase w ++ [next]
          waiting := line
          fits := by rw [List.length_append, List.length_singleton]; omega
          inLine := by intro _; rw [List.length_append, List.length_singleton]; omega
          drained := fun hc => (hopen hc).elim }
  else
    { c with
      waiting := c.waiting.erase w
      inLine := fun h => c.inLine (fun he => h (by rw [he]; rfl))
      drained := by
        intro hc
        obtain ⟨hq, hgr, hwt⟩ := c.drained hc
        exact ⟨hq, hgr, by rw [hwt]; rfl⟩ }

@[simp] theorem Chan.cancel_queue (c : Chan α ω) (w : ω) : (c.cancel w).queue = c.queue := by
  unfold Chan.cancel
  split
  · dsimp only
    split <;> rfl
  · rfl

/-- A later poll: into the slot granted meanwhile, if one was. -/
def Chan.resumeSend (c : Chan α ω) (w : ω) (a : α) : SendPoll α ω :=
  if c.closed then .closed
  else if hw : w ∈ c.granted then .sent (c.fill w a hw)
  else .pending c

theorem Chan.resumeSend_queue {c c' : Chan α ω} {w : ω} {a : α}
    (h : c.resumeSend w a = .sent c') : c'.queue = c.queue ++ [a] := by
  unfold Chan.resumeSend at h
  split at h
  · exact nomatch h
  · split at h
    · rw [← SendPoll.sent.inj h]; rfl
    · exact nomatch h

theorem Chan.resumeSend_open {c c' : Chan α ω} {w : ω} {a : α}
    (h : c.resumeSend w a = .sent c') : c.closed = false := by
  unfold Chan.resumeSend at h
  split at h
  · exact nomatch h
  · rename_i hopen
    exact Bool.eq_false_iff.mpr hopen

theorem Chan.resumeSend_like {c c' : Chan α ω} {w : ω} {a : α}
    (h : c.resumeSend w a = .sent c') : c'.Like c := by
  unfold Chan.resumeSend at h
  split at h
  · exact nomatch h
  · split at h
    · rw [← SendPoll.sent.inj h]; exact ⟨rfl, rfl⟩
    · exact nomatch h

theorem Chan.cancel_like (c : Chan α ω) (w : ω) : (c.cancel w).Like c := by
  unfold Chan.cancel
  split
  · dsimp only
    split <;> exact ⟨rfl, rfl⟩
  · exact ⟨rfl, rfl⟩

/-! ## The line -/

/-- The senders that have a slot coming, in the order in which they came. -/
def Chan.line (c : Chan α ω) : List ω := c.granted ++ c.waiting

omit [DecidableEq ω] in
@[simp] theorem Chan.close_line (c : Chan α ω) : c.close.line = [] := rfl

omit [DecidableEq ω] in
@[simp] theorem Chan.new_line (capacity : Nat) : (Chan.new capacity : Chan α ω).line = [] := rfl

omit [DecidableEq ω] in
/-- A slot that comes free moves the head of the line, and nobody leaves it. -/
theorem Chan.pop_line {c c' : Chan α ω} {a : α} (h : c.pop = some (a, c')) :
    c'.line = c.line := by
  unfold Chan.pop at h
  split at h
  · exact absurd h (by simp)
  · obtain ⟨_, hc⟩ := Prod.mk.inj (Option.some.inj h)
    rw [← hc]
    split
    · rename_i hw
      show c.granted ++ [] = c.granted ++ c.waiting
      rw [hw]
    · rename_i w line hw
      show (c.granted ++ [w]) ++ line = c.granted ++ c.waiting
      rw [hw, List.append_assoc, List.singleton_append]

omit [DecidableEq ω] in
theorem Chan.trySend_line {c c' : Chan α ω} {a : α} (h : c.trySend a = .ok c') :
    c'.line = c.line := by
  unfold Chan.trySend at h
  split at h
  · split at h
    · rw [← Except.ok.inj h]; rfl
    · exact absurd h (by simp)
  · exact absurd h (by simp)

omit [DecidableEq ω] in
/-- A sender that has to wait joins at the end. -/
theorem Chan.startSend_line (c : Chan α ω) (w : ω) (a : α) :
    (∀ c', c.startSend w a = .sent c' → c'.line = c.line)
      ∧ ∀ c', c.startSend w a = .pending c' → c'.line = c.line ++ [w] := by
  unfold Chan.startSend
  split
  · split
    · refine ⟨fun c' h => absurd h (by simp), fun c' h => ?_⟩
      rw [← SendPoll.pending.inj h]
      exact (List.append_assoc ..).symm
    · refine ⟨fun c' h => ?_, fun c' h => absurd h (by simp)⟩
      rw [← SendPoll.sent.inj h]
      rfl
  · exact ⟨fun c' h => absurd h (by simp), fun c' h => absurd h (by simp)⟩

/-- One that sends at a later poll leaves the line. -/
theorem Chan.resumeSend_line {c c' : Chan α ω} {w : ω} {a : α}
    (h : c.resumeSend w a = .sent c') : c'.line = c.line.erase w := by
  unfold Chan.resumeSend at h
  split at h
  · exact absurd h (by simp)
  · split at h
    · rename_i hw
      rw [← SendPoll.sent.inj h]
      exact (List.erase_append_left _ hw).symm
    · exact absurd h (by simp)

/-- So does one that gives up. -/
theorem Chan.cancel_line (c : Chan α ω) (w : ω) : (c.cancel w).line = c.line.erase w := by
  unfold Chan.cancel
  split
  · rename_i hg
    have herase : c.line.erase w = c.granted.erase w ++ c.waiting := List.erase_append_left _ hg
    rw [herase]
    dsimp only
    split
    · rename_i hw
      show c.granted.erase w ++ [] = c.granted.erase w ++ c.waiting
      rw [hw]
    · rename_i next line hw
      show (c.granted.erase w ++ [next]) ++ line = c.granted.erase w ++ c.waiting
      rw [hw, List.append_assoc, List.singleton_append]
  · rename_i hg
    exact (List.erase_append_right _ hg).symm

/-- A closed channel has no line. -/
theorem Chan.resumeSend_closed {c : Chan α ω} {w : ω} {a : α} (h : c.resumeSend w a = .closed) :
    c.line = [] := by
  unfold Chan.resumeSend at h
  split at h
  · rename_i hclosed
    obtain ⟨_, hg, hwt⟩ := c.drained hclosed
    unfold Chan.line
    rw [hg, hwt]
    rfl
  · split at h
    · exact absurd h (by simp)
    · exact absurd h (by simp)

/-- A sender in line can send, unless the slots are all taken by others and by what is queued. -/
theorem Chan.resumeSend_of_line {c : Chan α ω} {w : ω} (hw : w ∈ c.line) (a : α) :
    (∃ c', c.resumeSend w a = .sent c')
      ∨ w ∈ c.waiting ∧ c.queue.length + c.granted.length = c.capacity := by
  have hopen : c.closed ≠ true := by
    intro hc
    obtain ⟨_, hg, hwt⟩ := c.drained hc
    unfold Chan.line at hw
    rw [hg, hwt] at hw
    exact absurd hw (by simp)
  rcases List.mem_append.mp hw with hg | hwt
  · refine Or.inl ⟨c.fill w a hg, ?_⟩
    unfold Chan.resumeSend
    rw [if_neg hopen, dif_pos hg]
  · exact Or.inr ⟨hwt, c.inLine (List.ne_nil_of_mem hwt)⟩

end Channel
