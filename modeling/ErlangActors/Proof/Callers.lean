import ErlangActors.Examples.DeadlockGood

/-!
# No caller of the correlation-ID protocol is forgotten

A caller whose sender A has stashed is answered when a message with its correlation ID
comes back, so it must never happen that an ID is in A's map and no message with that ID
is on its way. `inFlight` lists the IDs on their way, in either mailbox or in either
handler. That each of them is in the map, and once at most, holds in every run; that each
ID in the map is among them is what the two failure paths break which do not undo the
entry: A's early return when B is not registered, and B's `tell` that finds A's mailbox
full. (A's own failed `tell` takes the entry out again.)

`Loses` is a step that takes one of those two paths.
-/

namespace ErlangActors.Proof

open Channel DeadlockGood Transition

/-! ## What is on its way -/

/-- The correlation ID a message to A carries. -/
def replyId : AMsg → Option Uuid
  | .startCallB _ => none
  | .bResponse correlation _ => some correlation

/-- The correlation ID a message to B carries. -/
def requestId : BMsg → Uuid
  | .aRequest correlation => correlation

/-- The reply sender a message to A carries. -/
def senderOf : AMsg → Option Reply
  | .startCallB reply => some reply
  | .bResponse _ _ => none

/-- The messages to A: in its mailbox, and the one it is about to handle. -/
def toA (s : System) : List AMsg := s.aHandling.toList ++ s.aMailbox.queue

/-- The messages to B: the one it is handling, and those in its mailbox. -/
def toB (s : System) : List BMsg := s.bHandling.toList ++ s.bMailbox.queue

/-- How many `ARequest`s there are with this ID. -/
def requests (s : System) (id : Uuid) : Nat := (toB s).countP fun m => requestId m == id

/-- How many `BResponse`s there are with this ID. -/
def responses (s : System) (id : Uuid) : Nat := (toA s).countP fun m => replyId m == some id

/-- Every reply sender A has taken has been used once, or it is in the map under one ID, with
exactly one message on its way that has that ID; and so is every entry of the map. -/
structure Conserved (s : System) : Prop where
  senders : ∀ r ∈ s.taken,
    ((s.used.map Prod.fst).count r = 1 ∧ ∀ id, s.pending.lookup id ≠ some r)
      ∨ (s.used.map Prod.fst).count r = 0 ∧ ∃ id, s.pending.lookup id = some r
        ∧ (∀ id', s.pending.lookup id' = some r → id' = id) ∧ requests s id + responses s id = 1
  entries : ∀ id r, s.pending.lookup id = some r → requests s id + responses s id = 1

/-- The step loses an entry: A handles a `StartCallB` with B not registered, or B finds A's
mailbox full. -/
def Loses (s : System) : Event → Prop
  | .aHandles _ => (∃ reply, s.aHandling = some (.startCallB reply)) ∧ s.bRegistered = false
  | .bHandles => s.aMailbox.full = true
  | _ => False

/-! ## The invariant -/

/-- The IDs on their way. -/
def inFlight (s : System) : List Uuid := (toB s).map requestId ++ (toA s).filterMap replyId

/-- Where the reply senders are that A has or has not taken yet: with a caller that waits, in a
message to A, or taken. -/
def senders (s : System) : List Reply := s.sending ++ (toA s).filterMap senderOf ++ s.taken

/-- What holds of every run, whatever is lost. -/
structure Sound (s : System) : Prop where
  /-- No ID is on its way twice, and each is in the map. -/
  single : (inFlight s).Nodup
  awaited : ∀ id ∈ inFlight s, ∃ r, s.pending.lookup id = some r
  issued : ∀ id r, s.pending.lookup id = some r → id ∈ s.issued
  /-- The map holds each sender once, and only senders taken and not used. -/
  owned : ∀ id r, s.pending.lookup id = some r → r ∈ s.taken ∧ r ∉ s.used.map Prod.fst
  injective : ∀ id id' r, s.pending.lookup id = some r → s.pending.lookup id' = some r → id' = id
  /-- A sender taken has been used or is in the map, -/
  kept : ∀ r ∈ s.taken, r ∈ s.used.map Prod.fst ∨ ∃ id, s.pending.lookup id = some r
  /-- and none has been used twice. -/
  once : (s.used.map Prod.fst).Nodup
  taken : ∀ r ∈ s.used.map Prod.fst, r ∈ s.taken
  /-- Every caller brings a sender of its own. -/
  distinct : (senders s).Nodup
  called : ∀ r ∈ senders s, r < s.calls
  aOpen : s.aMailbox.closed = false
  bOpen : s.bMailbox.closed = false

/-- Every entry of the map has a message on its way. -/
def Answerable (s : System) : Prop := ∀ id r, s.pending.lookup id = some r → id ∈ inFlight s

/-- Every entry of the map but that of `id` has. -/
def OthersAnswerable (s : System) (id : Uuid) : Prop :=
  ∀ id' r, id' ≠ id → s.pending.lookup id' = some r → id' ∈ inFlight s

theorem sound_init (aBound bBound : Nat) : Sound (.init aBound bBound) where
  single := List.nodup_nil
  awaited := fun id h => absurd h (by simp [inFlight, toA, toB, System.init, Chan.new])
  issued := fun id r h => absurd h (by simp [System.init])
  owned := fun id r h => absurd h (by simp [System.init])
  injective := fun id id' r h => absurd h (by simp [System.init])
  kept := fun r h => absurd h (by simp [System.init])
  once := List.nodup_nil
  taken := fun r h => absurd h (by simp [System.init])
  distinct := List.nodup_nil
  called := fun r h => absurd h (by simp [senders, toA, System.init, Chan.new])
  aOpen := rfl
  bOpen := rfl

theorem count_inFlight (s : System) (id : Uuid) :
    (inFlight s).count id = requests s id + responses s id := by
  have hreply : ((toA s).filterMap replyId).count id = responses s id := by
    unfold responses
    rw [List.count, List.countP_filterMap]
    refine List.countP_congr fun m _ => ?_
    cases replyId m <;> simp
  unfold inFlight
  rw [List.count_append, hreply, List.count, List.countP_map]
  rfl

/-- Over the invariant, conservation is that every entry has its message. -/
theorem conserved_iff {s : System} (h : Sound s) : Conserved s ↔ Answerable s := by
  have hone : ∀ id, id ∈ inFlight s → requests s id + responses s id = 1 := by
    intro id hid
    rw [← count_inFlight]
    exact List.count_eq_one_of_mem h.single hid
  refine ⟨?_, ?_⟩
  · intro hc id r hr
    refine List.count_pos_iff.mp ?_
    rw [count_inFlight, hc.entries id r hr]
    exact Nat.one_pos
  · intro ha
    refine ⟨?_, fun id r hr => hone id (ha id r hr)⟩
    intro r hr
    rcases h.kept r hr with hused | ⟨id, hid⟩
    · refine Or.inl ⟨List.count_eq_one_of_mem h.once hused, fun id hid => ?_⟩
      exact (h.owned id r hid).2 hused
    · refine Or.inr ⟨List.count_eq_zero_of_not_mem (h.owned id r hid).2, id, hid, ?_, ?_⟩
      · exact fun id' hid' => h.injective id id' r hid hid'
      · exact hone id (ha id r hid)

/-! ## Steps -/

/-- A step that leaves the map alone and puts no new ID on its way. -/
theorem sound_frame {s s' : System} (h : Sound s) (hpending : s'.pending = s.pending)
    (hissued : s'.issued = s.issued) (htaken : s'.taken = s.taken) (hused : s'.used = s.used)
    (hflight : (inFlight s').Nodup ∧ ∀ id ∈ inFlight s', id ∈ inFlight s)
    (hsenders : (senders s').Nodup ∧ ∀ r ∈ senders s', r < s'.calls)
    (ha : s'.aMailbox.closed = false) (hb : s'.bMailbox.closed = false) : Sound s' where
  single := hflight.1
  awaited := by
    intro id hid
    rw [hpending]
    exact h.awaited id (hflight.2 id hid)
  issued := by rw [hpending, hissued]; exact h.issued
  owned := by rw [hpending, htaken, hused]; exact h.owned
  injective := by rw [hpending]; exact h.injective
  kept := by rw [hpending, htaken, hused]; exact h.kept
  once := by rw [hused]; exact h.once
  taken := by rw [htaken, hused]; exact h.taken
  distinct := hsenders.1
  called := hsenders.2
  aOpen := ha
  bOpen := hb

/-- The same when the messages on their way are the same up to order. -/
theorem sound_same {s s' : System} (h : Sound s) (hpending : s'.pending = s.pending)
    (hissued : s'.issued = s.issued) (htaken : s'.taken = s.taken) (hused : s'.used = s.used)
    (hflight : (inFlight s').Perm (inFlight s))
    (hsenders : (senders s').Nodup ∧ ∀ r ∈ senders s', r < s'.calls)
    (ha : s'.aMailbox.closed = false) (hb : s'.bMailbox.closed = false) :
    Sound s' ∧ (Answerable s' ↔ Answerable s) := by
  refine ⟨sound_frame h hpending hissued htaken hused
    ⟨hflight.nodup_iff.mpr h.single, fun id hid => hflight.mem_iff.mp hid⟩ hsenders ha hb, ?_⟩
  unfold Answerable
  rw [hpending]
  refine forall_congr' fun id => forall_congr' fun r => imp_congr_right fun _ => ?_
  exact hflight.mem_iff

/-- A message with ID `id` is gone from its way. -/
theorem sound_arrived {s s' : System} (h : Sound s) (hpending : s'.pending = s.pending)
    (hissued : s'.issued = s.issued) (htaken : s'.taken = s.taken) (hused : s'.used = s.used)
    {id : Uuid} (hflight : (inFlight s).Perm (id :: inFlight s'))
    (hsenders : (senders s').Nodup ∧ ∀ r ∈ senders s', r < s'.calls)
    (ha : s'.aMailbox.closed = false) (hb : s'.bMailbox.closed = false) :
    Sound s' ∧ id ∉ inFlight s' ∧ ∃ r, s'.pending.lookup id = some r := by
  have hnd := hflight.nodup_iff.mp h.single
  rw [List.nodup_cons] at hnd
  refine ⟨?_, hnd.1, ?_⟩
  · refine sound_frame h hpending hissued htaken hused ⟨hnd.2, fun id' hid => ?_⟩ hsenders ha hb
    exact hflight.mem_iff.mpr (List.mem_cons_of_mem _ hid)
  · rw [hpending]
    exact h.awaited id (hflight.mem_iff.mpr (List.mem_cons_self ..))

/-- A after `self.pending.remove(&correlation)` and the `send` on the sender it gave. -/
def unstashed (s : System) (correlation : Uuid) (reply : Reply) (payload : String) : System :=
  { s with
    pending := s.pending.erase correlation
    used := s.used ++ [(reply, payload)] }

theorem answer_eq {s : System} {id : Uuid} {r : Reply} (hr : s.pending.lookup id = some r)
    (payload : String) : s.answer id payload = unstashed s id r payload := by
  unfold System.answer
  rw [hr]
  rfl

theorem unstashed_lookup {s : System} {id id' : Uuid} {r r' : Reply} {payload : String}
    (h : (unstashed s id r payload).pending.lookup id' = some r') :
    id' ≠ id ∧ s.pending.lookup id' = some r' := by
  have h' : (s.pending.erase id).lookup id' = some r' := h
  by_cases he : id' = id
  · rw [he, AList.lookup_erase] at h'
    exact absurd h' (by simp)
  · rw [AList.lookup_erase_ne he] at h'
    exact ⟨he, h'⟩

theorem mem_unstashed_used {s : System} {id : Uuid} {r r' : Reply} {payload : String} :
    r' ∈ (unstashed s id r payload).used.map Prod.fst ↔ r' ∈ s.used.map Prod.fst ∨ r' = r := by
  unfold unstashed
  rw [List.map_append, List.mem_append, List.map_singleton, List.mem_singleton]

/-- Taking an entry out of the map and answering it, when no message with its ID is left. -/
theorem sound_unstashed {s : System} (h : Sound s) {id : Uuid} {r : Reply}
    (hr : s.pending.lookup id = some r) (hid : id ∉ inFlight s) (payload : String) :
    Sound (unstashed s id r payload) where
  single := h.single
  awaited := by
    intro id' hid'
    have hne : id' ≠ id := fun he => hid (he ▸ hid')
    obtain ⟨r', hr'⟩ := h.awaited id' hid'
    exact ⟨r', (AList.lookup_erase_ne hne).trans hr'⟩
  issued := fun id' r' h' => h.issued id' r' (unstashed_lookup h').2
  owned := by
    intro id' r' h'
    obtain ⟨hne, hold⟩ := unstashed_lookup h'
    obtain ⟨ht, hu⟩ := h.owned id' r' hold
    refine ⟨ht, fun hused => ?_⟩
    -- two entries with one sender would be one entry
    rcases mem_unstashed_used.mp hused with hused | rfl
    · exact hu hused
    · exact hne (h.injective id id' _ hr hold)
  injective := fun id₁ id₂ r' h₁ h₂ =>
    h.injective id₁ id₂ r' (unstashed_lookup h₁).2 (unstashed_lookup h₂).2
  kept := by
    intro r' ht
    rcases h.kept r' ht with hu | ⟨id', hid'⟩
    · exact Or.inl (mem_unstashed_used.mpr (Or.inl hu))
    · by_cases he : id' = id
      · rw [he, hr] at hid'
        exact Or.inl (mem_unstashed_used.mpr (Or.inr (Option.some.inj hid').symm))
      · exact Or.inr ⟨id', (AList.lookup_erase_ne he).trans hid'⟩
  once := by
    unfold unstashed
    rw [List.map_append, List.map_singleton, List.nodup_append]
    refine ⟨h.once, List.nodup_singleton r, ?_⟩
    intro r₁ hr₁ r₂ hr₂ he
    have he' : r₁ = r := he.trans (List.mem_singleton.mp hr₂)
    exact (h.owned id r hr).2 (he' ▸ hr₁)
  taken := by
    intro r' hr'
    rcases mem_unstashed_used.mp hr' with hu | rfl
    · exact h.taken r' hu
    · exact (h.owned id _ hr).1
  distinct := h.distinct
  called := h.called
  aOpen := h.aOpen
  bOpen := h.bOpen

theorem sound_answer {s : System} (h : Sound s) {id : Uuid} {r : Reply}
    (hr : s.pending.lookup id = some r) (hid : id ∉ inFlight s) (payload : String) :
    Sound (s.answer id payload)
      ∧ (Answerable (s.answer id payload) ↔ OthersAnswerable s id) := by
  rw [answer_eq hr]
  refine ⟨sound_unstashed h hr hid payload, fun ha id' r' hne hr' => ?_, fun ha id' r' h' => ?_⟩
  · exact ha id' r' ((AList.lookup_erase_ne hne).trans hr')
  · obtain ⟨hne, hold⟩ := unstashed_lookup h'
    exact ha id' r' hne hold

/-- A message with ID `id` sets out, when none is on its way. -/
theorem sound_sent {s s' : System} (h : Sound s) {id : Uuid} {r : Reply}
    (hr : s.pending.lookup id = some r) (hid : id ∉ inFlight s) (hpending : s'.pending = s.pending)
    (hissued : s'.issued = s.issued) (htaken : s'.taken = s.taken) (hused : s'.used = s.used)
    (hcalls : s'.calls = s.calls) (hflight : (inFlight s').Perm (id :: inFlight s))
    (hsenders : senders s' = senders s) (ha : s'.aMailbox.closed = false)
    (hb : s'.bMailbox.closed = false) :
    Sound s' ∧ (Answerable s' ↔ OthersAnswerable s id) := by
  have hmem : ∀ id', id' ∈ inFlight s' ↔ id' = id ∨ id' ∈ inFlight s := fun id' =>
    hflight.mem_iff.trans List.mem_cons
  have hsound : Sound s' := {
    single := hflight.nodup_iff.mpr (List.nodup_cons.mpr ⟨hid, h.single⟩)
    awaited := by
      intro id' hid'
      rw [hpending]
      rcases (hmem id').mp hid' with rfl | hid'
      · exact ⟨r, hr⟩
      · exact h.awaited id' hid'
    issued := by rw [hpending, hissued]; exact h.issued
    owned := by rw [hpending, htaken, hused]; exact h.owned
    injective := by rw [hpending]; exact h.injective
    kept := by rw [hpending, htaken, hused]; exact h.kept
    once := by rw [hused]; exact h.once
    taken := by rw [htaken, hused]; exact h.taken
    distinct := by rw [hsenders]; exact h.distinct
    called := by rw [hsenders, hcalls]; exact h.called
    aOpen := ha
    bOpen := hb }
  refine ⟨hsound, ?_, ?_⟩
  · intro ha id' r' hne hr'
    rcases (hmem id').mp (ha id' r' (by rw [hpending]; exact hr')) with rfl | hid'
    · exact absurd rfl hne
    · exact hid'
  · intro ha id' r' hr'
    rw [hpending] at hr'
    by_cases he : id' = id
    · exact (hmem id').mpr (Or.inl he)
    · exact (hmem id').mpr (Or.inr (ha id' r' he hr'))

/-! ### The callers -/

/-- The senders left are some of those there were. -/
theorem senders_fewer {s s' : System} (h : Sound s) (hcalls : s.calls ≤ s'.calls)
    (hsub : (senders s').Subperm (senders s)) :
    (senders s').Nodup ∧ ∀ r ∈ senders s', r < s'.calls := by
  obtain ⟨l, hl, hsub⟩ := hsub
  refine ⟨hl.nodup_iff.mp (h.distinct.sublist hsub), fun r hr => ?_⟩
  exact Nat.lt_of_lt_of_le (h.called r (hsub.subset (hl.mem_iff.mpr hr))) hcalls

/-- A new caller brings a new sender. -/
theorem senders_fresh {s s' : System} (h : Sound s) (hcalls : s'.calls = s.calls + 1)
    (hperm : (senders s').Perm (s.calls :: senders s)) :
    (senders s').Nodup ∧ ∀ r ∈ senders s', r < s'.calls := by
  have hfresh : s.calls ∉ senders s := fun hr => Nat.lt_irrefl _ (h.called _ hr)
  refine ⟨hperm.nodup_iff.mpr (List.nodup_cons.mpr ⟨hfresh, h.distinct⟩), fun r hr => ?_⟩
  rw [hcalls]
  rcases List.mem_cons.mp (hperm.mem_iff.mp hr) with rfl | hr
  · exact Nat.lt_succ_self _
  · exact Nat.lt_succ_of_lt (h.called r hr)

/-- A call that comes to A's mailbox goes to its end, and puts no ID on its way. -/
theorem toA_call {s s' : System} {r : Reply} (hhand : s'.aHandling = s.aHandling)
    (hqueue : s'.aMailbox.queue = s.aMailbox.queue ++ [.startCallB r]) :
    (toA s').filterMap replyId = (toA s).filterMap replyId
      ∧ (toA s').filterMap senderOf = (toA s).filterMap senderOf ++ [r] := by
  have hto : toA s' = toA s ++ [.startCallB r] := by
    unfold toA
    rw [hhand, hqueue, List.append_assoc]
  rw [hto, List.filterMap_append, List.filterMap_append]
  exact ⟨List.append_nil _, rfl⟩

/-- A call accepted, with a sender new to the system. -/
theorem sound_called {s : System} (h : Sound s) {c : Chan AMsg Reply}
    (hqueue : c.queue = s.aMailbox.queue ++ [.startCallB s.calls]) (hlike : c.Like s.aMailbox) :
    Sound { s with aMailbox := c, calls := s.calls + 1 }
      ∧ (Answerable { s with aMailbox := c, calls := s.calls + 1 } ↔ Answerable s) := by
  obtain ⟨hreplies, hsenders⟩ :=
    @toA_call s { s with aMailbox := c, calls := s.calls + 1 } _ rfl hqueue
  refine sound_same h rfl rfl rfl rfl ?_ (senders_fresh h rfl ?_) (hlike.2.trans h.aOpen) h.bOpen
  · unfold inFlight
    rw [hreplies]
    exact List.Perm.refl _
  · unfold senders
    rw [hsenders]
    show (s.sending ++ ((toA s).filterMap senderOf ++ [s.calls]) ++ s.taken).Perm _
    rw [← List.append_assoc, List.append_assoc _ [s.calls]]
    exact List.perm_middle

theorem sound_callTell {s s' : System} (h : Sound s) (hs : step s .callTell = some s') :
    Sound s' ∧ (Answerable s' ↔ Answerable s) := by
  simp only [step] at hs
  split at hs
  · rename_i c hc
    obtain rfl := Option.some.inj hs
    exact sound_called h (Chan.trySend_queue hc) (Chan.trySend_like hc)
  · obtain rfl := Option.some.inj hs
    exact sound_same h rfl rfl rfl rfl (List.Perm.refl _)
      (senders_fewer h (Nat.le_succ _) (List.Subperm.refl _)) h.aOpen h.bOpen

theorem sound_callAsk {s s' : System} (h : Sound s) (hs : step s .callAsk = some s') :
    Sound s' ∧ (Answerable s' ↔ Answerable s) := by
  have hqueue := Chan.startSend_queue s.aMailbox s.calls (.startCallB s.calls)
  have hlike := Chan.startSend_like s.aMailbox s.calls (.startCallB s.calls)
  simp only [step] at hs
  split at hs
  · rename_i c hc
    obtain rfl := Option.some.inj hs
    exact sound_called h (hqueue.1 c hc) (hlike.1 c hc)
  · rename_i c hc
    obtain rfl := Option.some.inj hs
    have hto : toA { s with aMailbox := c, calls := s.calls + 1, sending := s.sending ++ [s.calls] }
        = toA s := by
      show s.aHandling.toList ++ c.queue = s.aHandling.toList ++ s.aMailbox.queue
      rw [hqueue.2 c hc]
    refine sound_same h rfl rfl rfl rfl ?_ (senders_fresh h rfl ?_)
      ((hlike.2 c hc).2.trans h.aOpen) h.bOpen
    · unfold inFlight
      rw [hto]
      exact List.Perm.refl _
    · unfold senders
      rw [hto]
      show (s.sending ++ [s.calls] ++ (toA s).filterMap senderOf ++ s.taken).Perm _
      rw [List.append_assoc, List.append_assoc, List.append_assoc]
      exact List.perm_middle
  · obtain rfl := Option.some.inj hs
    exact sound_same h rfl rfl rfl rfl (List.Perm.refl _)
      (senders_fewer h (Nat.le_succ _) (List.Subperm.refl _)) h.aOpen h.bOpen

/-- A caller that no longer waits, whether it went away or A was gone. -/
theorem sound_released {s : System} (h : Sound s) (r : Reply) {c : Chan AMsg Reply}
    (hqueue : c.queue = s.aMailbox.queue) (hlike : c.Like s.aMailbox) :
    Sound { s with aMailbox := c, sending := s.sending.erase r }
      ∧ (Answerable { s with aMailbox := c, sending := s.sending.erase r } ↔ Answerable s) := by
  have hto : toA { s with aMailbox := c, sending := s.sending.erase r } = toA s := by
    unfold toA
    rw [hqueue]
  refine sound_same h rfl rfl rfl rfl ?_ (senders_fewer h (Nat.le_refl _) ?_)
    (hlike.2.trans h.aOpen) h.bOpen
  · unfold inFlight
    rw [hto]
    exact List.Perm.refl _
  · unfold senders
    rw [hto]
    exact ((List.erase_sublist.append_right _).append_right _).subperm

theorem sound_callSends {s s' : System} {r : Reply} (h : Sound s)
    (hs : step s (.callSends r) = some s') : Sound s' ∧ (Answerable s' ↔ Answerable s) := by
  simp only [step] at hs
  split at hs
  · rename_i hr
    split at hs
    · rename_i c hc
      obtain rfl := Option.some.inj hs
      obtain ⟨hreplies, hsenders⟩ := @toA_call s
        { s with aMailbox := c, sending := s.sending.erase r } _ rfl (Chan.resumeSend_queue hc)
      refine sound_same h rfl rfl rfl rfl ?_ (senders_fewer h (Nat.le_refl _) ?_)
        ((Chan.resumeSend_like hc).2.trans h.aOpen) h.bOpen
      · unfold inFlight
        rw [hreplies]
        exact List.Perm.refl _
      · unfold senders
        rw [hsenders]
        -- the sender is now at the end of the mailbox
        refine List.Perm.subperm (List.Perm.append_right _ ?_)
        show (s.sending.erase r ++ ((toA s).filterMap senderOf ++ [r])).Perm _
        rw [← List.append_assoc]
        refine (List.perm_append_singleton r _).trans ?_
        exact (List.perm_cons_erase hr).symm.append_right _
    · exact absurd hs (by simp)
    · obtain rfl := Option.some.inj hs
      exact sound_released h r rfl ⟨rfl, rfl⟩
  · exact absurd hs (by simp)

theorem sound_callCancelled {s s' : System} {r : Reply} (h : Sound s)
    (hs : step s (.callCancelled r) = some s') : Sound s' ∧ (Answerable s' ↔ Answerable s) := by
  simp only [step] at hs
  split at hs
  · obtain rfl := Option.some.inj hs
    exact sound_released h r (Chan.cancel_queue _ _) (Chan.cancel_like _ _)
  · exact absurd hs (by simp)

/-! ### The actors receive -/

/-- Moving the messages to A or to B about among mailbox and handler changes nothing. -/
theorem sound_receives {s s' : System} (h : Sound s) (hpending : s'.pending = s.pending)
    (hissued : s'.issued = s.issued) (htaken : s'.taken = s.taken) (hused : s'.used = s.used)
    (hcalls : s'.calls = s.calls) (hsending : s'.sending = s.sending) (htoA : toA s' = toA s)
    (htoB : toB s' = toB s) (ha : s'.aMailbox.Like s.aMailbox)
    (hb : s'.bMailbox.Like s.bMailbox) : Sound s' ∧ (Answerable s' ↔ Answerable s) := by
  have hsenders : senders s' = senders s := by
    unfold senders
    rw [hsending, htoA, htaken]
  refine sound_same h hpending hissued htaken hused ?_ ?_ (ha.2.trans h.aOpen)
    (hb.2.trans h.bOpen)
  · unfold inFlight
    rw [htoA, htoB]
  · rw [hsenders, hcalls]
    exact ⟨h.distinct, h.called⟩

theorem sound_aReceives {s s' : System} (h : Sound s) (hs : step s .aReceives = some s') :
    Sound s' ∧ (Answerable s' ↔ Answerable s) := by
  simp only [step] at hs
  split at hs
  · rename_i hidle
    obtain ⟨⟨m, c⟩, hpop, rfl⟩ := Option.map_eq_some_iff.mp hs
    refine sound_receives h rfl rfl rfl rfl rfl rfl ?_ rfl (Chan.pop_like hpop) (Chan.Like.refl _)
    show (some m).toList ++ c.queue = s.aHandling.toList ++ s.aMailbox.queue
    rw [hidle, Chan.pop_queue hpop]
    rfl
  · exact absurd hs (by simp)

theorem sound_bReceives {s s' : System} (h : Sound s) (hs : step s .bReceives = some s') :
    Sound s' ∧ (Answerable s' ↔ Answerable s) := by
  simp only [step] at hs
  split at hs
  · rename_i hidle
    obtain ⟨⟨m, c⟩, hpop, rfl⟩ := Option.map_eq_some_iff.mp hs
    refine sound_receives h rfl rfl rfl rfl rfl rfl rfl ?_ (Chan.Like.refl _) (Chan.pop_like hpop)
    show (some m).toList ++ c.queue = s.bHandling.toList ++ s.bMailbox.queue
    rw [hidle, Chan.pop_queue hpop]
    rfl
  · exact absurd hs (by simp)

/-! ### A handles a call -/

/-- A after `self.pending.insert(correlation, reply)`. -/
def stashed (s : System) (reply : Reply) (correlation : Uuid) : System :=
  { s with
    aHandling := none
    pending := s.pending.insert correlation reply
    taken := s.taken ++ [reply]
    issued := s.issued ++ [correlation] }

theorem inFlight_stashed {s : System} {r : Reply} (hhand : s.aHandling = some (.startCallB r))
    (id : Uuid) : inFlight (stashed s r id) = inFlight s := by
  unfold inFlight toA stashed
  rw [hhand]
  rfl

theorem senders_stashed {s : System} {r : Reply} (hhand : s.aHandling = some (.startCallB r))
    (id : Uuid) : (senders (stashed s r id)).Perm (senders s) := by
  unfold senders toA stashed
  rw [hhand]
  show (s.sending ++ s.aMailbox.queue.filterMap senderOf ++ (s.taken ++ [r])).Perm
    (s.sending ++ r :: s.aMailbox.queue.filterMap senderOf ++ s.taken)
  rw [← List.append_assoc]
  refine (List.perm_append_singleton r _).trans ?_
  rw [List.append_assoc s.sending (r :: _), List.cons_append, List.append_assoc]
  exact List.perm_middle.symm

/-- A sender still in a message has not been taken out of one before. -/
theorem not_taken {s : System} {r : Reply} (h : Sound s)
    (hhand : s.aHandling = some (.startCallB r)) : r ∉ s.taken := by
  have hnd : (senders s).Nodup := h.distinct
  have hin : r ∈ s.sending ++ (toA s).filterMap senderOf := by
    unfold toA
    rw [hhand]
    exact List.mem_append_right _ List.mem_cons_self
  exact fun hr => (List.nodup_append.mp hnd).2.2 r hin r hr rfl

theorem stashed_lookup {s : System} {r r' : Reply} {id id' : Uuid}
    (h : (stashed s r id).pending.lookup id' = some r') :
    id' = id ∧ r' = r ∨ id' ≠ id ∧ s.pending.lookup id' = some r' := by
  have h' : (s.pending.insert id r).lookup id' = some r' := h
  by_cases he : id' = id
  · rw [he, AList.lookup_insert] at h'
    exact Or.inl ⟨he, (Option.some.inj h').symm⟩
  · rw [AList.lookup_insert_ne he] at h'
    exact Or.inr ⟨he, h'⟩

/-- The entry put in is new, -/
theorem sound_stashed {s : System} {r : Reply} {id : Uuid} (h : Sound s)
    (hhand : s.aHandling = some (.startCallB r)) (hid : id ∉ s.issued) :
    Sound (stashed s r id) where
  single := by rw [inFlight_stashed hhand]; exact h.single
  awaited := by
    intro id' hid'
    rw [inFlight_stashed hhand] at hid'
    obtain ⟨r', hr'⟩ := h.awaited id' hid'
    have hne : id' ≠ id := fun he => hid (he ▸ h.issued id' r' hr')
    exact ⟨r', (AList.lookup_insert_ne hne).trans hr'⟩
  issued := by
    intro id' r' h'
    rcases stashed_lookup h' with ⟨rfl, _⟩ | ⟨_, h'⟩
    · exact List.mem_append_right _ (List.mem_singleton.mpr rfl)
    · exact List.mem_append_left _ (h.issued id' r' h')
  owned := by
    intro id' r' h'
    rcases stashed_lookup h' with ⟨_, rfl⟩ | ⟨_, h'⟩
    · exact ⟨List.mem_append_right _ (List.mem_singleton.mpr rfl),
        fun hu => not_taken h hhand (h.taken _ hu)⟩
    · exact ⟨List.mem_append_left _ (h.owned id' r' h').1, (h.owned id' r' h').2⟩
  injective := by
    intro id₁ id₂ r' h₁ h₂
    -- A had not taken the new entry's sender before
    rcases stashed_lookup h₁ with ⟨rfl, rfl⟩ | ⟨_, hold₁⟩
    · rcases stashed_lookup h₂ with ⟨rfl, _⟩ | ⟨_, hold₂⟩
      · rfl
      · exact absurd (h.owned id₂ _ hold₂).1 (not_taken h hhand)
    · rcases stashed_lookup h₂ with ⟨_, rfl⟩ | ⟨_, hold₂⟩
      · exact absurd (h.owned id₁ _ hold₁).1 (not_taken h hhand)
      · exact h.injective id₁ id₂ r' hold₁ hold₂
  kept := by
    intro r' hr'
    rcases List.mem_append.mp hr' with ht | hr'
    · rcases h.kept r' ht with hu | ⟨id', h'⟩
      · exact Or.inl hu
      · have hne : id' ≠ id := fun he => hid (he ▸ h.issued id' r' h')
        exact Or.inr ⟨id', (AList.lookup_insert_ne hne).trans h'⟩
    · rw [List.mem_singleton.mp hr']
      exact Or.inr ⟨id, AList.lookup_insert _⟩
  once := h.once
  taken := fun r' hu => List.mem_append_left _ (h.taken r' hu)
  distinct := (senders_stashed hhand id).nodup_iff.mpr h.distinct
  called := fun r' hr' => h.called r' ((senders_stashed hhand id).mem_iff.mp hr')
  aOpen := h.aOpen
  bOpen := h.bOpen

/-- and the only one without a message. -/
theorem stashed_unsent {s : System} {r : Reply} {id : Uuid} (h : Sound s)
    (hhand : s.aHandling = some (.startCallB r)) (hid : id ∉ s.issued) :
    id ∉ inFlight (stashed s r id) := by
  rw [inFlight_stashed hhand]
  intro hin
  obtain ⟨r', hr'⟩ := h.awaited id hin
  exact hid (h.issued id r' hr')

theorem stashed_others {s : System} {r : Reply} {id : Uuid}
    (hhand : s.aHandling = some (.startCallB r)) (ha : Answerable s) :
    OthersAnswerable (stashed s r id) id := by
  intro id' r' hne h'
  rw [inFlight_stashed hhand]
  rcases stashed_lookup h' with ⟨he, _⟩ | ⟨_, h'⟩
  · exact absurd he hne
  · exact ha id' r' h'

theorem sound_startCallB {s s' : System} {r : Reply} {id : Uuid} (h : Sound s)
    (hhand : s.aHandling = some (.startCallB r)) (hid : id ∉ s.issued)
    (hs' : s' = { s with aHandling := none }.startCallB r id) :
    Sound s' ∧ (Answerable s → (Answerable s' ↔ s.bRegistered = true)) := by
  have ht := sound_stashed h hhand hid
  have hfresh := stashed_unsent h hhand hid
  have hr : (stashed s r id).pending.lookup id = some r := AList.lookup_insert _
  cases hreg : s.bRegistered with
  | false =>
      obtain rfl : s' = stashed s r id := by
        rw [hs']
        simp [System.startCallB, stashed, hreg]
      exact ⟨ht, fun _ => iff_of_false (fun ha => hfresh (ha id r hr)) Bool.noConfusion⟩
  | true =>
      cases hc : s.bMailbox.trySend (.aRequest id) with
      | ok c =>
          obtain rfl : s' = { stashed s r id with bMailbox := c } := by
            rw [hs']
            simp [System.startCallB, stashed, hreg, hc]
          have hto : toB { stashed s r id with bMailbox := c }
              = toB (stashed s r id) ++ [.aRequest id] := by
            show s.bHandling.toList ++ c.queue
              = s.bHandling.toList ++ s.bMailbox.queue ++ [.aRequest id]
            rw [Chan.trySend_queue hc, List.append_assoc]
          obtain ⟨hsound, hiff⟩ := @sound_sent (stashed s r id)
            { stashed s r id with bMailbox := c } ht id r hr hfresh rfl rfl rfl rfl rfl (by
              unfold inFlight
              rw [hto, List.map_append, List.append_assoc]
              exact List.perm_middle) rfl h.aOpen ((Chan.trySend_like hc).2.trans h.bOpen)
          exact ⟨hsound, fun ha => iff_of_true (hiff.mpr (stashed_others hhand ha)) rfl⟩
      | error err =>
          -- the entry is taken out again
          obtain rfl : s' = (stashed s r id).answer id "B unreachable" := by
            rw [hs']
            simp [System.startCallB, stashed, hreg, hc]
          obtain ⟨hsound, hiff⟩ := sound_answer ht hr hfresh "B unreachable"
          exact ⟨hsound, fun ha => iff_of_true (hiff.mpr (stashed_others hhand ha)) rfl⟩

/-! ### A and B handle what they have told each other -/

/-- A message with ID `id` is handled: its entry is the only one that may be left without. -/
theorem others_arrived {s s' : System} {id : Uuid} (hpending : s'.pending = s.pending)
    (hflight : (inFlight s).Perm (id :: inFlight s')) (h : Answerable s) :
    OthersAnswerable s' id := by
  intro id' r hne hr
  rw [hpending] at hr
  rcases List.mem_cons.mp (hflight.mem_iff.mp (h id' r hr)) with he | hin
  · exact absurd he hne
  · exact hin

theorem sound_bResponse {s : System} {id : Uuid} {payload : String} (h : Sound s)
    (hhand : s.aHandling = some (.bResponse id payload)) :
    Sound ({ s with aHandling := none }.answer id payload)
      ∧ (Answerable s → Answerable ({ s with aHandling := none }.answer id payload)) := by
  have hflight : (inFlight s).Perm (id :: inFlight { s with aHandling := none }) := by
    unfold inFlight toA
    rw [hhand]
    exact List.perm_middle
  have hsenders : senders { s with aHandling := none } = senders s := by
    unfold senders toA
    rw [hhand]
    rfl
  obtain ⟨ht, hgone, r, hr⟩ := @sound_arrived s { s with aHandling := none } h rfl rfl rfl rfl
    id hflight (hsenders ▸ ⟨h.distinct, h.called⟩) h.aOpen h.bOpen
  obtain ⟨hsound, hiff⟩ := sound_answer ht hr hgone payload
  exact ⟨hsound, fun ha => hiff.mpr (@others_arrived s _ id rfl hflight ha)⟩

theorem sound_bHandles {s s' : System} (h : Sound s) (hs : step s .bHandles = some s') :
    Sound s' ∧ (Answerable s → (Answerable s' ↔ s.aMailbox.full = false)) := by
  obtain ⟨⟨id⟩, hhand, rfl⟩ := Option.map_eq_some_iff.mp hs
  have hflight : (inFlight s).Perm (id :: inFlight { s with bHandling := none }) := by
    unfold inFlight toB
    rw [hhand]
    exact List.Perm.refl _
  obtain ⟨ht, hgone, r, hr⟩ := @sound_arrived s { s with bHandling := none } h rfl rfl rfl rfl
    id hflight ⟨h.distinct, h.called⟩ h.aOpen h.bOpen
  -- with the request handled, the entry waits for B's answer alone
  have herror := Chan.trySend_error_iff s.aMailbox (.bResponse id "hello from B")
  cases hc : s.aMailbox.trySend (.bResponse id "hello from B") with
  | ok c =>
      have hs' : { s with bHandling := none }.bHandle (.aRequest id)
          = { s with bHandling := none, aMailbox := c } := by
        simp [System.bHandle, hc]
      have hfree : s.aMailbox.full = false := by
        refine Bool.eq_false_iff.mpr fun hfull => ?_
        have := (herror .full).mpr (Or.inl ⟨h.aOpen, hfull, rfl⟩)
        rw [hc] at this
        exact absurd this (by simp)
      have hto : toA { s with bHandling := none, aMailbox := c }
          = toA s ++ [.bResponse id "hello from B"] := by
        unfold toA
        rw [Chan.trySend_queue hc, List.append_assoc]
      obtain ⟨hsound, hiff⟩ := @sound_sent { s with bHandling := none }
        { s with bHandling := none, aMailbox := c } ht id r hr hgone rfl rfl rfl rfl rfl (by
          unfold inFlight
          rw [hto, List.filterMap_append, ← List.append_assoc]
          exact List.perm_append_singleton id _) (by
          unfold senders
          rw [hto, List.filterMap_append]
          exact congrArg (· ++ s.taken) (congrArg (s.sending ++ ·) (List.append_nil _)))
        ((Chan.trySend_like hc).2.trans h.aOpen) h.bOpen
      rw [hs']
      exact ⟨hsound, fun ha => iff_of_true (hiff.mpr (@others_arrived s _ id rfl hflight ha)) hfree⟩
  | error err =>
      have hs' : { s with bHandling := none }.bHandle (.aRequest id)
          = { s with bHandling := none } := by
        simp [System.bHandle, hc]
      have hfull : ¬ s.aMailbox.full = false := by
        rcases (herror err).mp hc with ⟨_, hfull, _⟩ | ⟨hclosed, _⟩
        · rw [hfull]; exact Bool.noConfusion
        · exact absurd (h.aOpen.symm.trans hclosed) Bool.noConfusion
      rw [hs']
      exact ⟨ht, fun _ => iff_of_false (fun ha => hgone (ha id r hr)) hfull⟩

/-- Every step keeps the invariant, and keeps every entry answerable unless it loses one. -/
theorem sound_step {s s' : System} {e : Event} (h : Sound s) (hs : step s e = some s') :
    Sound s' ∧ (Answerable s → (Answerable s' ↔ ¬ Loses s e)) := by
  -- no other step loses an entry, or makes one answerable
  have quiet : ¬ Loses s e → Sound s' ∧ (Answerable s' ↔ Answerable s) →
      Sound s' ∧ (Answerable s → (Answerable s' ↔ ¬ Loses s e)) := fun hno hsame =>
    ⟨hsame.1, fun ha => iff_of_true (hsame.2.mpr ha) hno⟩
  cases e with
  | registerB =>
      obtain rfl := Option.some.inj hs
      exact quiet id (sound_receives h rfl rfl rfl rfl rfl rfl rfl rfl (Chan.Like.refl _)
        (Chan.Like.refl _))
  | callTell => exact quiet id (sound_callTell h hs)
  | callAsk => exact quiet id (sound_callAsk h hs)
  | callSends r => exact quiet id (sound_callSends h hs)
  | callCancelled r => exact quiet id (sound_callCancelled h hs)
  | aReceives => exact quiet id (sound_aReceives h hs)
  | bReceives => exact quiet id (sound_bReceives h hs)
  | aHandles id =>
      obtain ⟨m, hhand, hs⟩ := Option.bind_eq_some_iff.mp hs
      split at hs
      · rename_i hid
        have hs' := (Option.some.inj hs).symm
        cases m with
        | startCallB r =>
            obtain ⟨hsound, hiff⟩ := sound_startCallB h hhand hid hs'
            refine ⟨hsound, fun ha => (hiff ha).trans ?_⟩
            rw [show Loses s (.aHandles id)
              ↔ (∃ reply, s.aHandling = some (.startCallB reply)) ∧ s.bRegistered = false
            from Iff.rfl]
            rw [and_iff_right ⟨r, hhand⟩, Bool.not_eq_false]
        | bResponse id' payload =>
            obtain ⟨hsound, hkeeps⟩ := sound_bResponse h hhand
            subst hs'
            refine ⟨hsound, fun ha => iff_of_true (hkeeps ha) ?_⟩
            rintro ⟨⟨r, hr⟩, _⟩
            exact absurd (hhand.symm.trans hr) (by simp)
      · exact absurd hs (by simp)
  | bHandles =>
      obtain ⟨hsound, hiff⟩ := sound_bHandles h hs
      refine ⟨hsound, fun ha => (hiff ha).trans ?_⟩
      exact Bool.not_eq_true _ ▸ Iff.rfl

/-! ## Every run -/

/-- No reply sender is used twice and none forgotten in any state of a run exactly when no
step of it loses an entry: A handles no `StartCallB` before B is registered, and B never
finds A's mailbox full. -/
theorem callers_conserved_iff {aBound bBound : Nat} {tr : List (System × Event)} {s : System}
    (h : Run step (System.init aBound bBound) tr s) :
    (∀ x, Visits tr s x → Conserved x) ↔ ∀ p ∈ tr, ¬ Loses p.1 p.2 := by
  have hR : ∀ s e s', Sound s → step s e = some s' → Sound s' := fun s e s' hsound hs =>
    (sound_step hsound hs).1
  have hiff := h.always_iff (P := Answerable) (sound_init aBound bBound) hR
    (fun id r hr => absurd hr (by simp [System.init]))
    (fun s e s' hsound ha hs => (sound_step hsound hs).2 ha)
  rw [← hiff]
  refine forall_congr' fun x => forall_congr' fun hx => conserved_iff ?_
  exact h.always (sound_init aBound bBound) hR hx

/-- One call from beginning to end, with B registered. -/
def answered : List Event :=
  [.registerB, .callTell, .aReceives, .aHandles 0, .bReceives, .bHandles, .aReceives, .aHandles 1]

theorem answered_keeps : ∀ x ∈ traceOf step (System.init 1 1) answered, ¬ Loses x.1 x.2 := by
  simp [traceOf, answered, step, System.init, Chan.new, Chan.trySend, Chan.full, Chan.enqueue,
    Chan.pop, System.aHandle, System.startCallB, System.bHandle, Loses]

theorem callers_conserved_iff_answered :
    Conserved (after step (System.init 1 1) answered)
      ∧ (after step (System.init 1 1) answered).used = [(0, "hello from B")] := by
  have hrun : Run step (System.init 1 1) (traceOf step (System.init 1 1) answered)
      (after step (System.init 1 1) answered) := Run.after (by decide)
  exact ⟨(callers_conserved_iff hrun).mpr answered_keeps _ Visits.last, by decide⟩

/-- B is not registered when A handles the first call. -/
def unregistered : List Event := [.callTell, .aReceives, .aHandles 0]

/-- A is told of another call before B answers, which fills its mailbox. -/
def crowded : List Event :=
  [.registerB, .callTell, .aReceives, .aHandles 0, .bReceives, .callTell, .bHandles]

/-- Either way the first caller's sender is left in the map with nothing coming for it. -/
theorem callers_forgotten :
    (∀ events ∈ [unregistered, crowded],
      ¬ Conserved (after step (System.init 1 1) events)
        ∧ (after step (System.init 1 1) events).pending.lookup 0 = some 0
        ∧ (after step (System.init 1 1) events).used = [])
      ∧ ¬ ∀ (aBound bBound : Nat) (tr : List (System × Event)) (s : System),
          Run step (System.init aBound bBound) tr s → Conserved s := by
  have hlost : ∀ events ∈ [unregistered, crowded],
      (exec step (System.init 1 1) events).isSome = true
        ∧ (after step (System.init 1 1) events).pending.lookup 0 = some 0
        ∧ (after step (System.init 1 1) events).used = []
        ∧ requests (after step (System.init 1 1) events) 0
            + responses (after step (System.init 1 1) events) 0 = 0 := by decide
  have hnot : ∀ events ∈ [unregistered, crowded],
      ¬ Conserved (after step (System.init 1 1) events) := by
    intro events hevents hc
    obtain ⟨_, hentry, _, hnone⟩ := hlost events hevents
    rw [hc.entries 0 0 hentry] at hnone
    exact absurd hnone Nat.one_ne_zero
  refine ⟨fun events hevents => ?_, fun hall => ?_⟩
  · obtain ⟨_, hentry, hused, _⟩ := hlost events hevents
    exact ⟨hnot events hevents, hentry, hused⟩
  · have hmem : unregistered ∈ [unregistered, crowded] := List.mem_cons_self ..
    exact hnot _ hmem (hall 1 1 _ _ (Run.after (hlost _ hmem).1))

end ErlangActors.Proof
