import ErlangActors.Monitor.Target
import ErlangActors.Proof.Heartbeat

/-!
# A heartbeat watcher does not flood its target

A ping that timed out stays in the mailbox while the next one is sent, so pings can pile
up; the miss counter bounds the pile. A miss leaves at most one ping more behind and
counts one; and a pong resets the counter to zero just when the pile is gone, because the
mailbox is FIFO: `older` says that every ping the target has taken is older than every
ping still waiting, and a pong is for the last ping there is.
-/

namespace ErlangActors.Proof

open Monitoring Transition Channel

/-- What the pings in the mailbox have to do with the watcher. -/
structure Paced (missThreshold : UInt32) (s : Watched) : Prop where
  /-- Every ping has its reply channel. -/
  channels : s.replies.length = s.watcher.pings
  /-- The pings wait in the order they were sent. -/
  ordered : (pingIds s.mailbox.queue).Pairwise (· < ·)
  sent : ∀ id, id ∈ pingIds s.mailbox.queue ∨ id ∈ s.taken → id < s.watcher.pings
  /-- A ping the target has taken, or answered, is older than any that still waits. -/
  older : ∀ id ∈ pingIds s.mailbox.queue, ∀ t,
    (t ∈ s.taken ∨ s.replies[t]? = some (.sent ())) → t < id
  /-- The misses bound the pile, -/
  awaiting : s.watcher.pc = .awaiting → s.waiting ≤ s.watcher.misses.toNat + 1
  resting : s.watcher.pc = .sleeping ∨ s.watcher.pc = .pinging →
    s.waiting ≤ s.watcher.misses.toNat
  /-- and the threshold bounds the misses. -/
  within : s.watcher.pc.live = true → s.watcher.misses.toNat < missWindow missThreshold
  bounded : s.waiting ≤ missWindow missThreshold

theorem missWindow_pos (missThreshold : UInt32) : 1 ≤ missWindow missThreshold :=
  Nat.le_max_left ..

theorem paced_init (missThreshold : UInt32) (capacity : Nat) :
    Paced missThreshold (.init capacity) where
  channels := rfl
  ordered := List.Pairwise.nil
  sent := by
    intro id h
    exact absurd h (by simp [Watched.init, Chan.new, pingIds])
  older := by
    intro id h
    exact absurd h (by simp [Watched.init, Chan.new, pingIds])
  awaiting := fun h => HeartbeatPc.noConfusion h
  resting := fun _ => Nat.zero_le _
  within := fun _ => missWindow_pos missThreshold
  bounded := Nat.zero_le _

/-! ## The watcher's steps -/

/-- The loop goes on after a pong, or after a miss it has counted and that is not yet one too
many. -/
theorem judge_again {missThreshold misses misses' : UInt32} {o : PingOutcome}
    (h : judge missThreshold misses o = .again misses') :
    misses'.toNat < missWindow missThreshold
      ∧ (o = .pong ∨ misses'.toNat = misses.toNat + 1) := by
  have hmiss : miss missThreshold misses = .again misses' →
      misses'.toNat < missWindow missThreshold ∧ misses'.toNat = misses.toNat + 1 := by
    intro hm
    unfold miss at hm
    split at hm
    · exact Verdict.noConfusion hm
    · rename_i hfits
      split at hm
      · exact Verdict.noConfusion hm
      · rename_i hle
        obtain rfl := Verdict.again.inj hm
        have hinc : (misses + 1).toNat = misses.toNat + 1 := by
          rw [UInt32.toNat_add]
          exact Nat.mod_eq_of_lt (Nat.lt_of_le_of_ne misses.toNat_lt_size hfits)
        rw [UInt32.le_iff_toNat_le, hinc] at hle
        rw [hinc]
        refine ⟨?_, rfl⟩
        unfold missWindow
        omega
  cases o with
  | pong =>
      obtain rfl := Verdict.again.inj h
      exact ⟨missWindow_pos missThreshold, Or.inl rfl⟩
  | replyTimeout => exact ⟨(hmiss h).1, Or.inr (hmiss h).2⟩
  | mailboxFull capacity => exact ⟨(hmiss h).1, Or.inr (hmiss h).2⟩
  | replyDropped => exact Verdict.noConfusion h
  | gone => exact Verdict.noConfusion h

/-- An iteration ends asleep, with the counter reset or one up, or it ends the task. -/
theorem settle_cases (missThreshold : UInt32) (w : Heartbeat) (o : PingOutcome) :
    (w.settle missThreshold o).pings = w.pings
      ∧ ((w.settle missThreshold o).pc = .sleeping
          ∧ (w.settle missThreshold o).misses.toNat < missWindow missThreshold
          ∧ (o = .pong ∨ (w.settle missThreshold o).misses.toNat = w.misses.toNat + 1)
        ∨ (w.settle missThreshold o).pc.live = false) := by
  unfold Heartbeat.settle
  cases hj : judge missThreshold w.misses o with
  | again misses => exact ⟨rfl, Or.inl ⟨rfl, judge_again hj⟩⟩
  | down r => exact ⟨rfl, Or.inr rfl⟩
  | overflow => exact ⟨rfl, Or.inr rfl⟩

/-- A step of the watcher that sends nothing settles an outcome it was awaiting or failed to
get, or ends its sleep. -/
theorem paced_settle {missThreshold : UInt32} {s s' : Watched} {o : PingOutcome} {w : Heartbeat}
    (h : Paced missThreshold s) (hmisses : w.misses = s.watcher.misses)
    (hwatcher : s'.watcher = w.settle missThreshold o) (hmail : s'.mailbox = s.mailbox)
    (htaken : s'.taken = s.taken) (hlen : s'.replies.length = w.pings)
    (hsent : ∀ t : Nat, s'.replies[t]? = some (.sent ()) → s.replies[t]? = some (.sent ()))
    (hpings : s.watcher.pings ≤ w.pings)
    (hpile : s.waiting ≤ s.watcher.misses.toNat + 1) (hpong : o = .pong → s.waiting = 0) :
    Paced missThreshold s' := by
  obtain ⟨hsame, hend⟩ := settle_cases missThreshold w o
  have hwaiting : s'.waiting = s.waiting := by
    unfold Watched.waiting
    rw [hmail]
  refine ⟨?_, hmail ▸ h.ordered, ?_, ?_, ?_, ?_, ?_, hwaiting ▸ h.bounded⟩
  · rw [hwatcher, hsame, hlen]
  · intro id hid
    rw [hwatcher, hsame]
    rw [hmail, htaken] at hid
    exact Nat.lt_of_lt_of_le (h.sent id hid) hpings
  · intro id hid t ht
    rw [hmail] at hid
    rw [htaken] at ht
    exact h.older id hid t (ht.imp_right (hsent t))
  · intro hpc
    rw [hwatcher] at hpc
    rcases hend with ⟨hsleep, _⟩ | hover
    · rw [hsleep] at hpc; exact HeartbeatPc.noConfusion hpc
    · rw [hpc] at hover; exact Bool.noConfusion hover
  · intro hpc
    rw [hwatcher] at hpc ⊢
    rw [hwaiting]
    rcases hend with ⟨_, _, hcount⟩ | hover
    · rcases hcount with hp | hup
      · rw [hpong hp]
        exact Nat.zero_le _
      · rw [hup, hmisses]
        exact hpile
    · rcases hpc with hpc | hpc
      · rw [hpc] at hover; exact Bool.noConfusion hover
      · rw [hpc] at hover; exact Bool.noConfusion hover
  · intro hpc
    rw [hwatcher] at hpc ⊢
    rcases hend with ⟨_, hlt, _⟩ | hover
    · exact hlt
    · rw [hpc] at hover; exact Bool.noConfusion hover

/-- A ping that gets in is the last of the mailbox. -/
theorem mem_pingIds_told {c : Chan Mail Nat} {s : Watched} {id : Nat}
    (hids : pingIds c.queue = pingIds s.mailbox.queue ++ [s.watcher.pings]) :
    id ∈ pingIds c.queue ↔ id ∈ pingIds s.mailbox.queue ∨ id = s.watcher.pings := by
  rw [hids, List.mem_append, List.mem_singleton]

/-- Its reply channel holds nothing yet. -/
theorem sent_of_told {s : Watched} {t : Nat}
    (h : (s.replies ++ [Actor.Oneshot.empty])[t]? = some (.sent ())) :
    s.replies[t]? = some (.sent ()) := by
  rcases Nat.lt_or_ge t s.replies.length with hlt | hge
  · rw [List.getElem?_append_left hlt] at h
    exact h
  · rw [List.getElem?_append_right hge] at h
    exact absurd (List.mem_singleton.mp (List.mem_of_getElem? h)) (by simp)

/-- And it is the newest of all. -/
theorem paced_told {missThreshold : UInt32} {s : Watched} {c : Chan Mail Nat}
    (h : Paced missThreshold s) (hpc : s.watcher.pc = .pinging)
    (hq : c.queue = s.mailbox.queue ++ [.ping s.watcher.pings]) :
    Paced missThreshold
      { s with
        watcher := { s.watcher with pings := s.watcher.pings + 1, pc := .awaiting }
        mailbox := c
        replies := s.replies ++ [.empty] } := by
  -- the new ping is the last in the queue
  have hids : pingIds c.queue = pingIds s.mailbox.queue ++ [s.watcher.pings] := by
    rw [hq]
    unfold pingIds
    rw [List.filterMap_append]
    rfl
  -- at rest no more pings wait than the misses there are
  have hrest := h.resting (Or.inr hpc)
  have hwithin := h.within (by rw [hpc]; rfl)
  have hwaiting : (pingIds c.queue).length = s.waiting + 1 := by
    rw [hids, List.length_append]
    rfl
  exact {
    channels := List.length_append.trans (congrArg (· + 1) h.channels)
    ordered := by
      show (pingIds c.queue).Pairwise (· < ·)
      rw [hids, List.pairwise_append]
      refine ⟨h.ordered, List.pairwise_singleton .., ?_⟩
      intro id hid id' hid'
      rw [List.mem_singleton.mp hid']
      exact h.sent id (Or.inl hid)
    sent := by
      intro id hid
      show id < s.watcher.pings + 1
      rcases hid with hid | hid
      · rcases (mem_pingIds_told hids).mp hid with hold | rfl
        · exact Nat.lt_succ_of_lt (h.sent id (Or.inl hold))
        · exact Nat.lt_succ_self _
      · exact Nat.lt_succ_of_lt (h.sent id (Or.inr hid))
    older := by
      intro id hid t ht
      have ht' : t ∈ s.taken ∨ s.replies[t]? = some (.sent ()) := ht.imp_right sent_of_told
      rcases (mem_pingIds_told hids).mp hid with hold | rfl
      · exact h.older id hold t ht'
      · rcases ht' with ht' | ht'
        · exact h.sent t (Or.inr ht')
        · exact h.channels ▸ (List.getElem?_eq_some_iff.mp ht').1
    awaiting := by
      intro _
      show (pingIds c.queue).length ≤ s.watcher.misses.toNat + 1
      omega
    resting := by
      rintro (hc | hc)
      · exact HeartbeatPc.noConfusion hc
      · exact HeartbeatPc.noConfusion hc
    within := fun _ => hwithin
    bounded := by
      show (pingIds c.queue).length ≤ missWindow missThreshold
      omega }

theorem paced_tellPing {missThreshold : UInt32} {s s' : Watched} (h : Paced missThreshold s)
    (hs : s.tellPing missThreshold = some s') : Paced missThreshold s' := by
  have hrefused : ∀ {o : PingOutcome} {res : Except Actor.MailboxFull Unit},
      o ≠ .pong → (s.watcher.pc = .pinging → s.watcher.step missThreshold (.told res)
        = some (({ s.watcher with pings := s.watcher.pings + 1 } : Heartbeat).settle
          missThreshold o)) →
      (s.watcher.step missThreshold (.told res)).map (fun w =>
        { s with watcher := w, replies := s.replies ++ [.senderDropped] }) = some s' →
      Paced missThreshold s' := by
    intro o res hne hstep hmap
    obtain ⟨w, hw, rfl⟩ := Option.map_eq_some_iff.mp hmap
    have hpc : s.watcher.pc = .pinging := by
      rw [Heartbeat.step] at hw
      split at hw
      · assumption
      · exact absurd hw (by simp)
    obtain rfl := Option.some.inj ((hstep hpc).symm.trans hw)
    refine paced_settle (w := { s.watcher with pings := s.watcher.pings + 1 }) h rfl rfl rfl rfl
      ?_ ?_ (Nat.le_succ _) ?_ (fun he => absurd he hne)
    · exact List.length_append.trans (congrArg (· + 1) h.channels)
    · intro t ht
      have ht' : (s.replies ++ [Actor.Oneshot.senderDropped])[t]? = some (.sent ()) := ht
      rcases Nat.lt_or_ge t s.replies.length with hlt | hge
      · rw [List.getElem?_append_left hlt] at ht'
        exact ht'
      · rw [List.getElem?_append_right hge] at ht'
        exact absurd (List.mem_singleton.mp (List.mem_of_getElem? ht')) (by simp)
    · exact Nat.le_succ_of_le (h.resting (Or.inr hpc))
  unfold Watched.tellPing at hs
  split at hs
  · rename_i c hc
    obtain ⟨w, hw, rfl⟩ := Option.map_eq_some_iff.mp hs
    rw [Heartbeat.step] at hw
    split at hw
    · rename_i hpc
      obtain rfl := Option.some.inj hw
      exact paced_told h hpc (Chan.trySend_queue hc)
    · exact absurd hw (by simp)
  · exact hrefused (o := .mailboxFull s.mailbox.capacity) (fun he => PingOutcome.noConfusion he)
      (fun hpc => by rw [Heartbeat.step, if_pos hpc]) hs
  · exact hrefused (o := .gone) PingOutcome.noConfusion
      (fun hpc => by rw [Heartbeat.step, if_pos hpc]) hs

/-- When the last ping has been answered, no ping waits. -/
theorem waiting_of_answered {missThreshold : UInt32} {s : Watched} (h : Paced missThreshold s)
    {r : Unit} (hlast : s.replies.getLast? = some (.sent r)) : s.waiting = 0 := by
  unfold Watched.waiting
  rw [List.length_eq_zero_iff, List.eq_nil_iff_forall_not_mem]
  intro id hid
  rw [List.getLast?_eq_getElem?] at hlast
  have hlt := h.sent id (Or.inl hid)
  have holder := h.older id hid _ (Or.inr hlast)
  have := h.channels
  omega

/-- The end of a wait for a reply. -/
theorem paced_awaited {missThreshold : UInt32} {s s' : Watched} {e : HeartbeatEvent}
    {o : PingOutcome} (h : Paced missThreshold s)
    (hstep : s.watcher.step missThreshold e
      = if s.watcher.pc = .awaiting then some (s.watcher.settle missThreshold o) else none)
    (hs : (s.watcher.step missThreshold e).map (fun w => { s with watcher := w }) = some s')
    (hpong : o = .pong → s.waiting = 0) : Paced missThreshold s' := by
  obtain ⟨w, hw, rfl⟩ := Option.map_eq_some_iff.mp hs
  rw [hstep] at hw
  split at hw
  · rename_i hpc
    obtain rfl := Option.some.inj hw
    exact paced_settle h rfl rfl rfl rfl h.channels (fun _ => id) (Nat.le_refl _)
      (h.awaiting hpc) hpong
  · exact absurd hw (by simp)

theorem paced_readReply {missThreshold : UInt32} {s s' : Watched} (h : Paced missThreshold s)
    (hs : s.readReply missThreshold = some s') : Paced missThreshold s' := by
  obtain ⟨reply, hlast, hs⟩ := Option.bind_eq_some_iff.mp hs
  cases reply with
  | empty => exact absurd hs (by simp)
  | sent r => exact paced_awaited h rfl hs (fun _ => waiting_of_answered h hlast)
  | senderDropped => exact paced_awaited h rfl hs PingOutcome.noConfusion

theorem paced_timeOut {missThreshold : UInt32} {s s' : Watched} (h : Paced missThreshold s)
    (hs : s.timeOut missThreshold = some s') : Paced missThreshold s' := by
  obtain ⟨reply, _, hs⟩ := Option.bind_eq_some_iff.mp hs
  cases reply with
  | empty => exact paced_awaited h rfl hs PingOutcome.noConfusion
  | sent r => exact absurd hs (by simp)
  | senderDropped => exact absurd hs (by simp)

theorem paced_wake {missThreshold : UInt32} {s s' : Watched} (h : Paced missThreshold s)
    (hs : (s.watcher.step missThreshold .woke).map (fun w => { s with watcher := w }) = some s') :
    Paced missThreshold s' := by
  obtain ⟨w, hw, rfl⟩ := Option.map_eq_some_iff.mp hs
  rw [Heartbeat.step] at hw
  split at hw
  · rename_i hpc
    obtain rfl := Option.some.inj hw
    exact ⟨h.channels, h.ordered, h.sent, h.older, fun he => HeartbeatPc.noConfusion he,
      fun _ => h.resting (Or.inl hpc), fun _ => h.within (by rw [hpc]; rfl), h.bounded⟩
  · exact absurd hw (by simp)

/-! ## The others' steps -/

/-- A step that is not the watcher's sends no ping, and answers only pings that were taken. -/
theorem paced_frame {missThreshold : UInt32} {s s' : Watched} (h : Paced missThreshold s)
    (hwatcher : s'.watcher = s.watcher) (hlen : s'.replies.length = s.replies.length)
    (hq : (pingIds s'.mailbox.queue).Sublist (pingIds s.mailbox.queue))
    (htaken : ∀ t ∈ s'.taken, t ∈ s.taken
      ∨ t ∈ pingIds s.mailbox.queue ∧ ∀ id ∈ pingIds s'.mailbox.queue, t < id)
    (hsent : ∀ t : Nat, s'.replies[t]? = some (.sent ()) →
      t ∈ s.taken ∨ s.replies[t]? = some (.sent ())) : Paced missThreshold s' := by
  have hpile : s'.waiting ≤ s.waiting := hq.length_le
  refine ⟨?_, h.ordered.sublist hq, ?_, ?_, ?_, ?_, ?_, Nat.le_trans hpile h.bounded⟩
  · rw [hlen, hwatcher]
    exact h.channels
  · intro id hid
    rw [hwatcher]
    rcases hid with hid | hid
    · exact h.sent id (Or.inl (hq.subset hid))
    · rcases htaken id hid with hold | ⟨hold, _⟩
      · exact h.sent id (Or.inr hold)
      · exact h.sent id (Or.inl hold)
  · intro id hid t ht
    rcases ht with ht | ht
    · rcases htaken t ht with hold | ⟨_, hnew⟩
      · exact h.older id (hq.subset hid) t (Or.inl hold)
      · exact hnew id hid
    · exact h.older id (hq.subset hid) t (hsent t ht)
  · rw [hwatcher]
    exact fun hpc => Nat.le_trans hpile (h.awaiting hpc)
  · rw [hwatcher]
    exact fun hpc => Nat.le_trans hpile (h.resting hpc)
  · rw [hwatcher]
    exact h.within

/-- A foreign message is no ping. -/
theorem paced_foreign {missThreshold : UInt32} {s : Watched} {c : Chan Mail Nat}
    (h : Paced missThreshold s)
    (hq : c.queue = s.mailbox.queue ∨ c.queue = s.mailbox.queue ++ [.foreign]) :
    Paced missThreshold { s with mailbox := c } := by
  have hids : pingIds c.queue = pingIds s.mailbox.queue := by
    rcases hq with hq | hq
    · rw [hq]
    · rw [hq]
      unfold pingIds
      rw [List.filterMap_append]
      exact List.append_nil _
  exact paced_frame h rfl rfl (by rw [hids]) (fun t ht => Or.inl ht) (fun t ht => Or.inr ht)

theorem paced_take {missThreshold : UInt32} {s s' : Watched} (h : Paced missThreshold s)
    (hs : s.take = some s') : Paced missThreshold s' := by
  obtain ⟨⟨m, c⟩, hpop, rfl⟩ := Option.map_eq_some_iff.mp hs
  have hids : pingIds s.mailbox.queue = m.pingId.toList ++ pingIds c.queue := by
    rw [Chan.pop_queue hpop]
    unfold pingIds
    cases m <;> rfl
  have hord := h.ordered
  rw [hids] at hord
  refine paced_frame h rfl rfl ?_ ?_ (fun t ht => Or.inr ht)
  · rw [hids]
    exact List.sublist_append_right ..
  · intro t ht
    rcases List.mem_append.mp ht with hold | hnew
    · exact Or.inl hold
    · refine Or.inr ⟨hids ▸ List.mem_append_left _ hnew, fun id hid => ?_⟩
      exact (List.pairwise_append.mp hord).2.2 t hnew id hid

theorem paced_resolve {missThreshold : UInt32} {s s' : Watched} (h : Paced missThreshold s)
    {id : Nat} {f : Actor.Oneshot Unit → Actor.Oneshot Unit} (hs : s.resolve id f = some s') :
    Paced missThreshold s' := by
  unfold Watched.resolve at hs
  split at hs
  · rename_i hmem
    obtain rfl := Option.some.inj hs
    refine paced_frame h rfl (List.length_modify ..) (List.Sublist.refl _)
      (fun t ht => Or.inl (List.mem_of_mem_erase ht)) ?_
    intro t ht
    by_cases htid : id = t
    · exact Or.inl (htid ▸ hmem)
    · have ht' : (s.replies.modify id f)[t]? = some (.sent ()) := ht
      rw [List.getElem?_modify] at ht'
      exact Or.inr (by simpa [htid] using ht')
  · exact absurd hs (by simp)

theorem paced_exit {missThreshold : UInt32} {s : Watched} (h : Paced missThreshold s) :
    Paced missThreshold s.exit := by
  refine paced_frame h rfl (List.length_mapIdx ..) (List.nil_sublist _)
    (fun t ht => Or.inl ht) ?_
  intro t ht
  have ht' : (s.replies.mapIdx fun id reply =>
      if id ∈ pingIds s.mailbox.queue then reply.dropSender else reply)[t]? = some (.sent ()) := ht
  rw [List.getElem?_mapIdx] at ht'
  obtain ⟨reply, hreply, hsent⟩ := Option.map_eq_some_iff.mp ht'
  refine Or.inr ?_
  rw [hreply]
  split at hsent
  · cases reply with
    | empty => exact absurd hsent (by simp [Actor.Oneshot.dropSender])
    | sent r => rfl
    | senderDropped => exact absurd hsent (by simp [Actor.Oneshot.dropSender])
  · rw [hsent]

/-- **Preserved by every step.** -/
theorem paced_step {missThreshold : UInt32} {s s' : Watched} {e : TargetEvent}
    (h : Paced missThreshold s) (hs : s.step missThreshold e = some s') :
    Paced missThreshold s' := by
  cases e with
  | tellPing => exact paced_tellPing h hs
  | readReply => exact paced_readReply h hs
  | timeOut => exact paced_timeOut h hs
  | wake => exact paced_wake h hs
  | foreignTell =>
      rw [Watched.step] at hs
      split at hs
      · rename_i c hc
        exact Option.some.inj hs ▸ paced_foreign h (Or.inr (Chan.trySend_queue hc))
      · exact Option.some.inj hs ▸ h
  | foreignSend k =>
      rw [Watched.step] at hs
      have hqueue := Chan.startSend_queue s.mailbox k Mail.foreign
      split at hs
      · rename_i c hc
        exact Option.some.inj hs ▸ paced_foreign h (Or.inr (hqueue.1 c hc))
      · rename_i c hc
        exact Option.some.inj hs ▸ paced_foreign h (Or.inl (hqueue.2 c hc))
      · exact Option.some.inj hs ▸ h
  | foreignResume k =>
      rw [Watched.step] at hs
      split at hs
      · rename_i c hc
        exact Option.some.inj hs ▸ paced_foreign h (Or.inr (Chan.resumeSend_queue hc))
      · exact absurd hs (by simp)
      · exact Option.some.inj hs ▸ h
  | foreignCancel k =>
      exact Option.some.inj hs ▸ paced_foreign h (Or.inl (Chan.cancel_queue ..))
  | take => exact paced_take h hs
  | answer id => exact paced_resolve h hs
  | dropReply id => exact paced_resolve h hs
  | exit => exact Option.some.inj hs ▸ paced_exit h

/--
**A heartbeat monitor never floods its target.**

Whatever the target's capacity, the threshold and the interleaving, the monitor's pings
that wait in the mailbox are at most one more than the misses while it awaits a reply, and
at most the misses while it sleeps or starts an iteration; so they are never more than
`max 1 miss_threshold`, whether or not it has declared the target down.
-/
theorem never_floods {missThreshold : UInt32} {capacity : Nat}
    {tr : List (Watched × TargetEvent)} {s : Watched}
    (h : Run (Watched.step missThreshold) (.init capacity) tr s) :
    (s.watcher.pc = .awaiting → s.waiting ≤ s.watcher.misses.toNat + 1)
      ∧ (s.watcher.pc = .sleeping ∨ s.watcher.pc = .pinging →
        s.waiting ≤ s.watcher.misses.toNat)
      ∧ s.waiting ≤ max 1 missThreshold.toNat := by
  have hpaced : Paced missThreshold s :=
    h.invariant (paced_init missThreshold capacity) (fun _ _ _ hp hs => paced_step hp hs)
  exact ⟨hpaced.awaiting, hpaced.resting, hpaced.bounded⟩

/-- A target that takes nothing, asked twice with a threshold of three: two pings wait. -/
theorem never_floods_twoMisses :
    (after (Watched.step 3) (.init 8)
      [.tellPing, .timeOut, .wake, .foreignTell, .tellPing, .timeOut]).waiting ≤ 2 :=
  have hrun : Run (Watched.step 3) (.init 8)
      (traceOf (Watched.step 3) (.init 8)
        [.tellPing, .timeOut, .wake, .foreignTell, .tellPing, .timeOut])
      (after (Watched.step 3) (.init 8)
        [.tellPing, .timeOut, .wake, .foreignTell, .tellPing, .timeOut]) := Run.after rfl
  (never_floods hrun).2.1 (Or.inl rfl)

end ErlangActors.Proof
