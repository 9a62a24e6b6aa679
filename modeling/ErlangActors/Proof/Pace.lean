import ErlangActors.Monitor.Clock
import ErlangActors.Proof.Flood

/-!
# The heartbeat loop, step by step

What each step of a watched target and of time does to the watcher: `Beat` says it of the
watcher's own steps, and that everybody else's leave it alone but for the reply it awaits;
`Concluded` says how an iteration ends. `Regular` is what they keep up: the counter below the
threshold, one reason at the end and none before, and the timer where its last arming put it.
-/

namespace ErlangActors.Proof

open Monitoring Transition Channel
open Actor (Oneshot)

variable {p : Pace} {t t' : Timed} {e : TimedEvent}

/-! ## What a step does to the watcher -/

/-- The step is the watcher's own. -/
def ofWatcher : TargetEvent → Bool
  | .tellPing => true
  | .readReply => true
  | .timeOut => true
  | .wake => true
  | _ => false

/-- What becomes of the reply the watcher awaits, in a step of somebody else. -/
def Aged (e : TargetEvent) (s s' : Watched) : Prop :=
  (resolved s.replies.getLast? = true → resolved s'.replies.getLast? = true)
    ∧ ((∀ id, e ≠ .answer id) → holdsAnswer s'.replies.getLast? = true →
      holdsAnswer s.replies.getLast? = true)
    ∧ (s.replies ≠ [] → s'.replies ≠ [])

/-- A step as the watcher sees it. -/
inductive Beat (missThreshold : UInt32) (s s' : Watched) : TargetEvent → Prop where
  | told : s.watcher.pc = .pinging → s.mailbox.closed = false →
      s'.watcher = { s.watcher with pings := s.watcher.pings + 1, pc := .awaiting } →
      s'.replies.getLast? = some .empty → s'.mailbox.closed = false →
      Beat missThreshold s s' .tellPing
  | refused (o : PingOutcome) : s.watcher.pc = .pinging →
      (o = .gone ∨ (∃ capacity, o = .mailboxFull capacity) ∧ s.mailbox.closed = false
        ∧ s.mailbox.full = true) →
      s'.watcher = ({ s.watcher with pings := s.watcher.pings + 1 } : Heartbeat).settle
        missThreshold o →
      s'.mailbox = s.mailbox → Beat missThreshold s s' .tellPing
  | heard (e : TargetEvent) (o : PingOutcome) : s.watcher.pc = .awaiting →
      (e = .readReply ∧ resolved s.replies.getLast? = true
          ∧ (o = .pong ∧ holdsAnswer s.replies.getLast? = true ∨ o = .replyDropped)
        ∨ e = .timeOut ∧ o = .replyTimeout ∧ resolved s.replies.getLast? = false) →
      s'.watcher = s.watcher.settle missThreshold o → s'.mailbox = s.mailbox →
      Beat missThreshold s s' e
  | woke : s.watcher.pc = .sleeping → s'.watcher = { s.watcher with pc := .pinging } →
      s'.mailbox = s.mailbox → Beat missThreshold s s' .wake
  | others (e : TargetEvent) : ofWatcher e = false → s'.watcher = s.watcher →
      (s.mailbox.closed = true → s'.mailbox.closed = true) → Aged e s s' →
      Beat missThreshold s s' e

theorem resolved_of_holdsAnswer {reply : Option (Oneshot Unit)} (h : holdsAnswer reply = true) :
    resolved reply = true := by
  cases reply with
  | none => exact h
  | some reply =>
      cases reply with
      | sent r => rfl
      | empty => exact h
      | senderDropped => rfl

theorem aged_refl (e : TargetEvent) {s s' : Watched} (h : s'.replies = s.replies) :
    Aged e s s' := by
  unfold Aged
  rw [h]
  exact ⟨id, fun _ => id, id⟩

/-- The last reply channel is sent on or loses its sender, or stays as it is. -/
theorem aged_map {s s' : Watched} {e : TargetEvent} {g : Oneshot Unit → Oneshot Unit}
    (h : s'.replies.getLast? = s.replies.getLast?.map g)
    (hres : ∀ reply, resolved (some reply) = true → resolved (some (g reply)) = true)
    (hans : (∀ id, e ≠ .answer id) → ∀ reply, holdsAnswer (some (g reply)) = true →
      holdsAnswer (some reply) = true) : Aged e s s' := by
  unfold Aged
  cases hlast : s.replies.getLast? with
  | none =>
      rw [hlast] at h
      rw [h]
      exact ⟨id, fun _ => id, fun hne => absurd (List.getLast?_eq_none_iff.mp hlast) hne⟩
  | some reply =>
      rw [hlast] at h
      rw [h]
      refine ⟨hres reply, fun hno => hans hno reply, fun _ hnil => ?_⟩
      rw [hnil] at h
      exact absurd h (by simp)

theorem getLast?_modify {α : Type} (l : List α) (i : Nat) (f : α → α) :
    (l.modify i f).getLast? = l.getLast?.map fun a => if i = l.length - 1 then f a else a := by
  rw [List.getLast?_eq_getElem?, List.getLast?_eq_getElem?, List.length_modify,
    List.getElem?_modify]
  by_cases hi : i = l.length - 1
  · simp only [hi, if_true]
    rfl
  · simp only [hi, if_false]
    rfl

/-- The watcher's own iteration: the ping is told, or comes back. -/
theorem beat_tellPing {n : UInt32} {s s' : Watched} (hs : s.tellPing n = some s') :
    Beat n s s' .tellPing := by
  have hpinging : ∀ {res : Except Actor.MailboxFull Unit} {w : Heartbeat},
      s.watcher.step n (.told res) = some w → s.watcher.pc = .pinging := by
    intro res w hw
    rw [Heartbeat.step] at hw
    split at hw
    · assumption
    · exact absurd hw (by simp)
  unfold Watched.tellPing at hs
  split at hs
  · rename_i c hc
    obtain ⟨w, hw, rfl⟩ := Option.map_eq_some_iff.mp hs
    have hpc := hpinging hw
    rw [Heartbeat.step, if_pos hpc] at hw
    obtain rfl := Option.some.inj hw
    have hopen := Chan.trySend_open hc
    exact .told hpc hopen rfl List.getLast?_concat ((Chan.trySend_like hc).2.trans hopen)
  · rename_i hc
    obtain ⟨w, hw, rfl⟩ := Option.map_eq_some_iff.mp hs
    have hpc := hpinging hw
    rw [Heartbeat.step, if_pos hpc] at hw
    obtain rfl := Option.some.inj hw
    refine .refused (.mailboxFull s.mailbox.capacity) hpc (Or.inr ⟨⟨_, rfl⟩, ?_⟩) rfl rfl
    rcases (Chan.trySend_error_iff ..).mp hc with ⟨hopen, hfull, _⟩ | ⟨_, herr⟩
    · exact ⟨hopen, hfull⟩
    · exact TrySendError.noConfusion herr
  · obtain ⟨w, hw, rfl⟩ := Option.map_eq_some_iff.mp hs
    have hpc := hpinging hw
    rw [Heartbeat.step, if_pos hpc] at hw
    obtain rfl := Option.some.inj hw
    exact .refused .gone hpc (Or.inl rfl) rfl rfl

theorem beat_readReply {n : UInt32} {s s' : Watched} (hs : s.readReply n = some s') :
    Beat n s s' .readReply := by
  obtain ⟨reply, hlast, hs⟩ := Option.bind_eq_some_iff.mp hs
  cases reply with
  | empty => exact absurd hs (by simp)
  | sent r =>
      obtain ⟨w, hw, rfl⟩ := Option.map_eq_some_iff.mp hs
      rw [Heartbeat.step] at hw
      split at hw
      · rename_i hpc
        obtain rfl := Option.some.inj hw
        refine .heard .readReply .pong hpc (Or.inl ⟨rfl, ?_, Or.inl ⟨rfl, ?_⟩⟩) rfl rfl
        · rw [hlast]; rfl
        · rw [hlast]; rfl
      · exact absurd hw (by simp)
  | senderDropped =>
      obtain ⟨w, hw, rfl⟩ := Option.map_eq_some_iff.mp hs
      rw [Heartbeat.step] at hw
      split at hw
      · rename_i hpc
        obtain rfl := Option.some.inj hw
        refine .heard .readReply .replyDropped hpc (Or.inl ⟨rfl, ?_, Or.inr rfl⟩) rfl rfl
        rw [hlast]; rfl
      · exact absurd hw (by simp)

theorem beat_timeOut {n : UInt32} {s s' : Watched} (hs : s.timeOut n = some s') :
    Beat n s s' .timeOut := by
  obtain ⟨reply, hlast, hs⟩ := Option.bind_eq_some_iff.mp hs
  cases reply with
  | empty =>
      obtain ⟨w, hw, rfl⟩ := Option.map_eq_some_iff.mp hs
      rw [Heartbeat.step] at hw
      split at hw
      · rename_i hpc
        obtain rfl := Option.some.inj hw
        refine .heard .timeOut .replyTimeout hpc (Or.inr ⟨rfl, rfl, ?_⟩) rfl rfl
        rw [hlast]; rfl
      · exact absurd hw (by simp)
  | sent r => exact absurd hs (by simp)
  | senderDropped => exact absurd hs (by simp)

/-- Mail of others goes by the watcher. -/
theorem beat_mailbox {n : UInt32} {s : Watched} {c : Chan Mail Nat} {e : TargetEvent}
    (he : ofWatcher e = false) (h : c.Like s.mailbox) : Beat n s { s with mailbox := c } e :=
  .others e he rfl (fun hc => h.2.trans hc) (aged_refl e rfl)

theorem beat_same {n : UInt32} (s : Watched) {e : TargetEvent} (he : ofWatcher e = false) :
    Beat n s s e :=
  .others e he rfl id (aged_refl e rfl)

theorem beat_resolve {n : UInt32} {s s' : Watched} {e : TargetEvent} {id : Nat}
    {f : Oneshot Unit → Oneshot Unit} (he : ofWatcher e = false) (hs : s.resolve id f = some s')
    (hres : ∀ reply, resolved (some reply) = true → resolved (some (f reply)) = true)
    (hans : (∀ id, e ≠ .answer id) → ∀ reply, holdsAnswer (some (f reply)) = true →
      holdsAnswer (some reply) = true) : Beat n s s' e := by
  unfold Watched.resolve at hs
  split at hs
  · obtain rfl := Option.some.inj hs
    refine .others e he rfl (fun hc => hc) (aged_map (getLast?_modify ..) ?_ ?_)
    · intro reply hr
      split
      · exact hres reply hr
      · exact hr
    · intro hno reply ha
      split at ha
      · exact hans hno reply ha
      · exact ha
  · exact absurd hs (by simp)

theorem resolved_dropSender (reply : Oneshot Unit) : resolved (some reply.dropSender) = true := by
  cases reply <;> rfl

theorem holdsAnswer_dropSender (reply : Oneshot Unit)
    (h : holdsAnswer (some reply.dropSender) = true) : holdsAnswer (some reply) = true := by
  cases reply <;> first | rfl | exact h

theorem beat_exit (n : UInt32) (s : Watched) : Beat n s s.exit .exit := by
  refine .others .exit rfl rfl (fun _ => rfl) (aged_map List.getLast?_mapIdx ?_ ?_)
  · intro reply hr
    split
    · exact resolved_dropSender reply
    · exact hr
  · intro _ reply ha
    split at ha
    · exact holdsAnswer_dropSender reply ha
    · exact ha

/-- Every step is one of these. -/
theorem beat_of_step {n : UInt32} {s s' : Watched} {e : TargetEvent} (hs : s.step n e = some s') :
    Beat n s s' e := by
  cases e with
  | tellPing => exact beat_tellPing hs
  | readReply => exact beat_readReply hs
  | timeOut => exact beat_timeOut hs
  | wake =>
      obtain ⟨w, hw, rfl⟩ := Option.map_eq_some_iff.mp hs
      rw [Heartbeat.step] at hw
      split at hw
      · rename_i hpc
        obtain rfl := Option.some.inj hw
        exact .woke hpc rfl rfl
      · exact absurd hw (by simp)
  | foreignTell =>
      rw [Watched.step] at hs
      split at hs
      · rename_i c hc
        exact Option.some.inj hs ▸ beat_mailbox rfl (Chan.trySend_like hc)
      · exact Option.some.inj hs ▸ beat_same s rfl
  | foreignSend k =>
      rw [Watched.step] at hs
      have hlike := Chan.startSend_like s.mailbox k Mail.foreign
      split at hs
      · rename_i c hc
        exact Option.some.inj hs ▸ beat_mailbox rfl (hlike.1 c hc)
      · rename_i c hc
        exact Option.some.inj hs ▸ beat_mailbox rfl (hlike.2 c hc)
      · exact Option.some.inj hs ▸ beat_same s rfl
  | foreignResume k =>
      rw [Watched.step] at hs
      split at hs
      · rename_i c hc
        exact Option.some.inj hs ▸ beat_mailbox rfl (Chan.resumeSend_like hc)
      · exact absurd hs (by simp)
      · exact Option.some.inj hs ▸ beat_same s rfl
  | foreignCancel k => exact Option.some.inj hs ▸ beat_mailbox rfl (Chan.cancel_like ..)
  | take =>
      obtain ⟨⟨m, c⟩, hpop, rfl⟩ := Option.map_eq_some_iff.mp hs
      exact .others .take rfl rfl (fun hc => (Chan.pop_like hpop).2.trans hc) (aged_refl _ rfl)
  | answer id =>
      exact beat_resolve rfl hs (fun _ _ => rfl) (fun hno => absurd rfl (hno id))
  | dropReply id =>
      exact beat_resolve rfl hs (fun reply _ => resolved_dropSender reply)
        (fun _ => holdsAnswer_dropSender)
  | exit => exact Option.some.inj hs ▸ beat_exit n s

/-! ## The end of an iteration -/

/-- What the loop does with an outcome, its counter below the threshold. -/
theorem judge_cases {n misses : UInt32} (h : misses.toNat < missWindow n) (o : PingOutcome) :
    (∃ misses', judge n misses o = .again misses' ∧ misses'.toNat < missWindow n
        ∧ (o = .pong ∧ misses'.toNat = 0
          ∨ missed (some o) = true ∧ misses'.toNat = misses.toNat + 1))
      ∨ ∃ r, judge n misses o = .down r
        ∧ (r = .heartbeatTimeout → missed (some o) = true ∧ missWindow n ≤ misses.toNat + 1) := by
  have hmiss : (∃ misses', miss n misses = .again misses' ∧ misses'.toNat < missWindow n
        ∧ misses'.toNat = misses.toNat + 1)
      ∨ miss n misses = .down .heartbeatTimeout ∧ missWindow n ≤ misses.toNat + 1 := by
    have hsize : n.toNat < UInt32.size := n.toNat_lt_size
    have hone : 1 < UInt32.size := by decide
    have hfits : misses.toNat + 1 < UInt32.size := by
      unfold missWindow at h
      omega
    have hinc : (misses + 1).toNat = misses.toNat + 1 := by
      rw [UInt32.toNat_add]
      exact Nat.mod_eq_of_lt hfits
    unfold miss
    rw [if_neg (Nat.ne_of_lt hfits)]
    by_cases hle : n ≤ misses + 1
    · rw [if_pos hle]
      rw [UInt32.le_iff_toNat_le, hinc] at hle
      refine Or.inr ⟨rfl, ?_⟩
      unfold missWindow
      omega
    · rw [if_neg hle]
      rw [UInt32.le_iff_toNat_le, hinc] at hle
      refine Or.inl ⟨misses + 1, rfl, ?_, hinc⟩
      unfold missWindow
      omega
  cases o with
  | pong => exact Or.inl ⟨0, rfl, missWindow_pos n, Or.inl ⟨rfl, rfl⟩⟩
  | replyTimeout =>
      rcases hmiss with ⟨misses', hj, hlt, hup⟩ | ⟨hj, hle⟩
      · exact Or.inl ⟨misses', hj, hlt, Or.inr ⟨rfl, hup⟩⟩
      · exact Or.inr ⟨_, hj, fun _ => ⟨rfl, hle⟩⟩
  | mailboxFull capacity =>
      rcases hmiss with ⟨misses', hj, hlt, hup⟩ | ⟨hj, hle⟩
      · exact Or.inl ⟨misses', hj, hlt, Or.inr ⟨rfl, hup⟩⟩
      · exact Or.inr ⟨_, hj, fun _ => ⟨rfl, hle⟩⟩
  | replyDropped => exact Or.inr ⟨_, rfl, fun hr => absurd hr (by simp)⟩
  | gone => exact Or.inr ⟨_, rfl, fun hr => absurd hr (by simp)⟩

/-- How an iteration leaves the task: asleep, with the counter at zero or one up, or over, with
its reason sent. -/
inductive Concluded (n : UInt32) (w : Heartbeat) (o : PingOutcome) (w' : Heartbeat) : Prop where
  | asleep : w'.pc = .sleeping → w'.sent = w.sent → w'.misses.toNat < missWindow n →
      (o = .pong ∧ w'.misses.toNat = 0
        ∨ missed (some o) = true ∧ w'.misses.toNat = w.misses.toNat + 1) → Concluded n w o w'
  | returned (r : DownReason) : w'.pc = .returned → w'.sent = w.sent ++ [r] →
      (r = .heartbeatTimeout → missed (some o) = true ∧ missWindow n ≤ w.misses.toNat + 1) →
      Concluded n w o w'

theorem concluded {n : UInt32} {w : Heartbeat} (h : w.misses.toNat < missWindow n)
    (o : PingOutcome) : Concluded n w o (w.settle n o) := by
  unfold Heartbeat.settle
  rcases judge_cases h o with ⟨misses', hj, hlt, hcount⟩ | ⟨r, hj, hr⟩
  · rw [hj]
    exact .asleep rfl rfl hlt hcount
  · rw [hj]
    exact .returned r rfl rfl hr

/-! ## The timer -/

theorem rearm_told {s : Watched} (hpc : t.pc = .pinging) (hs : s.watcher.pc = .awaiting) :
    t.rearm p s = t.clock + p.pingTimeout := by
  simp only [Timed.rearm, hs, hpc, if_true]

theorem rearm_asleep {s : Watched} (hpc : t.pc ≠ .sleeping) (hs : s.watcher.pc = .sleeping) :
    t.rearm p s = t.clock + p.pingInterval := by
  simp only [Timed.rearm, hs, if_neg hpc]

theorem rearm_pinging {s : Watched} (hs : s.watcher.pc = .pinging) : t.rearm p s = t.due := by
  simp only [Timed.rearm, hs]

/-- While the watcher is where it was, only the reply can make its task run sooner. -/
theorem rearm_others {s : Watched} (hs : s.watcher = t.watched.watcher) :
    t.rearm p s ≤ t.due ∧ (t.clock ≤ t.rearm p s ∨ t.rearm p s = t.due)
      ∧ (t.pc = .awaiting → resolved s.replies.getLast? = true → t.rearm p s ≤ t.clock)
      ∧ (t.pc ≠ .awaiting ∨ resolved s.replies.getLast? = false → t.rearm p s = t.due) := by
  have hsame : s.watcher.pc = t.pc := congrArg Heartbeat.pc hs
  have hstays : t.pc ≠ .awaiting → t.rearm p s = t.due := by
    intro hne
    unfold Timed.rearm
    rw [hsame]
    cases hpc : t.pc with
    | awaiting => exact absurd hpc hne
    | sleeping => rfl
    | pinging => rfl
    | returned => rfl
    | overflowed => rfl
  by_cases hpc : t.pc = .awaiting
  · have hawaiting : t.rearm p s
        = if resolved s.replies.getLast? = true then min t.due t.clock else t.due := by
      unfold Timed.rearm
      rw [hsame, hpc]
      simp only [reduceCtorEq, if_false]
    rw [hawaiting]
    split
    · rename_i hres
      refine ⟨Nat.min_le_left .., by omega, fun _ _ => Nat.min_le_right .., ?_⟩
      rintro (hne | hno)
      · exact absurd hpc hne
      · exact Bool.noConfusion (hno.symm.trans hres)
    · rename_i hno
      exact ⟨Nat.le_refl _, Or.inr rfl, fun _ hr => absurd hr hno, fun _ => rfl⟩
  · have hdue := hstays hpc
    exact ⟨Nat.le_of_eq hdue, Or.inr hdue, fun hc => absurd hc hpc, fun _ => hdue⟩

/-- What holds of the watcher at every moment. -/
structure Regular (p : Pace) (t : Timed) : Prop where
  within : t.pc.live = true → t.watched.watcher.misses.toNat < missWindow p.missThreshold
  /-- It has sent nothing while it runs, and one reason when it is done. -/
  running : t.pc.live = true → t.watched.watcher.sent = []
  reported : t.pc.live = false → ∃ r, t.watched.watcher.sent = [r]
  /-- Its timer was armed in the past. -/
  awaiting : t.pc = .awaiting → t.due ≤ t.clock + p.pingTimeout
  sleeping : t.pc = .sleeping → t.due ≤ t.clock + p.pingInterval
  /-- It goes on only when it is due. -/
  pinging : t.pc = .pinging → t.due ≤ t.clock
  resolved : t.pc = .awaiting → resolved t.watched.replies.getLast? = true → t.due ≤ t.clock
  asked : t.pc = .awaiting → t.watched.replies ≠ []
  /-- The runtime is not too late. -/
  prompt : t.pc.live = true → t.clock ≤ t.due + p.lag

theorem regular_init (p : Pace) (capacity : Nat) : Regular p (.init capacity) where
  within := fun _ => missWindow_pos p.missThreshold
  running := fun _ => rfl
  reported := fun h => Bool.noConfusion h
  awaiting := fun h => HeartbeatPc.noConfusion h
  sleeping := fun h => HeartbeatPc.noConfusion h
  pinging := fun _ => Nat.le_refl _
  resolved := fun h => HeartbeatPc.noConfusion h
  asked := fun h => HeartbeatPc.noConfusion h
  prompt := fun _ => Nat.zero_le _

/-- After the end of an iteration. -/
theorem regular_settled {s : Watched} {w : Heartbeat} {o : PingOutcome} (h : Regular p t)
    (hlive : t.pc.live = true) (hpc : t.pc ≠ .sleeping)
    (hmisses : w.misses = t.watched.watcher.misses) (hsent : w.sent = t.watched.watcher.sent)
    (hs : s.watcher = w.settle p.missThreshold o) :
    Regular p { t with watched := s, due := t.rearm p s } := by
  have hend := concluded (n := p.missThreshold) (w := w) (by rw [hmisses]; exact h.within hlive) o
  have hquiet : w.sent = [] := hsent.trans (h.running hlive)
  rw [← hs] at hend
  cases hend with
  | asleep hsleep hsame hlt _ =>
      have hdue : t.rearm p s = t.clock + p.pingInterval := rearm_asleep hpc hsleep
      have hpc' : s.watcher.pc = .sleeping := hsleep
      exact {
        within := fun _ => hlt
        running := fun _ => hsame.trans hquiet
        reported := fun hl => by
          have hl' : s.watcher.pc.live = false := hl
          rw [hpc'] at hl'
          exact Bool.noConfusion hl'
        awaiting := fun hc => HeartbeatPc.noConfusion (hpc'.symm.trans hc)
        sleeping := fun _ => Nat.le_of_eq hdue
        pinging := fun hc => HeartbeatPc.noConfusion (hpc'.symm.trans hc)
        resolved := fun hc => HeartbeatPc.noConfusion (hpc'.symm.trans hc)
        asked := fun hc => HeartbeatPc.noConfusion (hpc'.symm.trans hc)
        prompt := fun _ => by
          show t.clock ≤ t.rearm p s + p.lag
          omega }
  | returned r hover hone _ =>
      have hpc' : s.watcher.pc = .returned := hover
      rw [hquiet] at hone
      have hdead : ¬ s.watcher.pc.live = true := by
        rw [hpc']
        exact Bool.noConfusion
      exact {
        within := fun hl => absurd hl hdead
        running := fun hl => absurd hl hdead
        reported := fun _ => ⟨r, hone⟩
        awaiting := fun hc => HeartbeatPc.noConfusion (hpc'.symm.trans hc)
        sleeping := fun hc => HeartbeatPc.noConfusion (hpc'.symm.trans hc)
        pinging := fun hc => HeartbeatPc.noConfusion (hpc'.symm.trans hc)
        resolved := fun hc => HeartbeatPc.noConfusion (hpc'.symm.trans hc)
        asked := fun hc => HeartbeatPc.noConfusion (hpc'.symm.trans hc)
        prompt := fun hl => absurd hl hdead }

/-- What a step of the timed watcher is. -/
theorem timed_step (h : t.step p e = some t') :
    (∃ ev s, e = .act ev ∧ t.fired ev = true ∧ Beat p.missThreshold t.watched s ev
        ∧ t' = { t with watched := s, due := t.rearm p s })
      ∨ ∃ d, e = .tick d ∧ (t.pc.live = true → t.clock + d ≤ t.due + p.lag)
        ∧ t' = { t with clock := t.clock + d } := by
  cases e with
  | act ev =>
      rw [Timed.step] at h
      split at h
      · rename_i hfired
        obtain ⟨s, hs, rfl⟩ := Option.map_eq_some_iff.mp h
        exact Or.inl ⟨ev, s, rfl, hfired, beat_of_step hs, rfl⟩
      · exact absurd h (by simp)
  | tick d =>
      rw [Timed.step] at h
      split at h
      · rename_i hlate
        exact Or.inr ⟨d, rfl, hlate, (Option.some.inj h).symm⟩
      · exact absurd h (by simp)

/-- A task that is over stays over. -/
theorem live_of_step (hs : t.step p e = some t') (hlive : t'.pc.live = true) :
    t.pc.live = true := by
  have hwatcher : ∀ {pc : HeartbeatPc}, pc.live = true → t.watched.watcher.pc = pc →
      t.pc.live = true := by
    intro pc hl hpc
    rw [show t.pc = pc from hpc]
    exact hl
  rcases timed_step hs with ⟨ev, s, rfl, _, hbeat, rfl⟩ | ⟨d, rfl, _, rfl⟩
  · cases hbeat with
    | told hpc => exact hwatcher rfl hpc
    | refused _ hpc => exact hwatcher rfl hpc
    | heard _ _ hpc => exact hwatcher rfl hpc
    | woke hpc => exact hwatcher rfl hpc
    | others _ _ hw =>
        have hpc' : s.watcher.pc = t.pc := congrArg Heartbeat.pc hw
        exact hpc' ▸ hlive
  · exact hlive

/-- **Preserved by every step.** -/
theorem regular_step (h : Regular p t) (hs : t.step p e = some t') : Regular p t' := by
  rcases timed_step hs with ⟨ev, s, rfl, hfired, hbeat, rfl⟩ | ⟨d, rfl, hlate, rfl⟩
  · cases hbeat with
    | told hpc _ hw hlast _ =>
        -- the ping is in: the wait for its answer starts with the whole `ping_timeout`
        have hpc' : s.watcher.pc = .awaiting := by rw [hw]
        have hdue : t.rearm p s = t.clock + p.pingTimeout := rearm_told hpc hpc'
        have hlive : t.pc.live = true := by rw [show t.pc = .pinging from hpc]; rfl
        exact {
          within := fun _ => by
            show s.watcher.misses.toNat < _
            rw [hw]
            exact h.within hlive
          running := fun _ => by
            show s.watcher.sent = []
            rw [hw]
            exact h.running hlive
          reported := fun hl => by
            have hl' : s.watcher.pc.live = false := hl
            rw [hpc'] at hl'
            exact Bool.noConfusion hl'
          awaiting := fun _ => Nat.le_of_eq hdue
          sleeping := fun hc => HeartbeatPc.noConfusion (hpc'.symm.trans hc)
          pinging := fun hc => HeartbeatPc.noConfusion (hpc'.symm.trans hc)
          resolved := fun _ hr => by
            have hr' : resolved s.replies.getLast? = true := hr
            rw [hlast] at hr'
            exact Bool.noConfusion hr'
          asked := fun _ hnil => by
            have hnil' : s.replies = [] := hnil
            rw [hnil'] at hlast
            exact absurd hlast (by simp)
          prompt := fun _ => by
            show t.clock ≤ t.rearm p s + p.lag
            omega }
    | refused o hpc _ hw _ =>
        have hpc' : t.pc = .pinging := hpc
        -- the ping did not get in: the iteration is judged at once
        refine regular_settled (w := { t.watched.watcher with pings := t.watched.watcher.pings + 1 })
          h ?_ ?_ rfl rfl hw
        · rw [hpc']; rfl
        · rw [hpc']; exact HeartbeatPc.noConfusion
    | heard _ o hpc _ hw _ =>
        have hpc' : t.pc = .awaiting := hpc
        refine regular_settled h ?_ ?_ rfl rfl hw
        · rw [hpc']; rfl
        · rw [hpc']; exact HeartbeatPc.noConfusion
    | woke hpc hw _ =>
        have hpc' : s.watcher.pc = .pinging := by rw [hw]
        have hdue : t.rearm p s = t.due := rearm_pinging hpc'
        -- the sleep is over, so its time has come
        have hready : t.due ≤ t.clock := of_decide_eq_true hfired
        have hlive : t.pc.live = true := by rw [show t.pc = .sleeping from hpc]; rfl
        exact {
          within := fun _ => by
            show s.watcher.misses.toNat < _
            rw [hw]
            exact h.within hlive
          running := fun _ => by
            show s.watcher.sent = []
            rw [hw]
            exact h.running hlive
          reported := fun hl => by
            have hl' : s.watcher.pc.live = false := hl
            rw [hpc'] at hl'
            exact Bool.noConfusion hl'
          awaiting := fun hc => HeartbeatPc.noConfusion (hpc'.symm.trans hc)
          sleeping := fun hc => HeartbeatPc.noConfusion (hpc'.symm.trans hc)
          pinging := fun _ => Nat.le_trans (Nat.le_of_eq hdue) hready
          resolved := fun hc => HeartbeatPc.noConfusion (hpc'.symm.trans hc)
          asked := fun hc => HeartbeatPc.noConfusion (hpc'.symm.trans hc)
          prompt := fun _ => by
            have hold := h.prompt hlive
            show t.clock ≤ t.rearm p s + p.lag
            omega }
    | others _ _ hw _ haged =>
        -- the target's side: an answer can only bring the due time forward
        obtain ⟨hless, hnow, hearly, _⟩ := rearm_others (p := p) (s := s) hw
        have hpc' : s.watcher.pc = t.pc := congrArg Heartbeat.pc hw
        exact {
          within := fun hl => by
            show s.watcher.misses.toNat < _
            rw [hw]
            exact h.within (hpc' ▸ hl)
          running := fun hl => by
            show s.watcher.sent = []
            rw [hw]
            exact h.running (hpc' ▸ hl)
          reported := fun hl => by
            show ∃ r, s.watcher.sent = [r]
            rw [hw]
            exact h.reported (hpc' ▸ hl)
          awaiting := fun hc => Nat.le_trans hless (h.awaiting (hpc'.symm.trans hc))
          sleeping := fun hc => Nat.le_trans hless (h.sleeping (hpc'.symm.trans hc))
          pinging := fun hc => Nat.le_trans hless (h.pinging (hpc'.symm.trans hc))
          resolved := fun hc hr => hearly (hpc'.symm.trans hc) hr
          asked := fun hc => haged.2.2 (h.asked (hpc'.symm.trans hc))
          prompt := fun hl => by
            have hold := h.prompt (hpc' ▸ hl)
            show t.clock ≤ t.rearm p s + p.lag
            omega }
  · exact {
      within := h.within
      running := h.running
      reported := h.reported
      awaiting := fun hc =>
        Nat.le_trans (h.awaiting hc) (Nat.add_le_add_right (Nat.le_add_right ..) _)
      sleeping := fun hc =>
        Nat.le_trans (h.sleeping hc) (Nat.add_le_add_right (Nat.le_add_right ..) _)
      pinging := fun hc => Nat.le_trans (h.pinging hc) (Nat.le_add_right ..)
      resolved := fun hc hr => Nat.le_trans (h.resolved hc hr) (Nat.le_add_right ..)
      asked := h.asked
      prompt := hlate }

end ErlangActors.Proof
