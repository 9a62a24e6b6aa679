import ErlangActors.Lib.Run
import ErlangActors.Monitor.Watch

/-!
# When a heartbeat monitor declares its target down

The loop keeps a counter that a pong resets and two separate branches increment; the rule
it follows is about a window of outcomes. `missRun` connects the two: it is the number of
misses the outcomes end in, it is what the counter holds, and it reaches
`max 1 miss_threshold` exactly when the last that many outcomes are all misses.

A sequence of outcomes, finite or infinite, is a function from indices that is `none`
from its end on.
-/

namespace ErlangActors.Proof

open Monitoring Transition

/-- What came of a ping, where a step settles that. -/
def outcomeOf : HeartbeatEvent → Option PingOutcome
  | .told (.ok ()) => none
  | .told (.error (.dropped capacity)) => some (.mailboxFull capacity)
  | .told (.error .gone) => some .gone
  | .replied => some .pong
  | .replyDropped => some .replyDropped
  | .timedOut => some .replyTimeout
  | .woke => none

/-- The outcomes of a run, in order. -/
def outcomes (tr : List (Heartbeat × HeartbeatEvent)) : List PingOutcome :=
  tr.filterMap fun p => outcomeOf p.2

/-- The outcomes `os` are the first ones of the sequence `σ`. -/
def Follows (σ : Nat → Option PingOutcome) (os : List PingOutcome) : Prop :=
  ∀ (k : Nat) (o : PingOutcome), os[k]? = some o → σ k = some o

/-! ## The rule -/

/-- Outcome `k` is a miss: no reply in time, or no room in the mailbox. -/
def IsMiss (σ : Nat → Option PingOutcome) (k : Nat) : Prop :=
  σ k = some .replyTimeout ∨ ∃ capacity, σ k = some (.mailboxFull capacity)

/-- How many misses in a row it takes. A threshold of zero means one. -/
def missWindow (missThreshold : UInt32) : Nat := max 1 missThreshold.toNat

/-- At index `k` the target counts as down: the ping got nowhere, or the last
`max 1 miss_threshold` outcomes up to it are all misses. -/
def DownAt (missThreshold : UInt32) (σ : Nat → Option PingOutcome) (k : Nat)
    (r : DownReason) : Prop :=
  (σ k = some .replyDropped ∧ r = .other "reply channel closed")
    ∨ (σ k = some .gone ∧ r = .other "actor exited")
    ∨ (missWindow missThreshold ≤ k + 1
      ∧ (∀ j, j ≤ k → k < j + missWindow missThreshold → IsMiss σ j) ∧ r = .heartbeatTimeout)

/-- `k` is the first such index. -/
def FirstDown (missThreshold : UInt32) (σ : Nat → Option PingOutcome) (k : Nat)
    (r : DownReason) : Prop :=
  DownAt missThreshold σ k r ∧ ∀ j, j < k → ∀ r', ¬ DownAt missThreshold σ j r'

/-! ## Misses in a row -/

/-- The outcome is a miss. -/
def missed : Option PingOutcome → Bool
  | some .replyTimeout => true
  | some (.mailboxFull _) => true
  | _ => false

/-- How many misses the first `n` outcomes end in. -/
def missRun (σ : Nat → Option PingOutcome) : Nat → Nat
  | 0 => 0
  | n + 1 => if missed (σ n) then missRun σ n + 1 else 0

theorem missed_iff {σ : Nat → Option PingOutcome} {k : Nat} :
    missed (σ k) = true ↔ IsMiss σ k := by
  unfold IsMiss
  cases h : σ k with
  | none => simp [missed]
  | some o => cases o <;> simp [missed]

/-- There are `m` misses in a row at the end exactly if the last `m` outcomes are misses. -/
theorem le_missRun_iff (σ : Nat → Option PingOutcome) (n m : Nat) :
    m ≤ missRun σ n ↔ m ≤ n ∧ ∀ j, j < n → n ≤ j + m → missed (σ j) = true := by
  induction n generalizing m with
  | zero =>
      refine ⟨fun h => ⟨h, fun j hj => absurd hj (Nat.not_lt_zero j)⟩, fun h => h.1⟩
  | succ n ih =>
      unfold missRun
      by_cases hmiss : missed (σ n) = true
      · rw [if_pos hmiss]
        refine ⟨?_, ?_⟩
        · intro hle
          have hprev := (ih (m - 1)).mp (by omega)
          refine ⟨by omega, fun j hj hwin => ?_⟩
          rcases Nat.lt_succ_iff_lt_or_eq.mp hj with hlt | rfl
          · exact hprev.2 j hlt (by omega)
          · exact hmiss
        · rintro ⟨hle, hall⟩
          have hprev := (ih (m - 1)).mpr ⟨by omega, fun j hj hwin => hall j (by omega) (by omega)⟩
          omega
      · rw [if_neg hmiss]
        refine ⟨?_, ?_⟩
        · intro hle
          exact ⟨by omega, fun j hj hwin => absurd hwin (by omega)⟩
        · rintro ⟨_, hall⟩
          refine Nat.le_of_not_lt fun hlt => hmiss (hall n (Nat.lt_succ_self n) (by omega))

/-- The rule's third clause, in terms of the misses in a row. -/
theorem window_iff (missThreshold : UInt32) (σ : Nat → Option PingOutcome) (k : Nat) :
    (missWindow missThreshold ≤ k + 1
        ∧ ∀ j, j ≤ k → k < j + missWindow missThreshold → IsMiss σ j)
      ↔ missWindow missThreshold ≤ missRun σ (k + 1) := by
  rw [le_missRun_iff]
  refine and_congr Iff.rfl ⟨?_, ?_⟩
  · intro hall j hj hwin
    exact missed_iff.mpr (hall j (by omega) (by omega))
  · intro hall j hj hwin
    exact missed_iff.mp (hall j (by omega) (by omega))

/-- Nothing but a miss puts a window full of them at `k`. -/
theorem missed_of_window {missThreshold : UInt32} {σ : Nat → Option PingOutcome} {k : Nat}
    (h : missWindow missThreshold ≤ missRun σ (k + 1)) : missed (σ k) = true := by
  have hpos : 1 ≤ missWindow missThreshold := Nat.le_max_left ..
  unfold missRun at h
  split at h
  · assumption
  · omega

/-! ## One ping -/

/-- The verdict on outcome `n` is the one the rule gives. -/
def Ruled (missThreshold : UInt32) (σ : Nat → Option PingOutcome) (n : Nat) (v : Verdict) :
    Prop :=
  (∃ misses, v = .again misses ∧ misses.toNat = missRun σ (n + 1)
      ∧ missRun σ (n + 1) < missWindow missThreshold ∧ ∀ r, ¬ DownAt missThreshold σ n r)
    ∨ ∃ r, v = .down r ∧ DownAt missThreshold σ n r

/-- While fewer misses than it takes have come in a row, no index declares down by counting. -/
theorem not_downAt {missThreshold : UInt32} {σ : Nat → Option PingOutcome} {n : Nat}
    (hdrop : σ n ≠ some .replyDropped) (hgone : σ n ≠ some .gone)
    (hlt : missRun σ (n + 1) < missWindow missThreshold) (r : DownReason) :
    ¬ DownAt missThreshold σ n r := by
  rintro (⟨hd, _⟩ | ⟨hg, _⟩ | ⟨h1, h2, _⟩)
  · exact hdrop hd
  · exact hgone hg
  · have := (window_iff missThreshold σ n).mp ⟨h1, h2⟩
    omega

/-- A miss, of either kind. The counter stays below the threshold, so it cannot overflow. -/
theorem miss_ruled {missThreshold misses : UInt32} {σ : Nat → Option PingOutcome} {n : Nat}
    (hm : missed (σ n) = true) (hmiss : misses.toNat = missRun σ n)
    (hlt : missRun σ n < missWindow missThreshold) :
    Ruled missThreshold σ n (miss missThreshold misses) := by
  have hrun : missRun σ (n + 1) = missRun σ n + 1 := by
    show (if missed (σ n) then missRun σ n + 1 else 0) = _
    rw [if_pos hm]
  have hfits : misses.toNat + 1 < UInt32.size := by
    have hsize : missThreshold.toNat < UInt32.size := missThreshold.toNat_lt_size
    have hone : 1 < UInt32.size := by decide
    unfold missWindow at hlt
    omega
  have hinc : (misses + 1).toNat = missRun σ (n + 1) := by
    rw [UInt32.toNat_add, hrun, ← hmiss]
    exact Nat.mod_eq_of_lt hfits
  unfold miss
  rw [if_neg (Nat.ne_of_lt hfits)]
  by_cases hle : missThreshold ≤ misses + 1
  · rw [if_pos hle]
    rw [UInt32.le_iff_toNat_le, hinc] at hle
    have hwin : missWindow missThreshold ≤ missRun σ (n + 1) := by
      unfold missWindow
      omega
    obtain ⟨h1, h2⟩ := (window_iff missThreshold σ n).mpr hwin
    exact Or.inr ⟨_, rfl, Or.inr (Or.inr ⟨h1, h2, rfl⟩)⟩
  · rw [if_neg hle]
    rw [UInt32.le_iff_toNat_le, hinc] at hle
    have hshort : missRun σ (n + 1) < missWindow missThreshold := by
      unfold missWindow
      omega
    refine Or.inl ⟨_, rfl, hinc, hshort, not_downAt ?_ ?_ hshort⟩
    · intro hd; rw [hd] at hm; exact Bool.noConfusion hm
    · intro hg; rw [hg] at hm; exact Bool.noConfusion hm

/-- **The arms of the loop follow the rule**, when the counter holds the misses in a row. -/
theorem judge_ruled {missThreshold misses : UInt32} {σ : Nat → Option PingOutcome} {n : Nat}
    {o : PingOutcome} (ho : σ n = some o) (hmiss : misses.toNat = missRun σ n)
    (hlt : missRun σ n < missWindow missThreshold) :
    Ruled missThreshold σ n (judge missThreshold misses o) := by
  cases o with
  | pong =>
      have hzero : missRun σ (n + 1) = 0 := by
        show (if missed (σ n) then missRun σ n + 1 else 0) = _
        rw [ho]
        rfl
      have hshort : missRun σ (n + 1) < missWindow missThreshold := by
        rw [hzero]
        exact Nat.lt_of_lt_of_le Nat.zero_lt_one (Nat.le_max_left ..)
      refine Or.inl ⟨0, rfl, hzero.symm, hshort, not_downAt ?_ ?_ hshort⟩
      · rw [ho]; simp
      · rw [ho]; simp
  | replyTimeout => exact miss_ruled (by rw [ho]; rfl) hmiss hlt
  | mailboxFull capacity => exact miss_ruled (by rw [ho]; rfl) hmiss hlt
  | replyDropped => exact Or.inr ⟨_, rfl, Or.inl ⟨ho, rfl⟩⟩
  | gone => exact Or.inr ⟨_, rfl, Or.inr (Or.inl ⟨ho, rfl⟩)⟩

/-! ## The loop -/

/-- The watcher after `n` outcomes of the sequence. -/
structure Beats (missThreshold : UInt32) (σ : Nat → Option PingOutcome) (n : Nat)
    (w : Heartbeat) : Prop where
  /-- Running, it has found no reason so far, and counts the misses in a row. -/
  running : w.pc.live = true → w.sent = [] ∧ (∀ k, k < n → ∀ r, ¬ DownAt missThreshold σ k r)
    ∧ w.misses.toNat = missRun σ n ∧ missRun σ n < missWindow missThreshold
  /-- It has returned at the first index that declares down. -/
  returned : w.pc = .returned →
    ∃ k r, n = k + 1 ∧ w.sent = [r] ∧ FirstDown missThreshold σ k r
  fits : w.pc ≠ .overflowed
  /-- Every ping has had its outcome, but the one that is awaiting it. -/
  pings : w.pings = n + if w.pc = .awaiting then 1 else 0

theorem beats_init (missThreshold : UInt32) (σ : Nat → Option PingOutcome) :
    Beats missThreshold σ 0 .init where
  running := by
    intro _
    refine ⟨rfl, fun k hk => absurd hk (Nat.not_lt_zero k), rfl, ?_⟩
    exact Nat.lt_of_lt_of_le Nat.zero_lt_one (Nat.le_max_left ..)
  returned := fun h => HeartbeatPc.noConfusion h
  fits := HeartbeatPc.noConfusion
  pings := rfl

/-- The end of an iteration. -/
theorem beats_settle {missThreshold : UInt32} {σ : Nat → Option PingOutcome} {n : Nat}
    {w : Heartbeat} {o : PingOutcome} (ho : σ n = some o)
    (hrun : w.sent = [] ∧ (∀ k, k < n → ∀ r, ¬ DownAt missThreshold σ k r)
      ∧ w.misses.toNat = missRun σ n ∧ missRun σ n < missWindow missThreshold)
    (hpings : w.pings = n + 1) :
    Beats missThreshold σ (n + 1) (w.settle missThreshold o) := by
  obtain ⟨hsent, hnone, hmiss, hlt⟩ := hrun
  unfold Heartbeat.settle
  rcases judge_ruled ho hmiss hlt with ⟨misses, hj, hmiss', hlt', hdown⟩ | ⟨r, hj, hdown⟩
  · rw [hj]
    refine ⟨fun _ => ⟨hsent, ?_, hmiss', hlt'⟩, fun h => HeartbeatPc.noConfusion h,
      HeartbeatPc.noConfusion, hpings⟩
    intro k hk r
    rcases Nat.lt_succ_iff_lt_or_eq.mp hk with hk | rfl
    · exact hnone k hk r
    · exact hdown r
  · rw [hj]
    refine ⟨fun h => Bool.noConfusion h, fun _ => ⟨n, r, rfl, ?_, hdown, hnone⟩,
      HeartbeatPc.noConfusion, hpings⟩
    show w.sent ++ [r] = [r]
    rw [hsent]
    rfl

/-- **Preserved by every step**, which settles the next outcome of the sequence or none. -/
theorem beats_step {missThreshold : UInt32} {σ : Nat → Option PingOutcome} {n : Nat}
    {w w' : Heartbeat} {e : HeartbeatEvent} (h : Beats missThreshold σ n w)
    (hs : w.step missThreshold e = some w') (ho : ∀ o, outcomeOf e = some o → σ n = some o) :
    Beats missThreshold σ (n + (outcomeOf e).toList.length) w' := by
  have hpings : ∀ {pc : HeartbeatPc}, w.pc = pc → w.pings = n + if pc = .awaiting then 1 else 0 :=
    fun hpc => hpc ▸ h.pings
  cases e with
  | told res =>
      rw [Heartbeat.step] at hs
      split at hs
      · rename_i hpc
        have hp := hpings hpc
        have hrun := h.running (by rw [hpc]; rfl)
        cases res with
        | ok u =>
            obtain rfl := Option.some.inj hs
            -- a ping sent settles nothing yet
            refine ⟨fun _ => hrun, fun he => HeartbeatPc.noConfusion he,
              HeartbeatPc.noConfusion, ?_⟩
            exact congrArg (· + 1) hp
        | error err =>
            cases err with
            | dropped capacity =>
                obtain rfl := Option.some.inj hs
                exact beats_settle (ho _ rfl) hrun (congrArg (· + 1) hp)
            | gone =>
                obtain rfl := Option.some.inj hs
                exact beats_settle (ho _ rfl) hrun (congrArg (· + 1) hp)
      · exact absurd hs (by simp)
  | replied =>
      rw [Heartbeat.step] at hs
      split at hs
      · rename_i hpc
        obtain rfl := Option.some.inj hs
        exact beats_settle (ho _ rfl) (h.running (by rw [hpc]; rfl)) (hpings hpc)
      · exact absurd hs (by simp)
  | replyDropped =>
      rw [Heartbeat.step] at hs
      split at hs
      · rename_i hpc
        obtain rfl := Option.some.inj hs
        exact beats_settle (ho _ rfl) (h.running (by rw [hpc]; rfl)) (hpings hpc)
      · exact absurd hs (by simp)
  | timedOut =>
      rw [Heartbeat.step] at hs
      split at hs
      · rename_i hpc
        obtain rfl := Option.some.inj hs
        exact beats_settle (ho _ rfl) (h.running (by rw [hpc]; rfl)) (hpings hpc)
      · exact absurd hs (by simp)
  | woke =>
      rw [Heartbeat.step] at hs
      split at hs
      · rename_i hpc
        obtain rfl := Option.some.inj hs
        refine ⟨fun _ => h.running (by rw [hpc]; rfl), fun he => HeartbeatPc.noConfusion he,
          HeartbeatPc.noConfusion, (hpings hpc).trans rfl⟩
      · exact absurd hs (by simp)

theorem outcomes_snoc (tr : List (Heartbeat × HeartbeatEvent)) (w : Heartbeat)
    (e : HeartbeatEvent) : outcomes (tr ++ [(w, e)]) = outcomes tr ++ (outcomeOf e).toList := by
  unfold outcomes
  rw [List.filterMap_append]
  cases he : outcomeOf e <;> simp [he]

/-- **Along a run.** -/
theorem beats_run {missThreshold : UInt32} {σ : Nat → Option PingOutcome}
    {tr : List (Heartbeat × HeartbeatEvent)} {w : Heartbeat}
    (h : Run (Heartbeat.step missThreshold) .init tr w) (hσ : Follows σ (outcomes tr)) :
    Beats missThreshold σ (outcomes tr).length w := by
  induction h with
  | nil => exact beats_init missThreshold σ
  | @snoc tr w w' e _ hs ih =>
      rw [outcomes_snoc] at hσ ⊢
      have hold : Follows σ (outcomes tr) := by
        intro k o hk
        refine hσ k o ?_
        rw [List.getElem?_append_left (List.getElem?_eq_some_iff.mp hk).1]
        exact hk
      rw [List.length_append]
      refine beats_step (ih hold) hs fun o ho => hσ _ o ?_
      rw [ho, List.getElem?_append_right (Nat.le_refl _), Nat.sub_self]
      rfl

/-! ## Every sequence has its run -/

/-- The steps that bring a ping to the outcome `o`. -/
def pingEvents : PingOutcome → List HeartbeatEvent
  | .pong => [.told (.ok ()), .replied]
  | .replyTimeout => [.told (.ok ()), .timedOut]
  | .mailboxFull capacity => [.told (.error (.dropped capacity))]
  | .replyDropped => [.told (.ok ()), .replyDropped]
  | .gone => [.told (.error .gone)]

/-- From the top of the loop, every outcome can come next. -/
theorem ping_run {missThreshold : UInt32} {w : Heartbeat} (hpc : w.pc = .pinging)
    (o : PingOutcome) :
    ∃ tr, Run (Heartbeat.step missThreshold) w tr
        ((⟨.awaiting, w.misses, w.pings + 1, w.sent⟩ : Heartbeat).settle missThreshold o)
      ∧ outcomes tr = [o] := by
  have hsettle : ∀ pc : HeartbeatPc,
      (⟨pc, w.misses, w.pings + 1, w.sent⟩ : Heartbeat).settle missThreshold o
        = (⟨.awaiting, w.misses, w.pings + 1, w.sent⟩ : Heartbeat).settle missThreshold o := by
    intro pc
    unfold Heartbeat.settle
    cases judge missThreshold w.misses o <;> rfl
  have hexec : exec (Heartbeat.step missThreshold) w (pingEvents o)
      = some ((⟨.awaiting, w.misses, w.pings + 1, w.sent⟩ : Heartbeat).settle missThreshold o) := by
    cases o <;>
      simp [exec, pingEvents, Heartbeat.step, hpc, hsettle]
  refine ⟨_, Run.of_exec hexec, ?_⟩
  cases o <;> simp [traceOf, pingEvents, Heartbeat.step, hpc, outcomes, outcomeOf]

theorem settle_ne_awaiting (missThreshold : UInt32) (w : Heartbeat) (o : PingOutcome) :
    (w.settle missThreshold o).pc ≠ .awaiting := by
  unfold Heartbeat.settle
  cases judge missThreshold w.misses o <;> simp

/-- As long as nothing declares the target down, the loop comes to every next outcome. -/
theorem exists_run {missThreshold : UInt32} {σ : Nat → Option PingOutcome} (n : Nat)
    (hsome : ∀ k, k < n → (σ k).isSome = true)
    (hnone : ∀ k, k + 1 < n → ∀ r, ¬ DownAt missThreshold σ k r) :
    ∃ tr w, Run (Heartbeat.step missThreshold) .init tr w ∧ Follows σ (outcomes tr)
      ∧ (outcomes tr).length = n ∧ w.pc ≠ .awaiting := by
  induction n with
  | zero =>
      refine ⟨[], .init, Run.nil, fun k o hk => ?_, rfl, HeartbeatPc.noConfusion⟩
      exact absurd hk (by simp [outcomes])
  | succ n ih =>
      obtain ⟨tr, w, hrun, hσ, hlen, hawait⟩ :=
        ih (fun k hk => hsome k (Nat.lt_succ_of_lt hk)) (fun k hk => hnone k (Nat.lt_succ_of_lt hk))
      have hbeats := beats_run hrun hσ
      -- the watcher is asleep, or just starting: it gets to the top of the loop
      have htop : ∃ tr' w', Run (Heartbeat.step missThreshold) w tr' w' ∧ outcomes tr' = []
          ∧ w'.pc = .pinging := by
        cases hpc : w.pc with
        | pinging => exact ⟨[], w, Run.nil, rfl, hpc⟩
        | awaiting => exact absurd hpc hawait
        | sleeping =>
            have hwoke : w.step missThreshold .woke = some { w with pc := .pinging } := by
              rw [Heartbeat.step, if_pos hpc]
            exact ⟨_, _, Run.snoc Run.nil hwoke, rfl, rfl⟩
        | returned =>
            obtain ⟨k, r, hk, _, hfirst⟩ := hbeats.returned hpc
            exact absurd hfirst.1 (hnone k (by omega) r)
        | overflowed => exact absurd hpc hbeats.fits
      obtain ⟨tr', w', hrun', hout', hpc'⟩ := htop
      obtain ⟨o, ho⟩ := Option.isSome_iff_exists.mp (hsome n (Nat.lt_succ_self n))
      obtain ⟨tr'', hrun'', hout''⟩ := @ping_run missThreshold w' hpc' o
      have hall : outcomes (tr ++ tr' ++ tr'') = outcomes tr ++ [o] := by
        unfold outcomes at hout' hout'' ⊢
        rw [List.filterMap_append, List.filterMap_append, hout', hout'', List.append_nil]
      refine ⟨_, _, (hrun.append hrun').append hrun'', ?_, ?_, settle_ne_awaiting _ _ _⟩
      · intro k o' hk
        rw [hall] at hk
        rcases Nat.lt_or_ge k (outcomes tr).length with hlt | hge
        · rw [List.getElem?_append_left hlt] at hk
          exact hσ k o' hk
        · have hkn : k = n := by
            have := (List.getElem?_eq_some_iff.mp hk).1
            rw [List.length_append, List.length_singleton] at this
            omega
          rw [hkn, ← hlen, List.getElem?_concat_length] at hk
          rw [hkn, ho]
          exact hk
      · rw [hall, List.length_append, hlen]
        rfl

/-- An index declares down for one reason. -/
theorem DownAt.unique {missThreshold : UInt32} {σ : Nat → Option PingOutcome} {k : Nat}
    {r r' : DownReason} (h : DownAt missThreshold σ k r) (h' : DownAt missThreshold σ k r') :
    r = r' := by
  have hmiss : missWindow missThreshold ≤ k + 1
      ∧ (∀ j, j ≤ k → k < j + missWindow missThreshold → IsMiss σ j) → missed (σ k) = true :=
    fun hw => missed_of_window ((window_iff missThreshold σ k).mp hw)
  rcases h with ⟨hd, rfl⟩ | ⟨hg, rfl⟩ | ⟨h1, h2, rfl⟩
  · rcases h' with ⟨_, rfl⟩ | ⟨hg', rfl⟩ | ⟨h1', h2', rfl⟩
    · rfl
    · rw [hd] at hg'; exact absurd hg' (by simp)
    · have := hmiss ⟨h1', h2'⟩
      rw [hd] at this
      exact Bool.noConfusion this
  · rcases h' with ⟨hd', rfl⟩ | ⟨_, rfl⟩ | ⟨h1', h2', rfl⟩
    · rw [hg] at hd'; exact absurd hd' (by simp)
    · rfl
    · have := hmiss ⟨h1', h2'⟩
      rw [hg] at this
      exact Bool.noConfusion this
  · have hm := hmiss ⟨h1, h2⟩
    rcases h' with ⟨hd', rfl⟩ | ⟨hg', rfl⟩ | ⟨_, _, rfl⟩
    · rw [hd'] at hm; exact Bool.noConfusion hm
    · rw [hg'] at hm; exact Bool.noConfusion hm
    · rfl

/-- Once a reason has been sent the task is over. -/
theorem step_none_of_returned {missThreshold : UInt32} {w : Heartbeat} (hpc : w.pc = .returned)
    (e : HeartbeatEvent) : w.step missThreshold e = none := by
  cases e <;> simp [Heartbeat.step, hpc]

/--
**The heartbeat loop declares down exactly on its rule.**

For every threshold and every sequence of ping outcomes, finite or infinite: in a run
that follows it the watcher has sent the reason `r` exactly if it has just met the first
index that declares down, for `r`; it gets no further than that index, sends at most one
reason, and is over then; every ping it made has one of those outcomes, but the last one
while that is awaited; and the counter does not overflow. And the loop does come to every
outcome of the sequence up to that index.
-/
theorem down_rule (missThreshold : UInt32) (σ : Nat → Option PingOutcome) :
    (∀ tr w, Run (Heartbeat.step missThreshold) .init tr w → Follows σ (outcomes tr) →
        (∀ r, w.sent = [r]
          ↔ ∃ k, (outcomes tr).length = k + 1 ∧ FirstDown missThreshold σ k r)
        ∧ (∀ k r, FirstDown missThreshold σ k r → (outcomes tr).length ≤ k + 1)
        ∧ w.sent.length ≤ 1
        ∧ (w.sent ≠ [] → ∀ e, w.step missThreshold e = none)
        ∧ w.pings = (outcomes tr).length + (if w.pc = .awaiting then 1 else 0)
        ∧ w.pc ≠ .overflowed)
      ∧ ∀ n, (∀ k, k < n → (σ k).isSome = true) →
        (∀ k, k + 1 < n → ∀ r, ¬ DownAt missThreshold σ k r) →
        ∃ tr w, Run (Heartbeat.step missThreshold) .init tr w ∧ Follows σ (outcomes tr)
          ∧ (outcomes tr).length = n := by
  refine ⟨?_, ?_⟩
  · intro tr w hrun hσ
    -- the two cases of the watcher: it has reported, or no outcome so far brought it down
    have hbeats := beats_run hrun hσ
    by_cases hpc : w.pc = .returned
    · obtain ⟨k, r, hlen, hsent, hfirst⟩ := hbeats.returned hpc
      refine ⟨?_, ?_, ?_, fun _ => step_none_of_returned hpc, hbeats.pings, hbeats.fits⟩
      · intro r'
        rw [hsent]
        refine ⟨fun he => ⟨k, hlen, (List.cons.inj he).1 ▸ hfirst⟩, ?_⟩
        rintro ⟨k', hlen', hfirst'⟩
        obtain rfl : k = k' := by omega
        rw [hfirst.1.unique hfirst'.1]
      · intro k' r' hfirst'
        refine Nat.le_of_not_lt fun hlt => ?_
        exact hfirst.2 k' (by omega) r' hfirst'.1
      · rw [hsent]
        exact Nat.le_refl _
    · have hlive : w.pc.live = true := by
        have hfits := hbeats.fits
        cases hpc' : w.pc with
        | returned => exact absurd hpc' hpc
        | overflowed => exact absurd hpc' hfits
        | pinging => rfl
        | awaiting => rfl
        | sleeping => rfl
      obtain ⟨hsent, hnone, _, _⟩ := hbeats.running hlive
      refine ⟨?_, ?_, ?_, fun hne => absurd hsent hne, hbeats.pings, hbeats.fits⟩
      · intro r
        rw [hsent]
        refine ⟨fun he => absurd he (by simp), ?_⟩
        rintro ⟨k, hlen, hfirst⟩
        exact absurd hfirst.1 (hnone k (by omega) r)
      · intro k r hfirst
        refine Nat.le_of_not_lt fun hlt => ?_
        exact hnone k (by omega) r hfirst.1
      · rw [hsent]
        exact Nat.zero_le _
  · intro n hsome hnone
    obtain ⟨tr, w, hrun, hσ, hlen, _⟩ := exists_run n hsome hnone
    exact ⟨tr, w, hrun, hσ, hlen⟩

end ErlangActors.Proof
