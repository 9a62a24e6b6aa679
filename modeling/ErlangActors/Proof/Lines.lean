import ErlangActors.Proof.Release

/-!
# Who stands in line at a mailbox

A call of `ask` that found the mailbox full stands in that mailbox's line until its
message is in, or it is dropped, or the mailbox closes; and nobody else does. So a slot
granted is granted to a call that is there to fill it.
-/

namespace ErlangActors.Proof

open Actor Channel Transition

variable {μ ρ : Type}

/-- The `k`-th call waits for a slot in the mailbox of actor `a`. -/
def sendsTo (s : System μ ρ) (k : AskId) (a : ActorId) : Prop :=
  ∃ q m, s.asks[k]? = some q ∧ q.stage = .sending m ∧ q.target = a

/-- The line at the mailbox of actor `a`. -/
def lineOf (s : System μ ρ) (a : ActorId) : List AskId :=
  (s.actors[a]?).elim [] fun t => t.mailbox.line

structure Lines (s : System μ ρ) : Prop where
  nodup : ∀ a, (lineOf s a).Nodup
  sound : ∀ a k, k ∈ lineOf s a → sendsTo s k a
  complete : ∀ a k t, s.actors[a]? = some t → t.mailbox.closed = false → sendsTo s k a →
    k ∈ lineOf s a
  known : ∀ a k, sendsTo s k a → a < s.actors.length
  room : ∀ (a : ActorId) (t : ActorTask μ), s.actors[a]? = some t → 0 < t.mailbox.capacity

theorem lines_init : Lines (System.init : System μ ρ) where
  nodup := fun a => List.nodup_nil
  sound := fun a k hk => absurd hk (by simp [lineOf, System.init])
  complete := fun a k t ht => absurd ht (by simp [System.init])
  known := by
    rintro a k ⟨q, m, hq, _⟩
    exact absurd hq (by simp [System.init])
  room := fun a t ht => absurd ht (by simp [System.init])

section
variable {s s' s'' : System μ ρ} {a : ActorId} {k : AskId}

theorem lineOf_eq {t : ActorTask μ} (ht : s.actors[a]? = some t) : lineOf s a = t.mailbox.line := by
  unfold lineOf
  rw [ht]
  rfl

/-! ## Pieces of a step -/

/-- The same mailboxes, with other contents. -/
def SameBoxes (s s' : System μ ρ) : Prop :=
  s'.actors.length = s.actors.length ∧ ∀ (i : ActorId) (t' : ActorTask μ), s'.actors[i]? = some t' →
    ∃ t, s.actors[i]? = some t ∧ t'.mailbox.Like t.mailbox

theorem sameBoxes_of_eq (h : s'.actors = s.actors) : SameBoxes s s' :=
  ⟨congrArg List.length h, fun _ t' ht' => ⟨t', h ▸ ht', Chan.Like.refl _⟩⟩

theorem SameBoxes.trans (h : SameBoxes s s') (h' : SameBoxes s' s'') : SameBoxes s s'' := by
  refine ⟨h'.1.trans h.1, fun i t'' ht'' => ?_⟩
  obtain ⟨t', ht', hlike'⟩ := h'.2 i t'' ht''
  obtain ⟨t, ht, hlike⟩ := h.2 i t' ht'
  exact ⟨t, ht, hlike'.1.trans hlike.1, hlike'.2.trans hlike.2⟩

theorem sameBoxes_updateActor {i : ActorId} {f : ActorTask μ → ActorTask μ}
    (hf : ∀ t, s.actors[i]? = some t → (f t).mailbox.Like t.mailbox) :
    SameBoxes s (s.updateActor i f) := by
  refine ⟨updateActor_length s i f, fun j t' ht' => ?_⟩
  rw [updateActor_getElem?] at ht'
  obtain ⟨t, ht, rfl⟩ := Option.map_eq_some_iff.mp ht'
  refine ⟨t, ht, ?_⟩
  split
  · rename_i hij
    exact hf t (hij ▸ ht)
  · exact Chan.Like.refl _

/-- Nobody joins a line or leaves one. -/
structure SameLines (s s' : System μ ρ) : Prop where
  boxes : SameBoxes s s'
  sends : ∀ k a, sendsTo s' k a ↔ sendsTo s k a
  lines : ∀ a, lineOf s' a = lineOf s a

theorem SameLines.refl (s : System μ ρ) : SameLines s s :=
  ⟨sameBoxes_of_eq rfl, fun _ _ => Iff.rfl, fun _ => rfl⟩

theorem SameLines.trans (h : SameLines s s') (h' : SameLines s' s'') : SameLines s s'' where
  boxes := h.boxes.trans h'.boxes
  sends := fun k a => (h'.sends k a).trans (h.sends k a)
  lines := fun a => (h'.lines a).trans (h.lines a)

theorem Lines.same (h : Lines s) (h' : SameLines s s') : Lines s' where
  nodup := fun a => by rw [h'.lines]; exact h.nodup a
  sound := by
    intro a k hk
    rw [h'.lines] at hk
    exact (h'.sends k a).mpr (h.sound a k hk)
  complete := by
    intro a k t' ht' hopen hsend
    obtain ⟨t, ht, hlike⟩ := h'.boxes.2 a t' ht'
    rw [h'.lines]
    exact h.complete a k t ht (hlike.2.symm.trans hopen) ((h'.sends k a).mp hsend)
  known := by
    intro a k hsend
    rw [h'.boxes.1]
    exact h.known a k ((h'.sends k a).mp hsend)
  room := by
    intro a t' ht'
    obtain ⟨t, ht, hlike⟩ := h'.boxes.2 a t' ht'
    rw [hlike.1]
    exact h.room a t ht

/-- The `k`-th call leaves the line it is in, if it is in one. -/
structure LeavesLine (s s' : System μ ρ) (k : AskId) : Prop where
  boxes : SameBoxes s s'
  sends : ∀ j a, sendsTo s' j a ↔ sendsTo s j a ∧ j ≠ k
  lines : ∀ a, lineOf s' a = (lineOf s a).erase k

theorem Lines.leave (h : Lines s) (h' : LeavesLine s s' k) : Lines s' where
  nodup := fun a => by rw [h'.lines]; exact (h.nodup a).erase k
  sound := by
    intro a j hj
    rw [h'.lines, (h.nodup a).mem_erase_iff] at hj
    exact (h'.sends j a).mpr ⟨h.sound a j hj.2, hj.1⟩
  complete := by
    intro a j t' ht' hopen hsend
    obtain ⟨t, ht, hlike⟩ := h'.boxes.2 a t' ht'
    obtain ⟨hsend, hne⟩ := (h'.sends j a).mp hsend
    rw [h'.lines, (h.nodup a).mem_erase_iff]
    exact ⟨hne, h.complete a j t ht (hlike.2.symm.trans hopen) hsend⟩
  known := by
    intro a j hsend
    rw [h'.boxes.1]
    exact h.known a j ((h'.sends j a).mp hsend).1
  room := by
    intro a t' ht'
    obtain ⟨t, ht, hlike⟩ := h'.boxes.2 a t' ht'
    rw [hlike.1]
    exact h.room a t ht

theorem sameLines_of_eq (hactors : s'.actors = s.actors) (hasks : s'.asks = s.asks) :
    SameLines s s' where
  boxes := sameBoxes_of_eq hactors
  sends := fun k a => by unfold sendsTo; rw [hasks]
  lines := fun a => by unfold lineOf; rw [hactors]

/-- A task changes, its mailbox only in what is queued. -/
theorem sameLines_updateActor {i : ActorId} {f : ActorTask μ → ActorTask μ}
    (hf : ∀ t, s.actors[i]? = some t → (f t).mailbox.Like t.mailbox
      ∧ (f t).mailbox.line = t.mailbox.line) :
    SameLines s (s.updateActor i f) where
  boxes := sameBoxes_updateActor fun t ht => (hf t ht).1
  sends := fun _ _ => Iff.rfl
  lines := by
    intro a
    unfold lineOf
    rw [updateActor_getElem?]
    cases ht : s.actors[a]? with
    | none => rfl
    | some t =>
        show (if i = a then f t else t).mailbox.line = t.mailbox.line
        split
        · rename_i hia
          exact (hf t (hia ▸ ht)).2
        · rfl

theorem sameLines_updateHand (s : System μ ρ) (p : Party) (f : Holding → Holding) :
    SameLines s (s.updateHand p f) := by
  cases p with
  | outside => exact sameLines_of_eq rfl rfl
  | actor i => exact sameLines_updateActor fun t _ => ⟨Chan.Like.refl _, rfl⟩

/-- A call changes, and does not wait for a slot, before or after. -/
theorem sameLines_updateAsk {f : Ask μ ρ → Ask μ ρ}
    (hf : ∀ q, s.asks[k]? = some q → (∀ m, q.stage ≠ .sending m) ∧ ∀ m, (f q).stage ≠ .sending m) :
    SameLines s (s.updateAsk k f) where
  boxes := sameBoxes_of_eq rfl
  sends := by
    intro j a
    unfold sendsTo
    rw [updateAsk_getElem?]
    by_cases hkj : k = j
    · subst hkj
      cases hq : s.asks[k]? with
      | none => simp
      | some q =>
          obtain ⟨hbefore, hafter⟩ := hf q hq
          constructor
          · rintro ⟨q', m, hq', hst, _⟩
            rw [Option.map_some, if_pos rfl] at hq'
            rw [← Option.some.inj hq'] at hst
            exact absurd hst (hafter m)
          · rintro ⟨q', m, hq', hst, _⟩
            rw [← Option.some.inj hq'] at hst
            exact absurd hst (hbefore m)
    · cases s.asks[j]? <;> simp [hkj]
  lines := fun _ => rfl

/-- What comes on a reply channel moves nobody. -/
theorem sameLines_reply (s : System μ ρ) (k : AskId) (r : ρ) :
    SameLines s (s.updateAsk k fun q => q.reply r) where
  boxes := sameBoxes_of_eq rfl
  sends := by
    have hsame : ∀ q : Ask μ ρ, (q.reply r).stage = q.stage ∧ (q.reply r).target = q.target := by
      intro q
      unfold Ask.reply
      split <;> exact ⟨rfl, rfl⟩
    intro j a
    unfold sendsTo
    rw [updateAsk_getElem?]
    by_cases hkj : k = j
    · cases s.asks[j]? <;> simp [hkj, hsame]
    · cases s.asks[j]? <;> simp [hkj]
  lines := fun _ => rfl

theorem sameLines_dropReplies (s : System μ ρ) (ks : List AskId) :
    SameLines s (s.dropReplies ks) where
  boxes := sameBoxes_of_eq rfl
  sends := by
    intro j a
    unfold sendsTo
    rw [dropReplies_getElem?]
    constructor
    · rintro ⟨q', m, hq', hst, htarget⟩
      obtain ⟨q, hq, rfl⟩ := Option.map_eq_some_iff.mp hq'
      refine ⟨q, m, hq, ?_, ?_⟩
      · split at hst <;> exact hst
      · split at htarget <;> exact htarget
    · rintro ⟨q, m, hq, hst, htarget⟩
      refine ⟨_, m, by rw [hq]; rfl, ?_, ?_⟩
      · dsimp only
        split <;> exact hst
      · dsimp only
        split <;> exact htarget
  lines := fun _ => rfl

theorem sameLines_tell {m : Msg μ} (h : s.tellOrDrop a m = some s') : SameLines s s' := by
  unfold System.tellOrDrop System.tell at h
  rw [Option.map_map, Option.map_eq_some_iff] at h
  obtain ⟨t, ht, h⟩ := h
  cases hsend : t.mailbox.trySend m with
  | ok c =>
      simp only [Function.comp_apply, hsend] at h
      rw [← h]
      refine sameLines_updateActor fun t₁ ht₁ => ?_
      obtain rfl := Option.some.inj (ht.symm.trans ht₁)
      exact ⟨Chan.trySend_like hsend, Chan.trySend_line hsend⟩
  | error err =>
      cases err with
      | full => simp only [Function.comp_apply, hsend] at h; exact h ▸ sameLines_dropReplies s _
      | closed => simp only [Function.comp_apply, hsend] at h; exact h ▸ sameLines_dropReplies s _

/-- A call that does not wait for a slot joins no line. -/
theorem sameLines_open {q : Ask μ ρ} (hq : ∀ m, q.stage ≠ .sending m) :
    SameLines s { s with asks := s.asks ++ [q] } where
  boxes := sameBoxes_of_eq rfl
  sends := by
    intro j b
    constructor
    · rintro ⟨q', m, hq', hst, htarget⟩
      rcases getElem?_snoc hq' with hold | ⟨_, rfl⟩
      · exact ⟨q', m, hold, hst, htarget⟩
      · exact absurd hst (hq m)
    · rintro ⟨q', m, hq', hst, htarget⟩
      refine ⟨q', m, ?_, hst, htarget⟩
      exact (List.getElem?_append_left (List.getElem?_eq_some_iff.mp hq').1).trans hq'
  lines := fun _ => rfl

/-- One that does joins the line at the mailbox it is for. -/
theorem lines_join (h : Lines s) {t : ActorTask μ} (ht : s.actors[a]? = some t) {q : Ask μ ρ}
    {m : Msg μ} (hst : q.stage = .sending m) (htarget : q.target = a)
    {c : Chan (Msg μ) AskId} (hlike : c.Like t.mailbox)
    (hline : c.line = t.mailbox.line ++ [s.asks.length]) :
    Lines (({ s with asks := s.asks ++ [q] } : System μ ρ).updateActor a
      fun t => { t with mailbox := c }) := by
  have hboxes : SameBoxes s (({ s with asks := s.asks ++ [q] } : System μ ρ).updateActor a
      fun t => { t with mailbox := c }) := by
    refine sameBoxes_updateActor (s := { s with asks := s.asks ++ [q] }) fun t₁ ht₁ => ?_
    obtain rfl := Option.some.inj (ht.symm.trans ht₁)
    exact hlike
  have hlines : ∀ b, lineOf (({ s with asks := s.asks ++ [q] } : System μ ρ).updateActor a
      fun t => { t with mailbox := c }) b
        = if b = a then lineOf s a ++ [s.asks.length] else lineOf s b := by
    intro b
    unfold lineOf
    rw [updateActor_getElem?]
    by_cases hb : b = a
    · subst hb
      rw [if_pos rfl, ht]
      exact (congrArg (fun t : ActorTask μ => t.mailbox.line) (if_pos rfl)).trans hline
    · rw [if_neg hb]
      cases s.actors[b]? with
      | none => rfl
      | some t' => exact congrArg (fun t : ActorTask μ => t.mailbox.line) (if_neg (Ne.symm hb))
  have hsends : ∀ j b, sendsTo (({ s with asks := s.asks ++ [q] } : System μ ρ).updateActor a
      fun t => { t with mailbox := c }) j b ↔ sendsTo s j b ∨ j = s.asks.length ∧ b = a := by
    intro j b
    constructor
    · rintro ⟨q', m', hq', hst', htarget'⟩
      rcases getElem?_snoc hq' with hold | ⟨hj, rfl⟩
      · exact Or.inl ⟨q', m', hold, hst', htarget'⟩
      · exact Or.inr ⟨hj, htarget'.symm.trans htarget⟩
    · rintro (⟨q', m', hq', hst', htarget'⟩ | ⟨rfl, rfl⟩)
      · refine ⟨q', m', ?_, hst', htarget'⟩
        exact (List.getElem?_append_left (List.getElem?_eq_some_iff.mp hq').1).trans hq'
      · exact ⟨q, m, List.getElem?_concat_length, hst, htarget⟩
  -- the new call's number is not in any line yet
  have hfresh : ∀ b, ¬ sendsTo s s.asks.length b := by
    rintro b ⟨q', m', hq', _⟩
    rw [List.getElem?_eq_none (Nat.le_refl _)] at hq'
    exact absurd hq' (by simp)
  refine ⟨fun b => ?_, fun b j hj => ?_, fun b j t' ht' hopen hsend => ?_, fun b j hsend => ?_,
    fun b t' ht' => ?_⟩
  · rw [hlines]
    split
    · refine List.nodup_append.mpr ⟨h.nodup a, by simp, ?_⟩
      intro x hx y hy hxy
      rw [List.mem_singleton.mp hy] at hxy
      exact hfresh a (h.sound a _ (hxy ▸ hx))
    · exact h.nodup b
  · rw [hlines] at hj
    refine (hsends j b).mpr ?_
    split at hj
    · rename_i hb
      rcases List.mem_append.mp hj with hj | hj
      · exact Or.inl (hb ▸ h.sound a j hj)
      · exact Or.inr ⟨List.mem_singleton.mp hj, hb⟩
    · exact Or.inl (h.sound b j hj)
  · obtain ⟨t₁, ht₁, hlike₁⟩ := hboxes.2 b t' ht'
    rw [hlines]
    rcases (hsends j b).mp hsend with hold | ⟨rfl, rfl⟩
    · have hmem := h.complete b j t₁ ht₁ (hlike₁.2.symm.trans hopen) hold
      split
      · rename_i hb
        exact List.mem_append_left _ (hb ▸ hmem)
      · exact hmem
    · rw [if_pos rfl]
      exact List.mem_append_right _ (List.mem_singleton.mpr rfl)
  · rw [hboxes.1]
    rcases (hsends j b).mp hsend with hold | ⟨_, rfl⟩
    · exact h.known b j hold
    · exact (List.getElem?_eq_some_iff.mp ht).1
  · obtain ⟨t₁, ht₁, hlike₁⟩ := hboxes.2 b t' ht'
    rw [hlike₁.1]
    exact h.room b t₁ ht₁

theorem lines_ask (h : Lines s) {p : Party} {m : Msg μ} {dur : Nat}
    (hask : s.ask p a m dur = some s') : Lines s' := by
  unfold System.ask at hask
  obtain ⟨t, ht, hask⟩ := Option.map_eq_some_iff.mp hask
  dsimp only at hask
  have hlike := Chan.startSend_like t.mailbox s.asks.length (m.withReply s.asks.length)
  have hline := Chan.startSend_line t.mailbox s.asks.length (m.withReply s.asks.length)
  cases hsend : t.mailbox.startSend s.asks.length (m.withReply s.asks.length) with
  | sent c =>
      rw [hsend] at hask
      rw [← hask]
      refine h.same (SameLines.trans (sameLines_open (by simp)) (sameLines_updateActor ?_))
      intro t₁ ht₁
      obtain rfl := Option.some.inj (ht.symm.trans ht₁)
      exact ⟨hlike.1 c hsend, hline.1 c hsend⟩
  | pending c =>
      rw [hsend] at hask
      rw [← hask]
      exact lines_join h ht rfl rfl (hlike.2 c hsend) (hline.2 c hsend)
  | closed =>
      rw [hsend] at hask
      rw [← hask]
      exact h.same (SameLines.trans (sameLines_open (by simp)) (sameLines_dropReplies _ _))

/-- A call that waits for a slot stops waiting, and its name leaves the line. -/
theorem leavesLine {q : Ask μ ρ} (h : Lines s) (hq : s.asks[k]? = some q)
    {f : Ask μ ρ → Ask μ ρ} (hf : ∀ m, (f q).stage ≠ .sending m)
    {g : ActorTask μ → ActorTask μ} (hg : ∀ t, s.actors[q.target]? = some t →
      (g t).mailbox.Like t.mailbox ∧ (g t).mailbox.line = t.mailbox.line.erase k) :
    LeavesLine s ((s.updateAsk k f).updateActor q.target g) k where
  boxes := sameBoxes_updateActor (s := s.updateAsk k f) fun t ht => (hg t ht).1
  sends := by
    intro j b
    unfold sendsTo
    show (∃ q' m', (s.updateAsk k f).asks[j]? = some q' ∧ _) ↔ _
    rw [updateAsk_getElem?]
    by_cases hkj : k = j
    · subst hkj
      constructor
      · rintro ⟨q', m', hq', hst', _⟩
        rw [hq, Option.map_some, if_pos rfl] at hq'
        rw [← Option.some.inj hq'] at hst'
        exact absurd hst' (hf m')
      · rintro ⟨_, hne⟩
        exact absurd rfl hne
    · have hjk : j ≠ k := Ne.symm hkj
      cases s.asks[j]? <;> simp [hkj, hjk]
  lines := by
    intro b
    show (((s.updateAsk k f).updateActor q.target g).actors[b]?).elim [] _ = _
    rw [updateActor_getElem?]
    by_cases hb : q.target = b
    · subst hb
      cases ht : s.actors[q.target]? with
      | none =>
          show (Option.map _ s.actors[q.target]?).elim [] _ = _
          unfold lineOf
          rw [ht]
          rfl
      | some t =>
          show (Option.map _ s.actors[q.target]?).elim [] _ = _
          rw [ht, lineOf_eq ht]
          exact (congrArg (fun t : ActorTask μ => t.mailbox.line) (if_pos rfl)).trans (hg t ht).2
    · -- a call waits in its own target's line only
      have hnot : k ∉ lineOf s b := by
        intro hk
        obtain ⟨q', m', hq', _, htarget⟩ := h.sound b k hk
        obtain rfl := Option.some.inj (hq.symm.trans hq')
        exact hb htarget
      rw [List.erase_of_not_mem hnot]
      unfold lineOf
      show (Option.map _ s.actors[b]?).elim [] _ = _
      cases s.actors[b]? with
      | none => rfl
      | some t => exact congrArg (fun t : ActorTask μ => t.mailbox.line) (if_neg hb)

theorem lines_askSends (h : Lines s) (hsends : s.askSends k = some s') : Lines s' := by
  unfold System.askSends at hsends
  obtain ⟨q, hq, hsends⟩ := Option.bind_eq_some_iff.mp hsends
  cases hst : q.stage with
  | sending msg =>
      rw [hst] at hsends
      obtain ⟨t, ht, hsends⟩ := Option.bind_eq_some_iff.mp hsends
      cases hsend : t.mailbox.resumeSend k msg with
      | sent c =>
          rw [hsend] at hsends
          rw [← Option.some.inj hsends]
          refine h.leave (leavesLine h hq (by simp) fun t₁ ht₁ => ?_)
          obtain rfl := Option.some.inj (ht.symm.trans ht₁)
          exact ⟨Chan.resumeSend_like hsend, Chan.resumeSend_line hsend⟩
      | pending c => rw [hsend] at hsends; exact absurd hsends (by simp)
      | closed =>
          rw [hsend] at hsends
          rw [← Option.some.inj hsends]
          -- a closed mailbox has nobody in line
          have hnil : t.mailbox.line = [] := by
            have hclosed : t.mailbox.closed = true := by
              unfold Chan.resumeSend at hsend
              split at hsend
              · assumption
              · split at hsend <;> exact absurd hsend (by simp)
            obtain ⟨_, hg, hw⟩ := t.mailbox.drained hclosed
            unfold Chan.line
            rw [hg, hw]
            rfl
          have hid : (s.updateAsk k fun q => { q with stage := .done (.error .closed) }).updateActor
              q.target id = s.updateAsk k fun q => { q with stage := .done (.error .closed) } := by
            unfold System.updateActor
            rw [List.modify_id]
          have hleave := leavesLine h hq (f := fun q => { q with stage := .done (.error .closed) })
            (g := id) (by simp) fun t₁ ht₁ => by
              obtain rfl := Option.some.inj (ht.symm.trans ht₁)
              exact ⟨Chan.Like.refl _, by rw [id, hnil]; rfl⟩
          rw [hid] at hleave
          exact (h.leave hleave).same (sameLines_dropReplies _ _)
  | awaiting d => rw [hst] at hsends; exact absurd hsends (by simp)
  | done res => rw [hst] at hsends; exact absurd hsends (by simp)
  | dropped => rw [hst] at hsends; exact absurd hsends (by simp)

theorem lines_dropAsk (h : Lines s) (k : AskId) : Lines (s.dropAsk k) := by
  unfold System.dropAsk
  cases hq : s.asks[k]? with
  | none => exact h
  | some q =>
      dsimp only
      cases hst : q.stage with
      | sending msg =>
          refine (h.leave (leavesLine h hq (by simp) fun t _ => ?_)).same
            (sameLines_dropReplies _ _)
          exact ⟨Chan.cancel_like _ _, Chan.cancel_line _ _⟩
      | awaiting d =>
          refine h.same (sameLines_updateAsk fun q' hq' => ?_)
          obtain rfl := Option.some.inj (hq.symm.trans hq')
          exact ⟨fun m hm => by rw [hst] at hm; exact absurd hm (by simp), by simp⟩
      | done res => exact h
      | dropped => exact h

theorem lines_dropAsks (ks : List AskId) (s : System μ ρ) (h : Lines s) :
    Lines (ks.foldl System.dropAsk s) := by
  induction ks generalizing s with
  | nil => exact h
  | cons k ks ih => exact ih _ (lines_dropAsk h k)

/-- A mailbox that closes sends everybody in its line away. -/
theorem lines_close (h : Lines s) {i : ActorId} {f : ActorTask μ → ActorTask μ}
    (hf : ∀ t, (f t).mailbox = t.mailbox.close) : Lines (s.updateActor i f) := by
  have hline : ∀ b, lineOf (s.updateActor i f) b = if i = b then [] else lineOf s b := by
    intro b
    unfold lineOf
    rw [updateActor_getElem?]
    by_cases hb : i = b
    · rw [if_pos hb]
      cases s.actors[b]? with
      | none => rfl
      | some t =>
          show (if i = b then f t else t).mailbox.line = []
          rw [if_pos hb, hf]
          rfl
    · rw [if_neg hb]
      cases s.actors[b]? with
      | none => rfl
      | some t => exact congrArg (fun t : ActorTask μ => t.mailbox.line) (if_neg hb)
  refine ⟨fun b => ?_, fun b j hj => ?_, fun b j t' ht' hopen hsend => ?_, fun b j hsend => ?_,
    fun b t' ht' => ?_⟩
  · rw [hline]
    split
    · exact List.nodup_nil
    · exact h.nodup b
  · rw [hline] at hj
    split at hj
    · exact absurd hj List.not_mem_nil
    · exact h.sound b j hj
  · rw [updateActor_getElem?] at ht'
    obtain ⟨t, ht, rfl⟩ := Option.map_eq_some_iff.mp ht'
    rw [hline]
    by_cases hb : i = b
    · rw [if_pos hb, hf] at hopen
      exact Bool.noConfusion hopen
    · rw [if_neg hb] at hopen
      rw [if_neg hb]
      exact h.complete b j t ht hopen hsend
  · rw [updateActor_length]
    exact h.known b j hsend
  · rw [updateActor_getElem?] at ht'
    obtain ⟨t, ht, rfl⟩ := Option.map_eq_some_iff.mp ht'
    split
    · rw [hf]
      exact h.room b t ht
    · exact h.room b t ht

theorem lines_endActor (h : Lines s) (i : ActorId) (how : Exit) : Lines (s.endActor i how) := by
  have hdrops := lines_dropAsks (s.asksOf i) s h
  unfold System.endActor
  dsimp only
  cases ((s.asksOf i).foldl System.dropAsk s).actors[i]? with
  | none => exact hdrops
  | some t => exact (lines_close hdrops fun _ => rfl).same (sameLines_dropReplies _ _)

/-- A new mailbox has a line of its own, with nobody in it. -/
theorem lines_spawn (h : Lines s) {mailboxBound : Nat} (hbound : 0 < mailboxBound) :
    Lines { s with actors := s.actors ++ [ActorTask.new s.actors.length mailboxBound] } := by
  have hline : ∀ b, lineOf ({ s with actors := s.actors
      ++ [ActorTask.new s.actors.length mailboxBound] } : System μ ρ) b = lineOf s b := by
    intro b
    unfold lineOf
    dsimp only
    rcases Nat.lt_trichotomy b s.actors.length with hlt | rfl | hgt
    · rw [List.getElem?_append_left hlt]
    · rw [List.getElem?_concat_length, List.getElem?_eq_none (Nat.le_refl _)]
      rfl
    · rw [List.getElem?_eq_none (by simp; omega), List.getElem?_eq_none (Nat.le_of_lt hgt)]
  refine ⟨fun b => by rw [hline]; exact h.nodup b, fun b j hj => ?_,
    fun b j t' ht' hopen hsend => ?_, fun b j hsend => ?_, fun b t' ht' => ?_⟩
  · rw [hline] at hj
    exact h.sound b j hj
  · rw [hline]
    rcases getElem?_snoc ht' with ht | ⟨rfl, _⟩
    · exact h.complete b j t' ht hopen hsend
    · exact absurd (h.known _ j hsend) (Nat.lt_irrefl _)
  · show b < (s.actors ++ [_]).length
    rw [List.length_append, List.length_singleton]
    exact Nat.lt_succ_of_lt (h.known b j hsend)
  · rcases getElem?_snoc ht' with ht | ⟨_, rfl⟩
    · exact h.room b t' ht
    · exact hbound

/-- **Kept by every step.** -/
theorem lines_step {e : Event μ ρ} (hs : step s e = some s') (h : Lines s) : Lines s' := by
  have hhand : ∀ (s : System μ ρ) (p : Party) (f : Holding → Holding), Lines s →
      Lines (s.updateHand p f) := fun s p f h => h.same (sameLines_updateHand s p f)
  have hphase : ∀ (i : ActorId) (f : ActorTask μ → ActorTask μ), (∀ t, (f t).mailbox = t.mailbox) →
      Lines (s.updateActor i f) := fun i f hf => by
    refine h.same (sameLines_updateActor fun t _ => ?_)
    rw [hf]
    exact ⟨Chan.Like.refl _, rfl⟩
  cases step_takes hs with
  | spawn p mailboxBound _ hbound =>
      unfold System.spawn
      exact hhand _ p _ (lines_spawn h hbound)
  | cloneAddr p a _ => exact hhand _ p _ h
  | dropAddr p a _ => exact hhand _ p _ h
  | replaceSelf i a t _ _ _ => exact hphase i _ fun _ => rfl
  | pass p q c _ _ _ => exact hhand _ q _ (hhand _ p _ h)
  | tell p a m _ _ htell => exact (hhand _ p _ h).same (sameLines_tell htell)
  | ask p a m dur _ _ hask => exact lines_ask (hhand _ p _ h) hask
  | askSends k hsends => exact lines_askSends h hsends
  | askResolves k hres =>
      obtain ⟨q, res, hq, hst, rfl⟩ := askResolves_cases hres
      refine h.same (sameLines_updateAsk fun q' hq' => ?_)
      obtain rfl := Option.some.inj (hq.symm.trans hq')
      obtain ⟨d, hst⟩ := hst
      exact ⟨fun m hm => by rw [hst] at hm; exact absurd hm (by simp), by simp⟩
  | askTimesOut k htime =>
      obtain ⟨q, d, hq, hst, _, rfl⟩ := askTimesOut_cases htime
      refine h.same (sameLines_updateAsk fun q' hq' => ?_)
      obtain rfl := Option.some.inj (hq.symm.trans hq')
      exact ⟨fun m hm => by rw [hst] at hm; exact absurd hm (by simp), by simp⟩
  | dropAsk k q _ _ => exact lines_dropAsk h k
  | reply p k r _ => exact (hhand _ p _ h).same (sameLines_reply _ k r)
  | dropReply p k _ => exact (hhand _ p _ h).same (sameLines_dropReplies _ _)
  | recv i t t' ht hrecv =>
      obtain ⟨m, c, _, hpop, rfl⟩ := recv_cases hrecv
      refine h.same (sameLines_updateActor fun t₁ ht₁ => ?_)
      obtain rfl := Option.some.inj (ht.symm.trans ht₁)
      exact ⟨Chan.pop_like hpop, Chan.pop_line hpop⟩
  | recvNone i t _ _ _ _ => exact hphase i _ fun _ => rfl
  | started i t _ _ _ => exact hphase i _ fun _ => rfl
  | handled i t m _ _ _ => exact hphase i _ fun _ => rfl
  | stopped i t _ _ _ => exact lines_endActor h i _
  | panics i t _ _ => exact lines_endActor h i _
  | aborted i t _ _ => exact lines_endActor h i _
  | tick d _ => exact h.same (sameLines_of_eq rfl rfl)

end

end ErlangActors.Proof
