import Mathlib.Data.List.Basic

/-!
# Sliding windows over a pruned log

A log of times that is pruned whenever something is entered: what has left the window
goes, and the new time is put at the end. Pruning is destructive, but as long as time
does not go back nothing is lost that a later window could still see. `Exact` says
that, and `Exact.length_push` turns it into a count over the whole history.

A time `t` is in the window of width `width` at `now` when `now - t < width`; exactly
`width` ago is outside, and a window of width zero is empty.
-/

namespace Window

/-- The entries of `l` that the window at `now` holds. -/
def within (width now : Nat) (l : List Nat) : List Nat := l.filter fun t => now - t < width

/-- Prune the log, and enter `now`. -/
def push (width now : Nat) (l : List Nat) : List Nat := within width now l ++ [now]

/-- No window from `now` on can tell the pruned log from the full one. -/
def Exact (width now : Nat) (log full : List Nat) : Prop :=
  ∀ n, now ≤ n → within width n log = within width n full

variable {width now : Nat} {log full : List Nat}

/-- What an earlier window dropped no later one would have held. -/
theorem within_within {m n : Nat} (h : m ≤ n) (l : List Nat) :
    within width n (within width m l) = within width n l := by
  unfold within
  rw [List.filter_filter]
  refine List.filter_congr fun t _ => ?_
  rw [← Bool.decide_and]
  exact decide_eq_decide.mpr ⟨fun ht => ht.1, fun ht => ⟨ht, by omega⟩⟩

theorem within_append (n : Nat) (l l' : List Nat) :
    within width n (l ++ l') = within width n l ++ within width n l' := List.filter_append ..

theorem Exact.refl (l : List Nat) : Exact width now l l := fun _ _ => rfl

theorem Exact.later (h : Exact width now log full) {n : Nat} (hn : now ≤ n) :
    Exact width n log full := fun m hm => h m (Nat.le_trans hn hm)

/-- **Pruning loses nothing**: entering a time keeps the log exact. -/
theorem Exact.push (h : Exact width now log full) {n : Nat} (hn : now ≤ n) :
    Exact width n (push width n log) (full ++ [n]) := by
  intro m hm
  unfold Window.push
  rw [within_append, within_append, within_within hm, h m (Nat.le_trans hn hm)]

/-- The pruned log is as long as the window over the whole history says. -/
theorem Exact.length_push (h : Exact width now log full) {n : Nat} (hn : now ≤ n) :
    (Window.push width n log).length = 1 + full.countP fun t => n - t < width := by
  unfold Window.push
  rw [h n hn, List.length_append, List.length_singleton, Nat.add_comm, within,
    ← List.countP_eq_length_filter]

/-! ## The first entry over a limit -/

/-- When `ts[k]` is entered, the window holds more than `limit` entries, `ts[k]` included. -/
def OverAt (width limit : Nat) (ts : List Nat) (k : Nat) : Prop :=
  ∃ t, ts[k]? = some t ∧ limit < 1 + (ts.take k).countP fun s => t - s < width

/-- `k` is the first entry over the limit. -/
def FirstOver (width limit : Nat) (ts : List Nat) (k : Nat) : Prop :=
  OverAt width limit ts k ∧ ∀ j, j < k → ¬ OverAt width limit ts j

variable {limit : Nat} {ts : List Nat} {k : Nat}

theorem OverAt.lt (h : OverAt width limit ts k) : k < ts.length := by
  obtain ⟨t, ht, _⟩ := h
  exact (List.getElem?_eq_some_iff.mp ht).1

/-- What is entered later does not matter. -/
theorem overAt_append (hk : k < ts.length) (us : List Nat) :
    OverAt width limit (ts ++ us) k ↔ OverAt width limit ts k := by
  unfold OverAt
  rw [List.getElem?_append_left hk, List.take_append_of_le_length (Nat.le_of_lt hk)]

/-- The last entry is over the limit by what came before it. -/
theorem overAt_last (t : Nat) :
    OverAt width limit (ts ++ [t]) ts.length
      ↔ limit < 1 + ts.countP fun s => t - s < width := by
  unfold OverAt
  rw [List.getElem?_concat_length, List.take_left' rfl]
  exact ⟨fun ⟨_, ht, h⟩ => Option.some.inj ht ▸ h, fun h => ⟨t, rfl, h⟩⟩

/-- Nothing was over the limit, and the last entry is not either. -/
theorem not_overAt_snoc {t : Nat} (h : ∀ j, ¬ OverAt width limit ts j)
    (hlast : 1 + ts.countP (fun s => t - s < width) ≤ limit) (j : Nat) :
    ¬ OverAt width limit (ts ++ [t]) j := by
  intro hj
  have hlt := hj.lt
  rw [List.length_append, List.length_singleton] at hlt
  rcases Nat.lt_succ_iff_lt_or_eq.mp hlt with hlt | rfl
  · exact h j ((overAt_append hlt _).mp hj)
  · have := (overAt_last t).mp hj
    omega

/-- Nothing was over the limit, and the last entry is. -/
theorem firstOver_snoc {t : Nat} (h : ∀ j, ¬ OverAt width limit ts j)
    (hlast : limit < 1 + ts.countP fun s => t - s < width) :
    FirstOver width limit (ts ++ [t]) ts.length :=
  ⟨(overAt_last t).mpr hlast, fun j hj hover => h j ((overAt_append hj _).mp hover)⟩

theorem FirstOver.unique {j : Nat} (h : FirstOver width limit ts k)
    (h' : FirstOver width limit ts j) : k = j := by
  refine Nat.le_antisymm ?_ ?_
  · exact Nat.le_of_not_lt fun hlt => h.2 j hlt h'.1
  · exact Nat.le_of_not_lt fun hlt => h'.2 k hlt h.1

end Window
