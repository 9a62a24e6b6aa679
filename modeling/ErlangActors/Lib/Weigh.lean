import Mathlib.Algebra.BigOperators.Group.List.Basic
import Mathlib.Algebra.GroupWithZero.Nat
import Mathlib.Algebra.Order.BigOperators.Group.List
import Mathlib.Algebra.Order.Group.Nat
import Mathlib.Data.List.Perm.Subperm

/-!
# Weighing the marked elements of a list

The book-keeping of a charging argument. Things on a list are *marked* or not, each
has a *weight*, and an account is the weight of what is marked. The lemmas say how an
account moves when one thing is added, taken out or marked, and how accounts over
different lists compare.
-/

namespace Weighing

universe u v

variable {α : Type u} {β : Type v} {W V : α → Nat} {p q : α → Bool} {l m : List α}

/-- The weight of the marked elements of a list. -/
def weigh (W : α → Nat) (p : α → Bool) (l : List α) : Nat :=
  (l.map fun x => if p x then W x else 0).sum

@[simp] theorem weigh_nil : weigh W p [] = 0 := rfl

@[simp] theorem weigh_cons (a : α) :
    weigh W p (a :: l) = (if p a then W a else 0) + weigh W p l := rfl

@[simp] theorem weigh_append : weigh W p (l ++ m) = weigh W p l + weigh W p m := by
  unfold weigh
  rw [List.map_append, List.sum_append]

theorem weigh_map (f : β → α) (l : List β) :
    weigh W p (l.map f) = weigh (fun x => W (f x)) (fun x => p (f x)) l := by
  unfold weigh
  rw [List.map_map]
  rfl

/-- The weight of a list, whatever is marked. -/
theorem weigh_all : weigh W (fun _ => true) l = (l.map W).sum := rfl

/-- A constant weight counts what is marked. -/
theorem weigh_const (k : Nat) : weigh (fun _ => k) p l = k * l.countP p := by
  induction l with
  | nil => rfl
  | cons a l ih =>
      rw [weigh_cons, ih, List.countP_cons, Nat.mul_add, Nat.add_comm]
      cases p a <;> simp

theorem weigh_one : weigh (fun _ => 1) p l = l.countP p := by rw [weigh_const, Nat.one_mul]

/-! ## Comparing accounts -/

theorem weigh_congr (h : ∀ x ∈ l, p x = q x) : weigh W p l = weigh W q l := by
  unfold weigh
  congr 1
  exact List.map_congr_left fun x hx => by rw [h x hx]

theorem weigh_mono (h : ∀ x ∈ l, p x = true → q x = true ∧ W x ≤ V x) :
    weigh W p l ≤ weigh V q l := by
  refine List.sum_le_sum fun x hx => ?_
  by_cases hp : p x = true
  · rw [if_pos hp, if_pos (h x hx hp).1]
    exact (h x hx hp).2
  · rw [if_neg hp]
    exact Nat.zero_le _

/-- What weighs something has something marked. -/
theorem exists_of_weigh (h : 0 < weigh W p l) : ∃ x ∈ l, p x = true ∧ 0 < W x := by
  induction l with
  | nil => exact absurd h (Nat.lt_irrefl 0)
  | cons a l ih =>
      by_cases ha : p a = true ∧ 0 < W a
      · exact ⟨a, List.mem_cons_self .., ha⟩
      · have hzero : (if p a then W a else 0) = 0 := by
          by_cases hp : p a = true
          · rw [if_pos hp]
            have : ¬ 0 < W a := fun hw => ha ⟨hp, hw⟩
            omega
          · exact if_neg hp
        rw [weigh_cons, hzero, Nat.zero_add] at h
        obtain ⟨x, hx, hpx⟩ := ih h
        exact ⟨x, List.mem_cons_of_mem _ hx, hpx⟩

/-- Filtering is unmarking. -/
theorem weigh_filter : weigh W p (l.filter q) = weigh W (fun x => q x && p x) l := by
  induction l with
  | nil => rfl
  | cons a l ih =>
      rw [weigh_cons, ← ih]
      by_cases hq : q a = true
      · rw [List.filter_cons_of_pos hq, weigh_cons, hq, Bool.true_and]
      · rw [List.filter_cons_of_neg hq, Bool.eq_false_iff.mpr hq]
        simp

/-- The marked and the unmarked make up the whole. -/
theorem weigh_add_not : weigh W p l + weigh W (fun x => !p x) l = (l.map W).sum := by
  induction l with
  | nil => rfl
  | cons a l ih =>
      rw [weigh_cons, weigh_cons, List.map_cons, List.sum_cons, ← ih]
      cases p a <;> simp <;> omega

/-- A list without repetitions weighs no more than a list that has all its elements. -/
theorem weigh_le_of_subset (hnd : l.Nodup) (hsub : l ⊆ m) : weigh W p l ≤ weigh W p m := by
  obtain ⟨k, hperm, hsubl⟩ := List.subperm_of_subset hnd hsub
  have hle : weigh W p k ≤ weigh W p m :=
    (hsubl.map _).sum_le_sum (fun _ _ => Nat.zero_le _)
  have heq : weigh W p k = weigh W p l := (hperm.map _).sum_eq
  omega

/-! ## Moving one element -/

theorem weigh_modify {f : α → α} : ∀ {l : List α} {i : Nat} {a : α}, l[i]? = some a →
    weigh W p (l.modify i f) + (if p a then W a else 0)
      = weigh W p l + (if p (f a) then W (f a) else 0)
  | [], i, a, h => absurd h (by simp)
  | x :: l, 0, a, h => by
      obtain rfl : x = a := by simpa using h
      rw [List.modify_zero_cons, weigh_cons, weigh_cons]
      omega
  | x :: l, i + 1, a, h => by
      have := weigh_modify (f := f) (l := l) (i := i) (a := a) (by simpa using h)
      rw [List.modify_succ_cons, weigh_cons, weigh_cons]
      omega

/-- What leaves weights and marks alone leaves the account alone. -/
theorem weigh_same {l' : List α} (hlen : l'.length = l.length)
    (h : ∀ (i : Nat) (a a' : α), l[i]? = some a → l'[i]? = some a' → W a' = W a ∧ p a' = p a) :
    weigh W p l' = weigh W p l := by
  unfold weigh
  congr 1
  refine List.ext_getElem (by rw [List.length_map, List.length_map, hlen]) fun i hi hi' => ?_
  rw [List.length_map] at hi hi'
  obtain ⟨hw, hp⟩ := h i _ _ (List.getElem?_eq_getElem hi') (List.getElem?_eq_getElem hi)
  rw [List.getElem_map, List.getElem_map, hw, hp]

variable [DecidableEq α]

theorem weigh_erase {a : α} (h : a ∈ l) :
    weigh W p l = (if p a then W a else 0) + weigh W p (l.erase a) :=
  (List.sum_map_erase (fun x => if p x then W x else 0) h).symm

/-- Marking one more element of a list without repetitions adds its weight. -/
theorem weigh_mark {a : α} (hnd : l.Nodup) (h : a ∈ l) (hp : p a = false) (hq : q a = true)
    (hrest : ∀ x ∈ l, x ≠ a → q x = p x) : weigh W q l = weigh W p l + W a := by
  have hsame : weigh W q (l.erase a) = weigh W p (l.erase a) := by
    refine weigh_congr fun x hx => ?_
    exact hrest x (List.mem_of_mem_erase hx) (fun he => hnd.not_mem_erase (he ▸ hx))
  rw [weigh_erase (p := q) h, weigh_erase (p := p) h, hsame, if_pos hq, hp]
  simp [Nat.add_comm]

end Weighing
