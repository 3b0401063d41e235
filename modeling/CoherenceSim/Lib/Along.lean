/-
# What a machine adds up along its input

`total`: the sum of what every step of a machine weighs, by its state and what it reads.
It is taken on by one step at the end (`total_append_singleton`), and what is read in
states that stay where they are and weigh nothing adds nothing (`total_of_stays`).
`sum_add_at`, `sum_add_le_at`: a sum of which one summand changes.
-/
import Mathlib.Tactic

namespace Along

variable {σ ι : Type*} (δ : σ → ι → σ) (w : σ → ι → ℕ) {s : σ}

/-- The steps weigh together. -/
def total (s : σ) : List ι → ℕ
  | [] => 0
  | a :: l => w s a + total (δ s a) l

theorem total_append (s : σ) (l l' : List ι) :
    total δ w s (l ++ l') = total δ w s l + total δ w (l.foldl δ s) l' := by
  induction l generalizing s with
  | nil => exact (Nat.zero_add _).symm
  | cons a l ih => rw [List.cons_append, total, total, ih, List.foldl_cons, Nat.add_assoc]

theorem total_append_singleton (s : σ) (l : List ι) (a : ι) :
    total δ w s (l ++ [a]) = total δ w s l + w (l.foldl δ s) a := total_append δ w s l [a]

variable {δ w}

theorem total_of_stays {l : List ι} (h : ∀ a ∈ l, δ s a = s ∧ w s a = 0) : total δ w s l = 0 := by
  induction l with
  | nil => rfl
  | cons a l ih =>
    obtain ⟨hδ, hw⟩ := h a (by simp)
    rw [total, hw, hδ, ih fun b hb => h b (List.mem_cons_of_mem a hb)]

theorem sum_add_at {κ : Type*} [DecidableEq κ] {A : Finset κ} {f g : κ → ℕ} {k : κ} {d : ℕ}
    (hk : k ∈ A) (hat : g k = f k + d) (helse : ∀ j, j ≠ k → g j = f j) :
    ∑ j ∈ A, g j = ∑ j ∈ A, f j + d := by
  rw [← Finset.add_sum_erase A g hk, ← Finset.add_sum_erase A f hk, hat,
    Finset.sum_congr rfl fun j hj => helse j (Finset.ne_of_mem_erase hj)]
  exact Nat.add_right_comm _ _ _

theorem sum_add_le_at {κ : Type*} [DecidableEq κ] {A : Finset κ} {f g : κ → ℕ} {k : κ} {d e : ℕ}
    (hk : k ∈ A) (hat : g k + d ≤ f k + e) (helse : ∀ j, j ≠ k → g j = f j) :
    ∑ j ∈ A, g j + d ≤ ∑ j ∈ A, f j + e := by
  rw [← Finset.add_sum_erase A g hk, ← Finset.add_sum_erase A f hk,
    Finset.sum_congr rfl fun j hj => helse j (Finset.ne_of_mem_erase hj), Nat.add_right_comm,
    Nat.add_right_comm (f k)]
  exact Nat.add_le_add_right hat _

end Along
