/-
# A queue over time

What waits in a queue at the start of every step, and what leaves it and joins it in
the step (`Queue`). `joined_eq`: what has joined is, in order, what has left and what
waits. `exists_leaves`: what waits leaves if the queue is empty at some later time,
and what leaves before it is exactly what was ahead of it.
-/
import Mathlib.Tactic

/-- First in, first out: in a step something can leave at the front, and what joins does
so at the back. -/
structure Queue (α : Type*) where
  waits : ℕ → List α
  leaves : ℕ → Option α
  joins : ℕ → List α
  start : waits 0 = []
  step : ∀ t, waits t ++ joins t = (leaves t).toList ++ waits (t + 1)

namespace Queue

variable {α : Type*} (q : Queue α)

/-- What leaves in the `k` steps from `t` on. -/
def left (t k : ℕ) : List α := (List.range' t k).filterMap q.leaves

/-- What has joined before step `t`. -/
def joined (t : ℕ) : List α := (List.range t).flatMap q.joins

theorem left_succ (t k : ℕ) : q.left t (k + 1) = (q.leaves t).toList ++ q.left (t + 1) k := by
  rw [left, List.range'_succ, List.filterMap_cons]
  cases q.leaves t <;> rfl

theorem left_append (t k : ℕ) : q.left t (k + 1) = q.left t k ++ (q.leaves (t + k)).toList := by
  rw [left, List.range'_concat, List.filterMap_append, Nat.one_mul]
  cases h : q.leaves (t + k) <;> simp [left, h]

theorem joined_succ (t : ℕ) : q.joined (t + 1) = q.joined t ++ q.joins t := by
  rw [joined, List.range_succ, List.flatMap_append, List.flatMap_singleton]
  rfl

/-- **Nothing is lost and nothing passes.** -/
theorem joined_eq (t : ℕ) : q.joined t = q.left 0 t ++ q.waits t := by
  induction t with
  | zero => rw [q.start]; rfl
  | succ t ih =>
    rw [joined_succ, ih, left_append, Nat.zero_add, List.append_assoc, List.append_assoc, q.step]

/-- **What waits leaves after what is ahead of it**, if the queue is empty `k` steps later. -/
theorem exists_leaves {t k : ℕ} {a : α} {ahead behind : List α} (h : q.waits t = ahead ++ a :: behind)
    (hk : q.waits (t + k) = []) : ∃ j, q.leaves (t + j) = some a ∧ q.left t j = ahead := by
  induction k generalizing t ahead behind with
  | zero =>
    rw [Nat.add_zero, h] at hk
    simp at hk
  | succ k ih =>
    have hstep := q.step t
    rw [h] at hstep
    have hempty : q.waits (t + 1 + k) = [] := by rw [← hk]; congr 1; omega
    cases hl : q.leaves t with
    | none =>
      rw [hl] at hstep
      have hnext : q.waits (t + 1) = ahead ++ a :: (behind ++ q.joins t) := by simpa using hstep.symm
      obtain ⟨j, hj, hleft⟩ := ih hnext hempty
      refine ⟨j + 1, ?_, ?_⟩
      · rw [← hj]; congr 1; omega
      · rw [left_succ, hl, hleft]; rfl
    | some b =>
      rw [hl] at hstep
      cases ahead with
      | nil =>
        obtain ⟨rfl, -⟩ : a = b ∧ _ := by simpa using hstep
        exact ⟨0, hl, rfl⟩
      | cons b' ahead =>
        obtain ⟨rfl, hrest⟩ : b' = b ∧ _ := by simpa using hstep
        have hnext : q.waits (t + 1) = ahead ++ a :: (behind ++ q.joins t) := by simpa using hrest.symm
        obtain ⟨j, hj, hleft⟩ := ih hnext hempty
        refine ⟨j + 1, ?_, ?_⟩
        · rw [← hj]; congr 1; omega
        · rw [left_succ, hl, hleft]; rfl

end Queue
