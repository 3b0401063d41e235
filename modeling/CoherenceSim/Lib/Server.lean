/-
# A queue with one server

A server takes one at a time out of a queue, and does so whenever it is free and
something waits (`Server`). `waits_exactly`: what waits is taken out when the server has
done with what it was at and with what was ahead, not a step later. `waits_at_most`: a
bound on what one takes bounds the wait by the number ahead.
-/
import CoherenceSim.Lib.Queue

/-- `owed` is for how many steps the server is still busy with what it has taken out. -/
structure Server (α : Type*) extends Queue α where
  owed : ℕ → ℕ
  takes : ∀ t a rest, owed t = 0 → waits t = a :: rest → leaves t = some a
  works : ∀ t, 0 < owed t → leaves t = none ∧ owed (t + 1) + 1 = owed t

namespace Server

variable {α : Type*} (q : Server α)

/-- The steps the server spends on what it takes out in step `t`. -/
def service (t : ℕ) : ℕ := if (q.leaves t).isSome then q.owed (t + 1) + 1 else 0

/-- On what it takes out in the `k` steps from `t` on. -/
def spent (t k : ℕ) : ℕ := ∑ s ∈ Finset.Ico t (t + k), q.service s

@[simp] theorem spent_zero (t : ℕ) : q.spent t 0 = 0 := by
  rw [spent, Nat.add_zero, Finset.Ico_self, Finset.sum_empty]

theorem spent_succ (t k : ℕ) : q.spent t (k + 1) = q.service t + q.spent (t + 1) k := by
  rw [spent, Finset.sum_eq_sum_Ico_succ_bot (by omega), spent, Nat.add_right_comm t 1 k, Nat.add_assoc]

theorem service_of_takes {t : ℕ} {a : α} (h : q.leaves t = some a) :
    q.service t = q.owed (t + 1) + 1 := by
  rw [service, h]
  rfl

theorem service_of_none {t : ℕ} (h : q.leaves t = none) : q.service t = 0 := by
  rw [service, h]
  rfl

/-- A step in which the server is busy. -/
theorem waits_of_owed {t : ℕ} {l : List α} (h : q.waits t = l) (ho : 0 < q.owed t) :
    q.waits (t + 1) = l ++ q.joins t := by
  have hstep := q.step t
  rw [(q.works t ho).1, h] at hstep
  exact hstep.symm

/-- A step in which it is free. -/
theorem waits_of_free {t : ℕ} {a : α} {l : List α} (h : q.waits t = a :: l) (ho : q.owed t = 0) :
    q.leaves t = some a ∧ q.waits (t + 1) = l ++ q.joins t := by
  have hl := q.takes t a l ho h
  have hstep := q.step t
  rw [hl, h] at hstep
  exact ⟨hl, (List.cons.inj hstep).2.symm⟩

/-- The server gets free in the time it owes. -/
theorem gets_free {t : ℕ} {l : List α} (h : q.waits t = l) : ∃ more,
    q.waits (t + q.owed t) = l ++ more ∧ q.owed (t + q.owed t) = 0 ∧
      q.left t (q.owed t) = [] ∧ q.spent t (q.owed t) = 0 := by
  induction ho : q.owed t generalizing t l with
  | zero => exact ⟨[], by simpa using h, ho, rfl, q.spent_zero t⟩
  | succ k ih =>
    obtain ⟨hnone, howed⟩ := q.works t (by omega)
    have hk : q.owed (t + 1) = k := by omega
    obtain ⟨more, hmore, hfree, hleft, hspent⟩ := ih (q.waits_of_owed h (by omega)) hk
    rw [show t + (k + 1) = t + 1 + k by omega]
    refine ⟨q.joins t ++ more, by rw [hmore, List.append_assoc], hfree, ?_, ?_⟩
    · rw [q.left_succ, hnone, hleft]
      rfl
    · rw [q.spent_succ, q.service_of_none hnone, hspent]

theorem left_add (t j k : ℕ) : q.left t (j + k) = q.left t j ++ q.left (t + j) k := by
  unfold Queue.left
  rw [← List.filterMap_append, List.range'_append_1]

theorem spent_add (t j k : ℕ) : q.spent t (j + k) = q.spent t j + q.spent (t + j) k := by
  unfold spent
  rw [← Nat.add_assoc, Finset.sum_Ico_consecutive _ (by omega) (by omega)]

/-- **What waits is taken out when the server has done with what is ahead of it**: with
what it is at, and with those it takes out before. -/
theorem waits_exactly {t : ℕ} {a : α} {ahead behind : List α} (h : q.waits t = ahead ++ a :: behind) :
    ∃ j, q.leaves (t + j) = some a ∧ q.left t j = ahead ∧ j = q.owed t + q.spent t j := by
  induction ahead generalizing t behind with
  | nil =>
    obtain ⟨more, hmore, hfree, hleft, hspent⟩ := q.gets_free h
    refine ⟨q.owed t, ?_, hleft, by rw [hspent, Nat.add_zero]⟩
    exact (q.waits_of_free hmore hfree).1
  | cons b ahead ih =>
    obtain ⟨more, hmore, hfree, hleft, hspent⟩ := q.gets_free h
    have hmore' : q.waits (t + q.owed t) = b :: (ahead ++ a :: (behind ++ more)) := by simpa using hmore
    obtain ⟨hl, hnext⟩ := q.waits_of_free hmore' hfree
    -- `b` is taken out, and `a` has one less ahead
    rw [List.append_assoc, List.cons_append] at hnext
    obtain ⟨j, hj, hleft', hspent'⟩ := ih hnext
    refine ⟨q.owed t + (1 + j), ?_, ?_, ?_⟩
    · rw [← hj]
      congr 1
      omega
    · rw [q.left_add, hleft, Nat.add_comm 1 j, q.left_succ, hl, hleft']
      rfl
    · rw [q.spent_add, hspent, Nat.add_comm 1 j, q.spent_succ, q.service_of_takes hl]
      omega

theorem spent_le {T : ℕ} (hT : ∀ t, q.service t ≤ T) (t k : ℕ) :
    q.spent t k ≤ (q.left t k).length * T := by
  induction k generalizing t with
  | zero => rw [q.spent_zero]; exact Nat.zero_le _
  | succ k ih =>
    rw [q.spent_succ, q.left_succ, List.length_append, Nat.add_mul]
    apply Nat.add_le_add _ (ih (t + 1))
    cases hl : q.leaves t with
    | none => rw [q.service_of_none hl]; exact Nat.zero_le _
    | some b => simpa using hT t

/-- **It waits no longer than for the server's work and `T` for each that is ahead.** -/
theorem waits_at_most {T t : ℕ} (hT : ∀ t, q.service t ≤ T) {a : α} {ahead behind : List α}
    (h : q.waits t = ahead ++ a :: behind) :
    ∃ j, q.leaves (t + j) = some a ∧ q.left t j = ahead ∧ j = q.owed t + q.spent t j ∧
      j ≤ q.owed t + ahead.length * T := by
  obtain ⟨j, hj, hleft, hspent⟩ := q.waits_exactly h
  refine ⟨j, hj, hleft, hspent, ?_⟩
  calc j = q.owed t + q.spent t j := hspent
    _ ≤ q.owed t + (q.left t j).length * T := Nat.add_le_add_left (q.spent_le hT t j) _
    _ = q.owed t + ahead.length * T := by rw [hleft]

end Server
