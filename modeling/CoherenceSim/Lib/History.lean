/-
# The past of a run

Three ways to look back at the times before `c`. `Since start stop c`: something
started at a time before `c` and has not been stopped since. `Open start stop c`: it
started at `c` at the latest, and no stop at its own time or after it comes before
`c`; that is the form for a time whose start comes before its stop. `Held start stop c`:
the same with a start before `c`. Each is taken on by one step (`since_succ`,
`Open.succ`, `held_succ`), and what is so taken on is `Held` (`iff_held`).
-/
import Mathlib.Tactic

namespace History

variable {start stop : ℕ → Prop} {c : ℕ}

def Since (start stop : ℕ → Prop) (c : ℕ) : Prop :=
  ∃ g, g < c ∧ start g ∧ ∀ e, g < e → e < c → ¬ stop e

def Open (start stop : ℕ → Prop) (c : ℕ) : Prop :=
  ∃ g, g ≤ c ∧ start g ∧ ∀ e, g ≤ e → e < c → ¬ stop e

def Held (start stop : ℕ → Prop) (c : ℕ) : Prop :=
  ∃ g, g < c ∧ start g ∧ ∀ e, g ≤ e → e < c → ¬ stop e

theorem not_since_zero : ¬ Since start stop 0 := fun ⟨_, h, _⟩ => by omega

theorem since_succ : Since start stop (c + 1) ↔ start c ∨ Since start stop c ∧ ¬ stop c := by
  constructor
  · rintro ⟨g, hg, hs, hno⟩
    rcases Nat.lt_or_eq_of_le (Nat.lt_succ_iff.mp hg) with hlt | rfl
    · exact Or.inr ⟨⟨g, hlt, hs, fun e he he' => hno e he (by omega)⟩, hno c hlt (by omega)⟩
    · exact Or.inl hs
  · rintro (hs | ⟨⟨g, hg, hs, hno⟩, hc⟩)
    · exact ⟨c, by omega, hs, fun e he he' => by omega⟩
    · refine ⟨g, by omega, hs, fun e he he' => ?_⟩
      rcases Nat.lt_or_eq_of_le (Nat.lt_succ_iff.mp he') with hlt | rfl
      · exact hno e he hlt
      · exact hc

theorem open_of_start (h : start c) : Open start stop c :=
  ⟨c, Nat.le_refl c, h, fun e he he' => by omega⟩

theorem Open.succ (h : Open start stop c) (hc : ¬ stop c) : Open start stop (c + 1) := by
  obtain ⟨g, hg, hs, hno⟩ := h
  refine ⟨g, by omega, hs, fun e he he' => ?_⟩
  rcases Nat.lt_or_eq_of_le (Nat.lt_succ_iff.mp he') with hlt | rfl
  · exact hno e he hlt
  · exact hc

theorem not_held_zero : ¬ Held start stop 0 := fun ⟨_, h, _⟩ => by omega

theorem held_succ : Held start stop (c + 1) ↔ (start c ∨ Held start stop c) ∧ ¬ stop c := by
  constructor
  · rintro ⟨g, hg, hs, hno⟩
    refine ⟨?_, hno c (by omega) (by omega)⟩
    rcases Nat.lt_or_eq_of_le (Nat.lt_succ_iff.mp hg) with hlt | rfl
    · exact Or.inr ⟨g, hlt, hs, fun e he he' => hno e he (by omega)⟩
    · exact Or.inl hs
  · rintro ⟨hs | ⟨g, hg, hs, hno⟩, hc⟩
    · refine ⟨c, by omega, hs, fun e he he' => ?_⟩
      obtain rfl : e = c := by omega
      exact hc
    · refine ⟨g, by omega, hs, fun e he he' => ?_⟩
      rcases Nat.lt_or_eq_of_le (Nat.lt_succ_iff.mp he') with hlt | rfl
      · exact hno e he hlt
      · exact hc

/-- What starts and stops in this way step by step is held. -/
theorem iff_held {P : ℕ → Prop} (h0 : ¬ P 0) (hstep : ∀ c, P (c + 1) ↔ (start c ∨ P c) ∧ ¬ stop c) (c : ℕ) :
    P c ↔ Held start stop c := by
  induction c with
  | zero => exact ⟨fun h => absurd h h0, fun h => absurd h not_held_zero⟩
  | succ c ih => rw [hstep, held_succ, ih]

end History
