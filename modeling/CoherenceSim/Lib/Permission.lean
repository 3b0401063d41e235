/-
# Readers and writers by rank

Each of a family of parties holds a copy of a thing with a rank, and two parties
may hold copies whose ranks sum to at most a capacity (`Fits`). With capacity 3
and ranks 0 (no copy), 1 (a reader), 2 (the reader who answers for the copies)
and 3 (the writer), that is one writer or any number of readers, one of whom at
most answers. Ranks may drop at any time (`Fits.mono`); one party may rise to a
rank the others leave room for (`Fits.raise`); and a rank above half the
capacity is held by one party only (`Fits.unique`).
-/
import Mathlib.Tactic

namespace Permission

variable {ι : Type*} {c : ℕ} {σ τ : ι → ℕ}

/-- Any two copies fit beside each other. -/
def Fits (c : ℕ) (σ : ι → ℕ) : Prop := ∀ i j, i ≠ j → σ i + σ j ≤ c

/-- The copies of all but `i` leave room for rank `r`. -/
def Room (c : ℕ) (σ : ι → ℕ) (i : ι) (r : ℕ) : Prop := ∀ j, j ≠ i → σ j + r ≤ c

theorem Fits.mono (h : Fits c σ) (hle : ∀ i, τ i ≤ σ i) : Fits c τ := by
  intro i j hij
  have := h i j hij
  have := hle i
  have := hle j
  omega

theorem Room.mono {i : ι} {r : ℕ} (h : Room c σ i r) (hle : ∀ j, j ≠ i → τ j ≤ σ j) :
    Room c τ i r := by
  intro j hj
  have := h j hj
  have := hle j hj
  omega

/-- One party rises to `r`, the others do not rise. -/
theorem Fits.raise {i : ι} {r : ℕ} (h : Fits c σ) (hroom : Room c σ i r) (hi : τ i ≤ r)
    (hle : ∀ j, j ≠ i → τ j ≤ σ j) : Fits c τ := by
  intro a b hab
  by_cases ha : a = i
  · subst ha
    have := hroom b (Ne.symm hab)
    have := hle b (Ne.symm hab)
    omega
  · by_cases hb : b = i
    · subst hb
      have := hroom a hab
      have := hle a hab
      omega
    · have := h a b hab
      have := hle a ha
      have := hle b hb
      omega

theorem Fits.unique (h : Fits c σ) {i j : ι} (hi : c < 2 * σ i) (hj : c < 2 * σ j) : i = j := by
  by_contra hij
  have := h i j hij
  omega

end Permission
