/-
# Loops that can fail

`foldlM_invariant`: a loop over a list without repetitions, whose body can fail and
keeps an invariant about what the loop has done so far, ends with the invariant for
the list. `foldlM_closed`: if the body takes a closed form for what the loop has done so
far to the closed form for one element more, the loop ends in the closed form for the
list. `foldl_closed` is the same for a body that cannot fail; `foldlM_findSome`, where it
fails for some elements, whatever came before them: the loop fails as the first of them does.
`foldlM_lockstep`: two bodies that fail together, or else keep two states related, do so over
a list; and `foldlM_map` where one state is a function of the other. `bind_eq_ok` takes a computation
that does not fail apart; `foldlM_preserves`: what the body keeps when it does not fail.
-/
import Mathlib.Tactic

namespace Loop

variable {ε σ τ ι : Type*}

theorem foldlM_invariant {f : σ → ι → Except ε σ} {s : σ} (P : List ι → σ → Prop) (h0 : P [] s)
    (hs : ∀ l i a, (l ++ [i]).Nodup → P l a → ∃ b, f a i = .ok b ∧ P (l ++ [i]) b) :
    ∀ l : List ι, l.Nodup → ∃ b, l.foldlM f s = .ok b ∧ P l b := by
  intro l
  induction l using List.reverseRecOn with
  | nil => exact fun _ => ⟨s, rfl, h0⟩
  | append_singleton l i ih =>
    intro hn
    obtain ⟨a, ha, hPa⟩ := ih (List.nodup_append.mp hn).1
    obtain ⟨b, hb, hPb⟩ := hs l i a hn hPa
    refine ⟨b, ?_, hPb⟩
    rw [List.foldlM_append, ha]
    show ([i].foldlM f a) = _
    rw [List.foldlM_cons, hb]
    rfl

theorem foldlM_closed {f : σ → ι → Except ε σ} {s : σ} (g : List ι → σ) (h0 : g [] = s)
    (hs : ∀ l i, (l ++ [i]).Nodup → f (g l) i = .ok (g (l ++ [i]))) (l : List ι) (hl : l.Nodup) :
    l.foldlM f s = .ok (g l) := by
  obtain ⟨b, hb, rfl⟩ := foldlM_invariant (f := f) (fun l a => a = g l) h0.symm
    (fun l i a hn ha => ⟨g (l ++ [i]), by rw [ha, hs l i hn], rfl⟩) l hl
  exact hb

theorem foldlM_findSome {f : σ → ι → Except ε σ} {s : σ} (g : List ι → σ) (e : ι → Option ε) (h0 : g [] = s)
    (hs : ∀ l i, (l ++ [i]).Nodup → f (g l) i = (e i).elim (.ok (g (l ++ [i]))) .error) :
    ∀ l : List ι, l.Nodup → l.foldlM f s = (l.findSome? e).elim (.ok (g l)) .error := by
  intro l
  induction l using List.reverseRecOn with
  | nil => intro _; rw [← h0]; rfl
  | append_singleton l i ih =>
    intro hn
    rw [List.foldlM_append, ih (List.nodup_append.mp hn).1, List.findSome?_append]
    cases l.findSome? e with
    | some err => rfl
    | none =>
      show ([i].foldlM f (g l)) = _
      rw [List.foldlM_cons, hs l i hn]
      cases he : e i with
      | some err => simp [List.findSome?, he, bind, Except.bind]
      | none => simp [List.findSome?, he, bind, Except.bind, pure, Except.pure]

theorem foldl_closed {f : σ → ι → σ} {s : σ} (g : List ι → σ) (h0 : g [] = s)
    (hs : ∀ l i, (l ++ [i]).Nodup → f (g l) i = g (l ++ [i])) :
    ∀ l : List ι, l.Nodup → l.foldl f s = g l := by
  intro l
  induction l using List.reverseRecOn with
  | nil => intro _; rw [h0]; rfl
  | append_singleton l i ih =>
    intro hn
    rw [List.foldl_append, ih (List.nodup_append.mp hn).1]
    exact hs l i hn

theorem foldlM_lockstep {f : σ → ι → Except ε σ} {g : τ → ι → Except ε τ} {R : σ → τ → Prop} {e : ε}
    (hs : ∀ s t i, R s t → (∃ s' t', f s i = .ok s' ∧ g t i = .ok t' ∧ R s' t') ∨
      f s i = .error e ∧ g t i = .error e) (l : List ι) {s : σ} {t : τ} (h : R s t) :
    (∃ s' t', l.foldlM f s = .ok s' ∧ l.foldlM g t = .ok t' ∧ R s' t') ∨
      l.foldlM f s = .error e ∧ l.foldlM g t = .error e := by
  induction l generalizing s t with
  | nil => exact Or.inl ⟨s, t, rfl, rfl, h⟩
  | cons i l ih =>
    rw [List.foldlM_cons, List.foldlM_cons]
    rcases hs s t i h with ⟨s', t', hf, hg, h'⟩ | ⟨hf, hg⟩
    · rw [hf, hg]
      exact ih h'
    · rw [hf, hg]
      exact Or.inr ⟨rfl, rfl⟩

theorem foldlM_map {f : σ → ι → Except ε σ} {g : τ → ι → Except ε τ} {h : σ → τ}
    (hs : ∀ s i, g (h s) i = (f s i).map h) (l : List ι) (s : σ) :
    l.foldlM g (h s) = (l.foldlM f s).map h := by
  induction l generalizing s with
  | nil => rfl
  | cons i l ih =>
    rw [List.foldlM_cons, List.foldlM_cons, hs]
    cases f s i with
    | error e => rfl
    | ok t => exact ih t

theorem ok_bind {α β : Type _} (a : α) (f : α → Except ε β) : (Except.ok a >>= f) = f a := rfl

theorem bind_eq_ok {α β : Type _} {a : Except ε α} {f : α → Except ε β} {b : β} (h : a >>= f = .ok b) :
    ∃ c, a = .ok c ∧ f c = .ok b := by
  cases a with
  | error e => cases h
  | ok c => exact ⟨c, rfl, h⟩

theorem foldlM_preserves {f : σ → ι → Except ε σ} {P : σ → Prop} {l : List ι}
    (hs : ∀ s t, ∀ i ∈ l, P s → f s i = .ok t → P t) {s t : σ} (h : l.foldlM f s = .ok t) (hP : P s) :
    P t := by
  induction l generalizing s with
  | nil =>
    obtain rfl : s = t := Except.ok.inj h
    exact hP
  | cons i l ih =>
    rw [List.foldlM_cons] at h
    obtain ⟨a, ha, h⟩ := bind_eq_ok h
    exact ih (fun s t j hj => hs s t j (List.mem_cons_of_mem i hj)) h (hs s a i (by simp) hP ha)

/-- Whether the loop has come to an element. -/
instance decidableMemFin {n : ℕ} (i : Fin n) (l : List (Fin n)) : Decidable (i ∈ l) := inferInstance

theorem notMem_of_nodup {l : List ι} {i : ι} (h : (l ++ [i]).Nodup) : i ∉ l := fun hm =>
  (List.nodup_append.mp h).2.2 i hm i (by simp) rfl

/-- Before element `i` the loop over all of them has not come to it. -/
theorem notMem_take_finRange {n : ℕ} (i : Fin n) : i ∉ (List.finRange n).take i := by
  intro hi
  obtain ⟨k, hk, he⟩ := List.mem_iff_getElem.mp hi
  rw [List.length_take] at hk
  rw [List.getElem_take, List.getElem_finRange] at he
  have hik : k = i.val := congrArg Fin.val he
  omega

end Loop
