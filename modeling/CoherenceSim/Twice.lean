/-
# No protocol misses more than twice as often as MI

Under MI every access that is not by the last cache to access its line is a miss, and no
other. Under a protocol with more states a cache can miss twice before another accesses
the line, with its first load and with its first store, but no more than that
(`Pays`). `misses_le_two`: so for accesses that are made one at a time its misses are at most
twice those of MI.
-/
import CoherenceSim.Exclusive
import CoherenceSim.Lib.Along

namespace CoherenceSim

open Features

variable {n : ℕ}

namespace Untimed

variable {p : Protocol} {s s' t t' : Untimed n} {acc : Access n}
variable {lines : Finset Paddr} {i j : Fin n} {a : Paddr}

/-! ### What an access leaves at its node -/

/-- A copy that does for another access of its kind, and for a load. -/
theorem Accessed.hits_own (h : Accessed p.features acc s s') :
    hits (s'.line acc.node (lineOf acc.addr)) acc.op = true ∧
      hits (s'.line acc.node (lineOf acc.addr)) .LOAD = true := by
  obtain ⟨sh, hown⟩ := h.own
  rw [hown]
  split
  · next hh =>
    revert hh
    generalize s.line acc.node (lineOf acc.addr) = st
    rcases op_cases acc with hop | hop <;> rw [hop] <;> cases st <;> decide
  · rcases op_cases acc with hop | hop <;> rw [hop] <;> cases p <;> cases sh <;> decide

/-- Under MI it is an `M`. -/
theorem Accessed.own_M (h : Accessed Protocol.MI_PRO.features acc s s') (hs : Quiet .MI_PRO s) :
    s'.line acc.node (lineOf acc.addr) = .M := by
  obtain ⟨sh, hown⟩ := h.own
  rw [hown]
  have hv := hs.valid acc.node (lineOf acc.addr)
  revert hv
  generalize s.line acc.node (lineOf acc.addr) = st
  rcases op_cases acc with hop | hop <;> rw [hop] <;> cases st <;> cases sh <;> decide

/-- Under MI one cache has the line. -/
theorem Quiet.eq_of_M (h : Quiet .MI_PRO t) (hi : t.line i a = .M) (hj : t.line j a = .M) : i = j :=
  h.supplier_unique (by rw [hi]; rfl) (by rw [hj]; rfl)

/-- And the cache that has it hits. -/
theorem Quiet.hits_iff (h : Quiet .MI_PRO t) {op : Message} :
    hits (t.line i a) op = true ↔ t.line i a = .M := by
  have hv := h.valid i a
  revert hv
  generalize t.line i a = st
  cases st <;> cases op <;> decide

/-! ### The misses side by side -/

/-- One more miss than those of MI can come on the line `a`: the cache that has it under MI
has no copy it can store to. -/
def owes (s t : Untimed n) (a : Paddr) : ℕ :=
  if ∃ i, t.line i a = .M ∧ hits (s.line i a) .STORE = false then 1 else 0

theorem owes_le (s t : Untimed n) (a : Paddr) : owes s t a ≤ 1 := by
  unfold owes
  split <;> omega

/-- It depends on the line of the cache that has it. -/
theorem owes_eq (ht : Quiet .MI_PRO t) (hi : t.line i a = .M) :
    owes s t a = (!hits (s.line i a) .STORE).toNat := by
  unfold owes
  cases hh : hits (s.line i a) .STORE with
  | true =>
    refine if_neg ?_
    rintro ⟨j, hj, hno⟩
    rw [← ht.eq_of_M hi hj, hh] at hno
    cases hno
  | false => exact if_pos ⟨i, hi, hh⟩

/-- The states under the protocol and under MI between two accesses to lines of `lines`. -/
structure Pays (p : Protocol) (lines : Finset Paddr) (s t : Untimed n) : Prop where
  quiet : Quiet p s
  under_MI : Quiet .MI_PRO t
  copy : ∀ i a, t.line i a = .M → hits (s.line i a) .LOAD = true
  misses : s.stats.cacheMisses + ∑ a ∈ lines, owes s t a ≤ 2 * t.stats.cacheMisses

theorem pays_start (p : Protocol) (lines : Finset Paddr) : Pays p lines (start n) (start n) where
  quiet := quiet_start p
  under_MI := quiet_start .MI_PRO
  copy i a h := by cases h
  misses := by simp [start, owes]

/-- What an access misses is paid for by what MI misses, or is what the line owed. -/
theorem Pays.line (h : Pays p lines s t) (hS : Accessed p.features acc s s')
    (hT : Accessed Protocol.MI_PRO.features acc t t') (ht : Quiet .MI_PRO t') :
    owes s' t' (lineOf acc.addr) + (!hits (s.line acc.node (lineOf acc.addr)) acc.op).toNat ≤
      owes s t (lineOf acc.addr) + 2 * (!hits (t.line acc.node (lineOf acc.addr)) acc.op).toNat := by
  have hM := hT.own_M h.under_MI
  have hafter := owes_eq (s := s') ht hM
  cases hh : hits (t.line acc.node (lineOf acc.addr)) acc.op with
  | false =>
    -- another cache had the line, or none
    have howes := owes_le s' t' (lineOf acc.addr)
    have hmiss := Bool.toNat_le (!hits (s.line acc.node (lineOf acc.addr)) acc.op)
    simp only [Bool.not_false, Bool.toNat_true]
    omega
  | true =>
    have hbefore := owes_eq (s := s) h.under_MI (h.under_MI.hits_iff.mp hh)
    have hcopy := h.copy _ _ (h.under_MI.hits_iff.mp hh)
    rw [hafter, hbefore]
    rcases op_cases acc with hop | hop
    · -- a load finds the copy and leaves it
      obtain ⟨sh, hown⟩ := hS.own
      rw [hop, hcopy, if_pos rfl] at hown
      rw [hop, hcopy, hown]
      exact Nat.le_refl _
    · -- a store leaves a copy that can be stored to
      have hstore := hS.hits_own.1
      rw [hop] at hstore ⊢
      rw [hstore, Nat.add_comm]
      exact Nat.le_refl _

theorem Pays.access (h : Pays p lines s t) (acc : Access n) (ha : lineOf acc.addr ∈ lines) : ∃ s' t',
    s.access p acc = .ok s' ∧ t.access .MI_PRO acc = .ok t' ∧ Pays p lines s' t' := by
  obtain ⟨s', hs, hqs, hS⟩ := h.quiet.access acc
  obtain ⟨t', ht, hqt, hT⟩ := h.under_MI.access acc
  refine ⟨s', t', hs, ht, hqs, hqt, fun j b hj => ?_, ?_⟩
  · by_cases hb : b = lineOf acc.addr
    · subst hb
      obtain rfl := hqt.eq_of_M (hT.own_M h.under_MI) hj
      exact hS.hits_own.2
    · rw [hT.elsewhere j b hb] at hj
      rw [hS.elsewhere j b hb]
      exact h.copy j b hj
  · have hsum := Along.sum_add_le_at ha (h.line hS hT hqt) fun b hb => by
      simp only [owes, hS.elsewhere _ b hb, hT.elsewhere _ b hb]
    have hbefore := h.misses
    rw [hS.misses, hT.misses]
    omega

theorem Pays.serial (accs : List (Access n)) (h : Pays p lines s t)
    (ha : ∀ acc ∈ accs, lineOf acc.addr ∈ lines) : ∃ s' t',
      s.serial p accs = .ok s' ∧ t.serial .MI_PRO accs = .ok t' ∧ Pays p lines s' t' := by
  induction accs generalizing s t with
  | nil => exact ⟨s, t, rfl, rfl, h⟩
  | cons acc accs ih =>
    obtain ⟨s₁, t₁, hs, ht, h₁⟩ := h.access acc (ha acc List.mem_cons_self)
    obtain ⟨s', t', hs', ht', h'⟩ := ih h₁ fun acc' hacc' => ha acc' (List.mem_cons_of_mem acc hacc')
    refine ⟨s', t', ?_, ?_, h'⟩
    · rw [Untimed.serial, List.foldlM_cons, hs]
      exact hs'
    · rw [Untimed.serial, List.foldlM_cons, ht]
      exact ht'

/-- **No protocol misses more than twice as often as MI**, whatever the accesses that are made
one at a time. -/
theorem misses_le_two (p : Protocol) (accs : List (Access n)) : ∃ s t,
    (start n).serial p accs = .ok s ∧ (start n).serial .MI_PRO accs = .ok t ∧
      s.stats.cacheMisses ≤ 2 * t.stats.cacheMisses := by
  obtain ⟨s, t, hs, ht, h⟩ := (pays_start p (accs.map fun acc => lineOf acc.addr).toFinset).serial accs
    fun acc hacc => List.mem_toFinset.mpr (List.mem_map_of_mem hacc)
  exact ⟨s, t, hs, ht, (Nat.le_add_right _ _).trans h.misses⟩

/-- A load and a store by each of two nodes: MSI misses them all. -/
example :
    let accs : List (Access 2) := [⟨0, false, 0x40⟩, ⟨0, true, 0x40⟩, ⟨1, false, 0x40⟩, ⟨1, true, 0x40⟩]
    (((start 2).serial .MSI_PRO accs).map (·.stats.cacheMisses)).toOption = some 4 ∧
      (((start 2).serial .MI_PRO accs).map (·.stats.cacheMisses)).toOption = some 2 := by decide

end Untimed

end CoherenceSim
