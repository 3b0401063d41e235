/-
# Accounting

What the counters count, and what the cycles are spent on. `accesses_eq`: the
accesses are those the caches have seen to. `busy_account`: the cycles in which
the bus is busy are two for each transaction that a cache answers and
`hitTime + 2` for each that the memory does. `clock_le`: every cycle is one of them
or one of the two that an access of a node takes besides.
-/
import CoherenceSim.Transaction

namespace CoherenceSim

open Features

variable {n : ℕ} {x : Input n}

/-! ### Counting over the nodes -/

theorem countP_finRange (p : Fin n → Bool) : (List.finRange n).countP p = ∑ i, (p i).toNat := by
  have hmap : ∀ l : List (Fin n), l.countP p = (l.map fun i => (p i).toNat).sum := by
    intro l
    induction l with
    | nil => rfl
    | cons i l ih => rw [List.countP_cons, List.map_cons, List.sum_cons, ih]; cases p i <;> simp [Nat.add_comm]
  rw [hmap, Fin.sum_univ_def]

/-- At most one of the caches answers, and `cacheReply` is what it does. -/
theorem countP_reply {s : Simulator n Trace} {gr : Option Mreq} (h : Inv x s gr) :
    ((List.finRange n).countP fun i => (((s.Nd i).procTick x.f i).reply i s.wire).isSome) =
      (s.cacheReply x.settings).isSome.toNat := by
  cases hr : s.cacheReply x.settings with
  | none =>
    rw [List.countP_eq_zero.mpr]
    · rfl
    · intro i hi
      have := List.findSome?_eq_none_iff.mp hr i hi
      simpa using this
  | some d =>
    obtain ⟨i, hi, hd⟩ := List.exists_of_findSome?_eq_some hr
    have hone : (List.finRange n).countP (fun j => decide (j = i)) = 1 := by
      have := List.nodup_iff_count_eq_one.mp (List.nodup_finRange n) i hi
      rwa [List.count_eq_countP] at this
    rw [Option.isSome_some, Bool.toNat_true, ← hone]
    refine List.countP_congr fun j _ => ?_
    simp only [decide_eq_true_eq]
    refine ⟨fun hj => h.ready.one j i hj (Option.isSome_of_eq_some hd), ?_⟩
    rintro rfl
    exact Option.isSome_of_eq_some hd

/-- The cycles of its own that an access at this stage still needs before it waits
for the bus or is over. -/
def Stage.left : Stage → ℕ
  | .issued => 1
  | _ => 0

namespace Run

variable (r : Run x) {c : ℕ}

/-! ### The counters -/

theorem cacheMisses_succ (c : ℕ) : (r.state (c + 1)).stats.cacheMisses =
    (r.state c).stats.cacheMisses + (r.sent c).length := by
  rw [r.next, Simulator.next_stats]
  rfl

theorem cacheAccesses_succ (c : ℕ) : (r.state (c + 1)).stats.cacheAccesses =
    (r.state c).stats.cacheAccesses + ∑ i, ((r.state c).Nd i).L1.procRequest.isSome.toNat := by
  rw [r.next, Simulator.next_stats, ← countP_finRange]
  rfl

theorem cacheToCacheTransfers_succ (c : ℕ) : (r.state (c + 1)).stats.cacheToCacheTransfers =
    (r.state c).stats.cacheToCacheTransfers + (r.replied c).isSome.toNat := by
  rw [r.next, Simulator.next_stats, replied, ← countP_reply (r.inv c)]
  rfl

theorem length_queued_le (i : Fin n) : (((r.state c).Nd i).queued x.f i).length ≤
    ((r.state c).Nd i).L1.procRequest.isSome.toNat := by
  unfold Node.queued
  cases ((r.state c).Nd i).L1.procRequest with
  | none => simp
  | some m => simp only; split <;> simp

theorem length_sent_le (c : ℕ) :
    (r.sent c).length ≤ ∑ i, ((r.state c).Nd i).L1.procRequest.isSome.toNat := by
  rw [sent, List.length_flatMap, Fin.sum_univ_def]
  exact List.sum_le_sum fun i _ => r.length_queued_le i

/-- The lines of its trace that node `i` has fetched. -/
def fetched (c : ℕ) (i : Fin n) : ℕ := (x.traces i).length - ((r.state c).Nd i).PR.infile.length

theorem fetched_eq {i : Fin n} {st : Stage} {k : ℕ} {l : Char × Paddr}
    (ha : At x (r.state c) (r.granted c) i st k l) : r.fetched c i = k := by
  have := ha.k_le
  rw [fetched, ha.infile, List.length_drop]
  omega

theorem procRequest_toNat {i : Fin n} {st : Stage} {k : ℕ} {l : Char × Paddr}
    (ha : At x (r.state c) (r.granted c) i st k l) :
    ((r.state c).Nd i).L1.procRequest.isSome.toNat = (decide (st = .issued)).toNat := by
  rw [ha.proc]
  cases st <;> rfl

/-- What a cache has seen to with what is in its slot makes what its processor has fetched. -/
theorem fetched_succ (i : Fin n) : r.fetched (c + 1) i =
    r.fetched c i + ((r.state (c + 1)).Nd i).L1.procRequest.isSome.toNat := by
  obtain ⟨st, k, l, ha⟩ := (r.inv c).node i
  obtain ⟨st', k', l', hm, ha'⟩ := r.move ha
  rw [r.fetched_eq ha, r.fetched_eq ha', r.procRequest_toNat ha']
  cases hm <;> rfl

/-- **The accesses are counted when their cache sees to them.** -/
theorem accesses_eq (c : ℕ) : (r.state c).stats.cacheAccesses +
    ∑ i, ((r.state c).Nd i).L1.procRequest.isSome.toNat = ∑ i, r.fetched c i := by
  induction c with
  | zero =>
    simp only [fetched, r.start]
    simp [Simulator.init, Simulator.build, Simulator.Unset.zero]
  | succ c ih =>
    rw [r.cacheAccesses_succ, ih, ← Finset.sum_add_distrib]
    exact Finset.sum_congr rfl fun i _ => (r.fetched_succ i).symm

theorem misses_le_accesses (c : ℕ) :
    (r.state c).stats.cacheMisses ≤ (r.state c).stats.cacheAccesses := by
  induction c with
  | zero => rw [r.start]; rfl
  | succ c ih =>
    rw [r.cacheMisses_succ, r.cacheAccesses_succ]
    exact Nat.add_le_add ih (r.length_sent_le c)

theorem misses_le (c : ℕ) : (r.state c).stats.cacheMisses ≤ ∑ i, (x.traces i).length := by
  have hsum : ∑ i, r.fetched c i ≤ ∑ i, (x.traces i).length :=
    Finset.sum_le_sum fun i _ => Nat.sub_le _ _
  have := r.misses_le_accesses c
  have := r.accesses_eq c
  omega

/-! ### The cycles of the bus -/

/-- The cycles before `c` in which the bus was busy: from a grant to its DATA. -/
def busy : ℕ → ℕ
  | 0 => 0
  | c + 1 => busy c + ((r.granted c).isSome || (r.granted (c + 1)).isSome).toNat

/-- The cycles the transaction that is under way still takes. -/
def owed (c : ℕ) : ℕ :=
  if (r.granted c).isSome then
    if (r.state c).bus.dataReply.isSome then 1 else (r.state c).MC.dataTime + 2 - c
  else 0

/-- **The account of the bus.** A miss is in the queue, or a cache has answered it,
or the memory does; and that is what the bus has been busy with. -/
theorem busy_account (c : ℕ) : ∃ mem,
    (r.state c).stats.cacheMisses = (r.state c).bus.pendingRequests.length +
      (r.state c).stats.cacheToCacheTransfers + mem ∧
    r.busy c + r.owed c = 2 * (r.state c).stats.cacheToCacheTransfers + (x.hitTime + 2) * mem := by
  induction c with
  | zero =>
    refine ⟨0, ?_, ?_⟩
    · rw [r.start]; rfl
    · rw [r.start]; rfl
  | succ c ih =>
    obtain ⟨mem, hmem, hbusy⟩ := ih
    have hmiss := r.cacheMisses_succ c
    have htrans := r.cacheToCacheTransfers_succ c
    unfold owed at hbusy
    simp only [owed, busy]
    cases r.turn c with
    | rest hg _ hr hq hg' hq' =>
      rw [hr] at htrans
      simp only [hq, hq', hg, hg', List.length_nil, Option.isSome_none, Bool.toNat_false,
        Bool.or_self, Bool.false_eq_true, if_false] at *
      exact ⟨mem, by omega, by omega⟩
    | grant m q hg _ _ hq hg' hq' hd' hm' =>
      cases hr : r.replied c with
      | none =>
        rw [hr] at htrans hd'
        simp only [hq, hq', hg, hg', hd', hm', List.length_cons, List.length_append,
          Option.isSome_none, Option.isSome_some, Bool.toNat_false, Bool.toNat_true, Bool.false_or,
          Bool.false_eq_true, if_false, if_true] at *
        refine ⟨mem + 1, by omega, ?_⟩
        rw [Nat.mul_add]
        omega
      | some d =>
        rw [hr] at htrans hd'
        simp only [hq, hq', hg, hg', hd', List.length_cons, List.length_append,
          Option.isSome_none, Option.isSome_some, Bool.toNat_true, Bool.false_or,
          Bool.false_eq_true, if_false, if_true] at *
        exact ⟨mem, by omega, by omega⟩
    | hold m hg _ hr hd hg' hq' hd' hm' =>
      have hlate := ((r.inv c).lookup m hg hd).2.2.2
      rw [r.clock] at hlate
      rw [hr] at htrans
      by_cases hle : (r.state c).MC.dataTime ≤ c
      · rw [if_pos hle] at hd'
        simp only [hq', hg, hg', hd, hd', List.length_append, Option.isSome_none, Option.isSome_some,
          Bool.toNat_false, Bool.toNat_true, Bool.true_or, Bool.false_eq_true, if_false, if_true] at *
        exact ⟨mem, by omega, by omega⟩
      · rw [if_neg hle] at hd' hm'
        simp only [hq', hg, hg', hd, hd', hm', List.length_append, Option.isSome_none,
          Option.isSome_some, Bool.toNat_false, Bool.toNat_true, Bool.true_or, Bool.false_eq_true,
          if_false, if_true] at *
        exact ⟨mem, by omega, by omega⟩
    | data m d hg _ hr _ hd hg' hq' =>
      rw [hr] at htrans
      simp only [hq', hg, hg', hd, List.length_append, Option.isSome_none, Option.isSome_some,
        Bool.toNat_false, Bool.toNat_true, Bool.true_or, Bool.false_eq_true, if_false, if_true] at *
      exact ⟨mem, by omega, by omega⟩

/-- The account at a time when the bus is free and nothing waits for it. -/
theorem busy_eq (hg : r.granted c = none) (hq : (r.state c).bus.pendingRequests = []) :
    r.busy c = 2 * (r.state c).stats.cacheToCacheTransfers + (x.hitTime + 2) *
      ((r.state c).stats.cacheMisses - (r.state c).stats.cacheToCacheTransfers) := by
  obtain ⟨mem, hmem, hbusy⟩ := r.busy_account c
  rw [hq, List.length_nil] at hmem
  rw [owed, hg] at hbusy
  have hsub : (r.state c).stats.cacheMisses - (r.state c).stats.cacheToCacheTransfers = mem := by omega
  rw [hsub]
  exact hbusy

/-- The bus is busy for no more than what every miss would take if the memory answered it. -/
theorem busy_le_misses (c : ℕ) : r.busy c ≤ (x.hitTime + 2) * (r.state c).stats.cacheMisses := by
  obtain ⟨mem, hmem, hbusy⟩ := r.busy_account c
  have htwo : 2 * (r.state c).stats.cacheToCacheTransfers ≤
      (x.hitTime + 2) * (r.state c).stats.cacheToCacheTransfers := Nat.mul_le_mul_right _ (by omega)
  calc r.busy c ≤ 2 * (r.state c).stats.cacheToCacheTransfers + (x.hitTime + 2) * mem := by omega
    _ ≤ (x.hitTime + 2) * ((r.state c).stats.cacheToCacheTransfers + mem) := by
        rw [Nat.mul_add]; omega
    _ ≤ (x.hitTime + 2) * (r.state c).stats.cacheMisses := Nat.mul_le_mul_left _ (by omega)

theorem busy_le (c : ℕ) : r.busy c ≤ (x.hitTime + 2) * ∑ i, (x.traces i).length :=
  (r.busy_le_misses c).trans (Nat.mul_le_mul_left _ (r.misses_le c))

/-! ### The cycles of a node -/

theorem busy_succ_le (c : ℕ) : r.busy c ≤ r.busy (c + 1) := Nat.le_add_right _ _

/-- The bus is busy whenever an access waits for it. -/
theorem busy_of_waits {i : Fin n} {st : Stage} {k : ℕ} {l : Char × Paddr}
    (ha : At x (r.state c) (r.granted c) i st k l) (hst : st.waits = true) :
    r.busy (c + 1) = r.busy c + 1 := by
  rw [busy]
  cases r.turn c with
  | rest hg _ _ hq =>
    have hqueue := ha.queue
    have hgrant := ha.grant
    rw [hg] at hgrant
    rw [hq] at hqueue
    cases st <;> first | (cases hst; done) | (simp at hqueue hgrant)
  | grant _ _ _ _ _ _ hg' => simp [hg']
  | hold _ hg | data _ _ hg => simp [hg]

/-- The first cycle is idle. -/
theorem busy_lt (h : 1 ≤ c) : r.busy c < c := by
  induction c, h using Nat.le_induction with
  | base =>
    have hg : r.granted 1 = none := by
      cases r.turn 0 with
      | rest _ _ _ _ hg' => exact hg'
      | grant _ _ _ _ _ hq => rw [r.start] at hq; cases hq
      | hold _ hg | data _ _ hg => cases hg
    rw [busy, busy, hg]
    show 0 + (Option.isSome none || Option.isSome none).toNat < 1
    decide
  | succ c h ih =>
    rw [busy]
    have := Bool.toNat_le ((r.granted c).isSome || (r.granted (c + 1)).isSome)
    omega

/-- With one node the bus is free whenever its access does not wait for it. -/
theorem busy_of_alone (hn : n = 1) {i : Fin n} {st : Stage} {k : ℕ} {l : Char × Paddr}
    (ha : At x (r.state c) (r.granted c) i st k l) (hst : st.waits = false) :
    r.busy (c + 1) = r.busy c := by
  have hone : ∀ j : Fin n, j = i := fun j => Fin.ext (by omega)
  have hgrant := ha.grant
  have hnot : ∀ m, r.granted c ≠ some m := by
    intro m hm
    obtain ⟨j, hj⟩ := (r.inv c).grantee m hm
    rw [hone j] at hj
    rw [hm] at hgrant
    cases st <;> first | (cases hst; done) | (simp [Option.filter, hj] at hgrant)
  rw [busy]
  cases r.turn c with
  | rest hg _ _ _ hg' => simp [hg, hg']
  | hold m hg | data m _ hg => exact absurd hg (hnot m)
  | grant m q _ _ _ hq =>
    have hqueue := ha.queue
    obtain ⟨j, hj⟩ := (r.inv c).queued m (by simp [hq])
    rw [hone j] at hj
    rw [hq] at hqueue
    cases st <;> first | (cases hst; done) | (simp [hj] at hqueue)

/-- **A node spends two cycles on an access besides those of the bus**, and with one
node no more go by. -/
theorem clock_le (c : ℕ) (i : Fin n) : ∃ st k l, At x (r.state c) (r.granted c) i st k l ∧
    (st ≠ .idle → c + st.left ≤ 2 * k + r.busy c ∧ (n = 1 → c + st.left = 2 * k + r.busy c)) := by
  induction c with
  | zero =>
    obtain ⟨st, k, l, ha⟩ := (r.inv 0).node i
    refine ⟨st, k, l, ha, fun hst => ?_⟩
    have hout := ha.outstanding
    rw [r.start] at hout
    simp [Simulator.init, Simulator.build, Simulator.Unset.zero, hst] at hout
  | succ c ih =>
    obtain ⟨st, k, l, ha, hle⟩ := ih
    obtain ⟨st', k', l', hm, ha'⟩ := r.move ha
    refine ⟨st', k', l', ha', fun hst' => ?_⟩
    have hmono := r.busy_succ_le c
    have halone := fun hn => r.busy_of_alone hn ha
    cases hm with
    | rest he => exact absurd rfl hst'
    | finish => exact absurd rfl hst'
    | hit hh | miss hh =>
      obtain ⟨h1, h2⟩ := hle (by decide)
      simp only [Stage.left] at *
      exact ⟨by omega, fun hn => by have := h2 hn; have := halone hn rfl; omega⟩
    | wait hw | grant hw | hold hw | data hw =>
      obtain ⟨h1, h2⟩ := hle (by decide)
      have hb := r.busy_of_waits ha rfl
      simp only [Stage.left] at *
      exact ⟨by omega, fun hn => by have := h2 hn; omega⟩
    | fetch hst hl =>
      rcases hst with rfl | ⟨rfl, hclock, rfl⟩
      · obtain ⟨h1, h2⟩ := hle (by decide)
        simp only [Stage.left] at *
        exact ⟨by omega, fun hn => by have := h2 hn; have := halone hn rfl; omega⟩
      · obtain rfl : c = 0 := (r.clock c).symm.trans hclock
        have hb : r.busy (0 + 1) < 1 := r.busy_lt (Nat.le_refl 1)
        simp only [Stage.left]
        exact ⟨by omega, fun _ => by omega⟩

end Run

end CoherenceSim
