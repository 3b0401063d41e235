/-
# Every run ends, and when

`run_terminates`: the loop of `Simulator::run` ends, with every line of every trace
issued and completed once and in order, and nothing left anywhere.
`runtime_accounting`: the final clock, between the cycles the bus was busy and those
and two for each access of the longest trace.
-/
import CoherenceSim.Accounting

namespace CoherenceSim

open Features

variable {n : ℕ} {x : Input n}

/-- The length of the longest trace. -/
def Input.longest (x : Input n) : ℕ := Finset.univ.sup fun i => (x.traces i).length

theorem Input.length_le_longest (x : Input n) (i : Fin n) : (x.traces i).length ≤ x.longest :=
  Finset.le_sup (f := fun i => (x.traces i).length) (Finset.mem_univ i)

namespace Run

variable (r : Run x) {c : ℕ}

/-! ### The end of the loop -/

/-- The loop ends after `R` cycles. -/
structure Ends (r : Run x) (R : ℕ) : Prop where
  pos : 1 ≤ R
  done : (r.state R).done = true
  first : ∀ c, 1 ≤ c → c < R → (r.state c).done = false

theorem run_eq_of_ends {R : ℕ} (h : r.Ends R) (fuel : ℕ) :
    (Simulator.init x.traces).run x.settings fuel =
      .ok (if R ≤ fuel then some (r.state R) else none) := by
  suffices hsuf : ∀ fuel c, c < R → (r.state c).run x.settings fuel =
      .ok (if R ≤ c + fuel then some (r.state R) else none) by
    have := hsuf fuel 0 h.pos
    rwa [r.start, Nat.zero_add] at this
  intro fuel
  induction fuel with
  | zero =>
    intro c hc
    rw [if_neg (by omega)]
    rfl
  | succ fuel ih =>
    intro c hc
    rw [Simulator.run, r.step]
    show (if (r.state (c + 1)).done then _ else _) = _
    by_cases hR : c + 1 = R
    · rw [hR, h.done, if_pos rfl, if_pos (by omega)]
      rfl
    · rw [h.first (c + 1) (by omega) (by omega)]
      have := ih (c + 1) (by omega)
      rw [show c + 1 + fuel = c + (fuel + 1) by omega] at this
      simpa using this

theorem done_iff (c : ℕ) : (r.state c).done = true ↔ ∀ i, ((r.state c).Nd i).PR.done = true := by
  simp [Simulator.done]

/-- A node that has begun is done as soon as no access of it is under way. -/
theorem done_node_iff (hc : 1 ≤ c) {i : Fin n} {st : Stage} {k : ℕ} {l : Char × Paddr}
    (ha : At x (r.state c) (r.granted c) i st k l) :
    ((r.state c).Nd i).PR.done = true ↔ st = .idle := by
  rw [Processor.done, ha.outstanding]
  by_cases hst : st = .idle
  · subst hst
    rcases ha.idle rfl with he | ⟨h0, -⟩
    · simp [he]
    · rw [r.clock] at h0
      omega
  · simp [hst]

theorem exists_not_done (h : (r.state c).done = false) : ∃ i, ¬ ((r.state c).Nd i).PR.done = true := by
  by_contra hall
  push Not at hall
  rw [(r.done_iff c).mpr hall] at h
  cases h

/-- No cycle is much later than the last access of the nodes that are not done. -/
theorem le_of_not_done (hc : 1 ≤ c) (h : (r.state c).done = false) :
    c ≤ 2 * x.longest + (x.hitTime + 2) * ∑ i, (x.traces i).length := by
  obtain ⟨i, hi⟩ := r.exists_not_done h
  obtain ⟨st, k, l, ha, hle⟩ := r.clock_le c i
  rw [r.done_node_iff hc ha] at hi
  have hk : k ≤ x.longest := ha.k_le.trans (x.length_le_longest i)
  calc c ≤ c + st.left := Nat.le_add_right _ _
    _ ≤ 2 * k + r.busy c := (hle hi).1
    _ ≤ 2 * x.longest + (x.hitTime + 2) * ∑ i, (x.traces i).length :=
        Nat.add_le_add (Nat.mul_le_mul_left 2 hk) (r.busy_le c)

/-- **The loop ends.** -/
theorem exists_ends : ∃ R, r.Ends R := by
  have hex : ∃ c, 1 ≤ c ∧ (r.state c).done = true := by
    by_contra hnone
    push Not at hnone
    have hlate := r.le_of_not_done
      (c := 2 * x.longest + (x.hitTime + 2) * ∑ i, (x.traces i).length + 1) (by omega)
      (by simpa using hnone _ (by omega))
    omega
  refine ⟨Nat.find hex, (Nat.find_spec hex).1, (Nat.find_spec hex).2, fun c hc hlt => ?_⟩
  have := Nat.find_min hex hlt
  simpa [hc] using this

theorem idle_of_done (hc : 1 ≤ c) (h : (r.state c).done = true) {i : Fin n} {st : Stage} {k : ℕ}
    {l : Char × Paddr} (ha : At x (r.state c) (r.granted c) i st k l) :
    st = .idle ∧ k = (x.traces i).length := by
  have hidle := (r.done_node_iff hc ha).mp ((r.done_iff c).mp h i)
  refine ⟨hidle, ?_⟩
  rcases ha.idle hidle with he | ⟨h0, -⟩
  · exact (ha.eot he).2
  · rw [r.clock] at h0
    omega

theorem bus_of_done (hc : 1 ≤ c) (h : (r.state c).done = true) :
    r.granted c = none ∧ (r.state c).bus.pendingRequests = [] := by
  refine ⟨?_, ?_⟩
  · by_contra hne
    obtain ⟨m, hm⟩ := Option.ne_none_iff_exists'.mp hne
    obtain ⟨i, k, l, ha, -⟩ := (r.inv c).of_granted hm
    cases (r.idle_of_done hc h ha).1
  · by_contra hne
    obtain ⟨m, hm⟩ := List.exists_mem_of_ne_nil _ hne
    obtain ⟨i, k, l, ha, -⟩ := (r.inv c).of_queued hm
    cases (r.idle_of_done hc h ha).1

theorem Ends.idle {R : ℕ} (h : r.Ends R) {i : Fin n} {st : Stage} {k : ℕ} {l : Char × Paddr}
    (ha : At x (r.state R) (r.granted R) i st k l) : st = .idle ∧ k = (x.traces i).length :=
  r.idle_of_done h.pos h.done ha

theorem Ends.bus {R : ℕ} (h : r.Ends R) :
    r.granted R = none ∧ (r.state R).bus.pendingRequests = [] :=
  r.bus_of_done h.pos h.done

/-- There is an end after every cycle. -/
theorem exists_done_after (c : ℕ) : ∃ k, (r.state (c + 1 + k)).done = true := by
  set last := 2 * x.longest + (x.hitTime + 2) * ∑ i, (x.traces i).length
  refine ⟨last, ?_⟩
  by_contra hnot
  have hle : c + 1 + last ≤ last := r.le_of_not_done (by omega) (by simpa using hnot)
  omega

/-! ### What is issued and completed -/

/-- What the processor of node `i` has put into the slot of its cache before cycle `c`:
the cache empties the slot in every cycle, so what is in it at the end of one is new. -/
def issues (i : Fin n) : ℕ → List Mreq
  | 0 => []
  | c + 1 => issues i c ++ ((r.state (c + 1)).Nd i).L1.procRequest.toList

/-- The DATA it has completed an access with. -/
def completions (i : Fin n) : ℕ → List Mreq
  | 0 => []
  | c + 1 => completions i c ++ ((r.state c).Nd i).PR.inboundRequest.toList

/-- Both follow the trace. -/
theorem issues_completions (i : Fin n) (c : ℕ) : ∃ st k l, At x (r.state c) (r.granted c) i st k l ∧
    r.issues i c = ((x.traces i).take k).map (fun l => .new (opOf l.1) l.2 (PRid i)) ∧
    r.completions i c = ((x.traces i).take (if st = .idle then k else k - 1)).map
      (fun l => dataToProc (L1id i) l.2) := by
  induction c with
  | zero =>
    obtain ⟨st, k, l, ha⟩ := (r.inv 0).node i
    have hk := r.fetched_eq ha
    rw [fetched, r.start] at hk
    obtain rfl : 0 = k := by simpa [Simulator.init, Simulator.build] using hk
    exact ⟨st, 0, l, ha, rfl, by simp [completions]⟩
  | succ c ih =>
    obtain ⟨st, k, l, ha, hiss, hcomp⟩ := ih
    obtain ⟨st', k', l', hm, ha'⟩ := r.move ha
    refine ⟨st', k', l', ha', ?_, ?_⟩
    · rw [issues, hiss, ha'.proc]
      cases hm with
      | fetch hst hl => rw [List.take_add_one, hl]; simp
      | _ => simp
    · rw [completions, hcomp, ha.inbound]
      have hlast : st ≠ .idle → (x.traces i).take (k - 1) ++ [l] = (x.traces i).take k := by
        intro hst
        obtain ⟨hk, hl⟩ := ha.fetched hst
        obtain ⟨k, rfl⟩ : ∃ k', k = k' + 1 := ⟨k - 1, by omega⟩
        rw [Nat.add_sub_cancel] at hl
        rw [List.take_add_one, hl]
        rfl
      cases hm with
      | fetch hst hl =>
        rcases hst with rfl | ⟨rfl, -⟩
        · simp [← hlast]
        · simp
      | finish hst hk =>
        rcases hst with rfl | ⟨rfl, -⟩
        · simp [← hlast]
        · simp
      | _ => simp

/-! ### The end state -/

/-- All is done and nothing is left: what holds when the loop ends. -/
structure Quiescent (r : Run x) (R : ℕ) : Prop where
  done : ∀ i, ((r.state R).Nd i).PR.done = true
  issued : ∀ i, r.issues i R = (x.traces i).map fun l => .new (opOf l.1) l.2 (PRid i)
  completed : ∀ i, r.completions i R = (x.traces i).map fun l => dataToProc (L1id i) l.2
  accesses : (r.state R).stats.cacheAccesses = ∑ i, (x.traces i).length
  pendingRequests : (r.state R).bus.pendingRequests = []
  dataReply : (r.state R).bus.dataReply = none
  requestInProgress : (r.state R).bus.requestInProgress = false
  memory : (r.state R).MC.requestInProgress = false
  lines : ∀ i a, (((r.state R).Nd i).line a).pending = false

theorem Ends.quiescent {R : ℕ} (h : r.Ends R) : r.Quiescent R where
  done := (r.done_iff R).mp h.done
  issued i := by
    obtain ⟨st, k, l, ha, hiss, -⟩ := r.issues_completions i R
    obtain ⟨-, rfl⟩ := h.idle r ha
    rw [hiss, List.take_length]
  completed i := by
    obtain ⟨st, k, l, ha, -, hcomp⟩ := r.issues_completions i R
    obtain ⟨rfl, rfl⟩ := h.idle r ha
    rw [hcomp, if_pos rfl, List.take_length]
  accesses := by
    have hslot : ∀ i, ((r.state R).Nd i).L1.procRequest.isSome.toNat = 0 ∧
        r.fetched R i = (x.traces i).length := by
      intro i
      obtain ⟨st, k, l, ha⟩ := (r.inv R).node i
      obtain ⟨rfl, hk⟩ := h.idle r ha
      exact ⟨r.procRequest_toNat ha, (r.fetched_eq ha).trans hk⟩
    have := r.accesses_eq R
    simpa [hslot] using this
  pendingRequests := (h.bus r).2
  dataReply := ((r.inv R).free (h.bus r).1).1
  requestInProgress := by rw [(r.inv R).busy, (h.bus r).1]; rfl
  memory := ((r.inv R).free (h.bus r).1).2
  lines i a := by
    obtain ⟨st, k, l, ha⟩ := (r.inv R).node i
    obtain ⟨rfl, -⟩ := h.idle r ha
    by_contra hp
    cases (ha.pending a (by simpa using hp)).1

/-- **Every run ends in a quiescent state**: the loop ends after some `R` cycles, with
every processor done, every line of every trace issued and completed once and in
order, and nothing pending anywhere. -/
theorem run_terminates (r : Run x) : ∃ R,
    (∀ fuel, (Simulator.init x.traces).run x.settings fuel =
      .ok (if R ≤ fuel then some (r.state R) else none)) ∧ r.Quiescent R := by
  obtain ⟨R, h⟩ := r.exists_ends
  exact ⟨R, r.run_eq_of_ends h, h.quiescent r⟩

/-! ### The final clock -/

/-- With one node no cache answers. -/
theorem transfers_eq_zero (hn : n = 1) (c : ℕ) : (r.state c).stats.cacheToCacheTransfers = 0 := by
  induction c with
  | zero => rw [r.start]; rfl
  | succ c ih =>
    rw [r.cacheToCacheTransfers_succ, ih]
    have hnone : r.replied c = none := by
      by_contra hne
      obtain ⟨d, hd⟩ := Option.ne_none_iff_exists'.mp hne
      obtain ⟨m, j, hw, hmd, -, hs⟩ := Inv.reply_of_cacheReply hd
      obtain ⟨i, k, l, ha, hm⟩ := r.requester (r.grantAt_eq_some.mpr ⟨r.onBus_eq c ▸ hw, hmd⟩)
      obtain rfl : j = i := Fin.ext (by omega)
      rw [hm, ask_addr, r.not_supplier_requester ha] at hs
      cases hs
    rw [hnone]
    rfl

/-- A loop that ends after its first cycle has had nothing to do. -/
theorem Ends.longest_eq_zero (h : r.Ends 1) : x.longest = 0 := by
  have hlen : ∀ i, (x.traces i).length = 0 := by
    intro i
    obtain ⟨st, k, l, ha⟩ := (r.inv 1).node i
    obtain ⟨rfl, hk⟩ := h.idle r ha
    have hslot := r.procRequest_toNat ha
    have hfetched := r.fetched_succ i (c := 0)
    have hnone : r.fetched 0 i = 0 := by
      rw [fetched, r.start]
      simp [Simulator.init, Simulator.build]
    rw [r.fetched_eq ha, hslot, hnone] at hfetched
    rw [← hk, hfetched]
    rfl
  refine Nat.le_zero.mp (Finset.sup_le fun i _ => ?_)
  rw [hlen i]

/-- The last node to end does so, after the first cycle, two cycles and those of the
bus for each of its accesses later. -/
theorem Ends.le {R : ℕ} (h : r.Ends R) : R ≤ 1 + 2 * x.longest + r.busy R ∧
    (n = 1 → R = 1 + 2 * x.longest + r.busy R) := by
  obtain ⟨c, rfl⟩ : ∃ c, R = c + 1 := ⟨R - 1, by have := h.pos; omega⟩
  by_cases hc : c = 0
  · subst hc
    have hlong := h.longest_eq_zero r
    have hb : r.busy (0 + 1) < 1 := r.busy_lt (Nat.le_refl 1)
    exact ⟨by omega, fun _ => by omega⟩
  · obtain ⟨i, hi⟩ := r.exists_not_done (h.first c (by omega) (by omega))
    obtain ⟨st, k, l, ha, hle⟩ := r.clock_le c i
    obtain ⟨st', k', l', hm, ha'⟩ := r.move ha
    obtain ⟨rfl, -⟩ := h.idle r ha'
    rw [r.done_node_iff (by omega) ha] at hi
    obtain ⟨h1, h2⟩ := hle hi
    have hmono := r.busy_succ_le c
    have hlong := x.length_le_longest i
    cases hm with
    | rest => exact absurd rfl hi
    | finish hst hk =>
      obtain rfl : st = .answered := hst.resolve_right fun hidle => hi hidle.1
      simp only [Stage.left] at h1 h2
      refine ⟨by omega, fun hn => ?_⟩
      have hone : x.longest ≤ (x.traces i).length := by
        refine Finset.sup_le fun j _ => ?_
        rw [show j = i from Fin.ext (by omega)]
      have := r.busy_of_alone hn ha rfl
      have := h2 hn
      omega

/-- **Run-time accounting.** `R`, `M` and `T` are the final clock, the misses and the
transfers from cache to cache; a transaction the memory answers takes `hitTime + 2`
cycles, 102 at the latency of 100 the program sets. -/
theorem runtime_accounting (r : Run x) : ∃ s,
    (∃ fuel, (Simulator.init x.traces).run x.settings fuel = .ok (some s)) ∧
    let R := s.globalClock
    let M := s.stats.cacheMisses
    let T := s.stats.cacheToCacheTransfers
    T ≤ M ∧ 1 + 2 * T + (x.hitTime + 2) * (M - T) ≤ R ∧
      R ≤ 1 + 2 * x.longest + 2 * T + (x.hitTime + 2) * (M - T) ∧
      (n = 1 → T = 0 ∧ R = 1 + 2 * x.longest + (x.hitTime + 2) * M) := by
  obtain ⟨R, h⟩ := r.exists_ends
  obtain ⟨hg, hq⟩ := h.bus r
  have hbusy := r.busy_eq hg hq
  have hlt := r.busy_lt h.pos
  obtain ⟨hle, heq⟩ := h.le r
  obtain ⟨mem, hmem, -⟩ := r.busy_account R
  refine ⟨r.state R, ⟨R, by rw [r.run_eq_of_ends h, if_pos (Nat.le_refl R)]⟩, ?_⟩
  simp only [r.clock]
  refine ⟨by omega, by omega, by omega, fun hn => ?_⟩
  have hT := r.transfers_eq_zero hn R
  rw [hT] at hbusy ⊢
  rw [Nat.sub_zero] at hbusy
  exact ⟨rfl, by have := heq hn; omega⟩

end Run

end CoherenceSim
