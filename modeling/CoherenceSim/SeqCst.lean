/-
# Sequential consistency

`sequential_consistency`: after every cycle of a run with values (`ValueRun`) the
accesses performed so far, in the order of the cycles and in each by node, are those
each node has had from its trace, in the order of the trace, and every load has the
value of the last store to its line before it. Every input has such a run, and at its end
all accesses have performed.

A cycle carries two things on (`Valued`): where the last value of a line is
(`Coherent`), and that each node has performed what it has behind it (`Stage.served`).
The memory answers with the last value because it answers only a request that no cache
in `M` has answered (`Run.unanswered`).
-/
import CoherenceSim.Consistency

namespace CoherenceSim

open Features SharedMemory

variable {n : ℕ} {x : Input n} {s : Simulator n Trace} {gr : Option Mreq} {g : Ghost n}

/-! ### The program of a node -/

/-- The accesses of the trace of a node. -/
def Input.program (x : Input n) (i : Fin n) : List (Bool × Paddr) :=
  (x.traces i).map fun l => (l.1 = 'w', lineOf l.2)

/-- How many accesses a node has behind it when its `k`-th stands at `st`. -/
def Stage.served (st : Stage) (k : ℕ) : ℕ :=
  match st with
  | .idle | .answered => k
  | .issued | .queued | .granted => k - 1

theorem accessesOf_accessOf (i j : Fin n) (e : Char × Paddr) (v : ℕ) :
    accessesOf j [accessOf i e v] = if i = j then [(decide (e.1 = 'w'), lineOf e.2)] else [] := by
  have hop : decide (opOf e.1 = .STORE) = decide (e.1 = 'w') := by
    unfold opOf
    split <;> simp_all
  rw [accessesOf_singleton, accessOf, hop]

theorem AtNode.program_succ {i : Fin n} {nd : Node Trace} {clock : ℕ} {st : Stage} {k : ℕ}
    {e : Char × Paddr} (h : AtNode x i nd clock st k e) (hst : st ≠ .idle) :
    (x.program i).take k = (x.program i).take (k - 1) ++ [(decide (e.1 = 'w'), lineOf e.2)] := by
  obtain ⟨hk, he⟩ := h.fetched hst
  obtain ⟨k, rfl⟩ := Nat.exists_eq_add_of_le' hk
  rw [Nat.add_sub_cancel] at he ⊢
  rw [List.take_add_one, Input.program, List.getElem?_map, he]
  rfl

/-- An access is served when it is answered. -/
theorem Move.served {i : Fin n} {st st' : Stage} {k k' : ℕ} {e e' : Char × Paddr}
    (h : Move x s i st k e st' k' e') :
    if st' = .answered then st ≠ .idle ∧ st.served k = k - 1 ∧ k' = k ∧ e' = e
    else st'.served k' = st.served k := by
  cases h with
  | fetch hst | finish hst => rcases hst with rfl | ⟨rfl, -⟩ <;> rfl
  | hit | data => exact ⟨by decide, rfl, rfl, rfl⟩
  | _ => rfl

/-! ### A cycle -/

/-- Node `i` has performed the accesses it has behind it, in the order of its trace. -/
def Performed (x : Input n) (log : List (Access (Fin n) Paddr ℕ)) (i : Fin n) (st : Stage) (k : ℕ) :
    Prop :=
  accessesOf i log = (x.program i).take (st.served k)

section
variable {log log' : List (Access (Fin n) Paddr ℕ)} {i j : Fin n} {st st' : Stage} {k k' : ℕ}
variable {e e' : Char × Paddr}

/-- A node goes on to have performed what it has behind it. -/
theorem Performed.move {nd : Node Trace} {clock : ℕ} (h : Performed x log i st k)
    (ha : AtNode x i nd clock st k e) (hm : Move x s i st k e st' k' e')
    (hlog : if st' = .answered then ∃ v, log' = log ++ [accessOf i e v] else log' = log) :
    Performed x log' i st' k' := by
  have hserved := hm.served
  unfold Performed at h ⊢
  split at hlog
  · next hst =>
    obtain ⟨v, rfl⟩ := hlog
    rw [if_pos hst] at hserved
    obtain ⟨hidle, hk, rfl, rfl⟩ := hserved
    rw [accessesOf_append, accessesOf_accessOf, if_pos rfl, h, hk, hst]
    exact (ha.program_succ hidle).symm
  · next hst =>
    rw [if_neg hst] at hserved
    rw [hlog, h, hserved]

/-- And the others have no part in it. -/
theorem Performed.other (h : Performed x log j st k) (hj : i ≠ j)
    (hlog : if st' = .answered then ∃ v, log' = log ++ [accessOf i e v] else log' = log) :
    Performed x log' j st k := by
  unfold Performed at h ⊢
  split at hlog
  · obtain ⟨v, rfl⟩ := hlog
    rw [accessesOf_append, accessesOf_accessOf, if_neg hj, List.append_nil, h]
  · rw [hlog, h]

end

/-- What the values and the accesses satisfy at the start of a cycle. -/
structure Valued (x : Input n) (s : Simulator n Trace) (gr : Option Mreq) (g : Ghost n) : Prop where
  coherent : Coherent s.lines none s.bus.dataReply g
  performed : ∀ i, ∃ st k e, At x s gr i st k e ∧ Performed x g.log i st k

theorem Inv.bus_tick (h : Inv x s gr) (hc : Coherent s.lines none s.bus.dataReply g) :
    Coherent s.lines s.wire none (g.seeBus s.tickBus) := by
  refine hc.onBus (fun d hd hmd => ⟨?_, ?_⟩) (fun d hd => ?_) (g.seeBus_same s.tickBus)
  · cases h.phase with
    | rest _ _ ht | hold _ _ _ ht => simp [Simulator.wire, ht] at hd
    | grant m q _ _ hmd' ht =>
      obtain rfl : m = d := by simpa [Simulator.wire, ht] using hd
      exact absurd hmd hmd'
    | data m d' _ hdr _ ht =>
      obtain rfl : d' = d := by simpa [Simulator.wire, ht] using hd
      exact hdr
  · have hd' : s.tickBus.bus.currentRequest = some d := hd
    simp [Ghost.seeBus, hd', hmd]
  · cases h.phase with
    | rest hg => rw [(h.free hg).1] at hd; cases hd
    | grant _ _ hg => rw [(h.free hg).1] at hd; cases hd
    | hold _ _ hdr => rw [hdr] at hd; cases hd
    | data m d' _ hdr hmd ht =>
      obtain rfl : d' = d := Option.some.inj (hdr.symm.trans hd)
      exact ⟨by rw [Simulator.wire, ht], hmd⟩

/-- The state after the processors of a cycle. -/
abbrev Simulator.afterPrs (x : Input n) (s : Simulator n Trace) : Simulator n Trace :=
  { s.afterCaches x.settings with Nd := fun i => ((s.afterCaches x.settings).Nd i).prTick i }

theorem lines_next (x : Input n) (s : Simulator n Trace) :
    (s.next x.settings).lines = (s.mid x (List.finRange n)).lines := by
  funext j a
  simp only [Simulator.lines, line_next, Simulator.mid, Simulator.sync, List.mem_finRange, if_true]
  rfl

/-- The memory answers for the line of the granted request, while it is awaited. -/
theorem Inv.fires_addr (h : Inv x s gr) (hf : (s.looked x.settings).fires s.globalClock) :
    ∃ m, gr = some m ∧ s.bus.dataReply = none ∧ s.wire = none ∧
      ((s.looked x.settings).answer n).addr = m.addr := by
  obtain ⟨m, hg, hd, ht⟩ := h.fires_hold hf
  obtain ⟨-, haddr, -⟩ := h.lookup m hg hd
  obtain ⟨_, _, e, -, hask⟩ := h.of_granted hg
  have hlook : s.looked x.settings = s.MC := by simp [Simulator.looked, MemoryController.see, ht]
  refine ⟨m, hg, hd, by rw [Simulator.wire, ht], ?_⟩
  rw [hlook, MemoryController.answer, haddr, hask, ask_addr, lineOf_lineOf]

/-- **The tick of the memory controller keeps the values right**, if it answers for a
line that no cache has in `M`. -/
theorem Inv.memory_tick (h : Inv x s gr)
    (hun : ∀ m, gr = some m → s.bus.dataReply = none → ∀ j, ((s.Nd j).line m.addr).rank ≤ 1)
    (hc : Coherent (s.mid x (List.finRange n)).lines s.wire
      (s.mid x (List.finRange n)).bus.dataReply g) :
    Coherent (s.next x.settings).lines none (s.next x.settings).bus.dataReply
      (g.seeMc (s.afterPrs x) ((s.afterPrs x).memory x.settings)) := by
  have hback := hc.writeBack (s := s.afterPrs x) rfl
  have hmem : ((s.afterPrs x).memory x.settings).bus.dataReply = (s.next x.settings).bus.dataReply := rfl
  have hdr := Simulator.next_dataReply x.settings s
  rw [lines_next]
  unfold Ghost.seeMc
  by_cases hf : (s.looked x.settings).fires s.globalClock
  · have hnone : (s.mid x (List.finRange n)).bus.dataReply = none := h.mcReady.2 hf
    rw [if_pos hf] at hdr
    rw [Ghost.seeMemory_some _ (s := s.afterPrs x) hnone (hmem.trans hdr), hdr]
    rw [hnone] at hback
    refine hback.fromMemory fun j hj => ?_
    obtain ⟨m, hg, hd, hw, haddr⟩ := h.fires_addr hf
    rw [haddr] at hj
    have hle : ranks (s.mid x (List.finRange n)) m.addr j ≤ ranks s m.addr j :=
      Inv.rank_sync_le _ fun ⟨d, hd', _⟩ => by rw [hw] at hd'; cases hd'
    have hrank : ranks (s.mid x (List.finRange n)) m.addr j = 3 := by
      rw [ranks, show ((s.mid x (List.finRange n)).Nd j).line m.addr = .M from hj]
      rfl
    have h1 : ranks s m.addr j ≤ 1 := hun m hg hd j
    omega
  · rw [if_neg hf] at hdr
    have hsame : (s.next x.settings).bus.dataReply = (s.afterPrs x).bus.dataReply := hdr
    rw [Ghost.seeMemory_same _ (hmem.trans hsame), hsame]
    exact hback

/-- **A cycle keeps the values right.** -/
theorem Inv.ghost_cycle (h : Inv x s gr) (hv : Valued x s gr g)
    (hun : ∀ m, gr = some m → s.bus.dataReply = none → ∀ j, ((s.Nd j).line m.addr).rank ≤ 1) :
    ∃ g', ghostCycle x (s, g) = .ok (s.next x.settings, g') ∧
      Valued x (s.next x.settings) (nextGrant gr s.wire) g' := by
  choose st k e ha hp using hv.performed
  choose st' k' e' hm ha' using fun i => h.move (ha i)
  have hmid : s.mid x [] = s.tickBus := by simp [Simulator.mid, Simulator.sync]
  -- after the ticks of the caches of `l` these have moved on, and no others
  obtain ⟨⟨t, g₁⟩, hfold, rfl, hc, hperf⟩ := Loop.foldlM_invariant (f := ghostCache x)
    (s := (s.tickBus, g.seeBus s.tickBus))
    (fun l w => w.1 = s.mid x l ∧ Coherent (s.mid x l).lines s.wire (s.mid x l).bus.dataReply w.2 ∧
      ∀ j, if j ∈ l then Performed x w.2.log j (st' j) (k' j) else Performed x w.2.log j (st j) (k j))
    ⟨hmid.symm, by
      rw [hmid]
      exact h.tick_dataReply ▸ h.bus_tick hv.coherent, fun j => by
      simpa [(g.seeBus_same s.tickBus).2.2] using hp j⟩
    (by
      rintro l i ⟨t, g'⟩ hn ⟨rfl, hc, hperf⟩
      have hi := Loop.notMem_of_nodup hn
      obtain ⟨hlog, hc'⟩ := h.cache_tick (ha i) (hm i) hi hc
      refine ⟨_, h.ghostCache_eq hi g', rfl, hc', fun j => ?_⟩
      have hj := hperf j
      by_cases hji : i = j
      · subst hji
        rw [if_neg hi] at hj
        rw [if_pos (by simp)]
        exact hj.move (ha i).toAtNode (hm i) hlog
      · have hmem : j ∈ l ++ [i] ↔ j ∈ l := by simp [Ne.symm hji]
        simp only [hmem]
        split at hj
        · next hjl => exact (if_pos hjl).symm ▸ hj.other hji hlog
        · next hjl => exact (if_neg hjl).symm ▸ hj.other hji hlog)
    (List.finRange n) (List.nodup_finRange n)
  have hlog := g₁.seeMc_log (s.afterPrs x) ((s.afterPrs x).memory x.settings)
  refine ⟨_, ?_, h.memory_tick hun hc, fun i => ⟨_, _, _, ha' i, ?_⟩⟩
  · unfold ghostCycle
    simp only
    rw [hfold]
    show (do
      let t ← (s.afterCaches x.settings).tickPrs (List.finRange n)
      let u ← t.tickMc x.settings
      let w := u.tockPrs (List.finRange n)
      return (({ w with globalClock := w.globalClock + 1 } : Simulator n Trace), g₁.seeMc t u)) = _
    rw [Simulator.tickPrs_eq h.prReady (List.nodup_finRange n)]
    simp only [List.mem_finRange, if_true]
    show (do
      let u ← (s.afterPrs x).tickMc x.settings
      let w := u.tockPrs (List.finRange n)
      return (({ w with globalClock := w.globalClock + 1 } : Simulator n Trace),
        g₁.seeMc (s.afterPrs x) u)) = _
    rw [Simulator.tickMc_eq x.settings (show (s.afterPrs x).McReady x.settings from h.mcReady)]
    show Except.ok (({ ((s.afterPrs x).memory x.settings).tockPrs (List.finRange n) with
      globalClock := _ } : Simulator n Trace), _) = _
    rw [Simulator.tockPrs_eq]
    rfl
  · have := hperf i
    rw [if_pos (List.mem_finRange i)] at this
    unfold Performed at this ⊢
    rw [hlog, this]

/-! ### Runs with values -/

/-- No cache can answer a request whose DATA is still awaited. -/
theorem Run.unanswered (r : Run x) {c : ℕ} {m : Mreq} (hg : r.granted c = some m)
    (hd : (r.state c).bus.dataReply = none) (j : Fin n) : (((r.state c).Nd j).line m.addr).rank ≤ 1 := by
  induction c with
  | zero => cases hg
  | succ c ih =>
    cases r.turn c with
    | rest _ _ _ _ hg' => rw [hg] at hg'; cases hg'
    | data _ _ _ _ _ _ _ hg' => rw [hg] at hg'; cases hg'
    | grant m' _ hgn hb hmd _ hg' _ hd' =>
      obtain rfl : m = m' := Option.some.inj (hg.symm.trans hg')
      have hgrant := r.grantAt_eq_some.mpr ⟨hb, hmd⟩
      have hsilent : supplies (r.snooped c j m.addr) = false := by
        by_contra hs
        rw [r.snooped_eq, Bool.not_eq_false] at hs
        rw [hd', r.replied_of_supplies hgrant hs] at hd
        cases hd
      have hrank : (r.snooped c j m.addr).rank ≤ 1 := by
        have : ¬ 2 ≤ (r.snooped c j m.addr).rank := by simpa [supplies] using hsilent
        omega
      cases r.busStep c j m.addr with
      | keep _ hl => rwa [hl]
      | yield m' _ _ hl =>
        rw [hl]
        calc (x.f.yield m'.msg (r.snooped c j m.addr)).rank ≤ (r.snooped c j m.addr).rank :=
              yield_rank_le _ _ _
          _ ≤ 1 := hrank
      | fill m' hgm => rw [hgn] at hgm; cases hgm
    | hold m' hgm hb _ hdn hg' =>
      obtain rfl : m = m' := Option.some.inj (hg.symm.trans hg')
      have hquiet : ¬ ∃ d, (r.state c).wire = some d ∧ d.msg = .DATA ∧ d.destMid = L1id j ∧
          d.addr = m.addr := by
        rintro ⟨d, hd, -⟩
        rw [← r.onBus_eq, hb] at hd
        cases hd
      rw [r.next, line_next]
      calc (((r.state c).ticked x j).line m.addr).rank ≤ ranks (r.state c) m.addr j :=
            Inv.rank_cacheTick_le hquiet
        _ ≤ 1 := ih hgm hdn

/-- **A run with values.** -/
structure ValueRun (x : Input n) where
  state : ℕ → Simulator n Trace × Ghost n
  start : state 0 = (.init x.traces, .start n)
  step : ∀ c, ghostCycle x (state c) = .ok (state (c + 1))

theorem ghostCycle_ok {w : Simulator n Trace × Ghost n} {t : Simulator n Trace}
    (h : w.1.cycle x.settings = .ok t) : ∃ w', ghostCycle x w = .ok w' ∧ w'.1 = t := by
  rw [← ghostCycle_fst] at h
  cases hw : ghostCycle x w with
  | error e => rw [hw] at h; cases h
  | ok w' => rw [hw] at h; exact ⟨w', rfl, Except.ok.inj h⟩

/-- Every input has a run with values. -/
def Input.valueRun (x : Input n) : ValueRun x where
  state c := (fun w => (ghostCycle x w).toOption.getD w)^[c] (.init x.traces, .start n)
  start := rfl
  step c := by
    have hrun : ∀ c, ((fun w => (ghostCycle x w).toOption.getD w)^[c]
        (.init x.traces, .start n)).1 = x.run.state c := by
      intro c
      induction c with
      | zero => rfl
      | succ c ih =>
        obtain ⟨w', hw', ht⟩ := ghostCycle_ok (ih ▸ x.run.step c)
        rw [Function.iterate_succ_apply', hw']
        exact ht
    obtain ⟨w', hw', -⟩ := ghostCycle_ok (hrun c ▸ x.run.step c)
    rw [Function.iterate_succ_apply', hw']
    rfl

namespace ValueRun

variable (v : ValueRun x)

/-- Without the values it is a run. -/
def run : Run x where
  state c := (v.state c).1
  start := by rw [v.start]
  step c := by rw [← ghostCycle_fst, v.step]; rfl

/-- The accesses performed before cycle `c`, with their values. -/
def log (c : ℕ) : List (Access (Fin n) Paddr ℕ) := (v.state c).2.log

theorem valued (c : ℕ) : Valued x (v.run.state c) (v.run.granted c) (v.state c).2 := by
  induction c with
  | zero =>
    rw [v.run.start, v.start]
    exact ⟨Coherent.start, fun i => ⟨.idle, 0, _, Inv.at_init x i, rfl⟩⟩
  | succ c ih =>
    obtain ⟨g', hg', hv⟩ := (v.run.inv c).ghost_cycle ih fun m hm hd j => v.run.unanswered hm hd j
    have hstep := Except.ok.inj ((v.step c).symm.trans hg')
    rw [v.run.next, v.run.granted_succ, hstep]
    exact hv

/-- The accesses are in order, and the loads have read what was last stored. -/
theorem consistent (c : ℕ) : SequentiallyConsistent 0 x.program (v.log c) where
  order i := by
    obtain ⟨st, k, e, -, hp⟩ := (v.valued c).performed i
    unfold log
    rw [hp]
    exact List.take_prefix _ _
  legal := (v.valued c).coherent.legal

/-- When the loop ends every access has performed. -/
theorem all_performed {c : ℕ} (hd : (v.state c).1.done = true) (i : Fin n) :
    accessesOf i (v.log c) = x.program i := by
  obtain ⟨st, k, e, ha, hp⟩ := (v.valued c).performed i
  have hdone : ((v.state c).1.Nd i).PR.done = true := List.all_eq_true.mp hd i (List.mem_finRange i)
  have heot : ((v.state c).1.Nd i).PR.endOfTrace = true := by
    unfold Processor.done at hdone
    simp_all
  obtain ⟨rfl, rfl⟩ := ha.eot heot
  have hlen : (x.program i).length = (x.traces i).length := List.length_map _
  unfold log
  rw [hp, Stage.served, ← hlen, List.take_length]

/-- **Sequential consistency.** Every input has a run with values. In any such run, after every
cycle the accesses of each node performed so far are the first ones of its trace, in that
order, and each load has the value of the last store to its line before it, or the value at
the start if there is none; and when the loop ends every access has performed. -/
theorem sequential_consistency (x : Input n) : Nonempty (ValueRun x) ∧ ∀ v : ValueRun x,
    (∀ c, SequentiallyConsistent 0 x.program (v.log c)) ∧
    ∀ c, (v.state c).1.done = true → ∀ i, accessesOf i (v.log c) = x.program i :=
  ⟨⟨x.valueRun⟩, fun v => ⟨v.consistent, fun _ hd => v.all_performed hd⟩⟩

end ValueRun

end CoherenceSim
