/-
# Runs

`Inv.init` and `Inv.next`: the invariant holds before the first cycle and after
every one. A `Run` is the sequence of the states at the starts of the cycles;
every input has one (`Input.run`), and the invariant holds all along it, for the
request that is granted then (`Run.granted`).
-/
import CoherenceSim.Move

namespace CoherenceSim

open Features

variable {n : ℕ} {x : Input n} {s : Simulator n Trace} {gr : Option Mreq}

namespace Inv

/-! ### The copies of a line -/

/-- The lines of the node that the DATA on the bus is for. -/
theorem line_data (h : Inv x s gr) {m d : Mreq} (hg : gr = some m) (hdr : s.bus.dataReply = some d) :
    ∃ i k l, At x s gr i .granted k l ∧ m = x.ask i l ∧ d.addr = m.addr ∧ d.destMid = L1id i ∧
      ∀ a, (s.ticked x i).line a =
        if a = m.addr then x.f.fill m.msg s.bus.sharedLine else (s.Nd i).line a := by
  obtain ⟨i, k, l, ha, hm⟩ := h.of_granted hg
  obtain ⟨hd, hda, hdd⟩ := h.reply m d hg hdr
  have hdest : d.destMid = L1id i := by rw [hdd, hm, ask_srcMid]
  have ht : s.bus.tick = ⟨some d, s.bus.pendingRequests, none, false, s.bus.sharedLine⟩ := by
    unfold Bus.tick
    simp [h.busy, hg, hdr]
  have hasked : asked ((s.Nd i).line m.addr) = m.msg := by
    rw [hm, ask_addr, ha.wait rfl, asked_pend, ask_msg]
  have hw : s.wire = some d := by rw [Simulator.wire, ht]
  refine ⟨i, k, l, ha, hm, hda, hdest, fun a => ?_⟩
  rw [(Node.cacheTick_data x.f s.bus.tick.sharedLine ha.proc hw hd hdest).2.2, hda, hasked, ht]

/-- No copy gains rank as long as the bus has no DATA for it. -/
theorem rank_cacheTick_le {i : Fin n} {a : Paddr}
    (hw : ¬ ∃ d, s.wire = some d ∧ d.msg = .DATA ∧ d.destMid = L1id i ∧ d.addr = a) :
    ((s.ticked x i).line a).rank ≤ ranks s a i := by
  have hproc := Node.rank_procTick_le x.f i (s.Nd i) a
  unfold Simulator.ticked Node.cacheTick
  by_cases hadd : Addressed i s.wire
  · obtain ⟨d, hc, hd, hi⟩ := hadd
    rw [(Node.snoopTick_addressed x.f _ hc hd hi _).2.2]
    split
    · next ha => exact absurd ⟨d, hc, hd, hi, ha.symm⟩ hw
    · exact hproc
  · rw [(Node.snoopTick_quiet x.f _ hadd _).2.2]
    exact (lineSnoop_rank_le _ _ _ _).trans hproc

theorem rank_sync_le (l : List (Fin n)) {i : Fin n} {a : Paddr}
    (hw : ¬ ∃ d, s.wire = some d ∧ d.msg = .DATA ∧ d.destMid = L1id i ∧ d.addr = a) :
    ranks (s.tickBus.sync x.settings l) a i ≤ ranks s a i := by
  show ((if i ∈ l then s.ticked x i else s.Nd i).line a).rank ≤ ranks s a i
  split
  · exact rank_cacheTick_le hw
  · exact Nat.le_refl _

/-- **The copies fit after every tick of a cache.** -/
theorem fits_sync (h : Inv x s gr) (l : List (Fin n)) (a : Paddr) :
    Permission.Fits 3 (ranks (s.tickBus.sync x.settings l) a) := by
  have hline : ∀ i, (s.tickBus.sync x.settings l).Nd i = if i ∈ l then s.ticked x i else s.Nd i :=
    fun _ => rfl
  by_cases hw : ∃ i d, s.wire = some d ∧ d.msg = .DATA ∧ d.destMid = L1id (n := n) i ∧ d.addr = a
  · obtain ⟨i, d, hc, hd, hi, rfl⟩ := hw
    cases h.phase with
    | rest _ _ ht | hold _ _ _ ht => simp [Simulator.wire, ht] at hc
    | grant m q _ _ hmd ht =>
      obtain rfl : m = d := by simpa [Simulator.wire, ht] using hc
      exact absurd hd hmd
    | data m d' hg hdr hmd ht =>
      -- the grant has left room for what the DATA brings
      obtain rfl : d' = d := by simpa [Simulator.wire, ht] using hc
      obtain ⟨i', k, l', hat, hm, hda, hdest, hfill⟩ := h.line_data hg hdr
      obtain rfl : i' = i := L1id_injective (hdest.symm.trans hi)
      have hroom := h.room m i' hg (by rw [hm, ask_srcMid])
      rw [hda]
      refine (h.fits m.addr).raise hroom ?_ fun j hj => rank_sync_le l ?_
      · unfold ranks
        rw [hline]
        split
        · rw [hfill, if_pos rfl]
        · rw [hm, ask_addr, hat.wait rfl, pend_rank]
          exact Nat.zero_le _
      · rintro ⟨d'', hc', -, hj', -⟩
        obtain rfl : d' = d'' := Option.some.inj (hc.symm.trans hc')
        exact hj (L1id_injective (hj'.symm.trans hi))
  · exact (h.fits a).mono fun i => rank_sync_le l fun ⟨d, hd⟩ => hw ⟨i, d, hd⟩

theorem ranks_next (x : Input n) (s : Simulator n Trace) (a : Paddr) :
    ranks (s.next x.settings) a = ranks (s.tickBus.sync x.settings (List.finRange n)) a := by
  funext i
  unfold ranks
  rw [line_next]
  simp only [Simulator.sync, List.mem_finRange, if_true]
  rfl

/-- A grant, and the cycles in which the DATA is awaited, leave room for the DATA. -/
theorem room_next (h : Inv x s gr) {m : Mreq} {i : Fin n} (hg : nextGrant gr s.wire = some m)
    (hi : m.srcMid = L1id i) : Permission.Room 3 (ranks (s.next x.settings) m.addr) i
      (x.f.fill m.msg (s.next x.settings).bus.sharedLine).rank := by
  have hsh := Simulator.next_sharedLine x.settings s
  cases h.phase with
  | rest hgr _ ht =>
    rw [nextGrant_quiet ht, hgr] at hg
    cases hg
  | data _ _ _ _ hmd ht =>
    rw [nextGrant_data ht hmd] at hg
    cases hg
  | hold _ _ _ ht =>
    have hw : s.wire = none := by rw [Simulator.wire, ht]
    rw [nextGrant_quiet ht] at hg
    have hsame : (s.next x.settings).bus.sharedLine = s.bus.sharedLine := by
      rw [hsh, ht]
      simp [Node.raised]
    rw [hsame]
    refine (h.room m i hg hi).mono fun j _ => ?_
    unfold ranks
    rw [line_next]
    apply rank_cacheTick_le
    rintro ⟨d, hd, -⟩
    rw [hw] at hd
    cases hd
  | grant m' q hgr hp hmd ht =>
    have hw : s.wire = some m' := by rw [Simulator.wire, ht]
    rw [nextGrant_grant ht hmd] at hg
    obtain rfl : m' = m := Option.some.inj hg
    intro j _
    obtain ⟨_, _, l, -, hask⟩ := h.of_queued (m := m') (by simp [hp])
    have hk : m'.msg = .GETS ∨ m'.msg = .GETM := by rw [hask]; exact request_cases _ _
    have hnot : ¬ Addressed j s.wire := by
      rintro ⟨d, hd, hdm, -⟩
      rw [← Option.some.inj (hw.symm.trans hd)] at hdm
      exact hmd hdm
    unfold ranks
    rw [line_next, Simulator.ticked, Node.cacheTick, (Node.snoopTick_quiet x.f _ hnot _).2.2]
    have hsnoop : ∀ st, lineSnoop x.f s.wire m'.addr st = x.f.yield m'.msg st := by
      intro st
      simp [lineSnoop, hw, hmd]
    rw [hsnoop]
    refine x.f.yield_fill hk fun hr => ?_
    rw [hsh, Bool.or_eq_true, List.any_eq_true]
    refine Or.inr ⟨j, List.mem_finRange j, ?_⟩
    have hc : s.bus.tick.currentRequest = some m' := hw
    rw [hc]
    simp only [Node.raised, decide_eq_true_eq]
    exact ⟨hmd, hr⟩

/-- The lines keep to the states of the protocol. -/
theorem valid_next (h : Inv x s gr) (i : Fin n) (a : Paddr) :
    x.f.valid (((s.next x.settings).Nd i).line a) = true := by
  have hproc := fun a => Node.valid_procTick (p := x.protocol) i (h.valid i) a
  rw [line_next, Simulator.ticked, Node.cacheTick]
  by_cases hadd : Addressed i s.wire
  · obtain ⟨st, k, l, ha⟩ := h.node i
    obtain ⟨rfl, d, hc, hd, hi, hda⟩ := h.addressed ha hadd
    rw [(Node.snoopTick_addressed x.f _ hc hd hi _).2.2, Node.procTick_none _ i (by simpa using ha.proc)]
    split
    · rw [hda, ha.wait rfl, asked_pend]
      exact valid_fill x.protocol _ _
    · exact h.valid i a
  · rw [(Node.snoopTick_quiet x.f _ hadd _).2.2]
    exact valid_lineSnoop _ _ (hproc a)

/-! ### The step -/

/-- **A cycle keeps the invariant.** -/
theorem next (h : Inv x s gr) : Inv x (s.next x.settings) (nextGrant gr s.wire) where
  node i := by
    obtain ⟨st, k, l, ha⟩ := h.node i
    obtain ⟨st', k', l', -, ha'⟩ := h.move ha
    exact ⟨st', k', l', ha'⟩
  queued m hm := by
    rw [Simulator.next_pendingRequests, List.mem_append] at hm
    rcases hm with hm | hm
    · apply h.queued m
      cases h.phase with
      | rest _ _ ht | hold _ _ _ ht | data _ _ _ _ _ ht => rw [ht] at hm; exact hm
      | grant _ _ _ hp _ ht => rw [ht] at hm; rw [hp]; exact List.mem_cons_of_mem _ hm
    · obtain ⟨i, -, hi⟩ := List.mem_flatMap.mp hm
      obtain ⟨st, k, l, ha⟩ := h.node i
      rw [show (s.Nd i).queued x.settings.protocol.features i = _ from ha.queued] at hi
      split at hi
      · exact ⟨i, by rw [List.mem_singleton.mp hi, ask_srcMid]⟩
      · cases hi
  grantee m hm := by
    cases h.phase with
    | rest _ _ ht | hold _ _ _ ht =>
      rw [nextGrant_quiet ht] at hm
      exact h.grantee m hm
    | data _ _ _ _ hmd ht =>
      rw [nextGrant_data ht hmd] at hm
      cases hm
    | grant m' _ _ hp hmd ht =>
      rw [nextGrant_grant ht hmd] at hm
      obtain rfl : m' = m := Option.some.inj hm
      exact h.queued m' (by simp [hp])
  busy := by
    rw [Simulator.next_requestInProgress]
    cases h.phase with
    | rest _ _ ht | hold _ _ _ ht =>
      rw [nextGrant_quiet ht, ht]
      exact h.busy
    | data _ _ _ _ hmd ht => rw [nextGrant_data ht hmd, ht]; rfl
    | grant _ _ _ _ hmd ht => rw [nextGrant_grant ht hmd, ht]; rfl
  free hn := by
    cases h.phase with
    | rest hg _ _ hd hm => exact ⟨hd, by rw [hm]; exact (h.free hg).2⟩
    | hold _ hg _ ht =>
      rw [nextGrant_quiet ht, hg] at hn
      cases hn
    | grant _ _ _ _ hmd ht =>
      rw [nextGrant_grant ht hmd] at hn
      cases hn
    | data _ _ _ _ _ _ hd hm => exact ⟨hd, by rw [hm]⟩
  lookup m hm hnone := by
    rw [Simulator.next_globalClock]
    cases h.phase with
    | rest hg _ ht =>
      rw [nextGrant_quiet ht, hg] at hm
      cases hm
    | data _ _ _ _ hmd ht =>
      rw [nextGrant_data ht hmd] at hm
      cases hm
    | grant m' _ _ _ hmd ht _ hmc =>
      rw [nextGrant_grant ht hmd] at hm
      obtain rfl : m' = m := Option.some.inj hm
      have := x.hitTime_pos
      rw [hmc]
      exact ⟨rfl, rfl, rfl, by simp only; omega⟩
    | hold _ _ hdr ht hd hmc =>
      rw [nextGrant_quiet ht] at hm
      have hlate : ¬ s.MC.dataTime ≤ s.globalClock := by
        intro hle
        rw [hd, if_pos hle] at hnone
        cases hnone
      rw [hmc, if_neg hlate]
      obtain ⟨h1, h2, h3, -⟩ := h.lookup m hm hdr
      exact ⟨h1, h2, h3, by omega⟩
  reply m d hm hd' := by
    cases h.phase with
    | rest hg _ ht =>
      rw [nextGrant_quiet ht, hg] at hm
      cases hm
    | data _ _ _ _ hmd ht =>
      rw [nextGrant_data ht hmd] at hm
      cases hm
    | grant m' _ _ hp hmd ht hd =>
      rw [nextGrant_grant ht hmd] at hm
      obtain rfl : m' = m := Option.some.inj hm
      obtain ⟨m, j, hw, -, rfl, -⟩ := reply_of_cacheReply (x := x) (hd.symm.trans hd')
      obtain rfl : m' = m := by simpa [Simulator.wire, ht] using hw
      obtain ⟨i, _, l, -, rfl⟩ := h.of_queued (m := m') (by simp [hp])
      exact ⟨rfl, by simp [replyTo], rfl⟩
    | hold _ _ hdr ht hd =>
      rw [nextGrant_quiet ht] at hm
      obtain ⟨-, haddr, htarget, -⟩ := h.lookup m hm hdr
      obtain ⟨i, _, l, -, rfl⟩ := h.of_granted hm
      rw [hd] at hd'
      split at hd'
      · rw [← Option.some.inj hd']
        exact ⟨rfl, by simp [MemoryController.answer, haddr], htarget⟩
      · cases hd'
  valid := h.valid_next
  fits a := by rw [ranks_next]; exact h.fits_sync _ a
  room _ _ := h.room_next

theorem at_init (x : Input n) (i : Fin n) :
    At x (Simulator.init x.traces) none i .idle 0 ('r', 0) where
  infile := rfl
  k_le := Nat.zero_le _
  fetched h := absurd rfl h
  outstanding := rfl
  proc := rfl
  inbound := rfl
  buf := rfl
  wait h := by cases h
  pending a h := by cases h
  eot h := by cases h
  idle _ := Or.inr ⟨rfl, rfl⟩
  queue := rfl
  grant := rfl

theorem init (x : Input n) : Inv x (Simulator.init x.traces) none where
  node i := ⟨_, _, _, at_init x i⟩
  queued m hm := by cases hm
  grantee m hm := by cases hm
  busy := rfl
  free _ := ⟨rfl, rfl⟩
  lookup m hm := by cases hm
  reply m d hm := by cases hm
  valid i a := rfl
  fits a i j _ := Nat.zero_le 3
  room m i hm := by cases hm

end Inv

/-! ### Runs -/

/-- The loop of `Simulator::run` for `c` cycles, without the test that ends it. -/
def Simulator.cycles (S : Settings) : ℕ → Simulator n Trace → Except Fatal (Simulator n Trace)
  | 0, s => .ok s
  | c + 1, s => do
    let s ← s.cycle S
    cycles S c s

/-- **A run**: the state at the start of every cycle. It goes on after the end of the
loop, where every processor is done and nothing but the clock changes any more. -/
structure Run (x : Input n) where
  state : ℕ → Simulator n Trace
  start : state 0 = .init x.traces
  step : ∀ c, (state c).cycle x.settings = .ok (state (c + 1))

namespace Run

variable (r : Run x)

/-- The message on the bus in cycle `c`. -/
def onBus (c : ℕ) : Option Mreq := (r.state (c + 1)).bus.currentRequest

/-- The request that is granted at the start of cycle `c` and whose DATA has not
been on the bus before it. -/
def granted : ℕ → Option Mreq
  | 0 => none
  | c + 1 => nextGrant (granted c) (r.onBus c)

theorem next_of_inv {c : ℕ} {gr : Option Mreq} (h : Inv x (r.state c) gr) :
    r.state (c + 1) = (r.state c).next x.settings :=
  Except.ok.inj ((r.step c).symm.trans h.cycle_eq)

/-- **The invariant holds all along a run.** -/
theorem inv (c : ℕ) : Inv x (r.state c) (r.granted c) := by
  induction c with
  | zero => rw [r.start]; exact Inv.init x
  | succ c ih =>
    rw [r.next_of_inv ih, granted, onBus, r.next_of_inv ih, Simulator.next_currentRequest]
    exact ih.next

theorem next (c : ℕ) : r.state (c + 1) = (r.state c).next x.settings := r.next_of_inv (r.inv c)

theorem onBus_eq (c : ℕ) : r.onBus c = (r.state c).wire := by
  rw [onBus, r.next, Simulator.next_currentRequest]

theorem granted_succ (c : ℕ) : r.granted (c + 1) = nextGrant (r.granted c) (r.state c).wire := by
  rw [granted, onBus_eq]

theorem clock (c : ℕ) : (r.state c).globalClock = c := by
  induction c with
  | zero => rw [r.start]; rfl
  | succ c ih => rw [r.next, Simulator.next_globalClock, ih]

/-- Where the access of node `i` goes in cycle `c`. -/
theorem move {c : ℕ} {i : Fin n} {st : Stage} {k : ℕ} {l : Char × Paddr}
    (ha : At x (r.state c) (r.granted c) i st k l) : ∃ st' k' l',
      Move x (r.state c) i st k l st' k' l' ∧ At x (r.state (c + 1)) (r.granted (c + 1)) i st' k' l' := by
  rw [r.next, r.granted_succ]
  exact (r.inv c).move ha

/-- The request `Bus::tick` grants in cycle `c`. -/
def grantAt (c : ℕ) : Option Mreq := (r.onBus c).filter (·.msg ≠ .DATA)

/-- The DATA it puts on the bus. -/
def dataAt (c : ℕ) : Option Mreq := (r.onBus c).filter (·.msg = .DATA)

theorem grantAt_eq_some {c : ℕ} {m : Mreq} :
    r.grantAt c = some m ↔ r.onBus c = some m ∧ m.msg ≠ .DATA := by
  simp [grantAt, Option.filter_eq_some_iff]

theorem dataAt_eq_some {c : ℕ} {d : Mreq} :
    r.dataAt c = some d ↔ r.onBus c = some d ∧ d.msg = .DATA := by
  simp [dataAt, Option.filter_eq_some_iff]

/-- The requests the caches put in the queue in cycle `c`. -/
def sent (c : ℕ) : List Mreq := (List.finRange n).flatMap fun i => ((r.state c).Nd i).queued x.f i

/-- The reply a cache gives in cycle `c`. -/
def replied (c : ℕ) : Option Mreq := (r.state c).cacheReply x.settings

/-- What cycle `c` does on the bus: nothing; a grant; a cycle of waiting, in which
the memory may answer; the DATA. -/
inductive Turn (r : Run x) (c : ℕ) : Prop
  | rest (hg : r.granted c = none) (hb : r.onBus c = none) (hr : r.replied c = none)
      (hq : (r.state c).bus.pendingRequests = []) (hg' : r.granted (c + 1) = none)
      (hq' : (r.state (c + 1)).bus.pendingRequests = r.sent c)
      (hd' : (r.state (c + 1)).bus.dataReply = none)
  | grant (m : Mreq) (q : List Mreq) (hg : r.granted c = none) (hb : r.onBus c = some m)
      (hmd : m.msg ≠ .DATA) (hq : (r.state c).bus.pendingRequests = m :: q)
      (hg' : r.granted (c + 1) = some m)
      (hq' : (r.state (c + 1)).bus.pendingRequests = q ++ r.sent c)
      (hd' : (r.state (c + 1)).bus.dataReply = r.replied c)
      (hm' : (r.state (c + 1)).MC = ⟨true, c + x.hitTime, m.addr, m.srcMid⟩)
  | hold (m : Mreq) (hg : r.granted c = some m) (hb : r.onBus c = none) (hr : r.replied c = none)
      (hd : (r.state c).bus.dataReply = none) (hg' : r.granted (c + 1) = some m)
      (hq' : (r.state (c + 1)).bus.pendingRequests = (r.state c).bus.pendingRequests ++ r.sent c)
      (hd' : (r.state (c + 1)).bus.dataReply =
        if (r.state c).MC.dataTime ≤ c then some ((r.state c).MC.answer n) else none)
      (hm' : (r.state (c + 1)).MC = if (r.state c).MC.dataTime ≤ c
        then { (r.state c).MC with requestInProgress := false } else (r.state c).MC)
  | data (m d : Mreq) (hg : r.granted c = some m) (hb : r.onBus c = some d) (hr : r.replied c = none)
      (hmd : d.msg = .DATA) (hd : (r.state c).bus.dataReply = some d) (hg' : r.granted (c + 1) = none)
      (hq' : (r.state (c + 1)).bus.pendingRequests = (r.state c).bus.pendingRequests ++ r.sent c)
      (hd' : (r.state (c + 1)).bus.dataReply = none)

theorem turn (c : ℕ) : r.Turn c := by
  have hnext := r.next c
  have hclock := r.clock c
  have hpend : (r.state (c + 1)).bus.pendingRequests =
      (r.state c).bus.tick.pendingRequests ++ r.sent c := by
    rw [hnext, Simulator.next_pendingRequests]
    rfl
  have hquiet : (∀ m, (r.state c).wire = some m → m.msg = .DATA) → r.replied c = none :=
    Inv.cacheReply_eq_none
  cases (r.inv c).phase with
  | rest hg hq ht hd =>
    have hw : (r.state c).wire = none := by rw [Simulator.wire, ht]
    refine .rest hg (r.onBus_eq c ▸ hw) (hquiet (by simp [hw])) hq ?_ ?_ (hnext ▸ hd)
    · rw [r.granted_succ, nextGrant_quiet ht, hg]
    · rw [hpend, ht, show (r.state c).bus.pendingRequests = [] from hq, List.nil_append]
  | grant m q hg hq hmd ht hd hm =>
    have hw : (r.state c).wire = some m := by rw [Simulator.wire, ht]
    refine .grant m q hg (r.onBus_eq c ▸ hw) hmd hq ?_ (by rw [hpend, ht]) (hnext ▸ hd) ?_
    · rw [r.granted_succ, nextGrant_grant ht hmd]
    · rw [hnext, hm, hclock]
  | hold m hg hdr ht hd hm =>
    have hw : (r.state c).wire = none := by rw [Simulator.wire, ht]
    rw [hclock, ← hnext] at hd hm
    refine .hold m hg (r.onBus_eq c ▸ hw) (hquiet (by simp [hw])) hdr ?_ (by rw [hpend, ht]) hd hm
    rw [r.granted_succ, nextGrant_quiet ht, hg]
  | data m d hg hdr hmd ht hd =>
    have hw : (r.state c).wire = some d := by rw [Simulator.wire, ht]
    refine .data m d hg (r.onBus_eq c ▸ hw) (hquiet (by simp [hw, hmd])) hmd hdr ?_ (by rw [hpend, ht])
      (hnext ▸ hd)
    rw [r.granted_succ, nextGrant_data ht hmd]

end Run

/-- Every input has a run. -/
def Input.run (x : Input n) : Run x where
  state c := (Simulator.next x.settings)^[c] (.init x.traces)
  start := rfl
  step c := by
    have hinv : ∀ c, ∃ gr, Inv x ((Simulator.next x.settings)^[c] (.init x.traces)) gr := by
      intro c
      induction c with
      | zero => exact ⟨none, Inv.init x⟩
      | succ c ih =>
        obtain ⟨gr, h⟩ := ih
        rw [Function.iterate_succ_apply']
        exact ⟨_, h.next⟩
    obtain ⟨gr, h⟩ := hinv c
    rw [Function.iterate_succ_apply']
    exact h.cycle_eq

end CoherenceSim
