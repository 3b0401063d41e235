/-
# A cycle meets no error

`Inv.ready`, `Inv.prReady` and `Inv.mcReady`: at a state with the invariant no part
of a cycle meets an error, so a cycle is `Simulator.next` (`Inv.cycle_eq`).
`Inv.phase`: what the cycle does to the transaction on the bus.
-/
import CoherenceSim.Inv
import CoherenceSim.NodeTick

namespace CoherenceSim

open Features

variable {n : ℕ} {x : Input n} {s : Simulator n Trace} {gr : Option Mreq}

/-- The message on the bus in the cycle that starts at `s`. -/
abbrev Simulator.wire (s : Simulator n Trace) : Option Mreq := s.bus.tick.currentRequest

/-- The request without its DATA on the bus, after a cycle with `cur` on the bus. -/
def nextGrant (gr cur : Option Mreq) : Option Mreq :=
  match cur with
  | none => gr
  | some m => if m.msg = .DATA then none else some m

/-- With nothing on the bus it stays what it was. -/
theorem nextGrant_quiet (ht : s.bus.tick = { s.bus with currentRequest := none }) :
    nextGrant gr s.wire = gr := by
  rw [Simulator.wire, ht]
  rfl

theorem nextGrant_grant {m : Mreq} {q : List Mreq} (ht : s.bus.tick = ⟨some m, q, none, true, false⟩)
    (hmd : m.msg ≠ .DATA) : nextGrant gr s.wire = some m := by
  rw [Simulator.wire, ht]
  exact if_neg hmd

theorem nextGrant_data {d : Mreq} {q : List Mreq} {sh : Bool}
    (ht : s.bus.tick = ⟨some d, q, none, false, sh⟩) (hmd : d.msg = .DATA) :
    nextGrant gr s.wire = none := by
  rw [Simulator.wire, ht]
  exact if_pos hmd

namespace Inv

/-- DATA on the bus is for the node whose request is granted, and about its line. -/
theorem addressed (h : Inv x s gr) {i : Fin n} {st : Stage} {k : ℕ} {l : Char × Paddr}
    (ha : At x s gr i st k l) (hadd : Addressed i s.wire) :
    st = .granted ∧ ∃ d, s.wire = some d ∧ d.msg = .DATA ∧ d.destMid = L1id i ∧ d.addr = lineOf l.2 := by
  obtain ⟨d, hc, hd, hi⟩ := hadd
  rcases h.tick with ⟨_, _, ht⟩ | ⟨m, q, _, hq, ht⟩ | ⟨m, _, _, ht⟩ | ⟨m, d', hg, hdr, ht⟩
  · simp [Simulator.wire, ht] at hc
  · obtain rfl : m = d := by simpa [Simulator.wire, ht] using hc
    obtain ⟨j, _, l', _, rfl⟩ := h.of_queued (m := m) (by simp [hq])
    exact absurd hd (request_ne_DATA _ _)
  · simp [Simulator.wire, ht] at hc
  · obtain rfl : d' = d := by simpa [Simulator.wire, ht] using hc
    obtain ⟨-, hda, hdd⟩ := h.reply m d' hg hdr
    have hsrc : m.srcMid = L1id i := hdd.symm.trans hi
    have hgr := ha.grant
    rw [hg] at hgr
    by_cases hst : st = .granted
    · refine ⟨hst, d', hc, hd, hi, ?_⟩
      obtain rfl : m = x.ask i l := by simpa [Option.filter, hsrc, hst] using hgr
      exact hda
    · simp [Option.filter, hsrc, hst] at hgr

/-- A request on the bus is a GETS or a GETM of a node whose access is in the queue. -/
theorem wire_request (h : Inv x s gr) {m : Mreq} (hc : s.wire = some m) (hd : m.msg ≠ .DATA) :
    gr = none ∧ s.bus.dataReply = none ∧ s.bus.tick.dataReply = none ∧
      s.MC.requestInProgress = false ∧ ∃ i k l, At x s gr i .queued k l ∧ m = x.ask i l := by
  rcases h.tick with ⟨_, _, ht⟩ | ⟨m', q, hg, hq, ht⟩ | ⟨_, _, _, ht⟩ | ⟨m', d', hg, hdr, ht⟩
  · simp [Simulator.wire, ht] at hc
  · obtain rfl : m' = m := by simpa [Simulator.wire, ht] using hc
    exact ⟨hg, (h.free hg).1, by rw [ht], (h.free hg).2, h.of_queued (by simp [hq])⟩
  · simp [Simulator.wire, ht] at hc
  · obtain rfl : d' = m := by simpa [Simulator.wire, ht] using hc
    exact absurd (h.reply m' d' hg hdr).1 hd

/-- The lines of a node after its tick, if there is no DATA for it. -/
theorem procReady (h : Inv x s gr) (i : Fin n) : (s.Nd i).ProcReady x.protocol := by
  intro r hr
  obtain ⟨st, k, l, ha⟩ := h.node i
  have hp := ha.proc
  rw [hr] at hp
  by_cases hst : st = .issued
  · subst hst
    obtain rfl : r = .new (opOf l.1) l.2 (PRid i) := by simpa using hp
    refine ⟨opOf_cases l.1, h.valid i _, ?_, ha.buf⟩
    by_contra hpend
    have := (ha.pending _ (by simpa using hpend)).1
    cases this
  · simp [hst] at hp

/-- What a node answers has a rank above half, before its own request as well. -/
theorem rank_of_reply {f : Features} {i : Fin n} {nd : Node Trace} {cur : Option Mreq}
    (hr : ((nd.procTick f i).reply i cur).isSome) :
    ∃ m, cur = some m ∧ m.msg ≠ .DATA ∧ 2 ≤ ((nd.procTick f i).line m.addr).rank ∧
      2 ≤ (nd.line m.addr).rank := by
  unfold Node.reply at hr
  cases cur with
  | none => cases hr
  | some m =>
    simp only at hr
    split at hr
    · next hc =>
      have h2 : 2 ≤ ((nd.procTick f i).line m.addr).rank := by simpa [supplies] using hc.2
      exact ⟨m, rfl, hc.1, h2, h2.trans (Node.rank_procTick_le f i nd m.addr)⟩
    · cases hr

theorem ready (h : Inv x s gr) : s.tickBus.Ready x.settings where
  proc := h.procReady
  snoop i := by
    intro m hm
    obtain ⟨st, k, l, ha⟩ := h.node i
    refine ⟨fun hd => ?_, fun hd hi => ?_⟩
    · obtain ⟨-, -, hdr, -, j, _, l', _, rfl⟩ := h.wire_request hm hd
      exact ⟨request_cases _ _, Node.valid_procTick i (h.valid i) _, fun _ => hdr⟩
    · obtain ⟨rfl, d, hc, -, -, hda⟩ := h.addressed ha ⟨m, hm, hd, hi⟩
      obtain rfl : d = m := Option.some.inj (hc.symm.trans hm)
      have hnd : (s.Nd i).procTick x.f i = s.Nd i := Node.procTick_none _ i (by simpa using ha.proc)
      show ((s.Nd i).procTick x.f i).PR.inboundRequestBuf = none ∧
        ∃ op, ((s.Nd i).procTick x.f i).line d.addr = _
      rw [hnd, hda]
      exact ⟨ha.buf, _, ha.wait rfl⟩
  one i j hi hj := by
    obtain ⟨m, hm, -, -, hi2⟩ := rank_of_reply hi
    obtain ⟨m', hm', -, -, hj2⟩ := rank_of_reply hj
    obtain rfl : m = m' := Option.some.inj (hm.symm.trans hm')
    have hi3 : 2 ≤ ranks s m.addr i := hi2
    have hj3 : 2 ≤ ranks s m.addr j := hj2
    exact (h.fits m.addr).unique (by omega) (by omega)

/-! ### The bus and the memory controller -/

/-- What the caches answer, they answer to the request on the bus. -/
theorem reply_of_cacheReply {d : Mreq} (hd : s.cacheReply x.settings = some d) :
    ∃ m j, s.wire = some m ∧ m.msg ≠ .DATA ∧ d = replyTo (L1id j) m ∧
      supplies (((s.Nd j).procTick x.f j).line m.addr) = true := by
  obtain ⟨j, -, hj⟩ := List.exists_of_findSome?_eq_some hd
  unfold Node.reply at hj
  cases hc : s.bus.tick.currentRequest with
  | none => simp [hc] at hj
  | some m =>
    rw [hc] at hj
    simp only at hj
    split at hj
    · next hs => exact ⟨m, j, hc, hs.1, (Option.some.inj hj).symm, hs.2⟩
    · cases hj

theorem cacheReply_eq_none (hw : ∀ m, s.wire = some m → m.msg = .DATA) :
    s.cacheReply x.settings = none := by
  by_contra hne
  obtain ⟨d, hd⟩ := Option.ne_none_iff_exists'.mp hne
  obtain ⟨m, -, hm, hmd, -⟩ := reply_of_cacheReply hd
  exact hmd (hw m hm)

/-- What a cycle does on the bus and in the memory controller: nothing; a grant;
a cycle of waiting, in which the memory may answer; the DATA. -/
inductive Phase (x : Input n) (s : Simulator n Trace) (gr : Option Mreq) : Prop
  | rest (hg : gr = none) (hq : s.bus.pendingRequests = [])
      (ht : s.bus.tick = { s.bus with currentRequest := none })
      (hd : (s.next x.settings).bus.dataReply = none) (hm : (s.next x.settings).MC = s.MC)
  | grant (m : Mreq) (q : List Mreq) (hg : gr = none) (hq : s.bus.pendingRequests = m :: q)
      (hmd : m.msg ≠ .DATA) (ht : s.bus.tick = ⟨some m, q, none, true, false⟩)
      (hd : (s.next x.settings).bus.dataReply = s.cacheReply x.settings)
      (hm : (s.next x.settings).MC = ⟨true, s.globalClock + x.hitTime, m.addr, m.srcMid⟩)
  | hold (m : Mreq) (hg : gr = some m) (hdr : s.bus.dataReply = none)
      (ht : s.bus.tick = { s.bus with currentRequest := none })
      (hd : (s.next x.settings).bus.dataReply =
        if s.MC.dataTime ≤ s.globalClock then some (s.MC.answer n) else none)
      (hm : (s.next x.settings).MC =
        if s.MC.dataTime ≤ s.globalClock then { s.MC with requestInProgress := false } else s.MC)
  | data (m d : Mreq) (hg : gr = some m) (hdr : s.bus.dataReply = some d) (hmd : d.msg = .DATA)
      (ht : s.bus.tick = ⟨some d, s.bus.pendingRequests, none, false, s.bus.sharedLine⟩)
      (hd : (s.next x.settings).bus.dataReply = none)
      (hm : (s.next x.settings).MC = { s.MC with requestInProgress := false })

theorem phase (h : Inv x s gr) : Phase x s gr := by
  rcases h.tick with ⟨hg, hq, ht⟩ | ⟨m, q, hg, hq, ht⟩ | ⟨m, hg, hdr, ht⟩ | ⟨m, d, hg, hdr, ht⟩
  · obtain ⟨hd, hm⟩ := h.free hg
    have hl : s.looked x.settings = s.MC := by simp [Simulator.looked, MemoryController.see, ht]
    have hf : ¬ (s.looked x.settings).fires s.globalClock := by simp [hl, MemoryController.fires, hm]
    have hr := cacheReply_eq_none (x := x) (s := s) (by simp [Simulator.wire, ht])
    exact .rest hg hq ht (by rw [Simulator.next_dataReply, if_neg hf, hr, ht, hd]; rfl)
      (by rw [Simulator.next_MC, if_neg hf, hl])
  · have hmd : m.msg ≠ .DATA := by
      obtain ⟨_, _, _, -, rfl⟩ := h.of_queued (m := m) (by simp [hq])
      exact request_ne_DATA _ _
    have hl : s.looked x.settings = ⟨true, s.globalClock + x.hitTime, m.addr, m.srcMid⟩ := by
      simp [Simulator.looked, MemoryController.see, ht, hmd]
    have hf : ¬ (s.looked x.settings).fires s.globalClock := by
      have := x.hitTime_pos
      simp only [hl, MemoryController.fires]
      omega
    exact .grant m q hg hq hmd ht (by rw [Simulator.next_dataReply, if_neg hf, ht]; simp)
      (by rw [Simulator.next_MC, if_neg hf, hl])
  · obtain ⟨hm, -⟩ := h.lookup m hg hdr
    have hl : s.looked x.settings = s.MC := by simp [Simulator.looked, MemoryController.see, ht]
    have hf : s.MC.fires s.globalClock ↔ s.MC.dataTime ≤ s.globalClock := by
      simp [MemoryController.fires, hm]
    have hr := cacheReply_eq_none (x := x) (s := s) (by simp [Simulator.wire, ht])
    apply Phase.hold m hg hdr ht
    · simp only [Simulator.next_dataReply, hl, hf, hr, ht, hdr, Option.or_none]
    · simp only [Simulator.next_MC, hl, hf]
  · have hmd := (h.reply m d hg hdr).1
    have hl : s.looked x.settings = { s.MC with requestInProgress := false } := by
      simp [Simulator.looked, MemoryController.see, ht, hmd]
    have hf : ¬ (s.looked x.settings).fires s.globalClock := by simp [hl, MemoryController.fires]
    have hr := cacheReply_eq_none (x := x) (s := s) (by simp [Simulator.wire, ht, hmd])
    exact .data m d hg hdr hmd ht (by rw [Simulator.next_dataReply, if_neg hf, hr, ht]; rfl)
      (by rw [Simulator.next_MC, if_neg hf, hl])

/-! ### The cycle meets no error -/

theorem prReady (h : Inv x s gr) (i : Fin n) : ((s.afterCaches x.settings).Nd i).PrReady := by
  obtain ⟨st, k, l, ha⟩ := h.node i
  obtain ⟨b, hb⟩ := Node.PR_cacheTick x.f i s.wire s.bus.tick.sharedLine (s.Nd i)
  have hPR : ((s.afterCaches x.settings).Nd i).PR = { (s.Nd i).PR with inboundRequestBuf := b } := by
    rw [← hb]
    simp only [Simulator.afterCaches, Simulator.sync, List.mem_finRange, if_true]
    rfl
  refine ⟨fun d hd => ?_, fun l' hl' => ?_⟩
  · rw [hPR] at hd
    have hin : some d = _ := Eq.trans hd.symm ha.inbound
    split at hin
    · rw [Option.some.inj hin]; rfl
    · cases hin
  · rw [hPR] at hl'
    have hmem : l' ∈ (s.Nd i).PR.infile := hl'
    rw [ha.infile] at hmem
    exact x.wellFormed i l' (List.mem_of_mem_drop hmem)

/-- The memory answers only while DATA is awaited. -/
theorem fires_hold (h : Inv x s gr) (hf : (s.looked x.settings).fires s.globalClock) :
    ∃ m, gr = some m ∧ s.bus.dataReply = none ∧ s.bus.tick = { s.bus with currentRequest := none } := by
  have hdr := Simulator.next_dataReply x.settings s
  have hmc := Simulator.next_MC x.settings s
  rw [if_pos hf] at hdr hmc
  cases h.phase with
  | rest _ _ _ hd => rw [hd] at hdr; cases hdr
  | grant _ _ _ _ _ _ _ hm =>
    rw [hm] at hmc
    exact absurd (congrArg MemoryController.requestInProgress hmc) (by simp)
  | hold m hg hn ht => exact ⟨m, hg, hn, ht⟩
  | data _ _ _ _ _ _ hd => rw [hd] at hdr; cases hdr

theorem mcReady (h : Inv x s gr) : (s.afterCaches x.settings).McReady x.settings := by
  refine ⟨fun m hm hd => ?_, fun hf => ?_⟩
  · exact (h.wire_request hm hd).2.2.2.1
  · obtain ⟨m, -, hn, ht⟩ := h.fires_hold hf
    show (s.cacheReply x.settings).or s.bus.tick.dataReply = none
    rw [cacheReply_eq_none (by simp [Simulator.wire, ht]), ht]
    exact hn

/-- **A cycle meets no error.** -/
theorem cycle_eq (h : Inv x s gr) : s.cycle x.settings = .ok (s.next x.settings) :=
  Simulator.cycle_eq_next x.settings h.ready h.prReady h.mcReady

end Inv

end CoherenceSim
