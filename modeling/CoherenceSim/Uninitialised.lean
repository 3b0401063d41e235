/-
# Runs and uninitialised memory

The constructors leave `outstanding_request`, `proc_request` and `data_addr` unset. What a
run shows of itself (`Simulator.observe`) does not depend on `data_addr`, which is written
before it is read, nor on who has made the request in `proc_request` (`sameRun_of_agrees`).
It does on the rest of the two others, which are read in the first cycle: from a clean memory
a run shows what it does from another one only if that is clean too (`agrees_of_clean`).
-/
import CoherenceSim.Log

namespace CoherenceSim

open Features

variable {n : ℕ}

/-! ### What a run shows -/

/-- What a cycle does: the message `Bus::tick` puts on the bus, a request it grants or
DATA; the lines the processors fetch; the DATA they complete an access with; and the
DATA that is sent. -/
structure CycleLog (n : ℕ) where
  onBus : Option Mreq
  fetched : Fin n → Option (Char × Paddr)
  completed : Fin n → Option Mreq
  replied : Option Mreq

namespace Simulator

/-- The log of the cycle that leads from `s` to `t`. -/
def cycleLog (s t : Simulator n Trace) : CycleLog n where
  onBus := s.bus.tick.currentRequest
  fetched i := if (t.Nd i).PR.infile.length < (s.Nd i).PR.infile.length
    then (s.Nd i).PR.infile.head? else none
  completed i := (s.Nd i).PR.inboundRequest
  replied := t.bus.dataReply

/-- `Simulator::run` for at most so many cycles: the log of each, and the final clock and
counters if the loop has ended by then. -/
def observe (S : Settings) : ℕ → Simulator n Trace →
    List (CycleLog n) × Except Fatal (Option (ℕ × Stats))
  | 0, _ => ([], .ok none)
  | fuel + 1, s =>
    match s.cycle S with
    | .error e => ([], .error e)
    | .ok t =>
      if t.done then ([s.cycleLog t], .ok (some (t.globalClock, t.stats)))
      else (s.cycleLog t :: (observe S fuel t).1, (observe S fuel t).2)

/-- Its end is that of `run`. -/
theorem observe_snd (S : Settings) (fuel : ℕ) (s : Simulator n Trace) : (s.observe S fuel).2 =
    (s.run S fuel).map (Option.map fun t => (t.globalClock, t.stats)) := by
  induction fuel generalizing s with
  | zero => rfl
  | succ fuel ih =>
    unfold observe run
    cases hc : s.cycle S with
    | error e => rfl
    | ok t =>
      show _ = Except.map _ (if t.done then _ else t.run S fuel)
      simp only
      split
      · rfl
      · exact ih t

/-- The runs from two states show the same. -/
def SameFrom (S : Settings) (s s' : Simulator n Trace) : Prop :=
  ∀ fuel, s.observe S fuel = s'.observe S fuel

variable {S : Settings} {s s' t t' : Simulator n Trace}

theorem observe_error {e : Fatal} (h : s.cycle S = .error e) (fuel : ℕ) :
    s.observe S (fuel + 1) = ([], .error e) := by
  rw [observe, h]

theorem observe_done (h : s.cycle S = .ok t) (hd : t.done = true) (fuel : ℕ) :
    s.observe S (fuel + 1) = ([s.cycleLog t], .ok (some (t.globalClock, t.stats))) := by
  rw [observe, h]
  simp only [hd, if_true]

theorem observe_not_done (h : s.cycle S = .ok t) (hd : t.done = false) (fuel : ℕ) :
    s.observe S (fuel + 1) = (s.cycleLog t :: (t.observe S fuel).1, (t.observe S fuel).2) := by
  rw [observe, h]
  simp only [hd, Bool.false_eq_true, if_false]

/-- **One cycle of two runs that show the same.** -/
theorem SameFrom.cycle (h : SameFrom S s s') (ht : s.cycle S = .ok t) :
    ∃ t', s'.cycle S = .ok t' ∧ s'.cycleLog t' = s.cycleLog t ∧ t'.done = t.done ∧
      (t.done = true → t'.stats = t.stats) ∧ (t.done = false → SameFrom S t t') := by
  have hone := h 1
  cases ht' : s'.cycle S with
  | error e =>
    rw [observe_error ht'] at hone
    cases hd : t.done with
    | true => rw [observe_done ht hd] at hone; cases hone
    | false => rw [observe_not_done ht hd] at hone; cases hone
  | ok t' =>
    refine ⟨t', rfl, ?_⟩
    cases hd : t.done with
    | true =>
      rw [observe_done ht hd] at hone
      cases hd' : t'.done with
      | true =>
        rw [observe_done ht' hd'] at hone
        obtain ⟨hlog, hend⟩ := Prod.mk.inj hone
        obtain ⟨-, hstats⟩ := Prod.mk.inj (Option.some.inj (Except.ok.inj hend))
        exact ⟨(List.cons.inj hlog).1.symm, rfl, fun _ => hstats.symm, (nomatch ·)⟩
      | false =>
        rw [observe_not_done ht' hd'] at hone
        cases (Prod.mk.inj hone).2
    | false =>
      rw [observe_not_done ht hd] at hone
      cases hd' : t'.done with
      | true =>
        rw [observe_done ht' hd'] at hone
        cases (Prod.mk.inj hone).2
      | false =>
        rw [observe_not_done ht' hd'] at hone
        refine ⟨(List.cons.inj (Prod.mk.inj hone).1).1.symm, rfl, (nomatch ·), fun _ fuel => ?_⟩
        have hmore := h (fuel + 1)
        rw [observe_not_done ht hd, observe_not_done ht' hd'] at hmore
        obtain ⟨hlog, hend⟩ := Prod.mk.inj hmore
        exact Prod.ext (List.cons.inj hlog).2 hend

/-! ### The address of the memory controller -/

/-- With another memory controller. -/
def withMC (mc : MemoryController) (s : Simulator n Trace) : Simulator n Trace := { s with MC := mc }

theorem tickCache_withMC (mc : MemoryController) (s : Simulator n Trace) (i : Fin n) :
    (s.withMC mc).tickCache S i = (s.tickCache S i).map (withMC mc) :=
  tickCache_mapNd S .id (fun _ => mc) s i

theorem tickPr_withMC (mc : MemoryController) (s : Simulator n Trace) (i : Fin n) :
    (s.withMC mc).tickPr i = (s.tickPr i).map (withMC mc) := by
  unfold tickPr
  have hnd : (s.withMC mc).Nd i = s.Nd i := rfl
  rw [hnd]
  cases (s.Nd i).PR.complete with
  | error e => rfl
  | ok pr =>
    show (Node.fetch { s.Nd i with PR := pr } i >>= fun nd => pure ((s.withMC mc).setNode i nd)) =
      Except.map (withMC mc) (Node.fetch { s.Nd i with PR := pr } i >>= fun nd => pure (s.setNode i nd))
    cases Node.fetch { s.Nd i with PR := pr } i <;> rfl

/-- Until the memory controller ticks nothing sees it. -/
theorem beforeMc_withMC (mc : MemoryController) (s : Simulator n Trace) :
    (s.withMC mc).beforeMc S = (s.beforeMc S).map (withMC mc) := by
  have hcaches := Loop.foldlM_map (tickCache_withMC (S := S) mc) (List.finRange n) s.tickBus
  unfold beforeMc
  show ((s.tickBus.withMC mc).tickCaches S (List.finRange n) >>= fun s => _) = _
  rw [show (s.tickBus.withMC mc).tickCaches S (List.finRange n) = _ from hcaches]
  show (Except.map (withMC mc) (s.tickBus.tickCaches S (List.finRange n)) >>= fun s => _) = _
  cases s.tickBus.tickCaches S (List.finRange n) with
  | error e => rfl
  | ok t => exact Loop.foldlM_map (tickPr_withMC mc) (List.finRange n) t

theorem beforeMc_MC (h : s.beforeMc S = .ok t) : t.MC = s.MC := by
  have hself := beforeMc_withMC (S := S) s.MC s
  rw [show s.withMC s.MC = s from rfl, h] at hself
  rw [Except.ok.inj hself]
  rfl

theorem cycle_eq_beforeMc (s : Simulator n Trace) : s.cycle S = (do
    let s ← s.beforeMc S
    let s ← s.tickMc S
    let s := s.tockPrs (List.finRange n)
    return { s with globalClock := s.globalClock + 1 }) := by
  unfold cycle beforeMc
  rw [bind_assoc]

/-- The states are the same but for the address of a memory controller that looks nothing
up. -/
def SameButAddr (s s' : Simulator n Trace) : Prop :=
  ∃ a, s' = s.withMC { s.MC with dataAddr := a } ∧ (s.MC.requestInProgress = true → a = s.MC.dataAddr)

theorem SameButAddr.refl (s : Simulator n Trace) : SameButAddr s s := ⟨s.MC.dataAddr, rfl, fun _ => rfl⟩

/-- Two steps that fail alike or lead to states that are the same but for that address. -/
def AlikeButAddr (a b : Except Fatal (Simulator n Trace)) : Prop :=
  (∃ t t', a = .ok t ∧ b = .ok t' ∧ SameButAddr t t') ∨ ∃ e, a = .error e ∧ b = .error e

theorem AlikeButAddr.refl (a : Except Fatal (Simulator n Trace)) : AlikeButAddr a a := by
  cases a with
  | error e => exact Or.inr ⟨e, rfl, rfl⟩
  | ok t => exact Or.inl ⟨t, t, rfl, rfl, .refl t⟩

/-- **A lookup writes the address before it is read.** -/
theorem SameButAddr.tickMc (h : SameButAddr s s') : AlikeButAddr (s.tickMc S) (s'.tickMc S) := by
  obtain ⟨a, rfl, ha⟩ := h
  cases hrip : s.MC.requestInProgress with
  | true =>
    rw [ha hrip]
    exact .refl _
  | false =>
    set mc : MemoryController := { s.MC with dataAddr := a } with hmc
    have hidle : ∀ mc : MemoryController, mc.requestInProgress = false → ∀ t : Simulator n Trace,
        t.MC.snoop S t.globalClock t.bus.busSnoop = .ok mc → t.tickMc S = .ok (t.withMC mc) := by
      intro mc hm t ht
      unfold Simulator.tickMc
      rw [ht]
      show (if mc.requestInProgress = true ∧ mc.dataTime ≤ t.globalClock then _ else _) = _
      rw [if_neg fun hf => by rw [hm] at hf; cases hf.1]
      rfl
    cases hc : s.bus.busSnoop with
    | none =>
      have hs := hidle s.MC hrip s (by rw [hc]; rfl)
      have hs' := hidle mc hrip (s.withMC mc) (by rw [show (s.withMC mc).bus.busSnoop = _ from hc]; rfl)
      exact Or.inl ⟨_, _, hs, hs', a, rfl, fun hf => absurd (hrip.symm.trans hf) (by decide)⟩
    | some m =>
      by_cases hd : m.msg = .DATA
      · have hs := hidle { s.MC with requestInProgress := false } rfl s
          (by rw [hc]; simp [MemoryController.snoop, hd])
        have hs' := hidle { mc with requestInProgress := false } rfl (s.withMC mc)
          (by rw [show (s.withMC mc).bus.busSnoop = _ from hc]; simp [MemoryController.snoop, hd, withMC])
        exact Or.inl ⟨_, _, hs, hs', a, rfl, fun hf => nomatch hf⟩
      · -- a request overwrites all that the controller holds
        have hsnoop : ∀ mc : MemoryController, mc.requestInProgress = false →
            mc.snoop S s.globalClock s.bus.busSnoop =
              .ok ⟨true, s.globalClock + S.hitTime, m.addr, m.srcMid⟩ := by
          intro mc hm
          simp [MemoryController.snoop, hc, hd, hm]
        have hsame : (s.withMC mc).tickMc S = s.tickMc S := by
          unfold Simulator.tickMc
          rw [show (s.withMC mc).MC.snoop S (s.withMC mc).globalClock (s.withMC mc).bus.busSnoop = _ from
            hsnoop mc hrip, hsnoop s.MC hrip]
          rfl
        rw [hsame]
        exact .refl _

/-- And so does a cycle. -/
theorem SameButAddr.cycle (h : SameButAddr s s') : AlikeButAddr (s.cycle S) (s'.cycle S) := by
  obtain ⟨a, rfl, ha⟩ := h
  rw [cycle_eq_beforeMc, cycle_eq_beforeMc, beforeMc_withMC]
  cases hb : s.beforeMc S with
  | error e => exact Or.inr ⟨e, rfl, rfl⟩
  | ok t =>
    have hMC := beforeMc_MC hb
    have hsame : SameButAddr t (t.withMC { s.MC with dataAddr := a }) := by
      rw [← hMC] at ha ⊢
      exact ⟨a, rfl, ha⟩
    show AlikeButAddr (t.tickMc S >>= fun s => _) ((t.withMC { s.MC with dataAddr := a }).tickMc S >>=
      fun s => _)
    rcases hsame.tickMc (S := S) with ⟨v, v', hv, hv', b, rfl, hb'⟩ | ⟨e, he, he'⟩
    · rw [hv, hv']
      refine Or.inl ⟨_, _, rfl, rfl, b, ?_, ?_⟩
      · simp only [tockPrs_eq]
        rfl
      · simp only [tockPrs_eq]
        exact hb'
    · rw [he, he']
      exact Or.inr ⟨e, rfl, rfl⟩

theorem SameButAddr.sameFrom (h : SameButAddr s s') : SameFrom S s s' := by
  intro fuel
  induction fuel generalizing s s' with
  | zero => rfl
  | succ fuel ih =>
    have hlog : ∀ t t' : Simulator n Trace, SameButAddr t t' → s'.cycleLog t' = s.cycleLog t := by
      obtain ⟨a, rfl, -⟩ := h
      rintro t _ ⟨b, rfl, -⟩
      rfl
    rcases h.cycle (S := S) with ⟨t, t', ht, ht', htt⟩ | ⟨e, he, he'⟩
    · have hsame := hlog t t' htt
      have hmore := ih htt
      obtain ⟨b, rfl, -⟩ := htt
      cases hd : t.done with
      | true => rw [observe_done ht hd, observe_done ht' hd, hsame]; rfl
      | false => rw [observe_not_done ht hd, observe_not_done ht' hd, hsame, hmore]
    · rw [observe_error he, observe_error he']

end Simulator

/-! ### What a cache reads of a request -/

/-- What a protocol takes an operation for: MI takes a load for a store. -/
def Features.takes (f : Features) (op : Message) : Message :=
  if op = .LOAD ∧ f.shared = false then .STORE else op

/-- A request of the processor without what its cache does not look at: who has made it, and
for whom. -/
def Protocol.taken (p : Protocol) (m : Mreq) : Mreq :=
  ⟨p.features.takes m.msg, m.addr, .invalid, .invalid⟩

theorem processCacheRequest_taken (p : Protocol) (me : ModuleID) (m : Mreq) :
    processCacheRequest p me (p.taken m) = processCacheRequest p me m := by
  obtain ⟨msg, addr, src, dest⟩ := m
  cases p <;> cases msg <;> rfl

/-- The node with the request that waits in its cache cut down to this. -/
def Node.taken (p : Protocol) (nd : Node Trace) : Node Trace :=
  { nd with L1 := { nd.L1 with procRequest := nd.L1.procRequest.map p.taken } }

theorem Node.taken_of_none {p : Protocol} {nd : Node Trace} (h : nd.L1.procRequest = none) : nd.taken p = nd := by
  obtain ⟨⟨proc, entries⟩, PR⟩ := nd
  obtain rfl : proc = none := h
  rfl

namespace Simulator

variable {S : Settings} {s t : Simulator n Trace} {i j : Fin n}

/-- The state with such nodes. -/
def taken (p : Protocol) (s : Simulator n Trace) : Simulator n Trace := s.mapNd (Node.taken p) id

theorem withEntry_ok {a : Paddr} {code : Action Unit} (h : s.withEntry i a code = .ok t) :
    ∃ c, code.run ⟨(s.Nd i).line a, s.bus, (s.Nd i).PR.inboundRequestBuf, s.stats⟩ = .ok ((), c) ∧
      t = { s.setNode i { (s.Nd i).setLine a c.state with
          PR := { (s.Nd i).PR with inboundRequestBuf := c.inboundRequestBuf } } with
        bus := c.bus, stats := c.stats } := by
  cases hc : code.run ⟨(s.Nd i).line a, s.bus, (s.Nd i).PR.inboundRequestBuf, s.stats⟩ with
  | error e =>
    rw [withEntry_error hc] at h
    cases h
  | ok r =>
    obtain ⟨⟨⟩, c⟩ := r
    rw [withEntry_eq hc] at h
    exact ⟨c, rfl, (Except.ok.inj h).symm⟩

theorem withEntry_taken (p : Protocol) (s : Simulator n Trace) (i : Fin n) (a : Paddr) (code : Action Unit) :
    (s.taken p).withEntry i a code = (s.withEntry i a code).map (taken p) := by
  cases h : code.run ⟨(s.Nd i).line a, s.bus, (s.Nd i).PR.inboundRequestBuf, s.stats⟩ with
  | error e =>
    rw [withEntry_error h, withEntry_error (s := s.taken p) h]
    rfl
  | ok r =>
    obtain ⟨⟨⟩, c⟩ := r
    rw [withEntry_eq h, withEntry_eq (s := s.taken p) h]
    refine congrArg Except.ok (Simulator.ext rfl rfl ?_ rfl rfl)
    funext j
    rw [setNode_Nd]
    show _ = Node.taken p (if j = i then _ else s.Nd j)
    split <;> rfl

theorem tickProcRequest_taken (s : Simulator n Trace) (i : Fin n) :
    (s.taken S.protocol).tickProcRequest S i = (s.tickProcRequest S i).map (taken S.protocol) := by
  have hproc : ((s.taken S.protocol).Nd i).L1.procRequest =
      (s.Nd i).L1.procRequest.map S.protocol.taken := rfl
  unfold tickProcRequest
  rw [hproc]
  cases (s.Nd i).L1.procRequest with
  | none => rfl
  | some r =>
    set u : Simulator n Trace := { s with stats := { s.stats with cacheAccesses := s.stats.cacheAccesses + 1 } }
    show ((u.taken S.protocol).withEntry i r.addr
        (processCacheRequest S.protocol (L1id i) (S.protocol.taken r)) >>= fun s => _) =
      Except.map _ (u.withEntry i r.addr (processCacheRequest S.protocol (L1id i) r) >>= fun s => _)
    rw [processCacheRequest_taken, withEntry_taken]
    cases u.withEntry i r.addr (processCacheRequest S.protocol (L1id i) r) with
    | error e => rfl
    | ok v =>
      refine congrArg Except.ok (Eq.trans ?_ (mapNd_setNode id v i _).symm)
      rfl

theorem tickCache_taken (s : Simulator n Trace) (i : Fin n) :
    (s.taken S.protocol).tickCache S i = (s.tickCache S i).map (taken S.protocol) := by
  have hbus : ∀ t : Simulator n Trace, (t.taken S.protocol).tickSnoop S i =
      (t.tickSnoop S i).map (taken S.protocol) := by
    intro t
    unfold tickSnoop
    rw [show (t.taken S.protocol).bus.busSnoop = t.bus.busSnoop from rfl]
    cases t.bus.busSnoop with
    | none => rfl
    | some m =>
      simp only
      split
      · rfl
      · exact withEntry_taken _ t i m.addr _
  unfold tickCache
  rw [tickProcRequest_taken]
  cases s.tickProcRequest S i with
  | error e => rfl
  | ok t => exact hbus t

theorem tickProcRequest_other (h : s.tickProcRequest S i = .ok t) (hj : j ≠ i) : t.Nd j = s.Nd j := by
  unfold tickProcRequest at h
  split at h
  · obtain ⟨w, hw, h⟩ := Loop.bind_eq_ok h
    obtain ⟨c, -, rfl⟩ := withEntry_ok hw
    rw [← Except.ok.inj h]
    simp [setNode, hj]
  · rw [← Except.ok.inj h]

theorem tickSnoop_other (h : s.tickSnoop S i = .ok t) (hj : j ≠ i) : t.Nd j = s.Nd j := by
  unfold tickSnoop at h
  split at h
  · split at h
    · rw [← Except.ok.inj h]
    · obtain ⟨c, -, rfl⟩ := withEntry_ok h
      simp [setNode, hj]
  · rw [← Except.ok.inj h]

/-- The tick of a cache leaves the other nodes alone. -/
theorem tickCache_other (h : s.tickCache S i = .ok t) (hj : j ≠ i) : t.Nd j = s.Nd j := by
  obtain ⟨v, hv, h⟩ := Loop.bind_eq_ok h
  exact (tickSnoop_other h hj).trans (tickProcRequest_other hv hj)

/-- And nothing waits in the cache after it. -/
theorem tickCache_procRequest (h : s.tickCache S i = .ok t) : (t.Nd i).L1.procRequest = none := by
  obtain ⟨v, hv, h⟩ := Loop.bind_eq_ok h
  have hproc : (v.Nd i).L1.procRequest = none := by
    unfold tickProcRequest at hv
    split at hv
    · obtain ⟨w, -, hv⟩ := Loop.bind_eq_ok hv
      rw [← Except.ok.inj hv, setNode_Nd, if_pos rfl]
    · next hnone => rwa [← Except.ok.inj hv]
  unfold tickSnoop at h
  split at h
  · split at h
    · rwa [← Except.ok.inj h]
    · obtain ⟨c, -, rfl⟩ := withEntry_ok h
      simpa [setNode] using hproc
  · rwa [← Except.ok.inj h]

theorem tickCaches_other {l : List (Fin n)} (h : s.tickCaches S l = .ok t) (hi : i ∉ l) : t.Nd i = s.Nd i :=
  Loop.foldlM_preserves (P := fun a => a.Nd i = s.Nd i)
    (fun _ _ j hj hP hf => by
      have hij : i ≠ j := fun he => hi (he ▸ hj)
      rw [tickCache_other hf hij, hP]) h rfl

/-- Of the ticks of the caches, node `i` changes in its own. -/
theorem tickCaches_at (h : s.tickCaches S (List.finRange n) = .ok t) (i : Fin n) :
    ∃ a b : Simulator n Trace, a.Nd i = s.Nd i ∧ a.tickCache S i = .ok b ∧ t.Nd i = b.Nd i := by
  obtain ⟨l, k, hl⟩ := List.append_of_mem (List.mem_finRange i)
  have hnodup := List.nodup_finRange n
  rw [hl] at hnodup
  obtain ⟨-, hk, hlk⟩ := List.nodup_append.mp hnodup
  rw [tickCaches, hl, List.foldlM_append] at h
  obtain ⟨a, ha, h⟩ := Loop.bind_eq_ok h
  rw [List.foldlM_cons] at h
  obtain ⟨b, hb, h⟩ := Loop.bind_eq_ok h
  exact ⟨a, b, tickCaches_other ha fun hi => hlk i hi i (by simp) rfl, hb,
    tickCaches_other h (List.nodup_cons.mp hk).1⟩

theorem tickCaches_procRequest (h : s.tickCaches S (List.finRange n) = .ok t) (i : Fin n) :
    (t.Nd i).L1.procRequest = none := by
  obtain ⟨a, b, -, hb, ht⟩ := tickCaches_at h i
  rw [ht]
  exact tickCache_procRequest hb

/-- **A cycle depends on no more of the requests that wait.** -/
theorem cycle_taken (s : Simulator n Trace) : (s.taken S.protocol).cycle S = s.cycle S := by
  have hcaches : (s.taken S.protocol).tickBus.tickCaches S (List.finRange n) =
      (s.tickBus.tickCaches S (List.finRange n)).map (taken S.protocol) :=
    Loop.foldlM_map tickCache_taken (List.finRange n) s.tickBus
  unfold cycle
  rw [hcaches]
  cases ht : s.tickBus.tickCaches S (List.finRange n) with
  | error e => rfl
  | ok t =>
    have hself : t.taken S.protocol = t := by
      refine Simulator.ext rfl rfl ?_ rfl rfl
      funext i
      exact Node.taken_of_none (tickCaches_procRequest ht i)
    rw [show Except.map (taken S.protocol) (Except.ok t : Except Fatal _) = .ok t from congrArg _ hself]

theorem sameFrom_taken (s : Simulator n Trace) : SameFrom S s (s.taken S.protocol) := by
  rintro (_ | fuel)
  · rfl
  · rw [observe, observe, cycle_taken]
    rfl

end Simulator

/-! ### Memory that is not clean -/

/-- The runs from memory that holds `u` and from memory that holds `u'`. -/
def SameRun (x : Input n) (u u' : Simulator.Unset n) : Prop :=
  Simulator.SameFrom x.settings (.build u x.traces) (.build u' x.traces)

namespace Simulator.Unset

/-- The two hold the same where it is read: of a request that waits in a cache, the operation
and the address. -/
def Agrees (p : Protocol) (u u' : Unset n) : Prop :=
  ∀ i, u.outstandingRequest i = u'.outstandingRequest i ∧
    (u.procRequest i).map p.taken = (u'.procRequest i).map p.taken

/-- No request is outstanding, and none waits in a cache. -/
def Clean (u : Unset n) : Prop := ∀ i, u.outstandingRequest i = false ∧ u.procRequest i = none

end Simulator.Unset

variable {x : Input n} {u u' : Simulator.Unset n}

theorem sameRun_of_agrees (h : u.Agrees x.protocol u') : SameRun x u u' := by
  have hsame : Simulator.SameButAddr ((Simulator.build u x.traces).taken x.protocol)
      ((Simulator.build u' x.traces).taken x.protocol) := by
    refine ⟨u'.dataAddr, Simulator.ext rfl rfl ?_ rfl rfl, fun hf => nomatch hf⟩
    funext i
    simp only [Simulator.taken, Simulator.mapNd, Simulator.withMC, Simulator.build, Node.taken, (h i).1, (h i).2]
  intro fuel
  exact (Simulator.sameFrom_taken (S := x.settings) _ fuel).trans
    ((hsame.sameFrom fuel).trans (Simulator.sameFrom_taken (S := x.settings) _ fuel).symm)

/-! ### A request that is outstanding from the start -/

/-- A line that waits for nothing takes nothing from the bus, and goes on so. -/
theorem processSnoopRequest_keeps {p : Protocol} {me : ModuleID} {r : Mreq} {c c' : Ctx}
    (hp : c.state.pending = false) (h : (processSnoopRequest p me r).run c = .ok ((), c')) :
    c'.state.pending = false ∧ c'.inboundRequestBuf = c.inboundRequestBuf := by
  obtain ⟨msg, addr, src, dest⟩ := r
  obtain ⟨st, ⟨cur, q, dr, rip, sh⟩, buf, stats⟩ := c
  simp only at hp
  cases p <;> cases st <;> first | (cases hp; done) | (cases msg <;> cases dr <;>
    first | (cases h; done) | (cases h; exact ⟨rfl, rfl⟩))

/-- The processor waits for an access that its cache knows nothing of. -/
structure Node.Stuck (nd : Node Trace) : Prop where
  procRequest : nd.L1.procRequest = none
  lines : ∀ a, (nd.line a).pending = false
  outstandingRequest : nd.PR.outstandingRequest = true
  endOfTrace : nd.PR.endOfTrace = false
  inboundRequest : nd.PR.inboundRequest = none
  inboundRequestBuf : nd.PR.inboundRequestBuf = none

namespace Simulator

variable {S : Settings} {s t : Simulator n Trace} {i j : Fin n}

theorem tickSnoop_stuck (h : s.tickSnoop S i = .ok t) (hs : (s.Nd i).Stuck) : (t.Nd i).Stuck := by
  unfold tickSnoop at h
  split at h
  · next m _ =>
    split at h
    · rwa [← Except.ok.inj h]
    · obtain ⟨c, hc, rfl⟩ := withEntry_ok h
      obtain ⟨hp, hb⟩ := processSnoopRequest_keeps (hs.lines m.addr) hc
      have hnd : ∀ (bus : Bus) (stats : Stats), ({ s.setNode i { (s.Nd i).setLine m.addr c.state with
          PR := { (s.Nd i).PR with inboundRequestBuf := c.inboundRequestBuf } } with
          bus := bus, stats := stats } : Simulator n Trace).Nd i = { (s.Nd i).setLine m.addr c.state with
          PR := { (s.Nd i).PR with inboundRequestBuf := c.inboundRequestBuf } } := by
        intro bus stats
        simp [setNode]
      rw [hnd]
      exact { procRequest := hs.procRequest
              lines := by
                intro a
                have hline := Node.line_setLine (s.Nd i) m.addr a c.state
                show (((s.Nd i).setLine m.addr c.state).line a).pending = false
                rw [hline]
                split
                · exact hp
                · exact hs.lines a
              outstandingRequest := hs.outstandingRequest
              endOfTrace := hs.endOfTrace
              inboundRequest := hs.inboundRequest
              inboundRequestBuf := hb.trans hs.inboundRequestBuf }
  · rwa [← Except.ok.inj h]

theorem tickCache_stuck (h : s.tickCache S j = .ok t) (hs : (s.Nd i).Stuck) : (t.Nd i).Stuck := by
  by_cases hij : i = j
  · subst hij
    have hp : s.tickProcRequest S i = .ok s := by
      unfold tickProcRequest
      rw [hs.procRequest]
      rfl
    obtain ⟨v, hv, h⟩ := Loop.bind_eq_ok h
    obtain rfl : s = v := Except.ok.inj (hp.symm.trans hv)
    exact tickSnoop_stuck h hs
  · rwa [tickCache_other h hij]

theorem tickPr_stuck (h : s.tickPr j = .ok t) (hs : (s.Nd i).Stuck) : (t.Nd i).Stuck := by
  unfold tickPr at h
  by_cases hij : i = j
  · subst hij
    have hc : (s.Nd i).PR.complete = .ok (s.Nd i).PR := by
      unfold Processor.complete
      rw [hs.inboundRequest]
    have hf : (s.Nd i).fetch i = .ok (s.Nd i) := by
      unfold Node.fetch
      rw [hs.outstandingRequest, Bool.or_true, if_pos rfl]
    obtain ⟨pr, hpr, h⟩ := Loop.bind_eq_ok h
    obtain rfl : (s.Nd i).PR = pr := Except.ok.inj (hc.symm.trans hpr)
    obtain ⟨nd, hnd, h⟩ := Loop.bind_eq_ok h
    obtain rfl : s.Nd i = nd := Except.ok.inj (hf.symm.trans hnd)
    rwa [← Except.ok.inj h, setNode_self]
  · obtain ⟨pr, -, h⟩ := Loop.bind_eq_ok h
    obtain ⟨nd, -, h⟩ := Loop.bind_eq_ok h
    rw [← Except.ok.inj h, setNode_Nd, if_neg hij]
    exact hs

theorem tickMc_Nd (h : s.tickMc S = .ok t) : t.Nd = s.Nd := by
  obtain ⟨mc, -, h⟩ := Loop.bind_eq_ok h
  split at h
  · obtain ⟨bus, -, h⟩ := Loop.bind_eq_ok h
    rw [← Except.ok.inj h]
  · rw [← Except.ok.inj h]

theorem tock_stuck {nd : Node Trace} (hs : nd.Stuck) : nd.tock.Stuck := by
  have htock : nd.tock = nd := by
    unfold Node.tock Processor.tock
    rw [hs.inboundRequestBuf]
  rwa [htock]

/-- **A stuck processor stays stuck.** -/
theorem cycle_stuck (h : s.cycle S = .ok t) (hs : (s.Nd i).Stuck) : (t.Nd i).Stuck := by
  obtain ⟨a, ha, h⟩ := Loop.bind_eq_ok h
  obtain ⟨b, hb, h⟩ := Loop.bind_eq_ok h
  obtain ⟨c, hc, h⟩ := Loop.bind_eq_ok h
  have hcaches : (a.Nd i).Stuck :=
    Loop.foldlM_preserves (P := fun s => (s.Nd i).Stuck) (fun _ _ _ _ hP hf => tickCache_stuck hf hP) ha hs
  have hprs : (b.Nd i).Stuck :=
    Loop.foldlM_preserves (P := fun s => (s.Nd i).Stuck) (fun _ _ _ _ hP hf => tickPr_stuck hf hP) hb hcaches
  have ht : ({ c.tockPrs (List.finRange n) with
    globalClock := (c.tockPrs (List.finRange n)).globalClock + 1 } : Simulator n Trace) = t := Except.ok.inj h
  rw [← ht, tockPrs_eq]
  show (c.Nd i).tock.Stuck
  rw [tickMc_Nd hc]
  exact tock_stuck hprs

end Simulator

theorem not_done_of_stuck {s : Simulator n Trace} {i : Fin n} (h : (s.Nd i).Stuck) : s.done = false := by
  rw [Simulator.done, List.all_eq_false]
  refine ⟨i, List.mem_finRange i, ?_⟩
  simp [Processor.done, h.endOfTrace]

/-- Its run does not end. -/
theorem not_same_of_outstanding {i : Fin n} (ho : u.outstandingRequest i = true)
    (hp : u.procRequest i = none) :
    ¬ Simulator.SameFrom x.settings (.init x.traces) (.build u x.traces) := by
  intro hsame
  set r := x.run
  obtain ⟨R, hR⟩ := r.exists_ends
  have hstuck : ∀ c, c < R → ∃ s, (s.Nd i).Stuck ∧ Simulator.SameFrom x.settings (r.state c) s := by
    intro c
    induction c with
    | zero =>
      intro _
      refine ⟨.build u x.traces, ?_, by rw [r.start]; exact hsame⟩
      exact { procRequest := hp, lines := fun _ => rfl, outstandingRequest := ho, endOfTrace := rfl
              inboundRequest := rfl, inboundRequestBuf := rfl }
    | succ c ih =>
      intro hlt
      obtain ⟨s, hs, hc⟩ := ih (by omega)
      obtain ⟨t, ht, -, -, -, hmore⟩ := hc.cycle (r.step c)
      exact ⟨t, Simulator.cycle_stuck ht hs, hmore (hR.first (c + 1) (by omega) hlt)⟩
  obtain ⟨c, rfl⟩ : ∃ c, R = c + 1 := ⟨R - 1, by have := hR.pos; omega⟩
  obtain ⟨s, hs, hc⟩ := hstuck c (by omega)
  obtain ⟨t, ht, -, hdone, -⟩ := hc.cycle (r.step c)
  rw [hR.done, not_done_of_stuck (Simulator.cycle_stuck ht hs)] at hdone
  cases hdone

/-! ### A request that waits in a cache from the start -/

/-- In `I` a request of the processor is a load or a store. -/
theorem processCacheRequest_I {p : Protocol} {me : ModuleID} {m : Mreq} {c c' : Ctx} (hI : c.state = .I)
    (h : (processCacheRequest p me m).run c = .ok ((), c')) : m.msg = .LOAD ∨ m.msg = .STORE := by
  obtain ⟨msg, addr, src, dest⟩ := m
  obtain ⟨st, bus, buf, stats⟩ := c
  simp only at hI
  subst hI
  cases p <;> cases msg <;> first | exact Or.inl rfl | exact Or.inr rfl | cases h

/-- If the first cycle meets no error such a request is a load or a store. -/
theorem waiting_cases {t : Simulator n Trace} {i : Fin n} {m : Mreq} (hp : u.procRequest i = some m)
    (h : (Simulator.build u x.traces).tickBus.tickCaches x.settings (List.finRange n) = .ok t) :
    m.msg = .LOAD ∨ m.msg = .STORE := by
  obtain ⟨a, b, hnd, hb, -⟩ := Simulator.tickCaches_at h i
  obtain ⟨v, hv, -⟩ := Loop.bind_eq_ok hb
  have hproc : (a.Nd i).L1.procRequest = some m := hnd ▸ hp
  unfold Simulator.tickProcRequest at hv
  rw [hproc] at hv
  obtain ⟨w, hw, -⟩ := Loop.bind_eq_ok hv
  obtain ⟨c, hc, -⟩ := Simulator.withEntry_ok hw
  refine processCacheRequest_I ?_ hc
  show (a.Nd i).line m.addr = .I
  rw [hnd]
  rfl

/-- If all of them are, it meets none. -/
theorem first_cycle_eq (hk : ∀ i m, u.procRequest i = some m → m.msg = .LOAD ∨ m.msg = .STORE) :
    (Simulator.build u x.traces).cycle x.settings =
      .ok ((Simulator.build u x.traces).next x.settings) := by
  set s := Simulator.build u x.traces with hs
  have hcur : s.tickBus.bus.currentRequest = none := rfl
  refine Simulator.cycle_eq_next x.settings ⟨fun i m hm => ⟨hk i m hm, rfl, rfl, rfl⟩, fun i m hm => ?_,
    fun i j hi => ?_⟩ (fun i => ?_) ⟨fun m hm => ?_, fun hf => ?_⟩
  · rw [hcur] at hm
    cases hm
  · rw [hcur] at hi
    cases hi
  · obtain ⟨b, hb⟩ := Node.PR_cacheTick x.f i s.bus.tick.currentRequest s.bus.tick.sharedLine (s.Nd i)
    have hPR : ((s.afterCaches x.settings).Nd i).PR = { (s.Nd i).PR with inboundRequestBuf := b } := by
      rw [← hb]
      simp only [Simulator.afterCaches, Simulator.sync, List.mem_finRange, if_true]
      rfl
    refine ⟨fun d hd => ?_, fun l hl => ?_⟩
    · rw [hPR] at hd
      cases hd
    · rw [hPR] at hl
      exact x.wellFormed i l hl
  · cases hm
  · cases hf.1

/-- What the first cycle leaves in the queue is what the waiting requests miss. -/
theorem first_queue (x : Input n) (u : Simulator.Unset n) :
    ((Simulator.build u x.traces).next x.settings).bus.pendingRequests =
      (List.finRange n).flatMap fun i => ((Simulator.build u x.traces).Nd i).queued x.f i := by
  rw [Simulator.next_pendingRequests]
  rfl

theorem first_accesses (x : Input n) (u : Simulator.Unset n) :
    ((Simulator.build u x.traces).next x.settings).stats.cacheAccesses =
      (List.finRange n).countP fun i => (u.procRequest i).isSome := by
  rw [Simulator.next_stats]
  exact Nat.zero_add _

/-- A load or a store that waits misses. -/
theorem first_queue_ne_nil {i : Fin n} {m : Mreq} (hp : u.procRequest i = some m)
    (hm : m.msg = .LOAD ∨ m.msg = .STORE) :
    ((Simulator.build u x.traces).next x.settings).bus.pendingRequests ≠ [] := by
  have hmiss : hits (((Simulator.build u x.traces).Nd i).line m.addr) m.msg = false := by
    rcases hm with hm | hm <;> rw [hm] <;> rfl
  have hproc : ((Simulator.build u x.traces).Nd i).L1.procRequest = some m := hp
  have hmem : getMsg (x.f.request m.msg) (L1id i) m.addr ∈
      ((Simulator.build u x.traces).Nd i).queued x.f i := by
    unfold Node.queued
    rw [hproc]
    simp only [hmiss, Bool.false_eq_true, if_false, List.mem_singleton]
  rw [first_queue]
  exact List.ne_nil_of_mem (List.mem_flatMap.mpr ⟨i, List.mem_finRange i, hmem⟩)

/-- The second cycle grants what is first in the queue. -/
theorem second_onBus (x : Input n) (u : Simulator.Unset n) :
    ((Simulator.build u x.traces).next x.settings).bus.tick.currentRequest =
      ((Simulator.build u x.traces).next x.settings).bus.pendingRequests.head? := by
  have hidle : ((Simulator.build u x.traces).next x.settings).bus.requestInProgress = false := by
    rw [Simulator.next_requestInProgress]
    rfl
  unfold Bus.tick
  rw [hidle, if_neg Bool.false_ne_true]
  cases ((Simulator.build u x.traces).next x.settings).bus.pendingRequests <;> rfl

/-- It is granted in the second cycle, where nothing can be without it. -/
theorem not_same_of_waiting {i : Fin n} {m : Mreq} (hp : u.procRequest i = some m) :
    ¬ Simulator.SameFrom x.settings (.init x.traces) (.build u x.traces) := by
  intro hsame
  set r := x.run
  have hstep := r.step 0
  have hfirst : r.state 1 = (Simulator.init x.traces).next x.settings := by rw [r.next, r.start]
  rw [r.start] at hstep
  obtain ⟨t, ht, -, -, hstats, hmore⟩ := hsame.cycle hstep
  obtain ⟨a, ha, -⟩ := Loop.bind_eq_ok ht
  have hk : ∀ j q, u.procRequest j = some q → q.msg = .LOAD ∨ q.msg = .STORE :=
    fun j q hq => waiting_cases hq ha
  obtain rfl : (Simulator.build u x.traces).next x.settings = t :=
    Except.ok.inj ((first_cycle_eq hk).symm.trans ht)
  cases hd : (r.state 1).done with
  | true =>
    have hacc := congrArg Stats.cacheAccesses (hstats hd)
    rw [hfirst, Simulator.init, first_accesses, first_accesses] at hacc
    have hnone : (List.finRange n).countP (fun i => ((Simulator.Unset.zero n).procRequest i).isSome) = 0 :=
      List.countP_eq_zero.mpr fun _ _ => Bool.false_ne_true
    rw [hnone, List.countP_eq_zero] at hacc
    exact hacc i (List.mem_finRange i) (by rw [hp]; rfl)
  | false =>
    obtain ⟨t', -, hlog, -⟩ := (hmore hd).cycle (r.step 1)
    have hempty : ((Simulator.init x.traces).next x.settings).bus.pendingRequests = [] := by
      rw [Simulator.init, first_queue]
      exact List.flatMap_eq_nil_iff.mpr fun _ _ => rfl
    have hbus : ((Simulator.build u x.traces).next x.settings).bus.tick.currentRequest =
        (r.state 1).bus.tick.currentRequest := congrArg CycleLog.onBus hlog
    rw [hfirst, Simulator.init, second_onBus, second_onBus, ← Simulator.init, hempty] at hbus
    exact first_queue_ne_nil hp (hk i m hp) (List.head?_eq_none_iff.mp hbus)

/-! ### The two members that are read -/

theorem clean_of_sameRun (hu : u.Clean) (h : SameRun x u u') : u'.Clean := by
  have hzero : SameRun x (.zero n) u := sameRun_of_agrees fun i => ⟨(hu i).1.symm, by rw [(hu i).2]; rfl⟩
  have hsame : Simulator.SameFrom x.settings (.init x.traces) (.build u' x.traces) :=
    fun fuel => (hzero fuel).trans (h fuel)
  have hproc : ∀ i, u'.procRequest i = none := by
    intro i
    by_contra hne
    obtain ⟨m, hm⟩ := Option.ne_none_iff_exists'.mp hne
    exact not_same_of_waiting hm hsame
  intro i
  refine ⟨?_, hproc i⟩
  by_contra hout
  exact not_same_of_outstanding (by simpa using hout) (hproc i) hsame

theorem Simulator.Unset.Clean.agrees (hu : u.Clean) (hu' : u'.Clean) (p : Protocol) : u.Agrees p u' :=
  fun i => ⟨(hu i).1.trans (hu' i).1.symm, by rw [(hu i).2, (hu' i).2]⟩

/-- If no request is outstanding or waits at the start of one of them, two runs show the same
only if their memories agree. -/
theorem agrees_of_clean (hu : u.Clean ∨ u'.Clean) (h : SameRun x u u') : u.Agrees x.protocol u' := by
  rcases hu with hu | hu'
  · exact hu.agrees (clean_of_sameRun hu h) _
  · exact (clean_of_sameRun hu' fun fuel => (h fuel).symm).agrees hu' _

end CoherenceSim
