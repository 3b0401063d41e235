/-
# Two memories that are not clean

When the runs from two memories show the same (`same_run_iff`), though both memories hold
requests at the start. What waits in the caches joins the queue of the bus before anything
else, and the bus grants in order (`Regular.exists_shown`), so a run that goes on long enough
shows it; a node that has nothing waiting is stuck or asks for the first line of its trace
(`length_waiting_le`). The runs need not keep the invariant of the other modules: all that is
used of a cycle is that it meets no error (`Regular.cycle`).
-/
import CoherenceSim.Uninitialised

namespace CoherenceSim

open Features

variable {n : ℕ} {x : Input n} {u u' : Simulator.Unset n}

/-! ### What the tick of a cache puts on the bus -/

section
variable {p : Protocol} {me : ModuleID} {r : Mreq} {c c' : Ctx}

/-- A load or store is not taken for a line that waits, and puts no more on the bus than the
request of a miss. -/
theorem processCacheRequest_bus (hop : r.msg = .LOAD ∨ r.msg = .STORE)
    (h : (processCacheRequest p me r).run c = .ok ((), c')) : c.state.pending = false ∧
      c'.bus = { c.bus with pendingRequests := c.bus.pendingRequests ++
        (if hits c.state r.msg then [] else [getMsg (p.features.request r.msg) me r.addr]) } := by
  obtain ⟨msg, addr, src, dest⟩ := r
  obtain ⟨st, ⟨cur, q, dr, rip, sh⟩, buf, stats⟩ := c
  simp only at hop
  rcases hop with rfl | rfl <;> cases p <;> cases st <;> cases buf <;>
    first | (cases h; done) | (cases h; exact ⟨rfl, rfl⟩) | (cases h; exact ⟨rfl, by simp [hits, CacheState.rank]⟩)

/-- A message on the bus puts DATA into `data_reply`, if anything. -/
theorem processSnoopRequest_bus (h : (processSnoopRequest p me r).run c = .ok ((), c')) :
    c'.bus.pendingRequests = c.bus.pendingRequests ∧
      ∀ d, c'.bus.dataReply = some d → c.bus.dataReply = some d ∨ d.msg = .DATA := by
  obtain ⟨msg, addr, src, dest⟩ := r
  obtain ⟨st, ⟨cur, q, dr, rip, sh⟩, buf, stats⟩ := c
  cases msg with
  | GETS | GETM => cases p <;> cases st <;> first | (cases h; exact ⟨rfl, fun d hd => .inl hd⟩) |
      (cases dr <;> cases h; exact ⟨rfl, fun d hd => .inr (by cases hd; rfl)⟩) | cases h
  | DATA => cases p <;> cases st <;> cases buf <;>
      first | (cases h; done) | (cases h; exact ⟨rfl, fun d hd => .inl hd⟩)
  | _ => cases p <;> cases st <;> cases h

end

theorem Node.mem_queued {f : Features} {i : Fin n} {nd : Node Trace} {m : Mreq} (h : m ∈ nd.queued f i) :
    ∃ r, nd.L1.procRequest = some r ∧ m = getMsg (f.request r.msg) (L1id i) r.addr := by
  unfold queued at h
  split at h
  · cases h
  · next r hr =>
    split at h
    · cases h
    · exact ⟨r, hr, List.mem_singleton.mp h⟩

theorem Features.request_ne_DATA (f : Features) (op : Message) : f.request op ≠ .DATA := by
  unfold request
  split <;> decide

theorem Node.fetch_procRequest {i : Fin n} {nd nd' : Node Trace} {m : Mreq} (h : nd.fetch i = .ok nd')
    (hm : nd'.L1.procRequest = some m) :
    nd.L1.procRequest = some m ∨ (m.msg = .LOAD ∨ m.msg = .STORE) := by
  unfold fetch at h
  split at h
  · cases h
    exact .inl hm
  · split at h
    · simp only at h
      split at h
      · cases h
        exact .inr (.inl (Option.some.inj hm ▸ rfl))
      · cases h
        exact .inr (.inr (Option.some.inj hm ▸ rfl))
      · cases h
    · cases h
      exact .inl hm

namespace Simulator

variable {S : Settings} {s t : Simulator n Trace} {i j : Fin n}

/-- What waits in a cache is a load or a store. -/
def OpWaits (s : Simulator n Trace) (i : Fin n) : Prop :=
  ∀ m, (s.Nd i).L1.procRequest = some m → m.msg = .LOAD ∨ m.msg = .STORE

/-- And the line does not wait. -/
def LineFree (s : Simulator n Trace) (i : Fin n) : Prop :=
  ∀ m, (s.Nd i).L1.procRequest = some m → ((s.Nd i).line m.addr).pending = false

theorem tickProcRequest_bus (hop : s.OpWaits i) (h : s.tickProcRequest S i = .ok t) : s.LineFree i ∧
    t.bus = { s.bus with
      pendingRequests := s.bus.pendingRequests ++ (s.Nd i).queued S.protocol.features i } := by
  unfold tickProcRequest at h
  unfold LineFree Node.queued
  cases hr : (s.Nd i).L1.procRequest with
  | none =>
    rw [hr] at h
    rw [← Except.ok.inj h]
    refine ⟨fun m hm => ?_, by simp⟩
    cases hm
  | some r =>
    rw [hr] at h
    obtain ⟨v, hv, h⟩ := Loop.bind_eq_ok h
    obtain ⟨c, hc, rfl⟩ := withEntry_ok hv
    obtain ⟨hfree, hbus⟩ := processCacheRequest_bus (hop r hr) hc
    rw [← Except.ok.inj h]
    exact ⟨fun m hm => Option.some.inj hm ▸ hfree, hbus⟩

theorem tickSnoop_bus (h : s.tickSnoop S i = .ok t) : t.bus.pendingRequests = s.bus.pendingRequests ∧
    ∀ d, t.bus.dataReply = some d → s.bus.dataReply = some d ∨ d.msg = .DATA := by
  unfold tickSnoop at h
  split at h
  · split at h
    · rw [← Except.ok.inj h]
      exact ⟨rfl, fun d hd => .inl hd⟩
    · obtain ⟨c, hc, rfl⟩ := withEntry_ok h
      exact processSnoopRequest_bus hc
  · rw [← Except.ok.inj h]
    exact ⟨rfl, fun d hd => .inl hd⟩

/-- **The tick of a cache** puts the request of a miss in the queue. -/
theorem tickCache_bus (hop : s.OpWaits i) (h : s.tickCache S i = .ok t) : s.LineFree i ∧
    t.bus.pendingRequests = s.bus.pendingRequests ++ (s.Nd i).queued S.protocol.features i ∧
    ∀ d, t.bus.dataReply = some d → s.bus.dataReply = some d ∨ d.msg = .DATA := by
  obtain ⟨v, hv, h⟩ := Loop.bind_eq_ok h
  obtain ⟨hfree, hbus⟩ := tickProcRequest_bus hop hv
  obtain ⟨hqueue, hreply⟩ := tickSnoop_bus h
  rw [hbus] at hqueue hreply
  exact ⟨hfree, hqueue, hreply⟩

theorem tickCaches_bus {l : List (Fin n)} (hl : l.Nodup) (hop : ∀ i ∈ l, s.OpWaits i)
    (h : s.tickCaches S l = .ok t) : (∀ i ∈ l, s.LineFree i) ∧
    t.bus.pendingRequests = s.bus.pendingRequests ++ l.flatMap (fun i => (s.Nd i).queued S.protocol.features i) ∧
    ∀ d, t.bus.dataReply = some d → s.bus.dataReply = some d ∨ d.msg = .DATA := by
  induction l generalizing s with
  | nil =>
    obtain rfl : s = t := Except.ok.inj h
    exact ⟨List.forall_mem_nil _, (List.append_nil _).symm, fun d hd => .inl hd⟩
  | cons i l ih =>
    obtain ⟨hi, hl⟩ := List.nodup_cons.mp hl
    obtain ⟨hopi, hopl⟩ := List.forall_mem_cons.mp hop
    rw [tickCaches, List.foldlM_cons] at h
    obtain ⟨a, ha, h⟩ := Loop.bind_eq_ok h
    -- the others of the list are as they were
    have hsame : ∀ j ∈ l, a.Nd j = s.Nd j := fun j hj => tickCache_other ha fun he => hi (he ▸ hj)
    obtain ⟨hfree, hqueue, hreply⟩ := tickCache_bus hopi ha
    obtain ⟨hfreel, hqueuel, hreplyl⟩ :=
      ih hl (fun j hj => by unfold OpWaits; rw [hsame j hj]; exact hopl j hj) h
    refine ⟨List.forall_mem_cons.mpr ⟨hfree, fun j hj => ?_⟩, ?_, fun d hd => ?_⟩
    · have := hfreel j hj
      unfold LineFree at this ⊢
      rwa [hsame j hj] at this
    · rw [hqueuel, hqueue, List.append_assoc, List.flatMap_cons]
      refine congrArg _ (congrArg _ (List.flatMap_congr fun j hj => ?_))
      rw [hsame j hj]
    · rcases hreplyl d hd with hd | hd
      · exact hreply d hd
      · exact .inr hd

/-! ### A cycle of any run -/

/-- What waits in the caches are loads and stores, in `data_reply` DATA, and in the queue
requests. -/
structure Regular (s : Simulator n Trace) : Prop where
  ops : ∀ i, s.OpWaits i
  reply : ∀ d, s.bus.dataReply = some d → d.msg = .DATA
  queue : ∀ m ∈ s.bus.pendingRequests, m.msg ≠ .DATA

/-- The request the bus grants in the cycle. -/
def grant (s : Simulator n Trace) : Option Mreq := s.bus.tick.currentRequest.filter (·.msg ≠ .DATA)

/-- What the caches put in the queue in the cycle. -/
def joins (S : Settings) (s : Simulator n Trace) : List Mreq :=
  (List.finRange n).flatMap fun i => (s.Nd i).queued S.protocol.features i

theorem Regular.tick (h : s.Regular) : s.bus.pendingRequests = s.grant.toList ++ s.bus.tick.pendingRequests ∧
    ∀ d, s.bus.tick.dataReply = some d → d.msg = .DATA := by
  have hreply := h.reply
  have hqueue := h.queue
  unfold grant Bus.tick
  cases hrip : s.bus.requestInProgress with
  | true =>
    cases hd : s.bus.dataReply with
    | none => simp
    | some d => simp [hreply d hd]
  | false =>
    cases hq : s.bus.pendingRequests with
    | nil => simpa [hq] using hreply
    | cons m q =>
      rw [hq] at hqueue
      have hm : (some m).filter (·.msg ≠ .DATA) = some m := by simp [Option.filter, hqueue m (by simp)]
      exact ⟨by simp only [Bool.false_eq_true, if_false, hm]; rfl, by simpa using hreply⟩

theorem tickPr_bus (h : s.tickPr i = .ok t) : t.bus = s.bus := by
  obtain ⟨pr, -, h⟩ := Loop.bind_eq_ok h
  obtain ⟨nd, -, h⟩ := Loop.bind_eq_ok h
  rw [← Except.ok.inj h]
  rfl

theorem tickPr_ops (h : s.tickPr i = .ok t) (hop : ∀ j, s.OpWaits j) (j : Fin n) : t.OpWaits j := by
  obtain ⟨pr, -, h⟩ := Loop.bind_eq_ok h
  obtain ⟨nd, hnd, h⟩ := Loop.bind_eq_ok h
  rw [← Except.ok.inj h]
  intro m hm
  rw [setNode_Nd] at hm
  split at hm
  · rcases Node.fetch_procRequest hnd hm with hm | hm
    · exact hop i m hm
    · exact hm
  · exact hop j m hm

theorem tickMc_bus (h : s.tickMc S = .ok t) : t.bus.pendingRequests = s.bus.pendingRequests ∧
    ∀ d, t.bus.dataReply = some d → s.bus.dataReply = some d ∨ d.msg = .DATA := by
  obtain ⟨mc, -, h⟩ := Loop.bind_eq_ok h
  split at h
  · obtain ⟨bus, hbus, h⟩ := Loop.bind_eq_ok h
    rw [← Except.ok.inj h]
    have hdata : (Mreq.new .DATA mc.dataAddr (MCid n) mc.dataTarget).msg = .DATA := rfl
    unfold Bus.busRequest at hbus
    rw [if_pos hdata] at hbus
    split at hbus
    · cases hbus
    · rw [← Except.ok.inj hbus]
      exact ⟨rfl, fun d hd => .inr (Option.some.inj hd ▸ rfl)⟩
  · rw [← Except.ok.inj h]
    exact ⟨rfl, fun d hd => .inl hd⟩

/-- **A cycle that meets no error**: what the caches put in the queue comes last in it. -/
theorem Regular.cycle (h : s.Regular) (hc : s.cycle S = .ok t) : t.Regular ∧ (∀ i, s.LineFree i) ∧
    t.bus.pendingRequests = s.bus.tick.pendingRequests ++ s.joins S := by
  obtain ⟨hgrant, hreply⟩ := h.tick
  obtain ⟨a, ha, hc⟩ := Loop.bind_eq_ok hc
  obtain ⟨b, hb, hc⟩ := Loop.bind_eq_ok hc
  obtain ⟨c, hmc, hc⟩ := Loop.bind_eq_ok hc
  obtain ⟨hfree, hqueue, ha_reply⟩ := tickCaches_bus (s := s.tickBus) (List.nodup_finRange n) (fun i _ => h.ops i) ha
  have ha_ops : ∀ i, a.OpWaits i := fun i m hm => by rw [tickCaches_procRequest ha i] at hm; cases hm
  obtain ⟨hb_bus, hb_ops⟩ := Loop.foldlM_preserves (P := fun s => s.bus = a.bus ∧ ∀ i, s.OpWaits i)
    (fun _ _ _ _ hP hf => ⟨(tickPr_bus hf).trans hP.1, tickPr_ops hf hP.2⟩) hb ⟨rfl, ha_ops⟩
  obtain ⟨hmc_queue, hmc_reply⟩ := tickMc_bus hmc
  have hfinal : t.bus.pendingRequests = s.bus.tick.pendingRequests ++ s.joins S := by
    rw [← Except.ok.inj hc, tockPrs_eq]
    show c.bus.pendingRequests = _
    rw [hmc_queue, hb_bus, hqueue]
    rfl
  refine ⟨⟨fun i m hm => ?_, fun d hd => ?_, fun m hm => ?_⟩, fun i => hfree i (List.mem_finRange i), hfinal⟩
  · rw [← Except.ok.inj hc, tockPrs_eq] at hm
    have hm' : (c.Nd i).L1.procRequest = some m := hm
    rw [tickMc_Nd hmc] at hm'
    exact hb_ops i m hm'
  · rw [← Except.ok.inj hc, tockPrs_eq] at hd
    rcases hmc_reply d hd with hd | hd
    · rw [hb_bus] at hd
      rcases ha_reply d hd with hd | hd
      · exact hreply d hd
      · exact hd
    · exact hd
  · rw [hfinal, List.mem_append] at hm
    rcases hm with hm | hm
    · exact h.queue m (by rw [hgrant]; exact List.mem_append_right _ hm)
    · obtain ⟨i, -, hm⟩ := List.mem_flatMap.mp hm
      obtain ⟨r, -, rfl⟩ := Node.mem_queued hm
      exact request_ne_DATA _ _

end Simulator

/-! ### What a run shows to be granted -/

/-- The requests a log shows on the bus. -/
def grantsShown (logs : List (CycleLog n)) : List Mreq :=
  logs.filterMap fun log => log.onBus.filter (·.msg ≠ .DATA)

theorem grantsShown_cons (log : CycleLog n) (logs : List (CycleLog n)) :
    grantsShown (log :: logs) = (log.onBus.filter (·.msg ≠ .DATA)).toList ++ grantsShown logs := by
  unfold grantsShown
  rw [List.filterMap_cons]
  cases log.onBus.filter (·.msg ≠ .DATA) <;> rfl

namespace Simulator

variable {S : Settings} {s t : Simulator n Trace} {i : Fin n}

/-- The requests that a run shows to be granted in so many cycles. -/
def shown (S : Settings) (fuel : ℕ) (s : Simulator n Trace) : List Mreq := grantsShown (s.observe S fuel).1

theorem shown_ok (hc : s.cycle S = .ok t) (fuel : ℕ) :
    s.shown S (fuel + 1) = s.grant.toList ++ if t.done then [] else t.shown S fuel := by
  unfold shown
  cases hd : t.done with
  | true =>
    rw [observe_done hc hd, grantsShown_cons]
    rfl
  | false =>
    rw [observe_not_done hc hd, grantsShown_cons]
    rfl

theorem shown_error {e : Fatal} (hc : s.cycle S = .error e) (fuel : ℕ) : s.shown S fuel = [] := by
  cases fuel with
  | zero => rfl
  | succ fuel => rw [shown, observe_error hc]; rfl

theorem Regular.shown_prefix (h : s.Regular) (hc : s.cycle S = .ok t) {fuel : ℕ} {rest : List Mreq}
    (hrest : t.shown S fuel <+: t.bus.pendingRequests ++ rest) :
    s.shown S (fuel + 1) <+: s.bus.pendingRequests ++ (s.joins S ++ rest) := by
  obtain ⟨-, -, hqueue⟩ := h.cycle hc
  rw [shown_ok hc, h.tick.1, List.append_assoc, ← List.append_assoc _ (s.joins S), ← hqueue]
  refine (List.prefix_append_right_inj _).mpr ?_
  split
  · exact List.nil_prefix
  · exact hrest

/-- **The bus grants in order**: what waits at first, and then what the caches ask for. -/
theorem Regular.exists_shown (h : s.Regular) (fuel : ℕ) : ∃ rest,
    s.shown S fuel <+: s.bus.pendingRequests ++ rest := by
  induction fuel generalizing s with
  | zero => exact ⟨[], List.nil_prefix⟩
  | succ fuel ih =>
    cases hc : s.cycle S with
    | error e => exact ⟨[], by rw [shown_error hc]; exact List.nil_prefix⟩
    | ok t =>
      obtain ⟨rest, hrest⟩ := ih (h.cycle hc).1
      exact ⟨_, h.shown_prefix hc hrest⟩

theorem Regular.exists_shown_joins (h : s.Regular) (hc : s.cycle S = .ok t) (fuel : ℕ) : ∃ rest,
    s.shown S fuel <+: s.bus.pendingRequests ++ (s.joins S ++ rest) := by
  cases fuel with
  | zero => exact ⟨[], List.nil_prefix⟩
  | succ fuel =>
    obtain ⟨rest, hrest⟩ := (h.cycle hc).1.exists_shown (S := S) fuel
    exact ⟨rest, h.shown_prefix hc hrest⟩

/-- A stuck processor asks for nothing. -/
theorem Regular.not_shown (h : s.Regular) (hs : (s.Nd i).Stuck)
    (hqueue : ∀ m ∈ s.bus.pendingRequests, m.srcMid ≠ L1id i) (fuel : ℕ) :
    ∀ m ∈ s.shown S fuel, m.srcMid ≠ L1id i := by
  induction fuel generalizing s with
  | zero => exact List.forall_mem_nil _
  | succ fuel ih =>
    cases hc : s.cycle S with
    | error e =>
      rw [shown_error hc]
      exact List.forall_mem_nil _
    | ok t =>
      obtain ⟨ht, -, hnext⟩ := h.cycle hc
      rw [h.tick.1] at hqueue
      obtain ⟨hgrant, hrest⟩ := List.forall_mem_append.mp hqueue
      rw [shown_ok hc]
      refine List.forall_mem_append.mpr ⟨hgrant, ?_⟩
      split
      · exact List.forall_mem_nil _
      · refine ih ht (cycle_stuck hc hs) ?_
        rw [hnext]
        refine List.forall_mem_append.mpr ⟨hrest, fun m hm => ?_⟩
        obtain ⟨j, -, hm⟩ := List.mem_flatMap.mp hm
        obtain ⟨r, hr, rfl⟩ := Node.mem_queued hm
        intro hj
        obtain rfl : j = i := L1id_injective hj
        rw [hs.procRequest] at hr
        cases hr

end Simulator

/-! ### What waits at the start -/

namespace Simulator.Unset

variable {p : Protocol} {q : Mreq}

/-- What waits are loads and stores of lines, as a processor makes them. -/
def Proper (u : Unset n) : Prop := ∀ i m, u.procRequest i = some m →
  (m.msg = .LOAD ∨ m.msg = .STORE) ∧ lineOf m.addr = m.addr

/-- The requests it makes for the bus, node after node. -/
def waiting (u : Unset n) (p : Protocol) : List Mreq := (List.finRange n).filterMap fun i =>
  (u.procRequest i).map fun m => getMsg (p.features.request m.msg) (L1id i) m.addr

theorem mem_waiting : q ∈ u.waiting p ↔ ∃ i m, u.procRequest i = some m ∧
    q = getMsg (p.features.request m.msg) (L1id i) m.addr := by
  simp only [waiting, List.mem_filterMap, List.mem_finRange, true_and, Option.map_eq_some_iff]
  constructor
  · rintro ⟨i, m, hm, rfl⟩
    exact ⟨i, m, hm, rfl⟩
  · rintro ⟨i, m, hm, rfl⟩
    exact ⟨i, m, hm, rfl⟩

/-- No node has two of them. -/
theorem pairwise_waiting (u : Unset n) (p : Protocol) :
    (u.waiting p).Pairwise fun q q' => q.srcMid ≠ q'.srcMid := by
  refine List.pairwise_filterMap.mpr ((List.nodup_finRange n).imp fun hij q hq q' hq' => ?_)
  obtain ⟨m, -, rfl⟩ := Option.map_eq_some_iff.mp hq
  obtain ⟨m', -, rfl⟩ := Option.map_eq_some_iff.mp hq'
  exact fun hsrc => hij (L1id_injective hsrc)

end Simulator.Unset

/-- At the start nothing hits. -/
theorem hits_build (x : Input n) (u : Simulator.Unset n) (i : Fin n) {m : Mreq} (hop : m.msg = .LOAD ∨ m.msg = .STORE) :
    hits (((Simulator.build u x.traces).Nd i).line m.addr) m.msg = false := by
  rcases hop with hm | hm <;> rw [hm] <;> rfl

namespace Simulator.Unset.Proper

variable (hu : u.Proper)

include hu

theorem regular : (Simulator.build u x.traces).Regular where
  ops i m hm := (hu i m hm).1
  reply d hd := by
    have hnone : (none : Option Mreq) = some d := hd
    cases hnone
  queue := List.forall_mem_nil _

theorem cycle_eq : (Simulator.build u x.traces).cycle x.settings =
    .ok ((Simulator.build u x.traces).next x.settings) := first_cycle_eq fun i m hm => (hu i m hm).1

theorem joins_eq : (Simulator.build u x.traces).joins x.settings = u.waiting x.protocol := by
  rw [Simulator.joins, waiting, List.filterMap_eq_flatMap_toList]
  refine List.flatMap_congr fun i _ => ?_
  have hproc : ((Simulator.build u x.traces).Nd i).L1.procRequest = u.procRequest i := rfl
  unfold Node.queued
  rw [hproc]
  cases hm : u.procRequest i with
  | none => rfl
  | some m =>
    simp only [hits_build x u i (hu i m hm).1]
    rfl

theorem exists_shown (fuel : ℕ) : ∃ rest,
    (Simulator.build u x.traces).shown x.settings fuel <+: u.waiting x.protocol ++ rest := by
  obtain ⟨rest, hrest⟩ := (hu.regular (x := x)).exists_shown_joins hu.cycle_eq fuel
  rw [hu.joins_eq] at hrest
  exact ⟨rest, hrest⟩

/-- The first cycle grants nothing. -/
theorem shown_succ (fuel : ℕ) : (Simulator.build u x.traces).shown x.settings (fuel + 1) =
    if ((Simulator.build u x.traces).next x.settings).done then []
    else ((Simulator.build u x.traces).next x.settings).shown x.settings fuel :=
  Simulator.shown_ok hu.cycle_eq fuel

/-- A run that grants anything meets no error in its second cycle. -/
theorem exists_second {fuel : ℕ} (hne : (Simulator.build u x.traces).shown x.settings fuel ≠ []) : ∃ k t,
    ((Simulator.build u x.traces).next x.settings).shown x.settings k =
      (Simulator.build u x.traces).shown x.settings fuel ∧
    ((Simulator.build u x.traces).next x.settings).cycle x.settings = .ok t := by
  obtain ⟨k, rfl⟩ := Nat.exists_eq_add_one_of_ne_zero (show fuel ≠ 0 by rintro rfl; exact hne rfl)
  have hsucc := hu.shown_succ (x := x) k
  split at hsucc
  · exact absurd hsucc hne
  · cases hc : ((Simulator.build u x.traces).next x.settings).cycle x.settings with
    | error e => exact absurd (hsucc.trans (Simulator.shown_error hc k)) hne
    | ok t => exact ⟨k, t, hsucc.symm, rfl⟩

theorem regular_next : ((Simulator.build u x.traces).next x.settings).Regular :=
  (hu.regular.cycle hu.cycle_eq).1

theorem queue_eq : ((Simulator.build u x.traces).next x.settings).bus.pendingRequests =
    u.waiting x.protocol := by
  rw [← hu.joins_eq]
  exact ((hu.regular (x := x)).cycle hu.cycle_eq).2.2

end Simulator.Unset.Proper

/-! ### The nodes after the first cycle -/

section
variable {i : Fin n} {l : Char × Paddr} {rest : Trace}

theorem first_Nd (x : Input n) (u : Simulator.Unset n) (i : Fin n) :
    ((Simulator.build u x.traces).next x.settings).Nd i =
      ((((Simulator.build u x.traces).Nd i).procTick x.f i).prTick i).tock := by
  rw [Simulator.next_Nd]
  rfl

/-- A processor that waits for nothing fetches. -/
theorem Node.fetched_of {nd : Node Trace} (h : nd.PR = ⟨l :: rest, false, false, none, none⟩) :
    (nd.prTick i).tock = ⟨{ nd.L1 with procRequest := some (.new (opOf l.1) l.2 (PRid i)) },
      ⟨rest, false, true, none, none⟩⟩ := by
  obtain ⟨L1, PR⟩ := nd
  obtain rfl : PR = _ := h
  rfl

theorem Node.waited_of {nd : Node Trace} {file : Trace} (h : nd.PR = ⟨file, false, true, none, none⟩) :
    (nd.prTick i).tock = nd := by
  obtain ⟨L1, PR⟩ := nd
  obtain rfl : PR = _ := h
  rfl

variable (hu : u.Proper)

include hu

theorem procTick_PR (i : Fin n) : (((Simulator.build u x.traces).Nd i).procTick x.f i).PR =
    ⟨x.traces i, false, u.outstandingRequest i, none, none⟩ := by
  have hproc : ((Simulator.build u x.traces).Nd i).L1.procRequest = u.procRequest i := rfl
  unfold Node.procTick
  rw [hproc]
  cases hm : u.procRequest i with
  | none => rfl
  | some m =>
    simp only [hits_build x u i (hu i m hm).1]
    rfl

/-- The first cycle fetches where no request is outstanding. -/
theorem first_fetched (i : Fin n) (hl : x.traces i = l :: rest) :
    ((Simulator.build u x.traces).cycleLog ((Simulator.build u x.traces).next x.settings)).fetched i =
      if u.outstandingRequest i then none else some l := by
  have hPR := procTick_PR (x := x) hu i
  rw [hl] at hPR
  have hfile : ((Simulator.build u x.traces).Nd i).PR.infile = l :: rest := hl
  unfold Simulator.cycleLog
  simp only [first_Nd, hfile]
  cases ho : u.outstandingRequest i with
  | true =>
    rw [ho] at hPR
    rw [Node.waited_of hPR, hPR]
    simp
  | false =>
    rw [ho] at hPR
    rw [Node.fetched_of hPR]
    simp

/-- And then the access waits in the cache. -/
theorem first_procRequest (ho : u.outstandingRequest i = false) (hl : x.traces i = l :: rest) :
    (((Simulator.build u x.traces).next x.settings).Nd i).L1.procRequest =
        some (.new (opOf l.1) l.2 (PRid i)) ∧
      (((Simulator.build u x.traces).next x.settings).Nd i).line =
        (((Simulator.build u x.traces).Nd i).procTick x.f i).line := by
  have hPR := procTick_PR (x := x) hu i
  rw [hl, ho] at hPR
  rw [first_Nd, Node.fetched_of hPR]
  exact ⟨rfl, rfl⟩

/-- It misses, if nothing has waited there before. -/
theorem first_queued (ho : u.outstandingRequest i = false) (hm : u.procRequest i = none)
    (hl : x.traces i = l :: rest) : (((Simulator.build u x.traces).next x.settings).Nd i).queued x.f i =
      [getMsg (x.f.request (opOf l.1)) (L1id i) (lineOf l.2)] := by
  obtain ⟨hproc, hline⟩ := first_procRequest hu ho hl
  have hnone : ((Simulator.build u x.traces).Nd i).L1.procRequest = none := hm
  have hmiss : hits ((((Simulator.build u x.traces).next x.settings).Nd i).line (lineOf l.2)) (opOf l.1) = false := by
    rw [hline, Node.procTick, hnone]
    exact hits_build x u i (m := .new (opOf l.1) l.2 (PRid i)) (opOf_cases l.1)
  rw [Node.queued, hproc]
  simp only [Mreq.new, hmiss]
  rfl

/-- And if something has, it is for another line, as that one waits for DATA. -/
theorem first_line_ne {m : Mreq} (ho : u.outstandingRequest i = false) (hm : u.procRequest i = some m)
    (hl : x.traces i = l :: rest) (hfree : ((Simulator.build u x.traces).next x.settings).LineFree i) :
    lineOf l.2 ≠ m.addr := by
  obtain ⟨hproc, hline⟩ := first_procRequest hu ho hl
  have hwaits : ((Simulator.build u x.traces).Nd i).L1.procRequest = some m := hm
  have hpend : ((((Simulator.build u x.traces).Nd i).procTick x.f i).line m.addr).pending = true := by
    unfold Node.procTick
    rw [hwaits]
    simp only [hits_build x u i (hu i m hm).1, Bool.false_eq_true, if_false]
    show ((((Simulator.build u x.traces).Nd i).setLine m.addr _).line m.addr).pending = true
    rw [Node.line_setLine, if_pos rfl, pend_pending]
  intro haddr
  have hline_free := hfree _ hproc
  rw [hline, show (Mreq.new (opOf l.1) l.2 (PRid i)).addr = m.addr from haddr, hpend] at hline_free
  cases hline_free

end

/-! ### What the runs show of it -/

/-- No trace is empty. -/
def Input.NonEmpty (x : Input n) : Prop := ∀ i, x.traces i ≠ []

section
variable (hx : x.NonEmpty) (hu : u.Proper) (hu' : u'.Proper) (h : SameRun x u u')

include hx hu hu' h

/-- The first cycle shows where a request is outstanding. -/
theorem outstanding_eq (i : Fin n) : u.outstandingRequest i = u'.outstandingRequest i := by
  obtain ⟨l, rest, hl⟩ := List.exists_cons_of_ne_nil (hx i)
  obtain ⟨t', ht', hlog, -⟩ := h.cycle hu.cycle_eq
  obtain rfl : (Simulator.build u' x.traces).next x.settings = t' := Except.ok.inj (hu'.cycle_eq.symm.trans ht')
  have hfetched := congrArg (fun log => CycleLog.fetched log i) hlog
  rw [first_fetched hu i hl, first_fetched hu' i hl] at hfetched
  revert hfetched
  cases u.outstandingRequest i <;> cases u'.outstandingRequest i <;> simp

/-- **No more waits in one of them** than in the other, if the run grants it all. -/
theorem length_waiting_le {fuel : ℕ}
    (hlen : (u'.waiting x.protocol).length ≤ ((Simulator.build u x.traces).shown x.settings fuel).length) :
    (u'.waiting x.protocol).length ≤ (u.waiting x.protocol).length := by
  by_contra hlt
  rw [Nat.not_le] at hlt
  set g := (Simulator.build u x.traces).shown x.settings fuel with hg
  have hg' : (Simulator.build u' x.traces).shown x.settings fuel = g :=
    by rw [hg, Simulator.shown, Simulator.shown, h fuel]
  have hne : g ≠ [] := List.ne_nil_of_length_pos (by omega)
  obtain ⟨k, t, hshown, ht⟩ := hu.exists_second hne
  obtain ⟨-, t', -, ht'⟩ := hu'.exists_second (hg' ▸ hne)
  -- one more waits in the second, and comes next in the first
  obtain ⟨more, hmore⟩ := hu.regular_next.exists_shown_joins ht k
  rw [hshown, ← hg, hu.queue_eq] at hmore
  obtain ⟨more', hmore'⟩ := hu'.exists_shown (x := x) fuel
  rw [hg'] at hmore'
  have hprefix' : u'.waiting x.protocol <+: g :=
    List.prefix_of_prefix_length_le (List.prefix_append _ _) hmore' hlen
  have hall := hprefix'.trans hmore
  obtain ⟨extra, hextra⟩ : u.waiting x.protocol <+: u'.waiting x.protocol :=
    List.prefix_of_prefix_length_le (List.prefix_append _ _) hall hlt.le
  have hlong := congrArg List.length hextra
  rw [List.length_append] at hlong
  obtain ⟨q, extra, rfl⟩ : ∃ q l, extra = q :: l :=
    List.exists_cons_of_ne_nil (List.ne_nil_of_length_pos (by omega))
  rw [← hextra, List.prefix_append_right_inj] at hall
  have hqmem : q ∈ u'.waiting x.protocol := by rw [← hextra]; simp
  obtain ⟨i, m, hm, hq⟩ := Simulator.Unset.mem_waiting.mp hqmem
  -- its node has nothing waiting in the first
  have hnone : u.procRequest i = none := by
    by_contra hsome
    obtain ⟨m₀, hm₀⟩ := Option.ne_none_iff_exists'.mp hsome
    have hpair := u'.pairwise_waiting x.protocol
    rw [← hextra, List.pairwise_append] at hpair
    exact hpair.2.2 _ (Simulator.Unset.mem_waiting.mpr ⟨i, m₀, hm₀, rfl⟩) q (by simp) (by rw [hq]; rfl)
  obtain ⟨l, rest, hl⟩ := List.exists_cons_of_ne_nil (hx i)
  cases ho : u.outstandingRequest i with
  | true =>
    have hstuck : ((Simulator.build u x.traces).Nd i).Stuck :=
      { procRequest := hnone, lines := fun _ => rfl, outstandingRequest := ho, endOfTrace := rfl
        inboundRequest := rfl, inboundRequestBuf := rfl }
    exact hu.regular.not_shown hstuck (List.forall_mem_nil _) fuel q (hprefix'.mem hqmem) (by rw [hq]; rfl)
  | false =>
    have ho' := (outstanding_eq hx hu hu' h i).symm.trans ho
    -- so it is for the first line of its trace, and in the second run it is not
    have hqueued := first_queued hu ho hnone hl
    have hjoin : q ∈ ((Simulator.build u x.traces).next x.settings).joins x.settings := by
      obtain ⟨q₀, js, hjs⟩ : ∃ q₀ js, ((Simulator.build u x.traces).next x.settings).joins x.settings = q₀ :: js := by
        refine List.exists_cons_of_ne_nil fun hnil => ?_
        have hempty := List.flatMap_eq_nil_iff.mp hnil i (List.mem_finRange i)
        rw [hqueued] at hempty
        cases hempty
      rw [hjs, List.cons_append, List.cons_prefix_cons] at hall
      rw [hjs, hall.1]
      exact List.mem_cons_self
    obtain ⟨j, -, hj⟩ := List.mem_flatMap.mp hjoin
    obtain ⟨r, -, hqr⟩ := Node.mem_queued hj
    obtain rfl : j = i := L1id_injective (by rw [hq] at hqr; exact (congrArg Mreq.srcMid hqr).symm)
    rw [hqueued, List.mem_singleton, hq] at hj
    refine first_line_ne hu' ho' hm hl ((hu'.regular_next.cycle ht').2.1 j) ?_
    calc lineOf l.2 = lineOf (lineOf l.2) := (lineOf_lineOf l.2).symm
      _ = lineOf m.addr := (congrArg Mreq.addr hj).symm
      _ = m.addr := (hu' j m hm).2

/-- What the runs grant agrees. -/
theorem waiting_eq {fuel : ℕ}
    (hlen : (u.waiting x.protocol).length ≤ ((Simulator.build u x.traces).shown x.settings fuel).length)
    (hlen' : (u'.waiting x.protocol).length ≤ ((Simulator.build u x.traces).shown x.settings fuel).length) :
    u.waiting x.protocol = u'.waiting x.protocol := by
  have hshown : (Simulator.build u' x.traces).shown x.settings fuel =
      (Simulator.build u x.traces).shown x.settings fuel := by
    rw [Simulator.shown, Simulator.shown, h fuel]
  obtain ⟨rest, hrest⟩ := hu.exists_shown (x := x) fuel
  obtain ⟨rest', hrest'⟩ := hu'.exists_shown (x := x) fuel
  rw [hshown] at hrest'
  have hprefix := List.prefix_of_prefix_length_le (List.prefix_append _ _) hrest hlen
  have hprefix' := List.prefix_of_prefix_length_le (List.prefix_append _ _) hrest' hlen'
  have hle := length_waiting_le hx hu hu' h hlen'
  have hge := length_waiting_le hx hu' hu (fun fuel => (h fuel).symm) (hshown ▸ hlen)
  exact (List.prefix_of_prefix_length_le hprefix hprefix' hge).eq_of_length (Nat.le_antisymm hge hle)

end

theorem takes_eq {f : Features} {op op' : Message} (hop : op = .LOAD ∨ op = .STORE)
    (hop' : op' = .LOAD ∨ op' = .STORE) (h : f.request op = f.request op') : f.takes op = f.takes op' := by
  obtain ⟨s, e, o, w⟩ := f
  rcases hop with rfl | rfl <;> rcases hop' with rfl | rfl <;> cases s <;> first | rfl | cases h

/-- The same requests for the bus come from the same requests. -/
theorem Simulator.Unset.Proper.taken_of_waiting_eq {p : Protocol} (hu : u.Proper) (hu' : u'.Proper)
    (h : u.waiting p = u'.waiting p) {i : Fin n} {m : Mreq} (hm : u.procRequest i = some m) :
    (u'.procRequest i).map p.taken = some (p.taken m) := by
  have hmem : getMsg (p.features.request m.msg) (L1id i) m.addr ∈ u'.waiting p := by
    rw [← h]
    exact mem_waiting.mpr ⟨i, m, hm, rfl⟩
  obtain ⟨j, m', hm', heq⟩ := mem_waiting.mp hmem
  obtain rfl : i = j := L1id_injective (congrArg Mreq.srcMid heq)
  have hmsg : p.features.request m.msg = p.features.request m'.msg := congrArg Mreq.msg heq
  have haddr : lineOf m.addr = lineOf m'.addr := congrArg Mreq.addr heq
  rw [(hu i m hm).2, (hu' i m' hm').2] at haddr
  rw [hm', Option.map_some, Protocol.taken, Protocol.taken, haddr, takes_eq (hu i m hm).1 (hu' i m' hm').1 hmsg]

/-- Two runs that show the same come from memories that agree, if they go on until what waits
has been granted. -/
theorem agrees_of_shown (hx : x.NonEmpty) (hu : u.Proper) (hu' : u'.Proper) {fuel : ℕ}
    (hlen : (u.waiting x.protocol).length ≤ ((Simulator.build u x.traces).shown x.settings fuel).length)
    (hlen' : (u'.waiting x.protocol).length ≤ ((Simulator.build u x.traces).shown x.settings fuel).length)
    (h : SameRun x u u') : u.Agrees x.protocol u' := by
  have hwaiting := waiting_eq hx hu hu' h hlen hlen'
  refine fun i => ⟨outstanding_eq hx hu hu' h i, ?_⟩
  cases hm : u.procRequest i with
  | some m => exact (hu.taken_of_waiting_eq hu' hwaiting hm).symm
  | none =>
    cases hm' : u'.procRequest i with
    | none => rfl
    | some m' =>
      have := hu'.taken_of_waiting_eq hu hwaiting.symm hm'
      rw [hm] at this
      exact this

/-- **What runs depend on.** Two runs that start with the same `outstanding_request` and, in
`proc_request`, the same operation and address in every node show the same, whatever else is
in memory. If in one of them no request is outstanding or waits at the start, they show the
same only then; and so they do if each node has a trace, what waits are loads and stores of
lines, and the run goes on until it has granted as many requests as wait. -/
theorem same_run_iff (x : Input n) (u u' : Simulator.Unset n) :
    (u.Agrees x.protocol u' → SameRun x u u') ∧
    (u.Clean ∨ u'.Clean → (SameRun x u u' ↔ u.Agrees x.protocol u')) ∧
    (x.NonEmpty → u.Proper → u'.Proper →
      (∃ fuel, (u.waiting x.protocol).length ≤ ((Simulator.build u x.traces).shown x.settings fuel).length ∧
        (u'.waiting x.protocol).length ≤ ((Simulator.build u x.traces).shown x.settings fuel).length) →
      (SameRun x u u' ↔ u.Agrees x.protocol u')) :=
  ⟨sameRun_of_agrees, fun hclean => ⟨agrees_of_clean hclean, sameRun_of_agrees⟩,
    fun hx hu hu' hlong => ⟨fun h => by
      obtain ⟨fuel, hlen, hlen'⟩ := hlong
      exact agrees_of_shown hx hu hu' hlen hlen' h, sameRun_of_agrees⟩⟩

/-- One node under MI with one line in its trace. -/
def Input.oneLoad : Input 1 where
  protocol := .MI_PRO
  hitTime := 100
  hitTime_pos := by decide
  traces := ![[('r', 0x40)]]
  wellFormed := by decide

/-- A load that waits while a request is outstanding is granted in the second cycle. -/
example : let u : Simulator.Unset 1 := ⟨fun _ => true, fun _ => some ⟨.LOAD, 0x80, .invalid, .invalid⟩, 0⟩
    (u.waiting .MI_PRO).length ≤
      ((Simulator.build u Input.oneLoad.traces).shown Input.oneLoad.settings 2).length := by decide +kernel

/-- Where `outstanding_request` reads as true the line is not fetched in the first cycle. -/
theorem outstanding_request_unset :
    ¬ SameRun Input.oneLoad (.zero 1) { Simulator.Unset.zero 1 with outstandingRequest := fun _ => true } := by
  intro h
  have hfetched := congrArg (fun seen => seen.1.map fun log => log.fetched 0) (h 1)
  revert hfetched
  decide +kernel

end CoherenceSim
