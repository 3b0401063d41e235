/-
# Runs that go alike

Two runs whose states differ in their nodes only, and there by a function that no part of a
cycle sees (`SameTick`), go on to differ by it (`next_mapNodes`). `causal`: what a trace goes
on with has no influence on the run before the processor has come to it. `stores_run`: under
MI a load is a store, and where there are only stores the six protocols are one: a run under
MI is the run under any of them in which every load is made a store.
-/
import CoherenceSim.MemoryOnce

namespace CoherenceSim

open Features

variable {n : ℕ}

/-! ### Nodes that tick alike -/

/-- In its tick the node `g nd` does under `f'` on the bus what `nd` does under `f`, and the
nodes after it differ by `g` again. -/
structure SameTick (f f' : Features) (g : Node Trace → Node Trace) (i : Fin n) (cur : Option Mreq) (sh : Bool)
    (nd : Node Trace) : Prop where
  asks : (g nd).L1.procRequest.isSome = nd.L1.procRequest.isSome
  queued : (g nd).queued f' i = nd.queued f i
  upgraded : (g nd).upgraded = nd.upgraded
  reply : ((g nd).procTick f' i).reply i cur = (nd.procTick f i).reply i cur
  raised : ((g nd).procTick f' i).raised f' cur = (nd.procTick f i).raised f cur
  next : (((g nd).cacheTick f' i cur sh).prTick i).tock = g ((nd.cacheTick f i cur sh).prTick i).tock

namespace Simulator

/-- The state with other nodes. -/
def mapNodes (g : Fin n → Node Trace → Node Trace) (s : Simulator n Trace) : Simulator n Trace :=
  { s with Nd := fun i => g i (s.Nd i) }

variable {S S' : Settings} {g : Fin n → Node Trace → Node Trace} {s : Simulator n Trace}

theorem sync_mapNodes (l : List (Fin n)) (h : ∀ i, SameTick S.protocol.features S'.protocol.features (g i) i
    s.bus.currentRequest s.bus.sharedLine (s.Nd i)) :
    ((s.mapNodes g).sync S' l).bus = (s.sync S l).bus ∧ ((s.mapNodes g).sync S' l).stats = (s.sync S l).stats := by
  have hqueued : (fun i => (g i (s.Nd i)).queued S'.protocol.features i) =
      fun i => (s.Nd i).queued S.protocol.features i := funext fun i => (h i).queued
  have hreply : (fun i => ((g i (s.Nd i)).procTick S'.protocol.features i).reply i s.bus.currentRequest) =
      fun i => ((s.Nd i).procTick S.protocol.features i).reply i s.bus.currentRequest :=
    funext fun i => (h i).reply
  have hraised : (fun i => ((g i (s.Nd i)).procTick S'.protocol.features i).raised S'.protocol.features
      s.bus.currentRequest) = fun i => ((s.Nd i).procTick S.protocol.features i).raised S.protocol.features
        s.bus.currentRequest := funext fun i => (h i).raised
  have hasks : (fun i => (g i (s.Nd i)).L1.procRequest.isSome) = fun i => (s.Nd i).L1.procRequest.isSome :=
    funext fun i => (h i).asks
  have hupgraded : (fun i => (g i (s.Nd i)).upgraded) = fun i => (s.Nd i).upgraded :=
    funext fun i => (h i).upgraded
  have hreplied := congrArg (fun (f : Fin n → Option Mreq) => fun i => (f i).isSome) hreply
  constructor
  · simp only [sync, mapNodes, hqueued, hreply, hraised]
  · simp only [sync, mapNodes, hqueued, hasks, hupgraded]
    exact congrArg (fun f : Fin n → Bool => (⟨_, _, _, s.stats.cacheToCacheTransfers + l.countP f⟩ : Stats)) hreplied

/-- **A cycle keeps what two states differ by.** -/
theorem next_mapNodes (ht : S'.hitTime = S.hitTime)
    (h : ∀ i, SameTick S.protocol.features S'.protocol.features (g i) i s.bus.tick.currentRequest
      s.bus.tick.sharedLine (s.Nd i)) : (s.mapNodes g).next S' = (s.next S).mapNodes g := by
  obtain ⟨hbus, hstats⟩ : ((s.tickBus.mapNodes g).sync S' (List.finRange n)).bus =
      (s.tickBus.sync S (List.finRange n)).bus ∧ ((s.tickBus.mapNodes g).sync S' (List.finRange n)).stats =
        (s.tickBus.sync S (List.finRange n)).stats := sync_mapNodes _ h
  have hcaches : ((s.mapNodes g).afterCaches S').bus = (s.afterCaches S).bus := hbus
  have hsee : ∀ mc clock cur, MemoryController.see S' mc clock cur = mc.see S clock cur := by
    intro mc clock cur
    unfold MemoryController.see
    rw [ht]
  -- the memory controller sees the message on the bus only
  have hmemory : ∀ t t' : Simulator n Trace, t'.bus = t.bus → t'.MC = t.MC → t'.globalClock = t.globalClock →
      (t'.memory S').bus = (t.memory S).bus ∧ (t'.memory S').MC = (t.memory S).MC := by
    intro t t' hb hm hc
    have hseen : t'.seen S' = t.seen S := by
      unfold seen
      rw [hsee, hb, hm, hc]
    unfold memory
    rw [hseen, hc]
    split
    · rw [hb]
      exact ⟨rfl, rfl⟩
    · exact ⟨hb, rfl⟩
  obtain ⟨hb, hm⟩ := hmemory
    { s.afterCaches S with Nd := fun i => ((s.afterCaches S).Nd i).prTick i }
    { (s.mapNodes g).afterCaches S' with Nd := fun i => (((s.mapNodes g).afterCaches S').Nd i).prTick i }
    hcaches rfl rfl
  refine Simulator.ext ?_ hb ?_ hm ?_
  · rw [next_globalClock, mapNodes, mapNodes, next_globalClock]
  · funext i
    rw [next_Nd]
    show (((g i (s.Nd i)).cacheTick _ i _ _).prTick i).tock = g i ((s.next S).Nd i)
    rw [next_Nd]
    exact (h i).next
  · rw [next_stats]
    show _ = (s.next S).stats
    rw [next_stats]
    exact hstats

theorem done_mapNodes (h : ∀ i nd, (g i nd).PR.done = nd.PR.done) : (s.mapNodes g).done = s.done := by
  unfold done mapNodes
  simp only [h]

end Simulator

/-! ### Traces that go on -/

namespace Node

/-- There is more to fetch. -/
def extend (more : Trace) (nd : Node Trace) : Node Trace :=
  { nd with PR := { nd.PR with infile := nd.PR.infile ++ more } }

variable (f : Features) (i : Fin n) (more : Trace) (nd : Node Trace)

theorem procTick_extend : (nd.extend more).procTick f i = (nd.procTick f i).extend more := by
  have hproc : (nd.extend more).L1.procRequest = nd.L1.procRequest := rfl
  have hline : ∀ a, (nd.extend more).line a = nd.line a := fun a => rfl
  unfold procTick
  rw [hproc]
  cases nd.L1.procRequest with
  | none => rfl
  | some q =>
    simp only [hline]
    split <;> rfl

theorem snoopTick_extend (cur : Option Mreq) (sh : Bool) :
    (nd.extend more).snoopTick f i cur sh = (nd.snoopTick f i cur sh).extend more := by
  have hline : ∀ a, (nd.extend more).line a = nd.line a := fun a => rfl
  unfold snoopTick
  cases cur with
  | none => rfl
  | some m =>
    simp only [hline]
    split
    · split <;> rfl
    · rfl

theorem complete_extend : (nd.extend more).complete = nd.complete.extend more := by
  have hin : (nd.extend more).PR.inboundRequest = nd.PR.inboundRequest := rfl
  unfold complete
  rw [hin]
  split <;> rfl

/-- A processor that has not come to the end of its trace does not see that there is more. -/
theorem prTick_extend (h : (nd.prTick i).PR.endOfTrace = true → more = []) :
    (nd.extend more).prTick i = (nd.prTick i).extend more := by
  have hnil : nd.extend [] = nd := by
    unfold extend
    rw [List.append_nil]
  unfold prTick at h ⊢
  rw [complete_extend]
  have hstop : ((nd.complete.extend more).PR.endOfTrace || (nd.complete.extend more).PR.outstandingRequest) =
      (nd.complete.PR.endOfTrace || nd.complete.PR.outstandingRequest) := rfl
  rw [hstop]
  split
  · rfl
  · next hgo =>
    rw [if_neg hgo] at h
    have hfile : (nd.complete.extend more).PR.infile = nd.complete.PR.infile ++ more := rfl
    cases hf : nd.complete.PR.infile with
    | nil =>
      -- the end of the trace is seen here
      have hmore : more = [] := h (by unfold issue; rw [hf])
      subst hmore
      unfold extend
      rw [List.append_nil, List.append_nil]
    | cons l rest =>
      rw [hf] at hfile
      unfold issue
      rw [hfile, hf]
      rfl

theorem tock_extend : (nd.extend more).tock = nd.tock.extend more := by
  obtain ⟨L1, ⟨infile, eot, out, inb, buf⟩⟩ := nd
  cases buf <;> rfl

theorem sameTick_extend (cur : Option Mreq) (sh : Bool)
    (h : ((nd.cacheTick f i cur sh).prTick i).PR.endOfTrace = true → more = []) :
    SameTick f f (extend more) i cur sh nd where
  asks := rfl
  queued := rfl
  upgraded := rfl
  reply := by rw [procTick_extend]; rfl
  raised := by rw [procTick_extend]; rfl
  next := by
    have hcache : (nd.extend more).cacheTick f i cur sh = (nd.cacheTick f i cur sh).extend more := by
      rw [cacheTick, procTick_extend, snoopTick_extend, cacheTick]
    rw [hcache, prTick_extend i more _ h, tock_extend]

end Node

namespace Run

variable {x y : Input n}

theorem endOfTrace_succ (r : Run x) (c : ℕ) (i : Fin n) : ((r.state (c + 1)).Nd i).PR.endOfTrace =
    (((r.state c).ticked x i).prTick i).PR.endOfTrace := by
  rw [r.next, next_node, Node.tock_PR]

/-- The end of a trace is seen once and for all. -/
theorem endOfTrace_mono (r : Run x) (c : ℕ) (i : Fin n) (h : ((r.state c).Nd i).PR.endOfTrace = true) :
    ((r.state (c + 1)).Nd i).PR.endOfTrace = true := by
  obtain ⟨st, k, l, ha⟩ := (r.inv c).node i
  obtain ⟨rfl, -⟩ := ha.eot h
  have hw := (r.inv c).not_addressed ha (by decide)
  have hPR := (Node.cacheTick_quiet x.f (r.state c).bus.tick.sharedLine ha.proc hw).1
  have heot : ((r.state c).ticked x i).PR.endOfTrace = true := by rw [hPR, h]
  rw [r.endOfTrace_succ, Node.prTick_eot i (by rw [hPR, ha.inbound]; rfl) heot, heot]

/-- **No run looks ahead.** If the traces of `y` are those of `x` with more behind them, then
up to the cycle in which a processor comes to where there is more the two runs are the same,
but for what is still to be fetched. -/
theorem causal {more : Fin n → Trace} (hp : y.protocol = x.protocol) (ht : y.hitTime = x.hitTime)
    (htraces : ∀ i, y.traces i = x.traces i ++ more i) (r : Run x) (r' : Run y) (c : ℕ)
    (hc : ∀ i, more i ≠ [] → ((r.state c).Nd i).PR.endOfTrace = false) :
    r'.state c = (r.state c).mapNodes fun i => Node.extend (more i) := by
  have hset : y.settings = x.settings := by rw [Input.settings, hp, ht]
  induction c with
  | zero =>
    rw [r.start, r'.start, show y.traces = fun i => x.traces i ++ more i from funext htraces]
    rfl
  | succ c ih =>
    have hbefore : ∀ i, more i ≠ [] → ((r.state c).Nd i).PR.endOfTrace = false := by
      intro i hi
      by_contra he
      have hlater := r.endOfTrace_mono c i (by simpa using he)
      rw [hc i hi] at hlater
      cases hlater
    rw [r'.next, ih hbefore, hset, r.next]
    refine Simulator.next_mapNodes rfl fun i => Node.sameTick_extend _ i _ _ _ _ fun he => ?_
    by_contra hi
    have hlater := hc i hi
    rw [r.endOfTrace_succ] at hlater
    rw [show (((r.state c).ticked x i).prTick i).PR.endOfTrace = true from he] at hlater
    cases hlater

end Run

/-- A third access of node 0 makes no difference to the first five cycles. -/
theorem Run.causal_third :
    let x := Input.storeLoadStore 1 (Nat.le_refl 1)
    let y : Input 2 := { x with
      traces := ![[('w', 0x40), ('w', 0x40), ('r', 0x80)], [('r', 0x40)]]
      wellFormed := by decide }
    y.run.state 5 = (x.run.state 5).mapNodes fun i => Node.extend (![[('r', 0x80)], []] i) := by
  intro x y
  have htraces : ∀ i, y.traces i = x.traces i ++ (![[('r', 0x80)], []] : Fin 2 → Trace) i := by
    intro i
    fin_cases i <;> rfl
  exact Run.causal (x := x) (y := y) rfl rfl htraces x.run y.run 5 (by decide +kernel)

/-! ### Stores only -/

/-- What MI does to a line does not depend on the operation, and is what every protocol does for
a store. -/
theorem hits_store {st : CacheState} (hv : Protocol.MI_PRO.features.valid st = true) (op : Message) :
    hits st .STORE = hits st op ∧ upgrades st .STORE = upgrades st op ∧
      (hits st op = true → afterHit st .STORE = afterHit st op) := by
  cases st with
  | I | IM | M => cases op <;> exact ⟨rfl, rfl, fun h => by first | rfl | cases h⟩
  | S | E | O | F | IS => cases hv

theorem request_store (f : Features) (op : Message) :
    f.request .STORE = .GETM ∧ Protocol.MI_PRO.features.request op = .GETM := by
  cases op <;> exact ⟨by simp [request], rfl⟩

/-- And so it is on the bus. -/
theorem snoop_store {st : CacheState} (hv : Protocol.MI_PRO.features.valid st = true) (f : Features) (sh : Bool) :
    f.yield .GETM st = Protocol.MI_PRO.features.yield .GETM st ∧
      f.raises .GETM st = Protocol.MI_PRO.features.raises .GETM st ∧
      f.fill (asked st) sh = Protocol.MI_PRO.features.fill (asked st) sh := by
  cases st with
  | I | IM | M => exact ⟨rfl, by simp [raises], rfl⟩
  | S | E | O | F | IS => cases hv

namespace Node

/-- Every access is a store. -/
def stored (nd : Node Trace) : Node Trace where
  L1 := { nd.L1 with procRequest := nd.L1.procRequest.map fun q => { q with msg := .STORE } }
  PR := { nd.PR with infile := nd.PR.infile.map fun l => ('w', l.2) }

variable (f : Features) (i : Fin n) {nd : Node Trace} {cur : Option Mreq}

section
variable (hv : ∀ a, Protocol.MI_PRO.features.valid (nd.line a) = true)
include hv

theorem procTick_stored : nd.stored.procTick f i = (nd.procTick Protocol.MI_PRO.features i).stored := by
  have hproc : nd.stored.L1.procRequest = nd.L1.procRequest.map fun q => { q with msg := .STORE } := rfl
  have hline : ∀ a, nd.stored.line a = nd.line a := fun a => rfl
  unfold procTick
  rw [hproc]
  cases hq : nd.L1.procRequest with
  | none => rfl
  | some q =>
    obtain ⟨hhits, -, hafter⟩ := hits_store (hv q.addr) q.msg
    obtain ⟨hr, hr'⟩ := request_store f q.msg
    simp only [Option.map_some, hline, hhits, hr, hr']
    split
    · next hh =>
      rw [hafter hh]
      rfl
    · rfl

theorem queued_stored : nd.stored.queued f i = nd.queued Protocol.MI_PRO.features i := by
  have hproc : nd.stored.L1.procRequest = nd.L1.procRequest.map fun q => { q with msg := .STORE } := rfl
  have hline : ∀ a, nd.stored.line a = nd.line a := fun a => rfl
  unfold queued
  rw [hproc]
  cases hq : nd.L1.procRequest with
  | none => rfl
  | some q =>
    obtain ⟨hr, hr'⟩ := request_store f q.msg
    simp only [Option.map_some, hline, (hits_store (hv q.addr) q.msg).1, hr, hr']

theorem upgraded_stored : nd.stored.upgraded = nd.upgraded := by
  have hproc : nd.stored.L1.procRequest = nd.L1.procRequest.map fun q => { q with msg := .STORE } := rfl
  have hline : ∀ a, nd.stored.line a = nd.line a := fun a => rfl
  unfold upgraded
  rw [hproc]
  cases hq : nd.L1.procRequest with
  | none => rfl
  | some q => simp only [Option.map_some, hline, (hits_store (hv q.addr) q.msg).2.1]

variable (hcur : ∀ m, cur = some m → m.msg ≠ .DATA → m.msg = .GETM)
include hcur

theorem snoopTick_stored (sh : Bool) :
    nd.stored.snoopTick f i cur sh = (nd.snoopTick Protocol.MI_PRO.features i cur sh).stored := by
  have hline : ∀ a, nd.stored.line a = nd.line a := fun a => rfl
  unfold snoopTick
  cases hm : cur with
  | none => rfl
  | some m =>
    obtain ⟨hyield, -, hfill⟩ := snoop_store (hv m.addr) f sh
    simp only [hline, hfill]
    split
    · split <;> rfl
    · next hd =>
      rw [hcur m hm hd, hyield]
      rfl

theorem raised_stored : nd.stored.raised f cur = nd.raised Protocol.MI_PRO.features cur := by
  have hline : ∀ a, nd.stored.line a = nd.line a := fun a => rfl
  unfold raised
  cases hm : cur with
  | none => rfl
  | some m =>
    simp only [hline]
    by_cases hd : m.msg = .DATA
    · simp [hd]
    · rw [hcur m hm hd, (snoop_store (hv m.addr) f false).2.1]

end

theorem prTick_stored (nd : Node Trace) : nd.stored.prTick i = (nd.prTick i).stored := by
  have hcomplete : nd.stored.complete = nd.complete.stored := by
    have hin : nd.stored.PR.inboundRequest = nd.PR.inboundRequest := rfl
    unfold complete
    rw [hin]
    split <;> rfl
  have hstop : (nd.complete.stored.PR.endOfTrace || nd.complete.stored.PR.outstandingRequest) =
      (nd.complete.PR.endOfTrace || nd.complete.PR.outstandingRequest) := rfl
  have hfile : nd.complete.stored.PR.infile = nd.complete.PR.infile.map fun l => ('w', l.2) := rfl
  unfold prTick
  rw [hcomplete, hstop]
  split
  · rfl
  · unfold issue
    rw [hfile]
    cases hf : nd.complete.PR.infile with
    | nil =>
      unfold stored
      rw [hf]
      rfl
    | cons l rest => rfl

theorem tock_stored (nd : Node Trace) : nd.stored.tock = nd.tock.stored := by
  obtain ⟨L1, ⟨infile, eot, out, inb, buf⟩⟩ := nd
  cases buf <;> rfl

theorem sameTick_stored (hv : ∀ a, Protocol.MI_PRO.features.valid (nd.line a) = true)
    (hcur : ∀ m, cur = some m → m.msg ≠ .DATA → m.msg = .GETM) (sh : Bool) :
    SameTick Protocol.MI_PRO.features f stored i cur sh nd := by
  have hv' : ∀ a, Protocol.MI_PRO.features.valid ((nd.procTick Protocol.MI_PRO.features i).line a) = true :=
    valid_procTick i hv
  refine { asks := Option.isSome_map, queued := queued_stored f i hv, upgraded := upgraded_stored hv,
           reply := ?_, raised := ?_, next := ?_ }
  · rw [procTick_stored f i hv]
    rfl
  · rw [procTick_stored f i hv, raised_stored f hv' hcur]
  · rw [cacheTick, procTick_stored f i hv, snoopTick_stored f i hv' hcur, prTick_stored, tock_stored, cacheTick]

end Node

/-- The same traces under another protocol, with every load made a store. -/
def Input.stored (x : Input n) (p : Protocol) : Input n where
  protocol := p
  hitTime := x.hitTime
  hitTime_pos := x.hitTime_pos
  traces i := (x.traces i).map fun l => ('w', l.2)
  wellFormed i l hl := by
    obtain ⟨l', -, rfl⟩ := List.mem_map.mp hl
    exact Or.inr rfl

/-- The state with every access made a store. -/
def Simulator.stored (s : Simulator n Trace) : Simulator n Trace := s.mapNodes fun _ => Node.stored

namespace Run

variable {x : Input n} {p : Protocol}

theorem state_stored (hx : x.protocol = .MI_PRO) (r : Run x) (r' : Run (x.stored p)) (c : ℕ) :
    r'.state c = (r.state c).stored := by
  induction c with
  | zero => rw [r.start, r'.start]; rfl
  | succ c ih =>
    have hf : x.settings.protocol.features = Protocol.MI_PRO.features := congrArg Protocol.features hx
    rw [r'.next, ih, r.next]
    refine Simulator.next_mapNodes rfl fun i => ?_
    rw [hf]
    refine Node.sameTick_stored _ i (fun a => hf ▸ (r.inv c).valid i a) (fun m hm hd => ?_) _
    obtain ⟨-, -, -, -, j, k, l, -, rfl⟩ := (r.inv c).wire_request hm hd
    rw [ask_msg, show x.f = Protocol.MI_PRO.features from hf]
    exact (request_store Protocol.MI_PRO.features _).2

/-- **Under MI a load is a store, and on stores the protocols are one.** Whatever the traces, a
run under MI is cycle by cycle the run under any other protocol of the same traces with every
load made a store, to the end, with the same states, messages and counters. -/
theorem stores_run (hx : x.protocol = .MI_PRO) (p : Protocol) (r : Run x) (r' : Run (x.stored p)) :
    (∀ c, r'.state c = (r.state c).stored) ∧
    ∀ fuel, (Simulator.init (x.stored p).traces).run ⟨p, x.hitTime⟩ fuel =
      ((Simulator.init x.traces).run ⟨.MI_PRO, x.hitTime⟩ fuel).map (Option.map Simulator.stored) := by
  have hstate := state_stored hx r r'
  have hdone : ∀ c, (r'.state c).done = (r.state c).done := by
    intro c
    rw [hstate]
    exact Simulator.done_mapNodes fun i nd => rfl
  obtain ⟨R, hR⟩ := r.exists_ends
  have hR' : r'.Ends R :=
    ⟨hR.pos, (hdone R).trans hR.done, fun c hc hlt => (hdone c).trans (hR.first c hc hlt)⟩
  refine ⟨hstate, fun fuel => ?_⟩
  have hrun := r.run_eq_of_ends hR fuel
  have hrun' := r'.run_eq_of_ends hR' fuel
  rw [show x.settings = ⟨.MI_PRO, x.hitTime⟩ by rw [Input.settings, hx]] at hrun
  rw [hrun, show (Simulator.init (x.stored p).traces).run ⟨p, x.hitTime⟩ fuel = _ from hrun', hstate]
  split <;> rfl

end Run

/-- Under MESI, with both accesses a store. -/
theorem Run.stores_run_oneLine :
    let x := Input.oneLine
    (∀ c, (x.stored .MESI_PRO).run.state c = (x.run.state c).stored) ∧
    ∀ fuel, (Simulator.init (x.stored .MESI_PRO).traces).run ⟨.MESI_PRO, 1⟩ fuel =
      ((Simulator.init x.traces).run ⟨.MI_PRO, 1⟩ fuel).map (Option.map Simulator.stored) :=
  Run.stores_run rfl .MESI_PRO Input.oneLine.run (Input.oneLine.stored .MESI_PRO).run

end CoherenceSim
