/-
# The caches of a cycle tick independently

What the tick of a cache does, as functions of its node, the message on the bus
and the shared line alone (`Node.procTick`, `Node.snoopTick` and what they put on
the bus), and what the ticks of a list of caches do together (`Simulator.sync`).
`tickCaches_eq_sync`: if every node is ready for its tick and at most one of them
answers the message on the bus, the loop over the caches ends in that state, and
so does it in any order of the list.
-/
import CoherenceSim.Family
import CoherenceSim.Lib.Loop
import CoherenceSim.Sim

namespace CoherenceSim

open Features

variable {n : ℕ} {F : Type}

/-! ### The lines of a node -/

namespace Node

/-- The state of a line, `I` where the table has no entry. -/
def line (nd : Node F) (a : Paddr) : CacheState := (nd.L1.getEntry a).state

/-- The line `a`, with an entry, in state `st`. -/
def setLine (nd : Node F) (a : Paddr) (st : CacheState) : Node F :=
  { nd with L1 := nd.L1.setEntry a { nd.L1.getEntry a with state := st } }

@[simp] theorem line_setLine (nd : Node F) (a b : Paddr) (st : CacheState) :
    (nd.setLine a st).line b = if b = a then st else nd.line b := by
  unfold line setLine HashTable.getEntry HashTable.setEntry
  by_cases h : b = a <;> simp [h]

@[simp] theorem procRequest_setLine (nd : Node F) (a : Paddr) (st : CacheState) :
    (nd.setLine a st).L1.procRequest = nd.L1.procRequest := rfl

@[simp] theorem PR_setLine (nd : Node F) (a : Paddr) (st : CacheState) :
    (nd.setLine a st).PR = nd.PR := rfl

/-! ### The tick of one cache -/

variable (f : Features) (i : Fin n)

/-- The request of the processor is done with. -/
def clearProc (nd : Node F) : Node F := { nd with L1 := { nd.L1 with procRequest := none } }

/-- DATA is handed to the processor. -/
def hand (nd : Node F) (a : Paddr) : Node F :=
  { nd with PR := { nd.PR with inboundRequestBuf := some (dataToProc (L1id i) a) } }

/-- The node after the first half of the tick. -/
def procTick (nd : Node F) : Node F :=
  match nd.L1.procRequest with
  | none => nd
  | some r =>
    if hits (nd.line r.addr) r.msg then
      ((nd.setLine r.addr (afterHit (nd.line r.addr) r.msg)).hand i r.addr).clearProc
    else (nd.setLine r.addr (pend (f.request r.msg))).clearProc

/-- What the first half puts in the queue of the bus: the request of a miss. -/
def queued (nd : Node F) : List Mreq :=
  match nd.L1.procRequest with
  | none => []
  | some r => if hits (nd.line r.addr) r.msg then [] else [getMsg (f.request r.msg) (L1id i) r.addr]

/-- The first half upgrades a line without the bus. -/
def upgraded (nd : Node F) : Bool :=
  match nd.L1.procRequest with
  | none => false
  | some r => upgrades (nd.line r.addr) r.msg

/-- The node after the second half. -/
def snoopTick (cur : Option Mreq) (shared : Bool) (nd : Node F) : Node F :=
  match cur with
  | none => nd
  | some m =>
    if m.msg = .DATA then
      if m.destMid = L1id i then
        (nd.setLine m.addr (f.fill (asked (nd.line m.addr)) shared)).hand i m.addr
      else nd
    else nd.setLine m.addr (f.yield m.msg (nd.line m.addr))

/-- What the second half answers. -/
def reply (cur : Option Mreq) (nd : Node F) : Option Mreq :=
  match cur with
  | none => none
  | some m => if m.msg ≠ .DATA ∧ supplies (nd.line m.addr) then some (replyTo (L1id i) m) else none

/-- The second half raises the shared line. -/
def raised (cur : Option Mreq) (nd : Node F) : Bool :=
  match cur with
  | none => false
  | some m => m.msg ≠ .DATA ∧ f.raises m.msg (nd.line m.addr)

/-- The node after its tick. -/
def cacheTick (cur : Option Mreq) (shared : Bool) (nd : Node F) : Node F :=
  (nd.procTick f i).snoopTick f i cur shared

end Node

/-! ### The code does this -/

/-- What a node meets no error with in the first half of its tick. -/
def Node.ProcReady (p : Protocol) (nd : Node F) : Prop :=
  ∀ r, nd.L1.procRequest = some r → (r.msg = .LOAD ∨ r.msg = .STORE) ∧
    p.features.valid (nd.line r.addr) = true ∧ (nd.line r.addr).pending = false ∧
    nd.PR.inboundRequestBuf = none

/-- And in the second half, given what waits in `data_reply`. -/
def Node.SnoopReady (p : Protocol) (i : Fin n) (cur dataReply : Option Mreq) (nd : Node F) : Prop :=
  ∀ m, cur = some m →
    (m.msg ≠ .DATA → (m.msg = .GETS ∨ m.msg = .GETM) ∧ p.features.valid (nd.line m.addr) = true ∧
      (supplies (nd.line m.addr) = true → dataReply = none)) ∧
    (m.msg = .DATA → m.destMid = L1id i → nd.PR.inboundRequestBuf = none ∧
      ∃ op, nd.line m.addr = pend (p.features.request op))

namespace Simulator

variable (S : Settings)

/-- The state after the first half of the tick of cache `i`. -/
def afterProc (s : Simulator n F) (i : Fin n) : Simulator n F :=
  let nd := s.Nd i
  let f := S.protocol.features
  { s.setNode i (nd.procTick f i) with
    bus := { s.bus with pendingRequests := s.bus.pendingRequests ++ nd.queued f i }
    stats := { s.stats with
      cacheMisses := s.stats.cacheMisses + (nd.queued f i).length
      cacheAccesses := s.stats.cacheAccesses + nd.L1.procRequest.isSome.toNat
      silentUpgrades := s.stats.silentUpgrades + nd.upgraded.toNat } }

/-- The state after the second half. -/
def afterSnoop (s : Simulator n F) (i : Fin n) : Simulator n F :=
  let nd := s.Nd i
  let f := S.protocol.features
  { s.setNode i (nd.snoopTick f i s.bus.currentRequest s.bus.sharedLine) with
    bus := { s.bus with
      dataReply := (nd.reply i s.bus.currentRequest).or s.bus.dataReply
      sharedLine := s.bus.sharedLine || nd.raised f s.bus.currentRequest }
    stats := { s.stats with cacheToCacheTransfers :=
      s.stats.cacheToCacheTransfers + (nd.reply i s.bus.currentRequest).isSome.toNat } }

@[simp] theorem setNode_Nd (s : Simulator n F) (i j : Fin n) (nd : Node F) :
    (s.setNode i nd).Nd j = if j = i then nd else s.Nd j := rfl

theorem setNode_self (s : Simulator n F) (i : Fin n) : s.setNode i (s.Nd i) = s := by
  obtain ⟨clock, bus, Nd, MC, stats⟩ := s
  simp only [setNode, Simulator.mk.injEq, true_and, and_true]
  funext j
  by_cases h : j = i <;> simp [h]

/-- Code that ends normally changes the line, the input buffer, the bus and the
counters. -/
theorem withEntry_eq {s : Simulator n F} {i : Fin n} {a : Paddr} {code : Action Unit} {c : Ctx}
    (h : code.run ⟨(s.Nd i).line a, s.bus, (s.Nd i).PR.inboundRequestBuf, s.stats⟩ = .ok ((), c)) :
    s.withEntry i a code = .ok { s.setNode i { (s.Nd i).setLine a c.state with
        PR := { (s.Nd i).PR with inboundRequestBuf := c.inboundRequestBuf } } with
      bus := c.bus, stats := c.stats } := by
  unfold withEntry
  simp only [Node.line] at h
  simp only [h]
  rfl

theorem withEntry_error {s : Simulator n F} {i : Fin n} {a : Paddr} {code : Action Unit} {e : Fatal}
    (h : code.run ⟨(s.Nd i).line a, s.bus, (s.Nd i).PR.inboundRequestBuf, s.stats⟩ = .error e) :
    s.withEntry i a code = .error e := by
  unfold withEntry
  simp only [Node.line] at h
  simp only [h]
  rfl

theorem tickProcRequest_eq {s : Simulator n F} {i : Fin n} (h : (s.Nd i).ProcReady S.protocol) :
    s.tickProcRequest S i = .ok (s.afterProc S i) := by
  unfold tickProcRequest afterProc
  cases hr : (s.Nd i).L1.procRequest with
  | none =>
    simp [Node.procTick, Node.queued, Node.upgraded, hr, setNode_self, pure, Except.pure]
  | some r =>
    obtain ⟨hop, hv, hp, hb⟩ := h r hr
    set s' : Simulator n F := { s with stats := { s.stats with cacheAccesses := s.stats.cacheAccesses + 1 } }
    cases hh : hits ((s.Nd i).line r.addr) r.msg with
    | true =>
      have hc : s'.withEntry i r.addr (processCacheRequest S.protocol (L1id i) r) = _ :=
        withEntry_eq (processCacheRequest_hit (c := ⟨_, _, _, _⟩) hop hv hh hb)
      simp only [hc]
      refine congrArg Except.ok (Simulator.ext rfl ?_ ?_ rfl ?_)
      · simp [s', setNode, Node.queued, hr, hh]
      · funext j
        by_cases hj : j = i
        · simp [hj, s', setNode, Node.procTick, hr, hh, Node.hand, Node.clearProc]
        · simp [hj, s', setNode]
      · simp [s', setNode, Node.queued, Node.upgraded, hr, hh]
    | false =>
      have hc : s'.withEntry i r.addr (processCacheRequest S.protocol (L1id i) r) = _ :=
        withEntry_eq (processCacheRequest_miss (c := ⟨_, _, _, _⟩) hop hv hp hh)
      simp only [hc]
      refine congrArg Except.ok (Simulator.ext rfl ?_ ?_ rfl ?_)
      · simp [s', setNode, Node.queued, hr, hh]
      · funext j
        by_cases hj : j = i
        · simp [hj, s', setNode, Node.procTick, hr, hh, Node.clearProc]
        · simp [hj, s', setNode]
      · simp [s', setNode, Node.queued, Node.upgraded, hr, hh, not_upgrades hh]

theorem tickSnoop_eq {s : Simulator n F} {i : Fin n}
    (h : (s.Nd i).SnoopReady S.protocol i s.bus.currentRequest s.bus.dataReply) :
    s.tickSnoop S i = .ok (s.afterSnoop S i) := by
  unfold tickSnoop afterSnoop Bus.busSnoop
  cases hm : s.bus.currentRequest with
  | none => simp [Node.snoopTick, Node.reply, Node.raised, setNode_self, pure, Except.pure]
  | some m =>
    obtain ⟨hreq, hdata⟩ := h m hm
    by_cases hd : m.msg = .DATA
    · by_cases hme : m.destMid = L1id i
      · obtain ⟨hb, op, hop⟩ := hdata hd hme
        have hc : s.withEntry i m.addr (processSnoopRequest S.protocol (L1id i) m) = _ :=
          withEntry_eq (processSnoopRequest_data (c := ⟨_, _, _, _⟩) hd hop hb)
        simp only [hd, hme, ne_eq, not_true_eq_false, and_false, if_false, hc]
        refine congrArg Except.ok (Simulator.ext rfl ?_ ?_ rfl ?_)
        · simp [Node.reply, Node.raised, hd]
        · funext j
          by_cases hj : j = i
          · simp [hj, setNode, Node.snoopTick, hd, hme, hop, asked_pend, Node.hand]
          · simp [hj, setNode]
        · simp [Node.reply, hd]
      · simp [Node.snoopTick, Node.reply, Node.raised, hd, hme, setNode_self, pure, Except.pure]
    · obtain ⟨hk, hv, hs⟩ := hreq hd
      have hc : s.withEntry i m.addr (processSnoopRequest S.protocol (L1id i) m) = _ :=
        withEntry_eq (processSnoopRequest_request (c := ⟨_, _, _, _⟩) hk hv hs)
      simp only [hd, false_and, if_false, hc]
      refine congrArg Except.ok (Simulator.ext rfl ?_ ?_ rfl ?_)
      · cases hsup : supplies ((s.Nd i).line m.addr) <;> simp [Node.reply, Node.raised, hd, hsup]
      · funext j
        by_cases hj : j = i
        · simp only [setNode, hj, if_true, Node.snoopTick, hd, if_false]
          rfl
        · simp [hj, setNode]
      · cases hsup : supplies ((s.Nd i).line m.addr) <;> simp [Node.reply, hd, hsup]

/-! ### All of them -/

/-- The state after the caches of `l` have ticked. -/
def sync (s : Simulator n F) (l : List (Fin n)) : Simulator n F :=
  let f := S.protocol.features
  let cur := s.bus.currentRequest
  { s with
    bus := { s.bus with
      pendingRequests := s.bus.pendingRequests ++ l.flatMap fun i => (s.Nd i).queued f i
      dataReply := (l.findSome? fun i => ((s.Nd i).procTick f i).reply i cur).or s.bus.dataReply
      sharedLine := s.bus.sharedLine || l.any fun i => ((s.Nd i).procTick f i).raised f cur }
    Nd := fun i => if i ∈ l then (s.Nd i).cacheTick f i cur s.bus.sharedLine else s.Nd i
    stats := {
      cacheMisses := s.stats.cacheMisses + (l.flatMap fun i => (s.Nd i).queued f i).length
      cacheAccesses := s.stats.cacheAccesses + l.countP fun i => (s.Nd i).L1.procRequest.isSome
      silentUpgrades := s.stats.silentUpgrades + l.countP fun i => (s.Nd i).upgraded
      cacheToCacheTransfers := s.stats.cacheToCacheTransfers +
        l.countP fun i => (((s.Nd i).procTick f i).reply i cur).isSome } }

/-- What the caches of a cycle meet no error with: every node is ready, and at
most one of them answers. -/
structure Ready (s : Simulator n F) : Prop where
  proc : ∀ i, (s.Nd i).ProcReady S.protocol
  snoop : ∀ i, ((s.Nd i).procTick S.protocol.features i).SnoopReady S.protocol i
    s.bus.currentRequest s.bus.dataReply
  one : ∀ i j, (((s.Nd i).procTick S.protocol.features i).reply i s.bus.currentRequest).isSome →
    (((s.Nd j).procTick S.protocol.features j).reply j s.bus.currentRequest).isSome → i = j

/-- Only DATA reads the shared line, and nobody raises it then. -/
theorem snoopTick_shared (f : Features) (i : Fin n) {cur : Option Mreq} {sh : Bool} (nd : Node F)
    {l : List (Fin n)} (nds : Fin n → Node F) :
    nd.snoopTick f i cur (sh || l.any fun j => (nds j).raised f cur) = nd.snoopTick f i cur sh := by
  cases cur with
  | none => rfl
  | some m =>
    by_cases hd : m.msg = .DATA
    · have hany : (l.any fun j => (nds j).raised f (some m)) = false := by
        rw [List.any_eq_false]
        intro j _
        simp [Node.raised, hd]
      rw [hany, Bool.or_false]
    · simp [Node.snoopTick, hd]

/-- If `i` answers, none of the others does. -/
theorem Ready.alone {s : Simulator n F} (h : s.Ready S) {l : List (Fin n)} {i : Fin n} (hi : i ∉ l)
    (hr : (((s.Nd i).procTick S.protocol.features i).reply i s.bus.currentRequest).isSome) :
    (l.findSome? fun j =>
      ((s.Nd j).procTick S.protocol.features j).reply j s.bus.currentRequest) = none := by
  rw [List.findSome?_eq_none_iff]
  intro j hj
  by_contra hne
  exact hi (h.one i j hr (Option.isSome_iff_ne_none.mpr hne) ▸ hj)

theorem countP_append_singleton {α : Type} (p : α → Bool) (l : List α) (a : α) :
    (l ++ [a]).countP p = l.countP p + (p a).toNat := by
  rw [List.countP_append, List.countP_singleton]
  cases p a <;> rfl

theorem sync_Nd (s : Simulator n F) {l : List (Fin n)} {i : Fin n} (hi : i ∉ l) :
    (s.sync S l).Nd i = s.Nd i := if_neg hi

/-- The first half of the tick of one cache more. -/
theorem tickProcRequest_sync {s : Simulator n F} (h : s.Ready S) {l : List (Fin n)} {i : Fin n}
    (hi : i ∉ l) : (s.sync S l).tickProcRequest S i = .ok ((s.sync S l).afterProc S i) :=
  tickProcRequest_eq S (by rw [sync_Nd S s hi]; exact h.proc i)

/-- And the second. -/
theorem tickSnoop_sync {s : Simulator n F} (h : s.Ready S) {l : List (Fin n)} {i : Fin n}
    (hi : i ∉ l) : ((s.sync S l).afterProc S i).tickSnoop S i = .ok (s.sync S (l ++ [i])) := by
  have hnd := sync_Nd S s hi
  have hnd' : ((s.sync S l).afterProc S i).Nd i = (s.Nd i).procTick S.protocol.features i := by
    simp [afterProc, hnd]
  have hsnoop := tickSnoop_eq S (s := (s.sync S l).afterProc S i) (i := i) (by
    rw [hnd']
    intro m hm
    obtain ⟨h1, h2⟩ := h.snoop i m hm
    refine ⟨fun hd => ⟨(h1 hd).1, (h1 hd).2.1, fun hs => ?_⟩, h2⟩
    show (List.findSome? _ l).or s.bus.dataReply = none
    have hm' : s.bus.currentRequest = some m := hm
    rw [h.alone S hi (by simp [Node.reply, hm', hd, hs])]
    exact (h1 hd).2.2 hs)
  rw [hsnoop]
  set f := S.protocol.features with hf
  set cur := s.bus.currentRequest with hcur
  refine congrArg Except.ok (Simulator.ext rfl ?_ ?_ rfl ?_)
  · have hdata : (((s.Nd i).procTick f i).reply i cur).or
        ((l.findSome? fun j => ((s.Nd j).procTick f j).reply j cur).or s.bus.dataReply) =
        ((l ++ [i]).findSome? fun j => ((s.Nd j).procTick f j).reply j cur).or s.bus.dataReply := by
      rw [List.findSome?_append, List.findSome?_singleton]
      cases hr : ((s.Nd i).procTick f i).reply i cur with
      | none => simp
      | some d => rw [h.alone S hi (by rw [← hcur, ← hf, hr]; rfl)]; simp
    show Bus.mk cur _ ((Node.reply i cur _).or _) _ (_ || _) = Bus.mk cur _ _ _ _
    rw [hnd']
    refine (Bus.mk.injEq ..).mpr ⟨rfl, ?_, hdata, rfl, ?_⟩
    · show (s.bus.pendingRequests ++ _) ++ Node.queued f i ((s.sync S l).Nd i) = _
      rw [hnd, ← hf, List.flatMap_append, List.flatMap_singleton, List.append_assoc]
    · show ((s.bus.sharedLine || (l.any _ : Bool)) || _) = _
      rw [← hf, ← hcur, List.any_append, Bool.or_assoc, List.any_cons, List.any_nil, Bool.or_false]
      rfl
  · funext j
    show (if j = i then ((s.sync S l).afterProc S i |>.Nd i).snoopTick f i
      cur (s.sync S l).bus.sharedLine else _) = _
    rw [hnd']
    by_cases hj : j = i
    · subst hj
      simp only [if_true, sync, List.mem_append, List.mem_singleton, or_true, Node.cacheTick]
      exact snoopTick_shared _ _ _ fun k => (s.Nd k).procTick f k
    · simp [hj, afterProc, sync]
  · show Stats.mk (_ + (Node.queued f i ((s.sync S l).Nd i)).length)
      (_ + ((s.sync S l).Nd i).L1.procRequest.isSome.toNat) (_ + ((s.sync S l).Nd i).upgraded.toNat)
      (_ + (Node.reply i cur (((s.sync S l).afterProc S i).Nd i)).isSome.toNat) = Stats.mk _ _ _ _
    rw [hnd', hnd]
    simp only [countP_append_singleton, sync, afterProc, ← hf, ← hcur, List.flatMap_append,
      List.flatMap_singleton, List.length_append, Nat.add_assoc]

theorem tickCache_sync {s : Simulator n F} (h : s.Ready S) {l : List (Fin n)} {i : Fin n}
    (hi : i ∉ l) : (s.sync S l).tickCache S i = .ok (s.sync S (l ++ [i])) := by
  unfold tickCache
  rw [tickProcRequest_sync S h hi]
  exact tickSnoop_sync S h hi

theorem tickCaches_eq_sync {s : Simulator n F} (h : s.Ready S) {l : List (Fin n)} (hl : l.Nodup) :
    s.tickCaches S l = .ok (s.sync S l) := by
  refine Loop.foldlM_closed (fun l => s.sync S l) ?_ (fun l i hn => ?_) l hl
  · simp [sync]
  · exact tickCache_sync S h (Loop.notMem_of_nodup hn)

end Simulator

/-! ### What a cache does not see -/

/-- Of its node a cache sees the table and the input buffer of the processor, and these are
all it changes. -/
structure Node.SameToCache {G : Type} (g : Node F → Node G) : Prop where
  L1 : ∀ nd, (g nd).L1 = nd.L1
  inboundRequestBuf : ∀ nd, (g nd).PR.inboundRequestBuf = nd.PR.inboundRequestBuf
  update : ∀ nd table buf, g { L1 := table, PR := { nd.PR with inboundRequestBuf := buf } } =
    { L1 := table, PR := { (g nd).PR with inboundRequestBuf := buf } }

theorem Node.SameToCache.id : Node.SameToCache (id : Node F → Node F) where
  L1 _ := rfl
  inboundRequestBuf _ := rfl
  update _ _ _ := rfl

namespace Simulator

variable {G : Type} {g : Node F → Node G} (S : Settings)

/-- The state with other nodes and another memory controller. -/
def mapNd (g : Node F → Node G) (mc : MemoryController → MemoryController) (s : Simulator n F) :
    Simulator n G where
  globalClock := s.globalClock
  bus := s.bus
  Nd i := g (s.Nd i)
  MC := mc s.MC
  stats := s.stats

theorem mapNd_setNode (mc : MemoryController → MemoryController) (s : Simulator n F) (i : Fin n)
    (nd : Node F) : (s.setNode i nd).mapNd g mc = (s.mapNd g mc).setNode i (g nd) := by
  refine Simulator.ext rfl rfl ?_ rfl rfl
  funext j
  exact apply_ite g (j = i) nd (s.Nd j)

theorem withEntry_mapNd (hg : Node.SameToCache g) (mc : MemoryController → MemoryController)
    (s : Simulator n F) (i : Fin n) (a : Paddr) (code : Action Unit) :
    (s.mapNd g mc).withEntry i a code = (s.withEntry i a code).map (mapNd g mc) := by
  have hctx : (⟨((s.mapNd g mc).Nd i).line a, (s.mapNd g mc).bus,
      ((s.mapNd g mc).Nd i).PR.inboundRequestBuf, (s.mapNd g mc).stats⟩ : Ctx) = ⟨(s.Nd i).line a, s.bus, (s.Nd i).PR.inboundRequestBuf, s.stats⟩ := by
    simp only [mapNd, Node.line, hg.L1, hg.inboundRequestBuf]
  cases h : code.run ⟨(s.Nd i).line a, s.bus, (s.Nd i).PR.inboundRequestBuf, s.stats⟩ with
  | error e =>
    rw [withEntry_error h, withEntry_error (hctx ▸ h)]
    rfl
  | ok r =>
    obtain ⟨⟨⟩, c⟩ := r
    rw [withEntry_eq h, withEntry_eq (hctx ▸ h)]
    refine congrArg Except.ok (Simulator.ext rfl rfl ?_ rfl rfl)
    funext j
    rw [setNode_Nd]
    show _ = g (if j = i then _ else s.Nd j)
    split
    · refine Eq.trans ?_ (hg.update (s.Nd i) _ _).symm
      simp only [mapNd, Node.setLine, hg.L1]
    · rfl

theorem tickProcRequest_mapNd (hg : Node.SameToCache g) (mc : MemoryController → MemoryController)
    (s : Simulator n F) (i : Fin n) :
    (s.mapNd g mc).tickProcRequest S i = (s.tickProcRequest S i).map (mapNd g mc) := by
  have hproc : ((s.mapNd g mc).Nd i).L1.procRequest = (s.Nd i).L1.procRequest :=
    congrArg HashTable.procRequest (hg.L1 (s.Nd i))
  unfold tickProcRequest
  rw [hproc]
  cases (s.Nd i).L1.procRequest with
  | none => rfl
  | some r =>
    set t : Simulator n F := { s with stats := { s.stats with cacheAccesses := s.stats.cacheAccesses + 1 } }
    show ((t.mapNd g mc).withEntry i r.addr _ >>= fun s => _) =
      Except.map _ (t.withEntry i r.addr _ >>= fun s => _)
    rw [withEntry_mapNd hg]
    cases t.withEntry i r.addr (processCacheRequest S.protocol (L1id i) r) with
    | error e => rfl
    | ok u =>
      refine congrArg Except.ok ?_
      rw [mapNd_setNode]
      refine congrArg _ ?_
      have hupd := hg.update (u.Nd i) { (u.Nd i).L1 with procRequest := none } (u.Nd i).PR.inboundRequestBuf
      refine Eq.trans ?_ hupd.symm
      simp only [mapNd, hg.L1, ← hg.inboundRequestBuf]

theorem tickSnoop_mapNd (hg : Node.SameToCache g) (mc : MemoryController → MemoryController)
    (s : Simulator n F) (i : Fin n) :
    (s.mapNd g mc).tickSnoop S i = (s.tickSnoop S i).map (mapNd g mc) := by
  have hbus : (s.mapNd g mc).bus.busSnoop = s.bus.busSnoop := rfl
  unfold tickSnoop
  rw [hbus]
  cases s.bus.busSnoop with
  | none => rfl
  | some m =>
    simp only
    split
    · rfl
    · exact withEntry_mapNd hg mc s i m.addr _

/-- **The tick of a cache does not depend on the rest of the nodes**, nor on the memory
controller. -/
theorem tickCache_mapNd (hg : Node.SameToCache g) (mc : MemoryController → MemoryController)
    (s : Simulator n F) (i : Fin n) :
    (s.mapNd g mc).tickCache S i = (s.tickCache S i).map (mapNd g mc) := by
  unfold tickCache
  rw [tickProcRequest_mapNd S hg]
  cases s.tickProcRequest S i with
  | error e => rfl
  | ok t => exact tickSnoop_mapNd S hg mc t i

end Simulator

end CoherenceSim
