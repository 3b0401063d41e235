/-
# A cycle in closed form

What a whole cycle of `Simulator::run` does when it meets no error, as functions
of the state at its start (`Simulator.next`): the bus moves, every cache ticks by
itself (`sync`), every processor does (`Node.prTick`), and the memory controller
sees the message on the bus (`Simulator.memory`). `cycle_eq_next`.
-/
import CoherenceSim.Tick

namespace CoherenceSim

variable {n : ℕ}

/-- The request the operation of a line of a trace makes. -/
def opOf (c : Char) : Message := if c = 'w' then .STORE else .LOAD

theorem opOf_cases (c : Char) : opOf c = .LOAD ∨ opOf c = .STORE := by
  unfold opOf; split
  · exact Or.inr rfl
  · exact Or.inl rfl

/-! ### The processors -/

namespace Node

/-- The access in `inbound_request` is over. -/
def complete (nd : Node Trace) : Node Trace :=
  if nd.PR.inboundRequest.isSome then
    { nd with PR := { nd.PR with outstandingRequest := false, inboundRequest := none } }
  else nd

/-- The processor fetches a line, or finds that there is none. -/
def issue {n : ℕ} (i : Fin n) (nd : Node Trace) : Node Trace :=
  match nd.PR.infile with
  | [] => { nd with PR := { nd.PR with endOfTrace := true } }
  | line :: rest =>
    { L1 := { nd.L1 with procRequest := some (.new (opOf line.1) line.2 (PRid i)) }
      PR := { nd.PR with infile := rest, outstandingRequest := true } }

/-- The node after the tick of its processor. -/
def prTick {n : ℕ} (i : Fin n) (nd : Node Trace) : Node Trace :=
  if nd.complete.PR.endOfTrace || nd.complete.PR.outstandingRequest then nd.complete
  else nd.complete.issue i

/-- And after its tock. -/
def tock (nd : Node Trace) : Node Trace := { nd with PR := nd.PR.tock }

/-- What the tick of a processor meets no error with. -/
def PrReady (nd : Node Trace) : Prop :=
  (∀ d, nd.PR.inboundRequest = some d → d.msg = .DATA) ∧
    ∀ l ∈ nd.PR.infile, l.1 = 'r' ∨ l.1 = 'w'

theorem complete_eq_of_data {nd : Node Trace} (h : ∀ d, nd.PR.inboundRequest = some d → d.msg = .DATA) :
    nd.PR.complete = .ok nd.complete.PR := by
  unfold Processor.complete complete
  cases hd : nd.PR.inboundRequest with
  | none => simp
  | some d => simp [h d hd]

theorem complete_eq {nd : Node Trace} (h : nd.PrReady) : nd.PR.complete = .ok nd.complete.PR :=
  complete_eq_of_data h.1

theorem fetch_eq {i : Fin n} {nd : Node Trace} (h : ∀ l ∈ nd.PR.infile, l.1 = 'r' ∨ l.1 = 'w')
    (hs : (nd.PR.endOfTrace || nd.PR.outstandingRequest) = false) :
    nd.fetch i = .ok (nd.issue i) := by
  unfold fetch issue
  rw [hs]
  simp only [Bool.false_eq_true, if_false]
  cases hf : nd.PR.infile with
  | nil => simp only [Infile.fscanf, ← hf]
  | cons l rest =>
    obtain ⟨c, addr⟩ := l
    rcases h (c, addr) (by simp [hf]) with hc | hc <;> obtain rfl : c = _ := hc <;> rfl

theorem complete_infile (nd : Node Trace) : nd.complete.PR.infile = nd.PR.infile := by
  unfold complete; split <;> rfl

end Node

/-! ### The memory controller -/

namespace MemoryController

variable (S : Settings) (mc : MemoryController) (clock : ℕ) (cur : Option Mreq)

/-- The controller after it has seen the message on the bus. -/
def see : MemoryController :=
  match cur with
  | none => mc
  | some m =>
    if m.msg = .DATA then { mc with requestInProgress := false }
    else { requestInProgress := true, dataTime := clock + S.hitTime, dataAddr := m.addr,
           dataTarget := m.srcMid }

/-- The lookup is over. -/
def fires : Prop := mc.requestInProgress = true ∧ mc.dataTime ≤ clock

instance : Decidable (mc.fires clock) := instDecidableAnd

/-- The answer of the memory. -/
def answer (n : ℕ) : Mreq := ⟨.DATA, lineOf mc.dataAddr, MCid n, mc.dataTarget⟩

theorem snoop_eq (h : ∀ m, cur = some m → m.msg ≠ .DATA → mc.requestInProgress = false) :
    mc.snoop S clock cur = .ok (mc.see S clock cur) := by
  unfold snoop see
  cases hm : cur with
  | none => rfl
  | some m =>
    by_cases hd : m.msg = .DATA
    · simp [hd]
    · simp [hd, h m hm hd]

end MemoryController

namespace Simulator

variable (S : Settings)

theorem tickPr_eq {s : Simulator n Trace} {i : Fin n} (h : (s.Nd i).PrReady) :
    s.tickPr i = .ok (s.setNode i ((s.Nd i).prTick i)) := by
  unfold tickPr
  rw [Node.complete_eq h]
  have hnd : ({ s.Nd i with PR := (s.Nd i).complete.PR } : Node Trace) = (s.Nd i).complete := by
    unfold Node.complete; split <;> rfl
  show (do
    let nd ← Node.fetch { s.Nd i with PR := (s.Nd i).complete.PR } i
    return s.setNode i nd) = _
  rw [hnd]
  unfold Node.prTick
  cases hs : ((s.Nd i).complete.PR.endOfTrace || (s.Nd i).complete.PR.outstandingRequest) with
  | true => rw [Node.fetch, hs]; rfl
  | false =>
    rw [Node.fetch_eq (by rw [Node.complete_infile]; exact h.2) hs]
    rfl

theorem tickPrs_eq {s : Simulator n Trace} (h : ∀ i, (s.Nd i).PrReady) {l : List (Fin n)}
    (hl : l.Nodup) : s.tickPrs l =
      .ok { s with Nd := fun i => if i ∈ l then (s.Nd i).prTick i else s.Nd i } :=
  Loop.foldlM_closed (f := tickPr) (s := s)
    (fun l => { s with Nd := fun i => if i ∈ l then (s.Nd i).prTick i else s.Nd i }) (by simp)
    (fun l i hn => by
      have hi := Loop.notMem_of_nodup hn
      rw [tickPr_eq (by simp only [hi, if_false]; exact h i)]
      refine congrArg Except.ok (Simulator.ext rfl rfl ?_ rfl rfl)
      funext j
      by_cases hj : j = i <;> simp [hj, hi])
    l hl

theorem tockPrs_eq (s : Simulator n Trace) :
    s.tockPrs (List.finRange n) = { s with Nd := fun i => (s.Nd i).tock } := by
  have := Loop.foldl_closed (f := tockPr) (s := s)
    (fun l => { s with Nd := fun i => if i ∈ l then (s.Nd i).tock else s.Nd i }) (by simp)
    (fun l i hn => by
      have hi := Loop.notMem_of_nodup hn
      refine Simulator.ext rfl rfl ?_ rfl rfl
      funext j
      by_cases hj : j = i <;> simp [hj, hi, tockPr, Node.tock])
    (List.finRange n) (List.nodup_finRange n)
  simpa [tockPrs] using this

/-! ### The memory controller's part -/

/-- The controller after it has seen the message on the bus of the cycle. -/
def seen (s : Simulator n Trace) : MemoryController :=
  s.MC.see S s.globalClock s.bus.currentRequest

/-- The state after the tick of the memory controller. -/
def memory (s : Simulator n Trace) : Simulator n Trace :=
  if (s.seen S).fires s.globalClock then
    { s with MC := { s.seen S with requestInProgress := false }
             bus := { s.bus with dataReply := some ((s.seen S).answer n) } }
  else { s with MC := s.seen S }

/-- What the tick of the controller meets no error with. -/
def McReady (s : Simulator n Trace) : Prop :=
  (∀ m, s.bus.currentRequest = some m → m.msg ≠ .DATA → s.MC.requestInProgress = false) ∧
    ((s.seen S).fires s.globalClock → s.bus.dataReply = none)

theorem tickMc_eq {s : Simulator n Trace} (h : s.McReady S) : s.tickMc S = .ok (s.memory S) := by
  unfold tickMc memory Bus.busSnoop
  rw [MemoryController.snoop_eq S _ _ _ h.1]
  show (if (s.seen S).fires s.globalClock then _ else _) = _
  by_cases hf : (s.seen S).fires s.globalClock
  · rw [if_pos hf, if_pos hf]
    simp only [Bus.busRequest, Mreq.new, h.2 hf]
    rfl
  · rw [if_neg hf, if_neg hf]
    rfl

/-! ### The cycle -/

/-- The state after the bus and the caches of a cycle. -/
def afterCaches (s : Simulator n Trace) : Simulator n Trace := s.tickBus.sync S (List.finRange n)

/-- The state after a cycle. -/
def next (s : Simulator n Trace) : Simulator n Trace :=
  let t := ({ s.afterCaches S with Nd := fun i => ((s.afterCaches S).Nd i).prTick i }).memory S
  { t with Nd := fun i => (t.Nd i).tock, globalClock := t.globalClock + 1 }

theorem cycle_eq_next {s : Simulator n Trace} (hc : s.tickBus.Ready S)
    (hp : ∀ i, ((s.afterCaches S).Nd i).PrReady) (hm : (s.afterCaches S).McReady S) :
    s.cycle S = .ok (s.next S) := by
  unfold cycle
  rw [tickCaches_eq_sync S hc (List.nodup_finRange n)]
  show (do
    let s ← (s.afterCaches S).tickPrs (List.finRange n)
    let s ← s.tickMc S
    let s := s.tockPrs (List.finRange n)
    return { s with globalClock := s.globalClock + 1 }) = _
  rw [tickPrs_eq hp (List.nodup_finRange n)]
  simp only [List.mem_finRange, if_true]
  set t : Simulator n Trace := { s.afterCaches S with Nd := fun i => ((s.afterCaches S).Nd i).prTick i }
    with ht
  show (do
    let s ← t.tickMc S
    let s := s.tockPrs (List.finRange n)
    return { s with globalClock := s.globalClock + 1 }) = _
  rw [tickMc_eq S (show t.McReady S from hm)]
  show Except.ok _ = _
  rw [tockPrs_eq]
  rfl

/-! ### What it changes -/

theorem memory_Nd (s : Simulator n Trace) : (s.memory S).Nd = s.Nd := by
  unfold memory; split <;> rfl

theorem next_Nd (s : Simulator n Trace) (i : Fin n) : (s.next S).Nd i =
    (((s.Nd i).cacheTick S.protocol.features i s.bus.tick.currentRequest s.bus.tick.sharedLine).prTick
      i).tock := by
  simp [next, memory_Nd, afterCaches, sync, tickBus]

theorem next_globalClock (s : Simulator n Trace) : (s.next S).globalClock = s.globalClock + 1 := by
  simp only [next, memory]; split <;> rfl

theorem next_currentRequest (s : Simulator n Trace) :
    (s.next S).bus.currentRequest = s.bus.tick.currentRequest := by
  simp only [next, memory]; split <;> rfl

theorem next_requestInProgress (s : Simulator n Trace) :
    (s.next S).bus.requestInProgress = s.bus.tick.requestInProgress := by
  simp only [next, memory]; split <;> rfl

theorem next_pendingRequests (s : Simulator n Trace) : (s.next S).bus.pendingRequests =
    s.bus.tick.pendingRequests ++
      (List.finRange n).flatMap fun i => (s.Nd i).queued S.protocol.features i := by
  simp only [next, memory]; split <;> rfl

theorem next_sharedLine (s : Simulator n Trace) : (s.next S).bus.sharedLine =
    (s.bus.tick.sharedLine || (List.finRange n).any fun i =>
      ((s.Nd i).procTick S.protocol.features i).raised S.protocol.features s.bus.tick.currentRequest) := by
  simp only [next, memory]; split <;> rfl

theorem next_stats (s : Simulator n Trace) : (s.next S).stats = (s.afterCaches S).stats := by
  simp only [next, memory]; split <;> rfl

/-- The reply of the caches of a cycle, if there is one. -/
def cacheReply (s : Simulator n Trace) : Option Mreq :=
  (List.finRange n).findSome? fun i =>
    ((s.Nd i).procTick S.protocol.features i).reply i s.bus.tick.currentRequest

/-- The controller after it has seen the message on the bus of the cycle that starts. -/
def looked (s : Simulator n Trace) : MemoryController :=
  s.MC.see S s.globalClock s.bus.tick.currentRequest

theorem next_dataReply (s : Simulator n Trace) : (s.next S).bus.dataReply =
    if (s.looked S).fires s.globalClock then some ((s.looked S).answer n)
    else (s.cacheReply S).or s.bus.tick.dataReply := by
  show (memory S _).bus.dataReply = _
  unfold memory
  split
  · next h => rw [if_pos (show (s.looked S).fires s.globalClock from h)]; rfl
  · next h => rw [if_neg (show ¬ (s.looked S).fires s.globalClock from h)]; rfl

theorem next_MC (s : Simulator n Trace) : (s.next S).MC =
    if (s.looked S).fires s.globalClock then { s.looked S with requestInProgress := false }
    else s.looked S := by
  show (memory S _).MC = _
  unfold memory
  split
  · next h => rw [if_pos (show (s.looked S).fires s.globalClock from h)]; rfl
  · next h => rw [if_neg (show ¬ (s.looked S).fires s.globalClock from h)]; rfl

end Simulator
end CoherenceSim
