/-
# The invariant of a run

What holds at the start of every cycle of a run (`Inv`): where the access of each
processor stands (`At`), what the bus and the memory controller hold for the
transaction that is under way, and that the copies of every line fit beside each
other and beside what the requester of that transaction is about to get.

The bus forgets the request it has granted after a cycle. The invariant is about
a state and that request, `gr`, from its grant until its DATA is on the bus.
-/
import CoherenceSim.Cycle
import CoherenceSim.Lib.Permission

namespace CoherenceSim

open Features

variable {n : ℕ}

/-- What a run is given: one of the six protocols, a memory that takes at least a
cycle, and well-formed traces. -/
structure Input (n : ℕ) where
  protocol : Protocol
  hitTime : ℕ
  hitTime_pos : 1 ≤ hitTime
  traces : Fin n → Trace
  wellFormed : ∀ i, ∀ l ∈ traces i, l.1 = 'r' ∨ l.1 = 'w'

abbrev Input.settings (x : Input n) : Settings := ⟨x.protocol, x.hitTime⟩

abbrev Input.f (x : Input n) : Features := x.protocol.features

/-- The request of a miss of cache `i` for the access `l`. -/
def Input.ask (x : Input n) (i : Fin n) (l : Char × Paddr) : Mreq :=
  getMsg (x.f.request (opOf l.1)) (L1id i) l.2

/-- Where an access is: in the slot of the cache, in the queue of the bus, granted
and without its DATA, or back at the processor. -/
inductive Stage
  | idle | issued | queued | granted | answered
deriving DecidableEq, Repr

/-- The line waits for its DATA. -/
def Stage.waits : Stage → Bool
  | .queued | .granted => true
  | _ => false

/-- The node `i` has fetched `k` lines of its trace, the last of them `l`, and as
far as the node shows that access stands at `st`. -/
structure AtNode (x : Input n) (i : Fin n) (nd : Node Trace) (clock : ℕ) (st : Stage) (k : ℕ)
    (l : Char × Paddr) : Prop where
  infile : nd.PR.infile = (x.traces i).drop k
  k_le : k ≤ (x.traces i).length
  fetched : st ≠ .idle → 1 ≤ k ∧ (x.traces i)[k - 1]? = some l
  outstanding : nd.PR.outstandingRequest = decide (st ≠ .idle)
  proc : nd.L1.procRequest = if st = .issued then some (.new (opOf l.1) l.2 (PRid i)) else none
  inbound : nd.PR.inboundRequest = if st = .answered then some (dataToProc (L1id i) l.2) else none
  buf : nd.PR.inboundRequestBuf = none
  wait : st.waits = true → nd.line (lineOf l.2) = pend (x.f.request (opOf l.1))
  pending : ∀ a, (nd.line a).pending = true → st.waits = true ∧ a = lineOf l.2
  eot : nd.PR.endOfTrace = true → st = .idle ∧ k = (x.traces i).length
  idle : st = .idle → nd.PR.endOfTrace = true ∨ (clock = 0 ∧ k = 0)

/-- And so the bus does: the request of node `i` is in the queue or granted. -/
structure At (x : Input n) (s : Simulator n Trace) (gr : Option Mreq) (i : Fin n) (st : Stage) (k : ℕ)
    (l : Char × Paddr) : Prop extends AtNode x i (s.Nd i) s.globalClock st k l where
  queue : s.bus.pendingRequests.filter (·.srcMid = L1id i) = if st = .queued then [x.ask i l] else []
  grant : gr.filter (·.srcMid = L1id i) = if st = .granted then some (x.ask i l) else none

/-- The line of its trace that node `i` has fetched last. -/
def Input.current (x : Input n) (s : Simulator n Trace) (i : Fin n) : Option (Char × Paddr) :=
  ((x.traces i).take ((x.traces i).length - (s.Nd i).PR.infile.length)).getLast?

abbrev Simulator.lines (t : Simulator n Trace) : Fin n → Paddr → CacheState := fun i a => (t.Nd i).line a

/-- The ranks of the copies of a line. -/
def ranks (s : Simulator n Trace) (a : Paddr) (i : Fin n) : ℕ := ((s.Nd i).line a).rank

structure Inv (x : Input n) (s : Simulator n Trace) (gr : Option Mreq) : Prop where
  node : ∀ i, ∃ st k l, At x s gr i st k l
  queued : ∀ m ∈ s.bus.pendingRequests, ∃ i : Fin n, m.srcMid = L1id i
  grantee : ∀ m, gr = some m → ∃ i : Fin n, m.srcMid = L1id i
  busy : s.bus.requestInProgress = gr.isSome
  free : gr = none → s.bus.dataReply = none ∧ s.MC.requestInProgress = false
  lookup : ∀ m, gr = some m → s.bus.dataReply = none → s.MC.requestInProgress = true ∧
    s.MC.dataAddr = m.addr ∧ s.MC.dataTarget = m.srcMid ∧ s.globalClock ≤ s.MC.dataTime
  reply : ∀ m d, gr = some m → s.bus.dataReply = some d →
    d.msg = .DATA ∧ d.addr = m.addr ∧ d.destMid = m.srcMid
  valid : ∀ i a, x.f.valid ((s.Nd i).line a) = true
  fits : ∀ a, Permission.Fits 3 (ranks s a)
  room : ∀ m i, gr = some m → m.srcMid = L1id i →
    Permission.Room 3 (ranks s m.addr) i (x.f.fill m.msg s.bus.sharedLine).rank

/-! ### Small facts -/

theorem L1id_injective {i j : Fin n} (h : L1id i = L1id j) : i = j := by
  simp only [L1id, ModuleID.mk.injEq, and_true] at h
  exact Fin.ext (by omega)

@[simp] theorem L1id_inj {i j : Fin n} : L1id i = L1id j ↔ i = j :=
  ⟨L1id_injective, fun h => h ▸ rfl⟩

@[simp] theorem ask_srcMid (x : Input n) (i : Fin n) (l : Char × Paddr) : (x.ask i l).srcMid = L1id i := rfl

@[simp] theorem ask_addr (x : Input n) (i : Fin n) (l : Char × Paddr) : (x.ask i l).addr = lineOf l.2 := rfl

@[simp] theorem ask_msg (x : Input n) (i : Fin n) (l : Char × Paddr) :
    (x.ask i l).msg = x.f.request (opOf l.1) := rfl

theorem request_cases (f : Features) (op : Message) : f.request op = .GETS ∨ f.request op = .GETM := by
  unfold request; split
  · exact Or.inl rfl
  · exact Or.inr rfl

theorem request_ne_DATA (f : Features) (op : Message) : f.request op ≠ .DATA := by
  rcases request_cases f op with h | h <;> rw [h] <;> decide

@[simp] theorem dataToProc_lineOf (me : ModuleID) (a : Paddr) :
    dataToProc me (lineOf a) = dataToProc me a := by
  simp [dataToProc]

@[simp] theorem getMsg_lineOf (kind : Message) (me : ModuleID) (a : Paddr) :
    getMsg kind me (lineOf a) = getMsg kind me a := by
  simp [getMsg]

theorem AtNode.current {x : Input n} {s : Simulator n Trace} {i : Fin n} {st : Stage} {k : ℕ}
    {l : Char × Paddr} (h : AtNode x i (s.Nd i) s.globalClock st k l) (hst : st ≠ .idle) :
    x.current s i = some l := by
  obtain ⟨hk, hl⟩ := h.fetched hst
  have hlen : (x.traces i).length - (s.Nd i).PR.infile.length = k := by
    rw [h.infile, List.length_drop]
    have := h.k_le
    omega
  rw [Input.current, hlen, List.getLast?_take]
  simp [show k ≠ 0 by omega, hl]

theorem At.granted_eq {x : Input n} {s : Simulator n Trace} {gr : Option Mreq} {i : Fin n} {k : ℕ}
    {l : Char × Paddr} (h : At x s gr i .granted k l) : gr = some (x.ask i l) := by
  have hgrant := h.grant
  rw [if_pos rfl] at hgrant
  exact (Option.filter_eq_some_iff.mp hgrant).1

namespace Inv

variable {x : Input n} {s : Simulator n Trace} {gr : Option Mreq}

/-- A request in the queue is that of a node whose access stands there. -/
theorem of_queued (h : Inv x s gr) {m : Mreq} (hm : m ∈ s.bus.pendingRequests) :
    ∃ i k l, At x s gr i .queued k l ∧ m = x.ask i l := by
  obtain ⟨i, hi⟩ := h.queued m hm
  obtain ⟨st, k, l, ha⟩ := h.node i
  have hmem : m ∈ s.bus.pendingRequests.filter (·.srcMid = L1id i) := by simp [hm, hi]
  rw [ha.queue] at hmem
  by_cases hst : st = .queued
  · subst hst
    exact ⟨i, k, l, ha, by simpa using hmem⟩
  · simp [hst] at hmem

/-- The granted request is that of a node whose access stands there. -/
theorem of_granted (h : Inv x s gr) {m : Mreq} (hm : gr = some m) :
    ∃ i k l, At x s gr i .granted k l ∧ m = x.ask i l := by
  obtain ⟨i, hi⟩ := h.grantee m hm
  obtain ⟨st, k, l, ha⟩ := h.node i
  have hg := ha.grant
  rw [hm] at hg
  by_cases hst : st = .granted
  · subst hst
    refine ⟨i, k, l, ha, ?_⟩
    simpa [Option.filter, hi] using hg
  · simp [Option.filter, hi, hst] at hg

/-- The four ways a cycle can start. -/
theorem tick (h : Inv x s gr) :
    (gr = none ∧ s.bus.pendingRequests = [] ∧ s.bus.tick = { s.bus with currentRequest := none }) ∨
    (∃ m q, gr = none ∧ s.bus.pendingRequests = m :: q ∧ s.bus.tick = ⟨some m, q, none, true, false⟩) ∨
    (∃ m, gr = some m ∧ s.bus.dataReply = none ∧ s.bus.tick = { s.bus with currentRequest := none }) ∨
    (∃ m d, gr = some m ∧ s.bus.dataReply = some d ∧
      s.bus.tick = ⟨some d, s.bus.pendingRequests, none, false, s.bus.sharedLine⟩) := by
  have hb := h.busy
  unfold Bus.tick
  cases hg : gr with
  | none =>
    obtain ⟨hd, -⟩ := h.free hg
    rw [hg] at hb
    simp only [Option.isSome_none] at hb
    cases hq : s.bus.pendingRequests with
    | nil => exact Or.inl ⟨rfl, rfl, by simp [hb, hq]⟩
    | cons m q => exact Or.inr (Or.inl ⟨m, q, rfl, rfl, by simp [hb, hd]⟩)
  | some m =>
    rw [hg] at hb
    simp only [Option.isSome_some] at hb
    cases hd : s.bus.dataReply with
    | none => exact Or.inr (Or.inr (Or.inl ⟨m, rfl, rfl, by simp [hb, hd]⟩))
    | some d => exact Or.inr (Or.inr (Or.inr ⟨m, d, rfl, rfl, by simp [hb]⟩))

/-- The bus clears the shared line only for a grant. -/
theorem tick_sharedLine (h : Inv x s gr) {m : Mreq} (hg : gr = some m) :
    s.bus.tick.sharedLine = s.bus.sharedLine := by
  unfold Bus.tick
  simp only [h.busy, hg, Option.isSome_some, if_true]
  split <;> rfl

end Inv

end CoherenceSim
