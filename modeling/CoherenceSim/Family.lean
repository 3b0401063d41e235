/-
# The MOESIF family

What the six protocols have in common, as one protocol with four optional
states (`Features`): what a request of the processor does to a line (`hits`,
`afterHit`, `request`), what a request of another cache does to it (`yield`,
`raises`, `supplies`) and what its own DATA makes of it (`fill`). The theorems
`processCacheRequest_hit`, `processCacheRequest_miss`,
`processSnoopRequest_request` and `processSnoopRequest_data` say that the code of
each of the six does exactly this, and meets no error in doing it.

A state has a rank: 0 without a copy, 1 for a shared copy, 2 for one that
answers, 3 for the only one. Two copies of a line have ranks of sum at most 3.
-/
import CoherenceSim.Protocols

namespace CoherenceSim

/-- The states a member has besides `I`, `IM` and `M`: `S` (and `IS`), `E`, `O`, `F`. -/
structure Features where
  shared : Bool
  exclusive : Bool
  owned : Bool
  forward : Bool
deriving DecidableEq, Repr

def Protocol.features : Protocol → Features
  | .MI_PRO => ⟨false, false, false, false⟩
  | .MSI_PRO => ⟨true, false, false, false⟩
  | .MESI_PRO => ⟨true, true, false, false⟩
  | .MOSI_PRO => ⟨true, false, true, false⟩
  | .MOESI_PRO => ⟨true, true, true, false⟩
  | .MOESIF_PRO => ⟨true, true, true, true⟩

namespace CacheState

/-- What a copy in this state is good for. -/
def rank : CacheState → ℕ
  | .I | .IM | .IS => 0
  | .S => 1
  | .O | .F => 2
  | .E | .M => 3

/-- The line waits for its DATA. -/
def pending : CacheState → Bool
  | .IM | .IS => true
  | _ => false

theorem rank_of_pending {st : CacheState} (h : st.pending = true) : st.rank = 0 := by
  cases st <;> simp_all [pending, rank]

end CacheState

namespace Features

variable (f : Features)

/-- The states of the member. -/
def valid (st : CacheState) : Bool :=
  match st with
  | .I | .IM | .M => true
  | .S | .IS => f.shared
  | .E => f.exclusive
  | .O => f.owned
  | .F => f.forward

/-- A load is served from any copy, a store from the only one. -/
def hits (st : CacheState) (op : Message) : Bool :=
  if op = .STORE then st.rank = 3 else 1 ≤ st.rank

/-- The state a hit leaves. -/
def afterHit (st : CacheState) (op : Message) : CacheState :=
  if op = .STORE then .M else st

/-- A store on an `E` line takes it to `M` without the bus. -/
def upgrades (st : CacheState) (op : Message) : Bool := st = .E ∧ op = .STORE

/-- The request a miss sends: MI asks for every line as a store does. -/
def request (op : Message) : Message :=
  if f.shared ∧ op = .LOAD then .GETS else .GETM

/-- The state of a line whose request is out. -/
def pend (kind : Message) : CacheState :=
  if kind = .GETS then .IS else .IM

/-- The request a line that waits in this state has sent. -/
def asked (st : CacheState) : Message :=
  if st = .IS then .GETS else .GETM

/-- The state DATA takes a line to that has asked by `kind`. -/
def fill (kind : Message) (sharedLine : Bool) : CacheState :=
  if kind = .GETS then (if f.exclusive ∧ sharedLine = false then .E else .S) else .M

/-- The state a line is in after a request by `kind` of another cache. -/
def yield (kind : Message) (st : CacheState) : CacheState :=
  match st with
  | .S => if kind = .GETS then .S else .I
  | .O => if kind = .GETS then .O else .I
  | .F => if kind = .GETS then .F else .I
  | .E => if kind = .GETS then (if f.forward then .F else .S) else .I
  | .M => if kind = .GETS ∧ f.shared then (if f.owned then .O else .S) else .I
  | st => st

/-- The copies that answer a request. -/
def supplies (st : CacheState) : Bool := 2 ≤ st.rank

/-- The copies that raise the shared line on a request. -/
def raises (kind : Message) (st : CacheState) : Bool :=
  supplies st ∨ (st = .S ∧ kind = .GETS ∧ f.exclusive)

/-! ### The ranks -/

theorem afterHit_rank {st : CacheState} {op : Message} (h : hits st op = true) :
    (afterHit st op).rank = st.rank := by
  unfold hits at h
  unfold afterHit
  split
  · simp_all only [if_true, decide_eq_true_eq]
    rfl
  · rfl

@[simp] theorem pend_rank (kind : Message) : (pend kind).rank = 0 := by
  unfold pend; split <;> rfl

@[simp] theorem pend_pending (kind : Message) : (pend kind).pending = true := by
  unfold pend; split <;> rfl

theorem asked_pend {op : Message} : asked (pend (f.request op)) = f.request op := by
  unfold request; split <;> rfl

@[simp] theorem fill_pending (kind : Message) (sh : Bool) : (f.fill kind sh).pending = false := by
  unfold fill; split_ifs <;> rfl

theorem fill_rank_pos (kind : Message) (sh : Bool) : 1 ≤ (f.fill kind sh).rank := by
  unfold fill; split_ifs <;> decide

@[simp] theorem fill_request_STORE (sh : Bool) : f.fill (f.request .STORE) sh = .M := by
  simp [request, fill]

theorem yield_rank_le (kind : Message) (st : CacheState) : (f.yield kind st).rank ≤ st.rank := by
  cases st <;> simp only [yield] <;> first | exact Nat.le_refl _ | (split_ifs <;> decide)

/-- A GETM leaves no copy. -/
theorem yield_GETM_rank (st : CacheState) : (f.yield .GETM st).rank = 0 := by cases st <;> rfl

/-- A GETS leaves every copy, but none that can be written. -/
theorem yield_GETS_rank (h : f.shared = true) (st : CacheState) :
    (1 ≤ (f.yield .GETS st).rank ↔ 1 ≤ st.rank) ∧ (f.yield .GETS st).rank ≠ 3 := by
  obtain ⟨s, e, o, w⟩ := f
  obtain rfl : s = true := h
  cases st <;> cases e <;> cases o <;> cases w <;> decide

theorem yield_pending (kind : Message) (st : CacheState) :
    (f.yield kind st).pending = st.pending := by
  cases st <;> simp only [yield] <;> first | rfl | (split_ifs <;> rfl)

theorem yield_of_pending {kind : Message} {st : CacheState} (h : st.pending = true) :
    f.yield kind st = st := by
  cases st <;> simp_all [yield, CacheState.pending]

theorem afterHit_pending {st : CacheState} {op : Message} (h : hits st op = true) :
    (afterHit st op).pending = false := by
  unfold hits at h
  unfold afterHit
  cases st <;> split <;> simp_all [CacheState.pending, CacheState.rank]

theorem not_upgrades {st : CacheState} {op : Message} (h : hits st op = false) :
    upgrades st op = false := by
  cases st <;> cases op <;> first | rfl | cases h

theorem not_supplies_of_pending {st : CacheState} (h : st.pending = true) : supplies st = false := by
  simp [supplies, CacheState.rank_of_pending h]

/-- **What a cache keeps fits beside what the requester gets.** A request leaves
every other copy with a rank that the state the requester is about to fill its
line with allows, if the shared line is up whenever the copy raises it. -/
theorem yield_fill {kind : Message} {st : CacheState} {sh : Bool} (hk : kind = .GETS ∨ kind = .GETM)
    (h : f.raises kind st = true → sh = true) :
    (f.yield kind st).rank + (f.fill kind sh).rank ≤ 3 := by
  obtain ⟨s, e, o, w⟩ := f
  rcases hk with rfl | rfl
  · cases st <;> cases sh <;> cases s <;> cases e <;> cases o <;> cases w <;>
      simp_all [yield, fill, raises, supplies, CacheState.rank]
  · cases st <;> simp [yield, fill, CacheState.rank]

end Features

/-! ### The states of a member are closed -/

section Valid
variable (p : Protocol)

theorem valid_afterHit {st : CacheState} (op : Message) (h : p.features.valid st = true) :
    p.features.valid (Features.afterHit st op) = true := by
  unfold Features.afterHit; split
  · rfl
  · exact h

theorem valid_pend (op : Message) : p.features.valid (Features.pend (p.features.request op)) = true := by
  cases p <;> cases op <;> rfl

theorem valid_fill (op : Message) (sh : Bool) :
    p.features.valid (p.features.fill (p.features.request op) sh) = true := by
  cases p <;> cases op <;> cases sh <;> rfl

theorem valid_yield {st : CacheState} (kind : Message) (h : p.features.valid st = true) :
    p.features.valid (p.features.yield kind st) = true := by
  cases p <;> cases st <;> simp_all [Features.valid, Features.yield, Protocol.features] <;>
    split_ifs <;> simp_all

end Valid

/-! ### The code is the family's -/

section Code
variable {p : Protocol} {me : ModuleID} {r : Mreq} {c : Ctx}

/-- The DATA a cache hands to its processor. -/
def dataToProc (me : ModuleID) (addr : Paddr) : Mreq := ⟨.DATA, lineOf addr, me, .invalid⟩

/-- The request a miss puts in the queue of the bus. -/
def getMsg (kind : Message) (me : ModuleID) (addr : Paddr) : Mreq := ⟨kind, lineOf addr, me, .invalid⟩

/-- The DATA a cache answers `request` with. -/
def replyTo (me : ModuleID) (request : Mreq) : Mreq := ⟨.DATA, lineOf request.addr, me, request.srcMid⟩

/-- A request of the processor that hits. -/
theorem processCacheRequest_hit (hop : r.msg = .LOAD ∨ r.msg = .STORE)
    (hv : p.features.valid c.state = true) (hh : Features.hits c.state r.msg = true)
    (hb : c.inboundRequestBuf = none) :
    (processCacheRequest p me r).run c = .ok ((), { c with
      state := Features.afterHit c.state r.msg
      inboundRequestBuf := some (dataToProc me r.addr)
      stats := { c.stats with silentUpgrades := c.stats.silentUpgrades +
        (Features.upgrades c.state r.msg).toNat } }) := by
  obtain ⟨msg, addr, src, dest⟩ := r
  obtain ⟨st, bus, buf, stats⟩ := c
  simp only at hop hv hh hb
  subst hb
  rcases hop with rfl | rfl <;> cases p <;> cases st <;>
    first | rfl | (exfalso; revert hv hh; decide)

/-- A request of the processor that misses. -/
theorem processCacheRequest_miss (hop : r.msg = .LOAD ∨ r.msg = .STORE)
    (hv : p.features.valid c.state = true) (hp : c.state.pending = false)
    (hh : Features.hits c.state r.msg = false) :
    (processCacheRequest p me r).run c = .ok ((), { c with
      state := Features.pend (p.features.request r.msg)
      bus := { c.bus with
        pendingRequests := c.bus.pendingRequests ++ [getMsg (p.features.request r.msg) me r.addr] }
      stats := { c.stats with cacheMisses := c.stats.cacheMisses + 1 } }) := by
  obtain ⟨msg, addr, src, dest⟩ := r
  obtain ⟨st, bus, buf, stats⟩ := c
  simp only at hop hv hp hh
  rcases hop with rfl | rfl <;> cases p <;> cases st <;>
    first | rfl | (exfalso; revert hv hp hh; decide)

/-- A request on the bus: the line yields, and answers if its copy supplies. -/
theorem processSnoopRequest_request (hk : r.msg = .GETS ∨ r.msg = .GETM)
    (hv : p.features.valid c.state = true)
    (hd : Features.supplies c.state = true → c.bus.dataReply = none) :
    (processSnoopRequest p me r).run c = .ok ((), { c with
      state := p.features.yield r.msg c.state
      bus := { c.bus with
        sharedLine := c.bus.sharedLine || p.features.raises r.msg c.state
        dataReply := if Features.supplies c.state then some (replyTo me r) else c.bus.dataReply }
      stats := { c.stats with cacheToCacheTransfers := c.stats.cacheToCacheTransfers +
        (Features.supplies c.state).toNat } }) := by
  obtain ⟨msg, addr, src, dest⟩ := r
  obtain ⟨st, ⟨cur, q, dr, rip, sh⟩, buf, stats⟩ := c
  simp only at hk hv hd
  cases hs : Features.supplies st
  · rcases hk with rfl | rfl <;> cases p <;> cases st <;> cases sh <;>
      first | rfl | (exfalso; revert hv hs; decide)
  · obtain rfl : dr = none := hd hs
    rcases hk with rfl | rfl <;> cases p <;> cases st <;> cases sh <;>
      first | rfl | (exfalso; revert hv hs; decide)

/-- The DATA of the line's own request. -/
theorem processSnoopRequest_data {op : Message} (hm : r.msg = .DATA)
    (hs : c.state = Features.pend (p.features.request op)) (hb : c.inboundRequestBuf = none) :
    (processSnoopRequest p me r).run c = .ok ((), { c with
      state := p.features.fill (p.features.request op) c.bus.sharedLine
      inboundRequestBuf := some (dataToProc me r.addr) }) := by
  obtain ⟨msg, addr, src, dest⟩ := r
  obtain ⟨st, ⟨cur, q, dr, rip, sh⟩, buf, stats⟩ := c
  simp only at hm hs hb
  subst hm hs hb
  cases p <;> cases op <;> cases sh <;> rfl

end Code

end CoherenceSim
