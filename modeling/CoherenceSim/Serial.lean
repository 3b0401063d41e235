/-
# The protocols are serializable

What any interleaving of issues, grants and DATA makes of the caches and the counters is
what the same accesses make of them one after the other, each to its end before the next
begins (`serial`), in the order in which they are performed: a hit when it is issued, a
miss when its request is granted (`performed`). `serializable`: so it is for MI, MSI and
MOSI. With an `E` it is not quite so: a line that waits for its DATA no longer raises the
shared line, and a load that overtakes it can find itself alone. `serializable_withoutE`: then
the serial execution is that of the protocol without `E` and `F`, and a silent upgrade is a
miss there.

`refinement`: what a run of the simulator shows in each of its cycles is a state of the
untimed system. `serial_run`, `serial_run_withoutE`: so the run is serializable too, in an
order in which every node keeps to its trace.
-/
import CoherenceSim.Progress
import CoherenceSim.Refinement
import CoherenceSim.Termination

namespace CoherenceSim

/-- An access by its operation. -/
def Access.ofOp {n : ℕ} (i : Fin n) (op : Message) (addr : Paddr) : Access n := ⟨i, op = .STORE, addr⟩

theorem Access.op_ofOp {n : ℕ} {i : Fin n} {op : Message} {addr : Paddr} (h : op = .LOAD ∨ op = .STORE) :
    (ofOp i op addr).op = op := by
  rcases h with rfl | rfl <;> rfl

@[simp] theorem Access.node_ofOp {n : ℕ} (i : Fin n) (op : Message) (addr : Paddr) :
    (ofOp i op addr).node = i := rfl

@[simp] theorem Access.addr_ofOp {n : ℕ} (i : Fin n) (op : Message) (addr : Paddr) :
    (ofOp i op addr).addr = addr := rfl

/-- The access an event issues. -/
def Event.access {n : ℕ} : Event n → Option (Access n)
  | .issue i op addr => some (.ofOp i op addr)
  | _ => none

/-! ### Without `E` and `F` -/

/-- The protocol that has an `S` in their place. -/
def Protocol.withoutE : Protocol → Protocol
  | .MESI_PRO => .MSI_PRO
  | .MOESI_PRO | .MOESIF_PRO => .MOSI_PRO
  | p => p

def CacheState.dropE (st : CacheState) : CacheState := if st = .E ∨ st = .F then .S else st

namespace Features

variable (p : Protocol)

theorem request_withoutE (op : Message) : p.withoutE.features.request op = p.features.request op := by
  cases p <;> rfl

theorem dropE_yield (kind : Message) (st : CacheState) :
    (p.features.yield kind st).dropE = p.withoutE.features.yield kind st.dropE := by
  cases p <;> cases st <;> cases kind <;> rfl

/-- There the shared line changes nothing. -/
theorem dropE_fill (kind : Message) (sh sh' : Bool) :
    (p.features.fill kind sh).dropE = p.withoutE.features.fill kind sh' := by
  cases p <;> cases kind <;> cases sh <;> rfl

theorem fill_withoutE (kind : Message) (sh sh' : Bool) :
    p.withoutE.features.fill kind sh = p.withoutE.features.fill kind sh' := by
  cases p <;> cases kind <;> rfl

variable {p} {st : CacheState} {op : Message}

/-- Only a store to an `E` hits here and misses there. -/
theorem hits_dropE (h : upgrades st op = false) : hits st.dropE op = hits st op := by
  cases st <;> cases op <;> first | rfl | cases h

theorem dropE_afterHit (st : CacheState) (op : Message) : (afterHit st op).dropE = afterHit st.dropE op := by
  cases st <;> cases op <;> rfl

theorem upgrades_dropE (st : CacheState) (op : Message) : upgrades st.dropE op = false := by
  cases st <;> rfl

theorem yield_dropE_of_rank_eq_zero (f : Features) (kind : Message) (h : st.rank = 0) :
    f.yield kind st.dropE = st.dropE := by
  cases st <;> first | rfl | cases h

theorem dropE_of_valid (hx : p.features.exclusive = false) (hv : p.features.valid st = true) : st.dropE = st := by
  revert hx hv
  cases p <;> cases st <;> decide

end Features

theorem Protocol.withoutE_of {p : Protocol} (h : p.features.exclusive = false) : p.withoutE = p := by
  cases p <;> first | rfl | cases h

namespace Untimed

open Features

variable {n : ℕ} {p : Protocol} {s t u σ τ : Untimed n} {i : Fin n} {op : Message} {addr : Paddr} {m : Mreq}

/-! ### The order in which accesses are performed -/

/-- The access node `i` waits for. -/
def waiting (s : Untimed n) (i : Fin n) : Option (Access n) :=
  (s.outstanding i).map fun e => .ofOp i e.1 e.2

/-- The access whose request is the next that is granted. -/
def first (s : Untimed n) : Option (Access n) :=
  s.bus.pendingRequests.head?.bind fun m =>
    (List.finRange n).findSome? fun i => if m.srcMid = L1id i then s.waiting i else none

/-- What an event performs: a hit, or the access whose request is granted. -/
def performs (s : Untimed n) : Event n → List (Access n)
  | .issue i op addr => if hits (s.line i (lineOf addr)) op then [.ofOp i op addr] else []
  | .grant => s.first.toList
  | .deliver => []

/-- The accesses performed by a sequence of events, in this order. -/
def performed (p : Protocol) : List (Event n) → Untimed n → List (Access n)
  | [], _ => []
  | e :: es, s => s.performs e ++
      match s.step p e with
      | .ok t => performed p es t
      | .error _ => []

/-! ### One access alone -/

/-- What it counts: itself, and whether another cache answers it. -/
theorem Quiet.access_stats (h : Quiet p σ) {acc : Access n} (ht : σ.access p acc = .ok τ) :
    τ.stats.cacheAccesses = σ.stats.cacheAccesses + 1 ∧
    τ.stats.cacheToCacheTransfers = σ.stats.cacheToCacheTransfers +
      if hits (σ.line acc.node (lineOf acc.addr)) acc.op then 0 else
        (List.finRange n).countP fun j => j ≠ acc.node ∧ supplies (σ.line j (lineOf acc.addr)) = true := by
  obtain ⟨u, hu, ht⟩ := Loop.bind_eq_ok ht
  have hsound := h.toSound.next hu
  cases h.toSound.happens hu
  cases hh : hits (σ.line acc.node (lineOf acc.addr)) acc.op with
  | true =>
    rw [if_neg (by simp [issued, hh])] at ht
    rw [← Except.ok.inj ht]
    exact ⟨rfl, rfl⟩
  | false =>
    rw [if_pos (by simp [issued, hh])] at ht
    obtain ⟨v, hv, ht⟩ := Loop.bind_eq_ok ht
    have hsound' := hsound.next hv
    cases hsound.happens hv with
    | grant m q hr hq =>
      obtain rfl : m = getMsg (p.features.request acc.op) (L1id acc.node) acc.addr := by
        simp only [issued, hh, h.queue, List.nil_append, Bool.false_eq_true, if_false] at hq
        exact (List.cons.inj hq).1.symm
      cases hsound'.happens ht
      refine ⟨rfl, congrArg (σ.stats.cacheToCacheTransfers + ·) (List.countP_congr fun j _ => ?_)⟩
      by_cases hj : j = acc.node
      · simp [issued, getMsg, hj, hh, not_supplies_of_pending (pend_pending _)]
      · simp [issued, getMsg, hj]

/-! ### The serial execution goes along -/

/-- The serial execution `σ`, under the protocol without `E` and `F`, has made the accesses
that have been performed in `s`, and no other. A line that waits for its DATA has made way
in `s` for what `σ` makes of it. -/
structure Serves (p : Protocol) (s σ : Untimed n) : Prop where
  live : Live p s
  quiet : Quiet p.withoutE σ
  line : ∀ j a, (s.line j a).pending = false → σ.line j a = (s.line j a).dropE
  queued : ∀ m ∈ s.bus.pendingRequests, ∀ j op addr, m.srcMid = L1id j →
    s.outstanding j = some (op, addr) → hits (σ.line j (lineOf addr)) op = false
  granted : ∀ m j, s.granted = some m → m.srcMid = L1id j →
    σ.line j m.addr = p.withoutE.features.fill m.msg false
  misses : s.stats.cacheMisses + s.stats.silentUpgrades = σ.stats.cacheMisses + s.bus.pendingRequests.length
  accesses : s.stats.cacheAccesses = σ.stats.cacheAccesses + s.bus.pendingRequests.length
  settled : σ.stats.silentUpgrades = 0
  upgraded : p.features.exclusive = false → s.stats.silentUpgrades = 0
  transfers : p.features.exclusive = false →
    s.stats.cacheToCacheTransfers ≤ σ.stats.cacheToCacheTransfers
  same : p.features.exclusive = false → p.features.owned = false →
    s.stats.cacheToCacheTransfers = σ.stats.cacheToCacheTransfers

theorem serves_start (p : Protocol) : Serves p (start n) (start n) where
  live := live_start p
  quiet := quiet_start p.withoutE
  line _ _ _ := rfl
  queued m hm := by cases hm
  granted m j hm := by cases hm
  misses := rfl
  accesses := rfl
  settled := rfl
  upgraded _ := rfl
  transfers _ := Nat.le_refl 0
  same _ _ := rfl

/-- What another cache asks for does not make a hit. -/
theorem not_hits_yield (f : Features) {kind : Message} {st : CacheState} {op : Message}
    (h : hits st op = false) : hits (f.yield kind st) op = false := by
  have hrank := f.yield_rank_le kind st
  have hmax : st.rank ≤ 3 := by cases st <;> decide
  by_cases hop : op = .STORE
  · simp only [hits, if_pos hop, decide_eq_false_iff_not] at h ⊢
    omega
  · simp only [hits, if_neg hop, decide_eq_false_iff_not] at h ⊢
    omega

/-- A line that does not wait for its DATA is that of the serial execution. -/
theorem Serves.line_of_free (h : Serves p s σ) (ho : s.outstanding i = .none) (a : Paddr) :
    (s.line i a).pending = false ∧ σ.line i a = (s.line i a).dropE := by
  have hfree : (s.line i a).pending = false := by
    by_contra hp
    obtain ⟨op, addr, hout, -⟩ := h.live.pending i a (by simpa using hp)
    rw [ho] at hout
    cases hout
  exact ⟨hfree, h.line i a hfree⟩

/-- The requests are those of nodes that wait. -/
theorem Serves.other (h : Serves p s σ) (ho : s.outstanding i = .none) {j : Fin n} (hm : m ∈ s.requests)
    (hj : m.srcMid = L1id j) : j ≠ i := by
  rintro rfl
  obtain ⟨k, hk⟩ := h.live.asked m hm
  obtain rfl : k = j := L1id_injective (hk.srcMid.symm.trans hj)
  exact hk.outstanding ho

theorem mem_requests_of_queue (hm : m ∈ s.bus.pendingRequests) : m ∈ s.requests :=
  List.mem_append_right _ hm

theorem mem_requests_of_granted (hm : s.granted = some m) : m ∈ s.requests := by
  rw [requests, hm]
  exact List.mem_append_left _ (List.mem_singleton_self m)

/-! ### An access is issued -/

/-- A hit, but for a silent upgrade, is one in the serial execution too. -/
theorem Serves.issued_hit (h : Serves p s σ) (hop : op = .LOAD ∨ op = .STORE)
    (ho : s.outstanding i = .none) (hh : hits (s.line i (lineOf addr)) op = true)
    (hno : upgrades (s.line i (lineOf addr)) op = false) :
    ∃ τ, σ.access p.withoutE (.ofOp i op addr) = .ok τ ∧ Serves p (s.issued p.features i op addr) τ := by
  have hline := (h.line_of_free ho (lineOf addr)).2
  have hσ : hits (σ.line i (lineOf addr)) op = true := by rw [hline, hits_dropE hno, hh]
  obtain ⟨τ, hτ, hquiet, hacc⟩ := h.quiet.access (.ofOp i op addr)
  have hstats := h.quiet.access_stats hτ
  obtain ⟨hmiss, hup, helse, hown, hothers⟩ := hacc
  simp only [Access.op_ofOp hop, Access.node_ofOp, Access.addr_ofOp, hσ, if_true]
    at hstats hmiss hup hown hothers
  obtain ⟨-, hown⟩ := hown
  -- the serial execution changes the one line that the hit does
  have hsame : ∀ j b, ¬ (j = i ∧ b = lineOf addr) → τ.line j b = σ.line j b := by
    intro j b hjb
    by_cases hb : b = lineOf addr
    · rw [hb]
      exact hothers j fun hj => hjb ⟨hj, hb⟩
    · exact helse j b hb
  have hqueue : (s.issued p.features i op addr).bus.pendingRequests = s.bus.pendingRequests := by
    simp [issued, hh]
  have hout : ∀ j, (s.issued p.features i op addr).outstanding j = s.outstanding j := by
    intro j
    by_cases hj : j = i <;> simp [issued, hh, hj, ho]
  have hsilent : (s.issued p.features i op addr).stats.silentUpgrades = s.stats.silentUpgrades := by
    simp [issued, hno]
  refine ⟨τ, hτ, { live := h.live.next (h.live.step_issue hop ho), quiet := hquiet, line := fun j a hp => ?_,
                   queued := fun m hm j op' addr' hj hj' => ?_, granted := fun m j hm hj => ?_,
                   misses := ?_, accesses := ?_, settled := ?_, upgraded := hsilent ▸ h.upgraded,
                   transfers := hstats.2 ▸ h.transfers, same := hstats.2 ▸ h.same }⟩
  · simp only [issued, hh, if_true] at hp ⊢
    split
    · next hja => rw [hja.1, hja.2, hown, hline, dropE_afterHit]
    · next hja =>
      rw [if_neg hja] at hp
      rw [hsame j a hja]
      exact h.line j a hp
  · rw [hqueue] at hm
    rw [hsame j _ fun hja => h.other ho (mem_requests_of_queue hm) hj hja.1]
    exact h.queued m hm j op' addr' hj (hout j ▸ hj')
  · rw [hsame j _ fun hja => h.other ho (mem_requests_of_granted hm) hj hja.1]
    exact h.granted m j hm hj
  · have := h.misses
    rw [hqueue, hmiss, hsilent]
    simpa [issued, hh] using this
  · have := h.accesses
    rw [hqueue, hstats.1]
    simp only [issued]
    omega
  · rw [hup, hline, upgrades_dropE]
    exact h.settled

/-- A silent upgrade goes over the bus in the serial execution, where the line is an `S`. No
other cache has a copy then, but that one that waits for its DATA can have one there. -/
theorem Serves.issued_upgrade (h : Serves p s σ) (hop : op = .LOAD ∨ op = .STORE)
    (ho : s.outstanding i = .none) (hup : upgrades (s.line i (lineOf addr)) op = true) :
    ∃ τ, σ.access p.withoutE (.ofOp i op addr) = .ok τ ∧ Serves p (s.issued p.features i op addr) τ := by
  obtain ⟨hE, rfl⟩ : s.line i (lineOf addr) = .E ∧ op = .STORE := by simpa [upgrades] using hup
  have hx : p.features.exclusive = true := by
    have hv := h.live.valid i (lineOf addr)
    rwa [hE] at hv
  have hhit : hits (s.line i (lineOf addr)) .STORE = true := by rw [hE]; rfl
  have hline : σ.line i (lineOf addr) = .S := by rw [(h.line_of_free ho _).2, hE]; rfl
  have hσ : hits (σ.line i (lineOf addr)) .STORE = false := by rw [hline]; rfl
  obtain ⟨τ, hτ, hquiet, hacc⟩ := h.quiet.access (.ofOp i .STORE addr)
  have hstats := h.quiet.access_stats hτ
  obtain ⟨hmiss, hup', helse, hown, hothers⟩ := hacc
  simp only [Access.op_ofOp hop, Access.node_ofOp, Access.addr_ofOp, hσ, Bool.false_eq_true, if_false]
    at hstats hmiss hup' hown hothers
  obtain ⟨sh, hown⟩ := hown
  have halone : ∀ j, j ≠ i → (s.line j (lineOf addr)).rank = 0 := by
    intro j hj
    have hfit : (s.line j (lineOf addr)).rank + CacheState.E.rank ≤ 3 := hE ▸ h.live.fits _ j i hj
    exact Nat.le_zero.mp (Nat.le_of_add_le_add_right hfit)
  have hqueue : (s.issued p.features i .STORE addr).bus.pendingRequests = s.bus.pendingRequests := by
    simp [issued, hhit]
  have hout : ∀ j, (s.issued p.features i .STORE addr).outstanding j = s.outstanding j := by
    intro j
    by_cases hj : j = i <;> simp [issued, hhit, hj, ho]
  refine ⟨τ, hτ, { live := h.live.next (h.live.step_issue hop ho), quiet := hquiet, line := fun j a hp => ?_,
                   queued := fun m hm j op' addr' hj hj' => ?_, granted := fun m j hm hj => ?_,
                   misses := ?_, accesses := ?_, settled := ?_, upgraded := fun hno => ?_,
                   transfers := fun hno => ?_, same := fun hno => ?_ }⟩
  · simp only [issued, hhit, if_true] at hp ⊢
    split
    · next hja =>
      rw [hja.1, hja.2, hown, fill_request_STORE, hE]
      rfl
    · next hja =>
      rw [if_neg hja] at hp
      by_cases ha : a = lineOf addr
      · have hji : j ≠ i := fun hj => hja ⟨hj, ha⟩
        subst ha
        rw [hothers j hji, h.line j _ hp]
        exact yield_dropE_of_rank_eq_zero _ _ (halone j hji)
      · rw [helse j a ha]
        exact h.line j a hp
  · rw [hqueue] at hm
    have hji := h.other ho (mem_requests_of_queue hm) hj
    have hmiss' := h.queued m hm j op' addr' hj (hout j ▸ hj')
    by_cases ha : lineOf addr' = lineOf addr
    · rw [ha] at hmiss' ⊢
      rw [hothers j hji]
      exact not_hits_yield _ hmiss'
    · rw [helse j _ ha]
      exact hmiss'
  · have hm' : s.granted = some m := hm
    have hji := h.other ho (mem_requests_of_granted hm') hj
    -- beside an `E` nothing is about to be filled
    have ha : m.addr ≠ lineOf addr := by
      intro ha
      have hroom : (s.line i m.addr).rank + (p.features.fill m.msg s.bus.sharedLine).rank ≤ 3 :=
        h.live.room m j hm' hj i (Ne.symm hji)
      have hE3 : (s.line i m.addr).rank = 3 := by rw [ha, hE]; rfl
      have := p.features.fill_rank_pos m.msg s.bus.sharedLine
      omega
    rw [helse j _ ha]
    exact h.granted m j hm' hj
  · have := h.misses
    rw [hqueue, hmiss]
    simp only [issued, hhit, hup, Bool.not_true, Bool.not_false, Bool.toNat_true, Bool.toNat_false]
    omega
  · have := h.accesses
    rw [hqueue, hstats.1]
    simp only [issued]
    omega
  · rw [hup', hline]
    exact h.settled
  · rw [hx] at hno
    cases hno
  · rw [hx] at hno
    cases hno
  · rw [hx] at hno
    cases hno

theorem Serves.issued_miss (h : Serves p s σ) (hop : op = .LOAD ∨ op = .STORE)
    (ho : s.outstanding i = .none) (hh : hits (s.line i (lineOf addr)) op = false) :
    Serves p (s.issued p.features i op addr) σ := by
  have hline := (h.line_of_free ho (lineOf addr)).2
  have hqueue : (s.issued p.features i op addr).bus.pendingRequests =
      s.bus.pendingRequests ++ [getMsg (p.features.request op) (L1id i) addr] := by
    simp [issued, hh]
  have hsilent : (s.issued p.features i op addr).stats.silentUpgrades = s.stats.silentUpgrades := by
    simp [issued, not_upgrades hh]
  refine { live := h.live.next (h.live.step_issue hop ho), quiet := h.quiet,
           line := fun j a hp => ?_, queued := fun m hm j op' addr' hj hj' => ?_,
           granted := fun m j hm hj => h.granted m j hm hj, misses := ?_, accesses := ?_,
           settled := h.settled, upgraded := hsilent ▸ h.upgraded, transfers := h.transfers, same := h.same }
  · simp only [issued, hh] at hp ⊢
    split
    · next hj => simp [hj] at hp
    · next hj =>
      rw [if_neg hj] at hp
      exact h.line j a hp
  · rw [hqueue, List.mem_append, List.mem_singleton] at hm
    rcases hm with hm | rfl
    · have hji := h.other ho (mem_requests_of_queue hm) hj
      refine h.queued m hm j op' addr' hj ?_
      simpa [issued, hji] using hj'
    · obtain rfl : i = j := L1id_injective hj
      simp only [issued, hh, if_true, Bool.false_eq_true, if_false] at hj'
      obtain ⟨rfl, rfl⟩ := Prod.mk.inj (Option.some.inj hj')
      rw [hline, hits_dropE (not_upgrades hh), hh]
  · have := h.misses
    rw [hqueue, List.length_append, List.length_singleton, hsilent]
    simp only [issued, hh, Bool.not_false, Bool.toNat_true]
    omega
  · have := h.accesses
    rw [hqueue, List.length_append, List.length_singleton]
    simp only [issued]
    omega

/-! ### A grant performs the access of its request -/

theorem forward_of_exclusive (p : Protocol) (h : p.features.exclusive = false) :
    p.features.forward = false := by
  cases p <;> first | rfl | cases h

/-- Without `E`, `F` and `O` the copy that answers is an `M`. -/
theorem eq_M_of_supplies (hx : p.features.exclusive = false) (ho : p.features.owned = false)
    {st : CacheState} (hv : p.features.valid st = true) (hs : supplies st = true) : st = .M := by
  have hf := forward_of_exclusive p hx
  cases st <;> simp_all [valid, supplies, CacheState.rank]

/-- Without an `E` the states are the same. -/
theorem Serves.line_eq (h : Serves p s σ) (hx : p.features.exclusive = false) {j : Fin n} {a : Paddr}
    (hp : (s.line j a).pending = false) : σ.line j a = s.line j a := by
  rw [h.line j a hp, dropE_of_valid hx (h.live.valid j a)]

/-- A copy that answers in `s` does in the serial execution. -/
theorem Serves.supplies_mono (h : Serves p s σ) (hx : p.features.exclusive = false) {j : Fin n} {a : Paddr}
    (hs : supplies (s.line j a) = true) : σ.line j a = s.line j a := by
  apply h.line_eq hx
  by_contra hp
  rw [not_supplies_of_pending (by simpa using hp)] at hs
  cases hs

/-- And without an `O` the other way round: one that waits for its DATA had no `M`. -/
theorem Serves.supplies_same (h : Serves p s σ) (hx : p.features.exclusive = false)
    (ho : p.features.owned = false) (hr : s.bus.requestInProgress = false) {j : Fin n} {a : Paddr}
    (hs : supplies (σ.line j a) = true) : σ.line j a = s.line j a := by
  apply h.line_eq hx
  by_contra hp
  obtain ⟨op, addr, hout, rfl⟩ := h.live.pending j a (by simpa using hp)
  have hmem := h.live.sought j op addr hout
  have hgranted : s.granted = .none := if_neg (by rw [hr]; decide)
  rw [requests, hgranted, Option.toList_none, List.nil_append] at hmem
  have hmiss := h.queued _ hmem j op addr rfl hout
  have hv := h.quiet.valid j (lineOf addr)
  rw [Protocol.withoutE_of hx] at hv
  rw [eq_M_of_supplies hx ho hv hs] at hmiss
  rcases h.live.ops j op addr hout with rfl | rfl <;> cases hmiss

theorem Serves.afterGrant (h : Serves p s σ) {q : List Mreq}
    (hr : s.bus.requestInProgress = false) (hq : s.bus.pendingRequests = m :: q) :
    ∃ i op addr τ, s.outstanding i = some (op, addr) ∧ m.srcMid = L1id i ∧
      σ.access p.withoutE (.ofOp i op addr) = .ok τ ∧ Serves p (s.afterGrant p.features m q) τ := by
  have hmem : m ∈ s.bus.pendingRequests := by rw [hq]; exact List.mem_cons_self
  obtain ⟨i, op, addr, hout, hm⟩ := h.live.asked m (mem_requests_of_queue hmem)
  have hsrc : m.srcMid = L1id i := by rw [hm]; rfl
  have haddr : lineOf addr = m.addr := by rw [hm]; rfl
  have hmsg : p.withoutE.features.request op = m.msg := by rw [request_withoutE, hm]; rfl
  have hwait := h.live.wait i op addr hout
  have hmiss := h.queued m hmem i op addr hsrc hout
  rw [haddr] at hwait hmiss
  obtain ⟨τ, hτ, hquiet, hacc⟩ := h.quiet.access (.ofOp i op addr)
  have hstats := h.quiet.access_stats hτ
  obtain ⟨hmisses, hup, helse, hown, hothers⟩ := hacc
  simp only [Access.op_ofOp (h.live.ops i op addr hout), Access.node_ofOp, Access.addr_ofOp, hmiss,
    Bool.false_eq_true, if_false, haddr, hmsg] at hstats hmisses hup helse hown hothers
  obtain ⟨sh, hown⟩ := hown
  have hreq : s.requests = m :: q := by
    rw [requests, show s.granted = .none from if_neg (by rw [hr]; decide), hq]
    rfl
  have hτline : ∀ j b, j ≠ i → τ.line j b =
      if b = m.addr then p.withoutE.features.yield m.msg (σ.line j b) else σ.line j b := by
    intro j b hj
    split
    · next hb => rw [hb, hothers j hj]
    · next hb => exact helse j b hb
  -- the requester does not answer itself
  have hself : ∀ j, supplies (s.line j m.addr) = true → j ≠ i := by
    rintro j hs rfl
    rw [hwait, not_supplies_of_pending (pend_pending _)] at hs
    cases hs
  refine ⟨i, op, addr, τ, hout, hsrc, hτ, ?_⟩
  refine { live := h.live.next (h.live.step_grant hr hq), quiet := hquiet, line := fun j a hp => ?_,
           queued := fun m' hm' j op' addr' hj hj' => ?_, granted := fun m' j hm' hj => ?_,
           misses := ?_, accesses := ?_, settled := ?_, upgraded := h.upgraded, transfers := fun hx => ?_,
           same := fun hx ho => ?_ }
  · rw [line_afterGrant] at hp ⊢
    by_cases hj : j = i
    · subst hj
      by_cases ha : a = m.addr
      · rw [if_pos ha, yield_pending, ha, hwait, pend_pending] at hp
        cases hp
      · rw [if_neg ha] at hp ⊢
        rw [helse j a ha, h.line j a hp]
    · rw [hτline j a hj]
      split
      · next ha =>
        rw [if_pos ha, yield_pending] at hp
        rw [h.line j a hp, dropE_yield]
      · next ha =>
        rw [if_neg ha] at hp
        exact h.line j a hp
  · have hji : j ≠ i := by
      rintro rfl
      have hd := h.live.distinct
      rw [hreq, List.map_cons, List.nodup_cons] at hd
      exact hd.1 (List.mem_map.mpr ⟨m', hm', hj.trans hsrc.symm⟩)
    have hmiss' := h.queued m' (by rw [hq]; exact List.mem_cons_of_mem m hm') j op' addr' hj hj'
    rw [hτline j _ hji]
    split
    · exact not_hits_yield _ hmiss'
    · exact hmiss'
  · obtain rfl : m = m' := Option.some.inj hm'
    obtain rfl : i = j := L1id_injective (hsrc.symm.trans hj)
    rw [hown]
    exact fill_withoutE p m.msg sh false
  · have := h.misses
    rw [hq, List.length_cons] at this
    rw [hmisses]
    show s.stats.cacheMisses + s.stats.silentUpgrades = σ.stats.cacheMisses + 1 + q.length
    omega
  · have := h.accesses
    rw [hq, List.length_cons] at this
    rw [hstats.1]
    show s.stats.cacheAccesses = σ.stats.cacheAccesses + 1 + q.length
    omega
  · rw [hup, not_upgrades hmiss]
    exact h.settled
  · rw [hstats.2]
    refine Nat.add_le_add (h.transfers hx) (List.countP_mono_left fun j _ hs => ?_)
    rw [h.supplies_mono hx hs]
    exact decide_eq_true ⟨hself j hs, hs⟩
  · rw [hstats.2]
    refine congrArg₂ (· + ·) (h.same hx ho) (List.countP_congr fun j _ => ?_)
    rw [decide_eq_true_iff]
    refine ⟨fun hs => ⟨hself j hs, by rwa [h.supplies_mono hx hs]⟩, fun hs => ?_⟩
    rw [← h.supplies_same hx ho hr hs.2]
    exact hs.2

theorem Serves.afterDeliver (h : Serves p s σ) {d : Mreq}
    (ht : s.step p .deliver = .ok (s.afterDeliver p.features m d i)) (hg : s.granted = some m)
    (hi : s.Asks p m i) : Serves p (s.afterDeliver p.features m d i) σ := by
  have hreq : s.requests = m :: s.bus.pendingRequests := by
    rw [requests, hg]
    rfl
  have hother : ∀ m' ∈ s.bus.pendingRequests, ∀ j, m'.srcMid = L1id j → j ≠ i := by
    rintro m' hm' j hj rfl
    have hd := h.live.distinct
    rw [hreq, List.map_cons, List.nodup_cons] at hd
    exact hd.1 (List.mem_map.mpr ⟨m', hm', hj.trans hi.srcMid.symm⟩)
  refine { live := h.live.next ht, quiet := h.quiet, line := fun j a hp => ?_,
           queued := fun m' hm' j op' addr' hj hj' => ?_,
           granted := fun m' j hm' => (by cases hm'), misses := h.misses, accesses := h.accesses,
           settled := h.settled, upgraded := h.upgraded, transfers := h.transfers, same := h.same }
  · simp only [Untimed.afterDeliver] at hp ⊢
    split
    · next hja =>
      obtain ⟨rfl, rfl⟩ := hja
      rw [h.granted m j hg hi.srcMid]
      exact (dropE_fill p m.msg _ false).symm
    · next hja =>
      rw [if_neg hja] at hp
      exact h.line j a hp
  · have hji := hother m' hm' j hj
    simp only [Untimed.afterDeliver, if_neg hji] at hj'
    exact h.queued m' hm' j op' addr' hj hj'

/-! ### Runs -/

theorem first_eq {q : List Mreq} (hq : s.bus.pendingRequests = m :: q) (hm : m.srcMid = L1id i)
    (ho : s.outstanding i = some (op, addr)) : s.first = some (.ofOp i op addr) := by
  unfold first
  rw [hq, List.head?_cons, Option.bind_some]
  have hi : (if m.srcMid = L1id i then s.waiting i else none) = some (.ofOp i op addr) := by
    rw [if_pos hm, waiting, ho]
    rfl
  cases hf : (List.finRange n).findSome? fun j => if m.srcMid = L1id j then s.waiting j else none with
  | none =>
    have hnone := List.findSome?_eq_none_iff.mp hf i (List.mem_finRange i)
    rw [hi] at hnone
    cases hnone
  | some e =>
    obtain ⟨j, -, hj⟩ := List.exists_of_findSome?_eq_some hf
    split at hj
    · next hmj =>
      obtain rfl : i = j := L1id_injective (hm.symm.trans hmj)
      rw [if_pos hm] at hi
      exact hj.symm.trans hi
    · cases hj

theorem serial_append (p : Protocol) (l l' : List (Access n)) (σ : Untimed n) :
    serial p (l ++ l') σ = serial p l σ >>= fun τ => serial p l' τ := List.foldlM_append

/-- **The serial execution makes the accesses an event performs.** -/
theorem Serves.step (h : Serves p s σ) {e : Event n} (ht : s.step p e = .ok t) :
    ∃ τ, serial p.withoutE (s.performs e) σ = .ok τ ∧ Serves p t τ := by
  cases h.live.happens ht with
  | issue i op addr hop ho =>
    cases hh : hits (s.line i (lineOf addr)) op with
    | true =>
      obtain ⟨τ, hτ, hserves⟩ : ∃ τ, σ.access p.withoutE (.ofOp i op addr) = .ok τ ∧
          Serves p (s.issued p.features i op addr) τ := by
        cases hup : upgrades (s.line i (lineOf addr)) op with
        | true => exact h.issued_upgrade hop ho hup
        | false => exact h.issued_hit hop ho hh hup
      refine ⟨τ, ?_, hserves⟩
      rw [performs, if_pos hh, serial, List.foldlM_cons, hτ]
      rfl
    | false =>
      refine ⟨σ, ?_, h.issued_miss hop ho hh⟩
      rw [performs, if_neg (by rw [hh]; decide)]
      rfl
  | grant m q hr hq =>
    obtain ⟨i, op, addr, τ, hout, hsrc, hτ, hserves⟩ := h.afterGrant hr hq
    refine ⟨τ, ?_, hserves⟩
    rw [performs, first_eq hq hsrc hout, Option.toList_some, serial, List.foldlM_cons, hτ]
    rfl
  | deliver m d i hg hi => exact ⟨σ, rfl, h.afterDeliver ht hg hi⟩

theorem Serves.run {es : List (Event n)} (h : Serves p s σ) (ht : s.run p es = .ok t) :
    ∃ τ, serial p.withoutE (performed p es s) σ = .ok τ ∧ Serves p t τ := by
  induction es generalizing s σ with
  | nil =>
    obtain rfl : s = t := Except.ok.inj ht
    exact ⟨σ, rfl, h⟩
  | cons e es ih =>
    rw [run_cons] at ht
    obtain ⟨u, hu, hrun⟩ := Loop.bind_eq_ok ht
    obtain ⟨τ, hτ, hserves⟩ := h.step hu
    obtain ⟨τ', hτ', hserves'⟩ := ih hserves hrun
    refine ⟨τ', ?_, hserves'⟩
    rw [performed, hu, serial_append, hτ]
    exact hτ'

/-! ### Every node keeps to its order -/

/-- The accesses of node `i`. -/
def ofNode (i : Fin n) (l : List (Access n)) : List (Access n) := l.filter (·.node = i)

@[simp] theorem ofNode_nil (i : Fin n) : ofNode i [] = [] := rfl

theorem ofNode_append (i : Fin n) (l l' : List (Access n)) :
    ofNode i (l ++ l') = ofNode i l ++ ofNode i l' := List.filter_append ..

theorem ofNode_singleton (i : Fin n) (e : Access n) : ofNode i [e] = if e.node = i then [e] else [] := by
  by_cases he : e.node = i <;> simp [ofNode, he]

/-- The access of node `i` whose request is in the queue: issued, and not performed. -/
def inQueue (s : Untimed n) (i : Fin n) : Option (Access n) :=
  if L1id i ∈ s.bus.pendingRequests.map (·.srcMid) then s.waiting i else none

theorem inQueue_of_free (ho : s.outstanding i = none) : s.inQueue i = none := by
  simp [inQueue, waiting, ho]

theorem inQueue_congr {i : Fin n}
    (hq : L1id i ∈ t.bus.pendingRequests.map (·.srcMid) ↔ L1id i ∈ s.bus.pendingRequests.map (·.srcMid))
    (ho : t.outstanding i = s.outstanding i) : t.inQueue i = s.inQueue i := by
  simp only [inQueue, hq, waiting, ho]

/-- What is issued joins what is in the queue, and what is performed leaves it. -/
theorem Live.performs_order (h : Live p s) {e : Event n} (ht : s.step p e = .ok t) (i : Fin n) :
    (s.inQueue i).toList ++ ofNode i e.access.toList = ofNode i (s.performs e) ++ (t.inQueue i).toList := by
  cases h.happens ht with
  | issue j op addr hop ho =>
    rw [Event.access, Option.toList_some, ofNode_singleton]
    cases hh : hits (s.line j (lineOf addr)) op with
    | true =>
      have hsame : (s.issued p.features j op addr).inQueue i = s.inQueue i := by
        refine inQueue_congr (by simp [issued, hh]) ?_
        by_cases hij : i = j <;> simp [issued, hh, hij, ho]
      rw [performs, if_pos hh, ofNode_singleton, hsame]
      by_cases hji : j = i
      · subst hji
        simp [inQueue_of_free ho]
      · simp [hji]
    | false =>
      have hno : s.performs (.issue j op addr) = [] := if_neg (by rw [hh]; decide)
      rw [hno, ofNode_nil, List.nil_append]
      by_cases hji : j = i
      · subst hji
        rw [inQueue_of_free ho, Access.node_ofOp, if_pos rfl]
        simp [inQueue, issued, hh, getMsg, waiting]
      · have hsame : (s.issued p.features j op addr).inQueue i = s.inQueue i := by
          refine inQueue_congr ?_ (by simp [issued, Ne.symm hji])
          simp [issued, hh, getMsg, Ne.symm hji]
        rw [hsame, Access.node_ofOp, if_neg hji, List.append_nil]
  | grant m q hr hq =>
    obtain ⟨j, op, addr, hout, hm⟩ := h.asked m (mem_requests_of_queue (by rw [hq]; exact List.mem_cons_self))
    have hsrc : m.srcMid = L1id j := by rw [hm]; rfl
    rw [performs, first_eq hq hsrc hout, Option.toList_some, ofNode_singleton]
    by_cases hji : j = i
    · subst hji
      have hd := h.distinct
      rw [requests, hq, List.map_append, List.nodup_append, List.map_cons, List.nodup_cons, hsrc] at hd
      have hgone : (s.afterGrant p.features m q).inQueue j = none := if_neg hd.2.1.1
      have hhere : s.inQueue j = some (.ofOp j op addr) := by
        rw [inQueue, if_pos (by rw [hq, List.map_cons, hsrc]; exact List.mem_cons_self), waiting, hout]
        rfl
      simp [hgone, hhere, Event.access]
    · have hsame : (s.afterGrant p.features m q).inQueue i = s.inQueue i := by
        refine inQueue_congr ?_ rfl
        rw [hq, List.map_cons, List.mem_cons, hsrc]
        simp [afterGrant, snooped, Ne.symm hji]
      simp [hsame, hji, Event.access]
  | deliver m d j hg hi =>
    have hsame : (s.afterDeliver p.features m d j).inQueue i = s.inQueue i := by
      by_cases hij : i = j
      · -- what is granted is not in the queue
        subst hij
        have hd := h.distinct
        rw [requests, hg, Option.toList_some, List.map_append, List.map_singleton, List.singleton_append,
          List.nodup_cons, hi.srcMid] at hd
        exact (if_neg hd.1).trans (if_neg hd.1).symm
      · exact inQueue_congr Iff.rfl (by simp [afterDeliver, hij])
    rw [hsame]
    simp [performs, Event.access]

/-- **The accesses of a node are performed in the order in which they are issued.** -/
theorem Live.performed_order {es : List (Event n)} (h : Live p s) (ht : s.run p es = .ok t) (i : Fin n) :
    (s.inQueue i).toList ++ ofNode i (es.filterMap Event.access) =
      ofNode i (performed p es s) ++ (t.inQueue i).toList := by
  induction es generalizing s with
  | nil =>
    obtain rfl : s = t := Except.ok.inj ht
    simp [performed]
  | cons e es ih =>
    rw [run_cons] at ht
    obtain ⟨u, hu, hrun⟩ := Loop.bind_eq_ok ht
    have hstep := h.performs_order hu i
    have hrest := ih (h.next hu) hrun
    have hcons : (e :: es).filterMap Event.access = e.access.toList ++ es.filterMap Event.access := by
      cases he : e.access <;> simp [he]
    rw [hcons, ofNode_append, ← List.append_assoc, hstep, performed, hu, ofNode_append, List.append_assoc,
      List.append_assoc, hrest]

/-! ### Serializability -/

/-- The serial execution when nothing is outstanding any more. -/
theorem exists_serves {es : List (Event n)} (h : (start n).run p es = .ok s)
    (hq : ∀ i, s.outstanding i = none) :
    (∃ σ, serial p.withoutE (performed p es (start n)) (start n) = .ok σ ∧ Serves p s σ ∧
      s.bus.pendingRequests = [] ∧ ∀ i a, (s.line i a).pending = false) ∧
    ∀ i, ofNode i (performed p es (start n)) = ofNode i (es.filterMap Event.access) := by
  obtain ⟨σ, hσ, hserves⟩ := (serves_start p).run h
  have hnone : s.requests = [] := by
    refine List.eq_nil_iff_forall_not_mem.mpr fun m hm => ?_
    obtain ⟨i, hi⟩ := hserves.live.asked m hm
    exact hi.outstanding (hq i)
  refine ⟨⟨σ, hσ, hserves, (List.append_eq_nil_iff.mp hnone).2, (hserves.live.quiet hnone).not_pending⟩,
    fun i => ?_⟩
  have horder := (live_start p).performed_order h i
  rw [inQueue_of_free (hq i), inQueue_of_free rfl] at horder
  simpa using horder.symm

/-- The serial execution of `accs` under the protocol without `E` and `F` ends with these lines,
but for an `S` in their place, and has missed what is counted as a miss or an upgrade. -/
structure SerialWithoutE (p : Protocol) (accs : List (Access n)) (lines : Fin n → Paddr → CacheState)
    (stats : Stats) (σ : Untimed n) : Prop where
  ends : serial p.withoutE accs (start n) = .ok σ
  line : ∀ i a, σ.line i a = (lines i a).dropE
  misses : σ.stats.cacheMisses = stats.cacheMisses + stats.silentUpgrades
  accesses : σ.stats.cacheAccesses = stats.cacheAccesses
  upgrades : σ.stats.silentUpgrades = 0

/-- The serial execution of `accs` ends with these lines and counters, but that it may have
had more answered by caches. -/
structure SerialTo (p : Protocol) (accs : List (Access n)) (lines : Fin n → Paddr → CacheState)
    (stats : Stats) (σ : Untimed n) : Prop where
  ends : serial p accs (start n) = .ok σ
  quiet : Quiet p σ
  line : σ.line = lines
  misses : σ.stats.cacheMisses = stats.cacheMisses
  accesses : σ.stats.cacheAccesses = stats.cacheAccesses
  upgrades : σ.stats.silentUpgrades = stats.silentUpgrades
  transfers : stats.cacheToCacheTransfers ≤ σ.stats.cacheToCacheTransfers
  same : p.features.owned = false → stats.cacheToCacheTransfers = σ.stats.cacheToCacheTransfers

section
variable {accs : List (Access n)} (h : Serves p s σ) (hσ : serial p.withoutE accs (start n) = .ok σ)
  (hqueue : s.bus.pendingRequests = []) (hfree : ∀ i a, (s.line i a).pending = false)
include h hσ hqueue hfree

theorem Serves.serialWithoutE : SerialWithoutE p accs s.line s.stats σ := by
  have hmisses := h.misses
  have haccesses := h.accesses
  rw [hqueue, List.length_nil, Nat.add_zero] at hmisses haccesses
  exact ⟨hσ, fun i a => h.line i a (hfree i a), hmisses.symm, haccesses.symm, h.settled⟩

theorem Serves.serialTo (hx : p.features.exclusive = false) : SerialTo p accs s.line s.stats σ := by
  obtain ⟨-, -, hmisses, haccesses, hnone⟩ := h.serialWithoutE hσ hqueue hfree
  have hsilent := h.upgraded hx
  have hquiet := h.quiet
  rw [Protocol.withoutE_of hx] at hσ hquiet
  rw [hsilent, Nat.add_zero] at hmisses
  refine ⟨hσ, hquiet, ?_, hmisses, haccesses, hnone.trans hsilent.symm, h.transfers hx, h.same hx⟩
  funext i a
  exact h.line_eq hx (hfree i a)

end

/-- **All protocols are serializable but for `E` and `F`.** When nothing is outstanding after
any sequence of events, the lines are those of the accesses one after the other under the
protocol without `E` and `F`, which has missed what is a miss or a silent upgrade here. -/
theorem serializable_withoutE (p : Protocol) (es : List (Event n)) (h : (start n).run p es = .ok s)
    (hq : ∀ i, s.outstanding i = none) :
    (∃ σ, SerialWithoutE p (performed p es (start n)) s.line s.stats σ) ∧
      ∀ i, ofNode i (performed p es (start n)) = ofNode i (es.filterMap Event.access) := by
  obtain ⟨⟨σ, hσ, hserves, hqueue, hfree⟩, horder⟩ := exists_serves h hq
  exact ⟨⟨σ, hserves.serialWithoutE hσ hqueue hfree⟩, horder⟩

/-- Nodes 0 and 1 have the line in `S` and wait to store to it when the load of node 2 is granted,
which has an `E` and upgrades it before them. -/
theorem serializable_withoutE_overtaken : ∃ s : Untimed 3,
    let es : List (Event 3) := [.issue 0 .LOAD 0x40, .grant, .deliver, .issue 1 .LOAD 0x40, .grant, .deliver,
      .issue 2 .LOAD 0x40, .issue 0 .STORE 0x40, .issue 1 .STORE 0x40, .grant, .deliver,
      .issue 2 .STORE 0x40, .grant, .deliver, .grant, .deliver]
    (start 3).run .MESI_PRO es = .ok s ∧
      (∃ σ, SerialWithoutE .MESI_PRO (performed .MESI_PRO es (start 3)) s.line s.stats σ) ∧
      ∀ i, ofNode i (performed .MESI_PRO es (start 3)) = ofNode i (es.filterMap Event.access) :=
  ⟨_, rfl, serializable_withoutE .MESI_PRO _ rfl (by decide)⟩

/-- **MI, MSI and MOSI are serializable.** When nothing is outstanding after any sequence of
events, the caches and the counters are those of the accesses one after the other, in the
order in which they are performed, which is for every node the order in which it has
issued them. Under MOSI a line that waits in `IM` no longer answers as an `O`, so fewer
transfers may have been made. -/
theorem serializable (p : Protocol) (hx : p.features.exclusive = false) (es : List (Event n))
    (h : (start n).run p es = .ok s) (hq : ∀ i, s.outstanding i = none) :
    (∃ σ, SerialTo p (performed p es (start n)) s.line s.stats σ) ∧
      ∀ i, ofNode i (performed p es (start n)) = ofNode i (es.filterMap Event.access) := by
  obtain ⟨⟨σ, hσ, hserves, hqueue, hfree⟩, horder⟩ := exists_serves h hq
  exact ⟨⟨σ, hserves.serialTo hσ hqueue hfree hx⟩, horder⟩

/-- Two stores to one line at once, and a load of it between their grants. -/
theorem serializable_stores : ∃ s : Untimed 3,
    let es : List (Event 3) := [.issue 0 .STORE 0x40, .issue 1 .STORE 0x40, .grant, .issue 2 .LOAD 0x40,
      .deliver, .grant, .deliver, .grant, .deliver]
    (start 3).run .MSI_PRO es = .ok s ∧
      (∃ σ, SerialTo .MSI_PRO (performed .MSI_PRO es (start 3)) s.line s.stats σ) ∧
      ∀ i, ofNode i (performed .MSI_PRO es (start 3)) = ofNode i (es.filterMap Event.access) :=
  ⟨_, rfl, serializable .MSI_PRO rfl _ rfl (by decide)⟩

end Untimed

/-! ### The simulator -/

open Untimed

variable {n : ℕ} {x : Input n}

theorem filterMap_single {α : Type} (g : Fin n → Option α) (i : Fin n) {l : List (Fin n)}
    (hl : l.Nodup) (hi : i ∈ l) : l.filterMap (fun j => if j = i then g j else none) = (g i).toList := by
  induction l with
  | nil => cases hi
  | cons j l ih =>
    obtain ⟨hj, hl⟩ := List.nodup_cons.mp hl
    rw [List.filterMap_cons]
    by_cases hji : j = i
    · subst hji
      have hrest : l.filterMap (fun k => if k = j then g k else none) = [] := by
        rw [List.filterMap_eq_nil_iff]
        intro k hk
        exact if_neg fun (hkj : k = j) => hj (hkj ▸ hk)
      rw [if_pos rfl, hrest]
      cases g j <;> rfl
    · rw [if_neg hji]
      exact ih hl ((List.mem_cons.mp hi).resolve_left (Ne.symm hji))

/-- What node `i` issues in a cycle: what waits in the slot of its cache. -/
theorem Simulator.ofNode_events (s : Simulator n Trace) (i : Fin n) :
    ofNode i (s.events.filterMap Event.access) =
      (s.Nd i).L1.procRequest.toList.map fun r => .ofOp i r.msg r.addr := by
  rw [events, List.filterMap_append, ofNode_append]
  refine (congrArg (HAppend.hAppend _) (?_ : _ = [])).trans ((List.append_nil _).trans ?_)
  · -- a grant and DATA issue nothing
    split
    · rfl
    · split <;> rfl
  rw [List.filterMap_filterMap, ofNode, List.filter_filterMap]
  have hone := filterMap_single (fun j => ((s.Nd j).L1.procRequest.map fun r => Access.ofOp j r.msg r.addr))
    i (List.nodup_finRange n) (List.mem_finRange i)
  rw [← Option.toList_map, ← hone]
  refine List.filterMap_congr fun j _ => ?_
  cases hr : (s.Nd j).L1.procRequest with
  | none => simp [Node.issues, hr]
  | some r =>
    by_cases hji : j = i
    · subst hji
      simp [Node.issues, hr, Event.access]
    · simp [Node.issues, hr, hji, Event.access]

namespace Run

variable (r : Run x)

theorem ofNode_events (i : Fin n) (c : ℕ) : ofNode i ((r.events (c + 1)).filterMap Event.access) =
    (r.issues i c).map fun m => .ofOp i m.msg m.addr := by
  have hsucc : ∀ c, r.events (c + 1) = r.events c ++ (r.state c).events := by
    intro c
    rw [events, List.range_succ, List.flatMap_append, List.flatMap_singleton]
    rfl
  induction c with
  | zero =>
    rw [hsucc, List.filterMap_append, ofNode_append, Simulator.ofNode_events, r.start]
    rfl
  | succ c ih =>
    rw [hsucc, List.filterMap_append, ofNode_append, ih, Simulator.ofNode_events, issues, List.map_append]

/-- When the loop has ended the events have issued the accesses of the traces. -/
theorem Ends.ofNode_events {R : ℕ} (h : r.Ends R) (i : Fin n) :
    ofNode i ((r.events R).filterMap Event.access) =
      (x.traces i).map fun l => ⟨i, l.1 = 'w', lineOf l.2⟩ := by
  obtain ⟨c, rfl⟩ : ∃ c, R = c + 1 := ⟨R - 1, by have := h.pos; omega⟩
  -- nothing is in the slots at the end
  have hissued := (h.quiescent r).issued i
  obtain ⟨st, k, e, ha⟩ := (r.inv (c + 1)).node i
  obtain ⟨rfl, -⟩ := h.idle r ha
  rw [issues, ha.proc, if_neg (by decide), Option.toList_none, List.append_nil] at hissued
  rw [r.ofNode_events, hissued, List.map_map]
  refine List.map_congr_left fun l _ => ?_
  by_cases hw : l.1 = 'w' <;> simp [Access.ofOp, Mreq.new, opOf, hw]

/-- The untimed system is where the loop has ended, with nothing outstanding. -/
theorem Ends.untimed {R : ℕ} (h : r.Ends R) : ∃ u, (Untimed.start n).run x.protocol (r.events R) = .ok u ∧
    (∀ i, u.outstanding i = none) ∧ u.line = (r.state R).lines ∧ u.stats = (r.state R).stats := by
  obtain ⟨u, hrun, -, hu⟩ := r.untimed_run R
  refine ⟨u, hrun, fun i => ?_, hu.line, hu.stats⟩
  obtain ⟨st, k, e, ha, hi⟩ := hu.node i
  obtain ⟨rfl, -⟩ := h.idle r ha
  exact hi

/-- **The simulator refines the untimed system.** Every state of a run is, but for what the
clock and the memory's latency are in it, a state of the untimed system after the events
of the cycles so far, with the same request in progress, and over the whole run these issue
the accesses of the traces. -/
theorem refinement (r : Run x) : ∃ es : ℕ → List (Event n),
    (∀ c, es c <+: es (c + 1)) ∧
    (∀ c, ∃ u, (Untimed.start n).run x.protocol (es c) = .ok u ∧ u.line = (r.state c).lines ∧
      u.granted = r.granted c ∧ u.bus.pendingRequests = (r.state c).bus.pendingRequests ∧
      u.bus.requestInProgress = (r.state c).bus.requestInProgress ∧
      u.bus.dataReply = (r.state c).bus.dataReply.filter (·.srcMid ≠ MCid n) ∧
      u.bus.sharedLine = (r.state c).bus.sharedLine ∧ u.stats = (r.state c).stats) ∧
    ∃ R, (∀ fuel, (Simulator.init x.traces).run x.settings fuel =
        .ok (if R ≤ fuel then some (r.state R) else none)) ∧
      ∀ i, ofNode i ((es R).filterMap Event.access) =
        (x.traces i).map fun l => ⟨i, l.1 = 'w', lineOf l.2⟩ := by
  refine ⟨r.events, fun c => ?_, fun c => ?_, ?_⟩
  · rw [events, events, List.range_succ, List.flatMap_append]
    exact List.prefix_append _ _
  · obtain ⟨u, hrun, -, hu⟩ := r.untimed_run c
    exact ⟨u, hrun, hu.line, hu.granted, hu.queue, hu.inProgress, hu.reply, hu.shared, hu.stats⟩
  · obtain ⟨R, hR⟩ := r.exists_ends
    exact ⟨R, r.run_eq_of_ends hR, hR.ofNode_events⟩

/-- The serial execution beside a run that has ended. -/
theorem Ends.exists_serves {R : ℕ} (h : r.Ends R) : ∃ accs u σ,
    (∀ i, ofNode i accs = (x.traces i).map fun l => ⟨i, l.1 = 'w', lineOf l.2⟩) ∧
    u.line = (r.state R).lines ∧ u.stats = (r.state R).stats ∧
    serial x.protocol.withoutE accs (.start n) = .ok σ ∧ Serves x.protocol u σ ∧
    u.bus.pendingRequests = [] ∧ ∀ i a, (u.line i a).pending = false := by
  obtain ⟨u, hrun, hout, hline, hstats⟩ := h.untimed r
  obtain ⟨⟨σ, hσ, hserves, hqueue, hfree⟩, horder⟩ := Untimed.exists_serves hrun hout
  refine ⟨_, u, σ, fun i => ?_, hline, hstats, hσ, hserves, hqueue, hfree⟩
  rw [horder, h.ofNode_events]

/-- **Every run is a serial execution but for `E` and `F`**: of the accesses of the traces, in an
order in which every node keeps to its own, under the protocol without them. Its misses are
the misses and the silent upgrades of the run. -/
theorem serial_run_withoutE (r : Run x) : ∃ s accs σ,
    (∃ fuel, (Simulator.init x.traces).run x.settings fuel = .ok (some s)) ∧
    (∀ i, ofNode i accs = (x.traces i).map fun l => ⟨i, l.1 = 'w', lineOf l.2⟩) ∧
    SerialWithoutE x.protocol accs s.lines s.stats σ := by
  obtain ⟨R, hR⟩ := r.exists_ends
  obtain ⟨accs, u, σ, horder, hline, hstats, hσ, hserves, hqueue, hfree⟩ := hR.exists_serves r
  refine ⟨r.state R, accs, σ, ⟨R, by rw [r.run_eq_of_ends hR, if_pos (Nat.le_refl R)]⟩, horder, ?_⟩
  rw [← hline, ← hstats]
  exact hserves.serialWithoutE hσ hqueue hfree

/-- **A run under MI, MSI or MOSI is a serial execution** of the accesses of the traces, in
an order in which every node keeps to its own: the final states of the lines and the
misses are those of one access after the other. -/
theorem serial_run (r : Run x) (hx : x.f.exclusive = false) : ∃ s accs σ,
    (∃ fuel, (Simulator.init x.traces).run x.settings fuel = .ok (some s)) ∧
    (∀ i, ofNode i accs = (x.traces i).map fun l => ⟨i, l.1 = 'w', lineOf l.2⟩) ∧
    SerialTo x.protocol accs s.lines s.stats σ := by
  obtain ⟨R, hR⟩ := r.exists_ends
  obtain ⟨accs, u, σ, horder, hline, hstats, hσ, hserves, hqueue, hfree⟩ := hR.exists_serves r
  refine ⟨r.state R, accs, σ, ⟨R, by rw [r.run_eq_of_ends hR, if_pos (Nat.le_refl R)]⟩, horder, ?_⟩
  rw [← hline, ← hstats]
  exact hserves.serialTo hσ hqueue hfree hx

/-- Node 0 stores twice to a line that node 1 loads. -/
theorem serial_run_storeLoadStore : ∃ s accs σ,
    (∃ fuel, (Simulator.init (Input.storeLoadStore 1 (Nat.le_refl 1)).traces).run ⟨.MOSI_PRO, 1⟩ fuel =
      .ok (some s)) ∧
    (∀ i, ofNode i accs = ((Input.storeLoadStore 1 (Nat.le_refl 1)).traces i).map fun l =>
      ⟨i, l.1 = 'w', lineOf l.2⟩) ∧
    SerialTo .MOSI_PRO accs s.lines s.stats σ :=
  (Input.storeLoadStore 1 (Nat.le_refl 1)).run.serial_run rfl

end Run

end CoherenceSim
