/-
# Lines that are not shared

What the simulator puts out where every line is used by one node only. The line then
goes through the states a cache of its own gives it (`settle`), whatever the other nodes
do. `private_lines`: no cache answers another; every line is missed once, and where there
is no `E` once more if it is loaded before it is stored to; that is what a protocol with
`E` counts as a silent upgrade. `one_processor`: with one node this and the lengths of
the trace give all that is put out, the run time with it.
-/
import CoherenceSim.Lib.Along
import CoherenceSim.Serial

namespace CoherenceSim

open Features

variable {n : ℕ}

/-! ### A line in a cache of its own -/

namespace Features

variable (f : Features)

/-- The state after an access, with no copy elsewhere. -/
def settle (st : CacheState) (op : Message) : CacheState :=
  if hits st op then afterHit st op else f.fill (f.request op) false

/-- An access that misses. -/
def missed (st : CacheState) (op : Message) : ℕ := (!hits st op).toNat

/-- One that upgrades silently. -/
def upgraded (st : CacheState) (op : Message) : ℕ := (upgrades st op).toNat

/-- The misses of a sequence of operations on a line. -/
def missesOn (ops : List Message) : ℕ := Along.total f.settle missed .I ops

def upgradesOn (ops : List Message) : ℕ := Along.total f.settle upgraded .I ops

/-- A line that is loaded before it is stored to. -/
def convertsOn (ops : List Message) : Bool := ops.head? = some .LOAD ∧ .STORE ∈ ops

variable {f} {ops : List Message}

/-- A line that has been stored to stays as it is. -/
theorem total_M : Along.total f.settle missed .M ops = 0 ∧ Along.total f.settle upgraded .M ops = 0 := by
  have hstay : ∀ op, f.settle .M op = .M ∧ missed .M op = 0 ∧ upgraded .M op = 0 := by
    intro op
    cases op <;> exact ⟨rfl, rfl, rfl⟩
  exact ⟨Along.total_of_stays fun op _ => ⟨(hstay op).1, (hstay op).2.1⟩,
    Along.total_of_stays fun op _ => ⟨(hstay op).1, (hstay op).2.2⟩⟩

/-- A line that has been loaded stays as it is up to the first store, which upgrades it. -/
theorem total_E : Along.total f.settle missed .E ops = 0 ∧
    Along.total f.settle upgraded .E ops = (decide (Message.STORE ∈ ops)).toNat := by
  induction ops with
  | nil => exact ⟨rfl, rfl⟩
  | cons op ops ih =>
    rw [Along.total, Along.total]
    by_cases hop : op = .STORE
    · subst hop
      have hM : f.settle .E .STORE = .M := rfl
      rw [hM, total_M.1, total_M.2]
      exact ⟨rfl, by simp [upgraded, upgrades]⟩
    · have hE : f.settle .E op = .E := by simp [settle, hits, afterHit, CacheState.rank, hop]
      rw [hE, ih.1, ih.2]
      simp [missed, upgraded, upgrades, hits, CacheState.rank, hop, Ne.symm hop]

/-- Which misses without an `E`. -/
theorem total_S : Along.total f.settle missed .S ops = (decide (Message.STORE ∈ ops)).toNat ∧
    Along.total f.settle upgraded .S ops = 0 := by
  induction ops with
  | nil => exact ⟨rfl, rfl⟩
  | cons op ops ih =>
    rw [Along.total, Along.total]
    by_cases hop : op = .STORE
    · subst hop
      have hM : f.settle .S .STORE = .M := by simp [settle, hits, CacheState.rank]
      rw [hM, total_M.1, total_M.2]
      simp [missed, upgraded, upgrades, hits, CacheState.rank]
    · have hS : f.settle .S op = .S := by simp [settle, hits, afterHit, CacheState.rank, hop]
      rw [hS, ih.1, ih.2]
      simp [missed, upgraded, upgrades, hits, CacheState.rank, hop, Ne.symm hop]

theorem total_first (op : Message) : missed .I op = 1 ∧ upgraded .I op = 0 ∧
    f.settle .I op = f.fill (f.request op) false := by
  cases op <;> exact ⟨rfl, rfl, rfl⟩

/-- **What a line is missed and upgraded.** -/
theorem missesOn_eq (p : Protocol) (hops : ∀ op ∈ ops, op = .LOAD ∨ op = .STORE) (hne : ops ≠ []) :
    p.features.missesOn ops =
      1 + (p.features.shared && !p.features.exclusive && convertsOn ops).toNat ∧
    p.features.upgradesOn ops = (p.features.exclusive && convertsOn ops).toNat := by
  obtain ⟨op, rest, rfl⟩ := List.exists_cons_of_ne_nil hne
  obtain ⟨h1, h2, h3⟩ := total_first (f := p.features) op
  rw [missesOn, upgradesOn, Along.total, Along.total, h1, h2, h3, Nat.zero_add]
  rcases hops op (by simp) with rfl | rfl
  · -- the load brings an `M`, an `S` or an `E`
    have hc : convertsOn (.LOAD :: rest) = decide (Message.STORE ∈ rest) := by simp [convertsOn]
    rw [hc]
    cases p with
    | MI_PRO => exact ⟨congrArg (1 + ·) total_M.1, total_M.2⟩
    | MSI_PRO | MOSI_PRO => exact ⟨congrArg (1 + ·) total_S.1, total_S.2⟩
    | MESI_PRO | MOESI_PRO | MOESIF_PRO => exact ⟨congrArg (1 + ·) total_E.1, total_E.2⟩
  · have hc : convertsOn (.STORE :: rest) = false := by simp [convertsOn]
    rw [fill_request_STORE, total_M.1, total_M.2, hc, Bool.and_false, Bool.and_false]
    exact ⟨rfl, rfl⟩

end Features

/-! ### The untimed system -/

/-- No two nodes use one line. -/
def PrivateLines (l : List (Access n)) : Prop :=
  ∀ e ∈ l, ∀ e' ∈ l, lineOf e.addr = lineOf e'.addr → e.node = e'.node

/-- What node `i` does to the line `a`, in order. -/
def opsAt (l : List (Access n)) (i : Fin n) (a : Paddr) : List Message :=
  (l.filter fun e => e.node = i ∧ lineOf e.addr = a).map (·.op)

theorem opsAt_append_singleton (l : List (Access n)) (e : Access n) (i : Fin n) (a : Paddr) :
    opsAt (l ++ [e]) i a = opsAt l i a ++ if e.node = i ∧ lineOf e.addr = a then [e.op] else [] := by
  unfold opsAt
  rw [List.filter_append, List.map_append]
  by_cases h : e.node = i ∧ lineOf e.addr = a <;> simp [h]

namespace Untimed

variable {p : Protocol} {s t : Untimed n} {hist : List (Access n)} {i j : Fin n} {op : Message} {addr : Paddr}
variable {m : Mreq} {lines : Finset Paddr}

/-- What the system is after the accesses `hist`, to lines of `lines`, that no two nodes share. -/
structure Apart (p : Protocol) (lines : Finset Paddr) (hist : List (Access n)) (s : Untimed n) : Prop where
  live : Live p s
  issued : ∀ i op addr, s.outstanding i = some (op, addr) → Access.ofOp i op addr ∈ hist
  line : ∀ i a, (s.line i a).pending = false → s.line i a = (opsAt hist i a).foldl p.features.settle .I
  awaited : ∀ i op addr, s.outstanding i = some (op, addr) →
    (opsAt hist i (lineOf addr)).foldl p.features.settle .I = p.features.fill (p.features.request op) false
  shared : ∀ m, s.granted = some m → s.bus.sharedLine = false
  misses : s.stats.cacheMisses = ∑ k ∈ Finset.univ ×ˢ lines, p.features.missesOn (opsAt hist k.1 k.2)
  upgrades : s.stats.silentUpgrades = ∑ k ∈ Finset.univ ×ˢ lines, p.features.upgradesOn (opsAt hist k.1 k.2)
  transfers : s.stats.cacheToCacheTransfers = 0

theorem apart_start (p : Protocol) (lines : Finset Paddr) : Apart p lines [] (start n) where
  live := live_start p
  issued i op addr h := by cases h
  line i a _ := rfl
  awaited i op addr h := by cases h
  shared m hm := by cases hm
  misses := (Finset.sum_eq_zero fun k _ => rfl).symm
  upgrades := (Finset.sum_eq_zero fun k _ => rfl).symm
  transfers := rfl

/-- A line that another node uses is not here. -/
theorem Apart.line_of_other (h : Apart p lines hist s) (hp : PrivateLines hist)
    (he : Access.ofOp i op addr ∈ hist) (hji : j ≠ i) : s.line j (lineOf addr) = .I := by
  have hnone : opsAt hist j (lineOf addr) = [] := by
    rw [opsAt, List.map_eq_nil_iff, List.filter_eq_nil_iff]
    intro e' he' hcond
    obtain ⟨hnode, hline⟩ : e'.node = j ∧ lineOf e'.addr = lineOf addr := by simpa using hcond
    exact hji (hnode.symm.trans (hp e' he' _ he hline))
  have hfree : (s.line j (lineOf addr)).pending = false := by
    by_contra hpend
    obtain ⟨op', addr', hout, hline⟩ := h.live.pending j _ (by simpa using hpend)
    have hmem : op' ∈ opsAt hist j (lineOf addr) := by
      rw [opsAt, List.mem_map]
      exact ⟨_, List.mem_filter.mpr ⟨h.issued j op' addr' hout, by simp [hline]⟩,
        Access.op_ofOp (h.live.ops j op' addr' hout)⟩
    rw [hnone] at hmem
    cases hmem
  rw [h.line j _ hfree, hnone]
  rfl

theorem Apart.afterGrant (h : Apart p lines hist s) (hp : PrivateLines hist) {q : List Mreq}
    (hr : s.bus.requestInProgress = false) (hq : s.bus.pendingRequests = m :: q) :
    Apart p lines hist (s.afterGrant p.features m q) := by
  obtain ⟨i, op, addr, hout, hm⟩ := h.live.asked m (mem_requests_of_queue (by rw [hq]; exact List.mem_cons_self))
  have haddr : m.addr = lineOf addr := by rw [hm]; rfl
  -- the line is at the requester, where it waits, and nowhere else
  have hwhere : ∀ j, s.line j m.addr = .I ∨ (s.line j m.addr).pending = true := by
    intro j
    rw [haddr]
    by_cases hji : j = i
    · rw [hji, h.live.wait i op addr hout]
      exact Or.inr (pend_pending _)
    · exact Or.inl (h.line_of_other hp (h.issued i op addr hout) hji)
  have hyield : ∀ j, p.features.yield m.msg (s.line j m.addr) = s.line j m.addr := by
    intro j
    rcases hwhere j with hI | hpend
    · rw [hI]
      rfl
    · exact yield_of_pending _ hpend
  have hline : (s.afterGrant p.features m q).line = s.line := by
    funext j b
    rw [line_afterGrant]
    split
    · next hb => rw [hb, hyield]
    · rfl
  have hsupplies : ∀ j, supplies (s.line j m.addr) = false := by
    intro j
    rcases hwhere j with hI | hpend
    · rw [hI]
      rfl
    · exact not_supplies_of_pending hpend
  refine { live := h.live.next (h.live.step_grant hr hq), issued := h.issued, line := ?_,
           awaited := h.awaited, shared := fun m' _ => ?_, misses := h.misses, upgrades := h.upgrades,
           transfers := ?_ }
  · rw [hline]
    exact h.line
  · rw [sharedLine_afterGrant, List.any_eq_false]
    intro j _
    rcases hwhere j with hI | hpend
    · simp [raises, supplies, hI, CacheState.rank]
    · have hne : s.line j m.addr ≠ .S := fun hS => by rw [hS] at hpend; cases hpend
      simp [raises, hsupplies j, hne]
  · show s.stats.cacheToCacheTransfers + _ = 0
    rw [h.transfers, Nat.zero_add, List.countP_eq_zero]
    intro j _
    simp [hsupplies j]

theorem Apart.issued_next (h : Apart p lines hist s) (hop : op = .LOAD ∨ op = .STORE)
    (ho : s.outstanding i = none) (hmem : lineOf addr ∈ lines) :
    Apart p lines (hist ++ [.ofOp i op addr]) (s.issued p.features i op addr) := by
  set a := lineOf addr with ha
  have hfree : (s.line i a).pending = false := by
    by_contra hpend
    obtain ⟨op', addr', hout, -⟩ := h.live.pending i a (by simpa using hpend)
    rw [ho] at hout
    cases hout
  have hst := h.line i a hfree
  have hops : ∀ j b, opsAt (hist ++ [.ofOp i op addr]) j b =
      if (j, b) = (i, a) then opsAt hist i a ++ [op] else opsAt hist j b := by
    intro j b
    rw [opsAt_append_singleton]
    by_cases hjb : (j, b) = (i, a)
    · obtain ⟨rfl, rfl⟩ := Prod.mk.inj hjb
      simp [ha, Access.op_ofOp hop]
    · rw [if_neg hjb, if_neg (fun hc => hjb (Prod.ext hc.1.symm hc.2.symm)), List.append_nil]
  have hsettle : (opsAt (hist ++ [.ofOp i op addr]) i a).foldl p.features.settle .I =
      p.features.settle (s.line i a) op := by
    rw [hops, if_pos rfl, List.foldl_append, ← hst]
    rfl
  have hcount : ∀ w : CacheState → Message → ℕ,
      ∑ k ∈ Finset.univ ×ˢ lines, Along.total p.features.settle w .I (opsAt (hist ++ [.ofOp i op addr]) k.1 k.2) =
        ∑ k ∈ Finset.univ ×ˢ lines, Along.total p.features.settle w .I (opsAt hist k.1 k.2) + w (s.line i a) op := by
    intro w
    refine Along.sum_add_at (k := (i, a)) (Finset.mem_product.mpr ⟨Finset.mem_univ i, hmem⟩) ?_ fun k hk => ?_
    · rw [hops, if_pos rfl, Along.total_append_singleton, ← hst]
    · rw [hops, if_neg hk]
  refine { live := h.live.next (h.live.step_issue hop ho), issued := fun j op' addr' hj => ?_,
           line := fun j b hj => ?_, awaited := fun j op' addr' hj => ?_, shared := h.shared, misses := ?_,
           upgrades := ?_, transfers := h.transfers }
  · simp only [Untimed.issued] at hj
    split_ifs at hj with hji hh
    · obtain ⟨rfl, rfl⟩ := Prod.mk.inj (Option.some.inj hj)
      rw [hji]
      exact List.mem_append_right _ (List.mem_singleton_self _)
    · exact List.mem_append_left _ (h.issued j op' addr' hj)
  · by_cases hjb : (j, b) = (i, a)
    · obtain ⟨rfl, rfl⟩ := Prod.mk.inj hjb
      rw [hsettle, settle]
      simp only [Untimed.issued, ← ha, and_self, if_true] at hj ⊢
      split_ifs at hj ⊢ with hh
      · rfl
      · rw [pend_pending] at hj
        cases hj
    · have hne : ¬ (j = i ∧ b = lineOf addr) := fun hc => hjb (Prod.ext hc.1 hc.2)
      simp only [Untimed.issued, if_neg hne] at hj ⊢
      rw [hops, if_neg hjb]
      exact h.line j b hj
  · by_cases hji : j = i
    · subst hji
      simp only [Untimed.issued, if_true, ← ha] at hj
      split_ifs at hj with hh
      obtain ⟨rfl, rfl⟩ := Prod.mk.inj (Option.some.inj hj)
      rw [hsettle, settle, if_neg hh]
    · simp only [Untimed.issued, if_neg hji] at hj
      rw [hops, if_neg (fun hc => hji (Prod.mk.inj hc).1)]
      exact h.awaited j op' addr' hj
  · exact (congrArg (· + _) h.misses).trans (hcount missed).symm
  · exact (congrArg (· + _) h.upgrades).trans (hcount upgraded).symm

theorem Apart.afterDeliver (h : Apart p lines hist s) {d : Mreq}
    (ht : s.step p .deliver = .ok (s.afterDeliver p.features m d i)) (hg : s.granted = some m)
    (hi : s.Asks p m i) : Apart p lines hist (s.afterDeliver p.features m d i) := by
  obtain ⟨op, addr, hout, hm⟩ := hi
  have haddr : m.addr = lineOf addr := by rw [hm]; rfl
  have hmsg : m.msg = p.features.request op := by rw [hm]; rfl
  have hother : ∀ j op' addr', (s.afterDeliver p.features m d i).outstanding j = some (op', addr') →
      s.outstanding j = some (op', addr') := by
    intro j op' addr' hj
    simp only [Untimed.afterDeliver] at hj
    split_ifs at hj
    exact hj
  refine { live := h.live.next ht, issued := fun j op' addr' hj => h.issued j op' addr' (hother j op' addr' hj),
           line := fun j b hj => ?_, awaited := fun j op' addr' hj => h.awaited j op' addr' (hother j op' addr' hj),
           shared := fun m' hm' => (by cases hm'), misses := h.misses, upgrades := h.upgrades,
           transfers := h.transfers }
  simp only [Untimed.afterDeliver] at hj ⊢
  by_cases hjb : j = i ∧ b = m.addr
  · obtain ⟨rfl, rfl⟩ := hjb
    rw [if_pos ⟨rfl, rfl⟩, h.shared m hg, hmsg, haddr, h.awaited j op addr hout]
  · rw [if_neg hjb] at hj ⊢
    exact h.line j b hj

/-- **An event leaves the lines apart.** -/
theorem Apart.next (h : Apart p lines hist s) {e : Event n}
    (hp : PrivateLines (hist ++ e.access.toList)) (hl : ∀ k ∈ e.access, lineOf k.addr ∈ lines)
    (ht : s.step p e = .ok t) : Apart p lines (hist ++ e.access.toList) t := by
  cases h.live.happens ht with
  | issue i op addr hop ho => exact h.issued_next hop ho (hl _ rfl)
  | grant m q hr hq =>
    have hnil : hist ++ (Event.grant : Event n).access.toList = hist := List.append_nil hist
    rw [hnil] at hp ⊢
    exact h.afterGrant hp hr hq
  | deliver m d i hg hi =>
    have hnil : hist ++ (Event.deliver : Event n).access.toList = hist := List.append_nil hist
    rw [hnil]
    exact h.afterDeliver ht hg hi

theorem Apart.run {es : List (Event n)} (h : Apart p lines hist s)
    (hp : PrivateLines (hist ++ es.filterMap Event.access))
    (hl : ∀ k ∈ es.filterMap Event.access, lineOf k.addr ∈ lines) (ht : s.run p es = .ok t) :
    Apart p lines (hist ++ es.filterMap Event.access) t := by
  induction es generalizing s hist with
  | nil =>
    obtain rfl : s = t := Except.ok.inj ht
    rwa [List.filterMap_nil, List.append_nil]
  | cons e es ih =>
    rw [run_cons] at ht
    obtain ⟨u, hu, hrun⟩ := Loop.bind_eq_ok ht
    have hcons : (e :: es).filterMap Event.access = e.access.toList ++ es.filterMap Event.access := by
      cases he : e.access <;> simp [he]
    rw [hcons] at hp hl ⊢
    rw [← List.append_assoc] at hp ⊢
    refine ih (h.next ?_ (fun k hk => hl k ?_) hu) hp (fun k hk => hl k (List.mem_append_right _ hk)) hrun
    · exact fun k hk k' hk' => hp k (List.mem_append_left _ hk) k' (List.mem_append_left _ hk')
    · exact List.mem_append_left _ (Option.mem_toList.mpr hk)

end Untimed

/-! ### The simulator -/

/-- The lines of a trace. -/
def linesOf (t : Trace) : Finset Paddr := (t.map fun l => lineOf l.2).toFinset

/-- What a trace does to the line `a`, in order. -/
def opsOn (t : Trace) (a : Paddr) : List Message := (t.filter fun l => lineOf l.2 = a).map fun l => opOf l.1

/-- The lines that it loads before it stores to them. -/
def converted (t : Trace) : Finset Paddr := (linesOf t).filter fun a => convertsOn (opsOn t a) = true

theorem opsOn_eq_nil {t : Trace} {a : Paddr} (h : a ∉ linesOf t) : opsOn t a = [] := by
  rw [opsOn, List.map_eq_nil_iff, List.filter_eq_nil_iff]
  intro l hl hline
  exact h (List.mem_toFinset.mpr (List.mem_map.mpr ⟨l, hl, by simpa using hline⟩))

theorem opsOn_ne_nil {t : Trace} {a : Paddr} (h : a ∈ linesOf t) : opsOn t a ≠ [] := by
  obtain ⟨l, hl, rfl⟩ := List.mem_map.mp (List.mem_toFinset.mp h)
  exact List.ne_nil_of_mem (List.mem_map_of_mem (List.mem_filter.mpr ⟨hl, by simp⟩))

/-- The misses and the upgrades of a trace whose lines no other node uses. -/
theorem sum_opsOn (p : Protocol) (t : Trace) {lines : Finset Paddr} (hsub : linesOf t ⊆ lines) :
    ∑ a ∈ lines, p.features.missesOn (opsOn t a) = (linesOf t).card +
      (if p.features.shared && !p.features.exclusive then (converted t).card else 0) ∧
    ∑ a ∈ lines, p.features.upgradesOn (opsOn t a) =
      if p.features.exclusive then (converted t).card else 0 := by
  have hops : ∀ a, ∀ op ∈ opsOn t a, op = .LOAD ∨ op = .STORE := by
    intro a op hop
    obtain ⟨l, -, rfl⟩ := List.mem_map.mp hop
    exact opOf_cases l.1
  have hcard : ∀ b : Bool, ∑ a ∈ linesOf t, (b && convertsOn (opsOn t a)).toNat =
      if b then (converted t).card else 0 := by
    intro b
    cases b with
    | false => simp
    | true =>
      rw [converted, Finset.card_filter, if_pos rfl]
      refine Finset.sum_congr rfl fun a _ => ?_
      cases convertsOn (opsOn t a) <;> rfl
  refine ⟨?_, ?_⟩
  · rw [← Finset.sum_subset hsub fun a _ ha => by rw [opsOn_eq_nil ha]; rfl,
      Finset.sum_congr rfl fun a ha => (missesOn_eq p (hops a) (opsOn_ne_nil ha)).1, Finset.sum_add_distrib,
      hcard, Finset.sum_const, smul_eq_mul, Nat.mul_one]
  · rw [← Finset.sum_subset hsub fun a _ ha => by rw [opsOn_eq_nil ha]; rfl,
      Finset.sum_congr rfl fun a ha => (missesOn_eq p (hops a) (opsOn_ne_nil ha)).2, hcard]

variable {x : Input n}

namespace Run

variable (r : Run x)

/-- The counters where every line is used by one node only. -/
structure PrivateCounters (x : Input n) (stats : Stats) : Prop where
  accesses : stats.cacheAccesses = ∑ i, (x.traces i).length
  transfers : stats.cacheToCacheTransfers = 0
  misses : stats.cacheMisses = ∑ i, (linesOf (x.traces i)).card +
    if x.f.shared && !x.f.exclusive then ∑ i, (converted (x.traces i)).card else 0
  upgrades : stats.silentUpgrades = if x.f.exclusive then ∑ i, (converted (x.traces i)).card else 0

theorem Ends.opsAt_events {R : ℕ} (h : r.Ends R) (i : Fin n) (a : Paddr) :
    opsAt ((r.events R).filterMap Event.access) i a = opsOn (x.traces i) a := by
  have hnode : opsAt ((r.events R).filterMap Event.access) i a =
      ((Untimed.ofNode i ((r.events R).filterMap Event.access)).filter fun e => lineOf e.addr = a).map (·.op) := by
    rw [opsAt, Untimed.ofNode, List.filter_filter]
    refine congrArg _ (List.filter_congr fun e _ => ?_)
    rw [Bool.decide_and, Bool.and_comm]
  rw [hnode, h.ofNode_events, List.filter_map, List.map_map, opsOn]
  simp only [Function.comp_def, lineOf_lineOf]
  refine List.map_congr_left fun l _ => ?_
  by_cases hw : l.1 = 'w' <;> simp [Access.op, opOf, hw]

theorem Ends.privateCounters {R : ℕ} (h : r.Ends R)
    (hp : ∀ i j, i ≠ j → ∀ l ∈ x.traces i, ∀ l' ∈ x.traces j, lineOf l.2 ≠ lineOf l'.2) :
    PrivateCounters x (r.state R).stats := by
  obtain ⟨u, hrun, -, -, hstats⟩ := h.untimed r
  set lines := Finset.univ.biUnion fun i => linesOf (x.traces i) with hlines
  have hmem : ∀ e ∈ (r.events R).filterMap Event.access, lineOf e.addr ∈ linesOf (x.traces e.node) := by
    intro e he
    have hnode : e ∈ Untimed.ofNode e.node ((r.events R).filterMap Event.access) :=
      List.mem_filter.mpr ⟨he, by simp⟩
    rw [h.ofNode_events, List.mem_map] at hnode
    obtain ⟨l, hl, hle⟩ := hnode
    rw [← hle, lineOf_lineOf]
    exact List.mem_toFinset.mpr (List.mem_map_of_mem hl)
  have hprivate : PrivateLines ((r.events R).filterMap Event.access) := by
    intro e he e' he' hline
    by_contra hne
    obtain ⟨l, hl, hle⟩ := List.mem_map.mp (List.mem_toFinset.mp (hmem e he))
    obtain ⟨l', hl', hle'⟩ := List.mem_map.mp (List.mem_toFinset.mp (hmem e' he'))
    exact hp _ _ hne l hl l' hl' (hle.trans (hline.trans hle'.symm))
  have hapart := (Untimed.apart_start (n := n) x.protocol lines).run (by simpa using hprivate)
    (fun e he => Finset.mem_biUnion.mpr ⟨e.node, Finset.mem_univ _, hmem e he⟩) hrun
  rw [List.nil_append] at hapart
  have hsub : ∀ i, linesOf (x.traces i) ⊆ lines := fun i a ha =>
    Finset.mem_biUnion.mpr ⟨i, Finset.mem_univ i, ha⟩
  have hmisses := hapart.misses
  have hupgrades := hapart.upgrades
  simp only [Finset.sum_product, h.opsAt_events] at hmisses hupgrades
  refine ⟨(h.quiescent r).accesses, hstats ▸ hapart.transfers, ?_, ?_⟩
  · rw [← hstats, hmisses, Finset.sum_congr rfl fun i _ => (sum_opsOn x.protocol (x.traces i) (hsub i)).1,
      Finset.sum_add_distrib]
    split <;> simp
  · rw [← hstats, hupgrades, Finset.sum_congr rfl fun i _ => (sum_opsOn x.protocol (x.traces i) (hsub i)).2]
    split <;> simp

/-- **Lines that are not shared.** If no line is in the traces of two nodes, no cache answers
another, and every line is missed once; under MSI and MOSI once more if its node loads it
before it stores to it, for which MESI, MOESI and MOESIF count a silent upgrade. -/
theorem private_lines (r : Run x)
    (hp : ∀ i j, i ≠ j → ∀ l ∈ x.traces i, ∀ l' ∈ x.traces j, lineOf l.2 ≠ lineOf l'.2) : ∃ s,
    (∃ fuel, (Simulator.init x.traces).run x.settings fuel = .ok (some s)) ∧ PrivateCounters x s.stats := by
  obtain ⟨R, h⟩ := r.exists_ends
  exact ⟨r.state R, ⟨R, by rw [r.run_eq_of_ends h, if_pos (Nat.le_refl R)]⟩, h.privateCounters r hp⟩

end Run

/-- Two nodes under MSI, each with a line of its own; node 0 loads its line and stores to it. -/
def Input.twoLines (hitTime : ℕ) (h : 1 ≤ hitTime) : Input 2 where
  protocol := .MSI_PRO
  hitTime := hitTime
  hitTime_pos := h
  traces := ![[('r', 0x40), ('w', 0x44)], [('w', 0x80), ('r', 0x80)]]
  wellFormed := by decide

namespace Run

theorem private_lines_two : ∃ s,
    (∃ fuel, (Simulator.init (Input.twoLines 1 (Nat.le_refl 1)).traces).run ⟨.MSI_PRO, 1⟩ fuel =
      .ok (some s)) ∧ PrivateCounters (Input.twoLines 1 (Nat.le_refl 1)) s.stats :=
  (Input.twoLines 1 (Nat.le_refl 1)).run.private_lines (by decide)

/-- **One processor.** All that a run with one node puts out, by its trace: its length, its
lines and those that it loads before it stores to them. -/
theorem one_processor {x : Input 1} (r : Run x) : ∃ s,
    (∃ fuel, (Simulator.init x.traces).run x.settings fuel = .ok (some s)) ∧
    let t := x.traces 0
    let misses := (linesOf t).card + if x.f.shared && !x.f.exclusive then (converted t).card else 0
    s.globalClock = 1 + 2 * t.length + (x.hitTime + 2) * misses ∧
      s.stats = { cacheMisses := misses, cacheAccesses := t.length, cacheToCacheTransfers := 0,
                  silentUpgrades := if x.f.exclusive then (converted t).card else 0 } := by
  obtain ⟨R, h⟩ := r.exists_ends
  obtain ⟨haccesses, htransfers, hmisses, hupgrades⟩ := h.privateCounters r fun i j hij =>
    absurd (Subsingleton.elim i j) hij
  simp only [Fin.sum_univ_one] at haccesses hmisses hupgrades
  refine ⟨r.state R, ⟨R, by rw [r.run_eq_of_ends h, if_pos (Nat.le_refl R)]⟩, ?_, ?_⟩
  · obtain ⟨hg, hq⟩ := h.bus r
    have hbusy := r.busy_eq hg hq
    have hlong : x.longest = (x.traces 0).length := by simp [Input.longest]
    rw [htransfers, hmisses, Nat.mul_zero, Nat.zero_add, Nat.sub_zero] at hbusy
    rw [r.clock, ← hbusy, ← hlong]
    exact (h.le r).2 rfl
  · rw [← haccesses, ← hmisses, ← hupgrades, ← htransfers]

end Run

end CoherenceSim
