/-
# What sharing costs

A node misses a line when it first uses it, and again only if a request to write has taken its
copy away, or to store to a copy it shares. A request to write takes away the copies of the
other nodes that use the line, each of which is missed once more, and is one miss itself. So
with `k` nodes that use a line and `w` stores to it there are at least `k` misses of it, and at
most `k (1 + w)`, the silent upgrades included (`Counted.bounds`).

`misses_of_sharing`: this holds of every sequence of events; `Run.misses_le_sharing`: and of
every run, with the numbers that the traces have.
-/
import CoherenceSim.Loads
import CoherenceSim.Lines

namespace CoherenceSim

open Features

variable {n : ℕ}

/-- A protocol with `S` asks for a line to write it only for a store. -/
theorem request_eq_GETM {p : Protocol} (hp : p.features.shared = true) {op : Message}
    (hop : op = .LOAD ∨ op = .STORE) : p.features.request op = .GETM ↔ op = .STORE := by
  rcases hop with rfl | rfl
  · simp [request, hp]
  · simp [request]

namespace Untimed

variable {p : Protocol} {a : Paddr} {accs : List (Access n)} {s t : Untimed n} {i : Fin n} {op : Message}
variable {addr : Paddr} {m : Mreq}

/-- The nodes of some accesses. -/
def users (accs : List (Access n)) : Finset (Fin n) := (accs.map (·.node)).toFinset

def stores (accs : List (Access n)) : ℕ := accs.countP (·.store)

/-- The nodes that have a copy of the line or wait for one. -/
def holders (s : Untimed n) (a : Paddr) : Finset (Fin n) :=
  Finset.univ.filter fun i => 1 ≤ (s.line i a).rank ∨ (s.line i a).pending = true

/-- The requests to write that wait for their grant. -/
def writes (s : Untimed n) : ℕ := s.bus.pendingRequests.countP (·.msg = .GETM)

theorem mem_holders : i ∈ s.holders a ↔ 1 ≤ (s.line i a).rank ∨ (s.line i a).pending = true := by
  simp [holders]

theorem users_append (acc : Access n) : users (accs ++ [acc]) = insert acc.node (users accs) := by
  unfold users
  rw [List.map_append, List.toFinset_append, Finset.union_comm]
  rfl

theorem stores_append (acc : Access n) : stores (accs ++ [acc]) = stores accs + acc.store.toNat := by
  unfold stores
  rw [List.countP_append, List.countP_singleton]
  cases acc.store <;> rfl

/-! ### One line -/

/-- After the accesses `accs`, all to the line `a`. A request that waits to write is going to
take copies away: `k` times the `writes` is kept back for that. -/
structure Counted (p : Protocol) (a : Paddr) (accs : List (Access n)) (s : Untimed n) : Prop where
  live : Live p s
  asked : ∀ i op addr, s.outstanding i = some (op, addr) → lineOf addr = a
  used : s.holders a ⊆ users accs
  writes_le : s.writes ≤ stores accs
  least : (users accs).card ≤ s.stats.cacheMisses
  most : s.stats.cacheMisses + s.stats.silentUpgrades + (users accs).card * s.writes ≤
    (s.holders a).card + (users accs).card * stores accs + s.writes

theorem counted_start (p : Protocol) (a : Paddr) : Counted p a [] (start n) where
  live := live_start p
  asked i op addr h := by cases h
  used i hi := by
    rw [mem_holders] at hi
    rcases hi with hi | hi <;> cases hi
  writes_le := Nat.le_refl 0
  least := Nat.le_refl 0
  most := by simp [start, users, stores, writes, Bus.new]

theorem writes_issued (f : Features) (s : Untimed n) (i : Fin n) (op : Message) (addr : Paddr) :
    (s.issued f i op addr).writes = s.writes +
      (!hits (s.line i (lineOf addr)) op && decide (f.request op = .GETM)).toNat := by
  unfold writes issued
  simp only [List.countP_append]
  cases hits (s.line i (lineOf addr)) op with
  | true => rfl
  | false => by_cases hm : f.request op = .GETM <;> simp [hm, getMsg]

/-- A hit is by a node that has a copy, and leaves it. -/
theorem holders_issued_hit (f : Features) (hh : hits (s.line i (lineOf addr)) op = true) :
    i ∈ s.holders (lineOf addr) ∧
    (s.issued f i op addr).holders (lineOf addr) = s.holders (lineOf addr) := by
  have hrank : 1 ≤ (s.line i (lineOf addr)).rank := by
    unfold hits at hh
    split at hh
    · have := of_decide_eq_true hh
      omega
    · exact of_decide_eq_true hh
  refine ⟨mem_holders.mpr (Or.inl hrank), Finset.ext fun j => ?_⟩
  rw [mem_holders, mem_holders]
  by_cases hj : j = i
  · subst hj
    simp only [issued, and_self, if_true, hh, afterHit_rank hh]
    exact ⟨fun _ => Or.inl hrank, fun _ => Or.inl hrank⟩
  · simp only [issued, hj, false_and, if_false]

/-- A miss makes a node wait. -/
theorem holders_issued_miss (f : Features) (hh : hits (s.line i (lineOf addr)) op = false) :
    (s.issued f i op addr).holders (lineOf addr) = insert i (s.holders (lineOf addr)) := by
  ext j
  rw [Finset.mem_insert, mem_holders, mem_holders]
  by_cases hj : j = i
  · subst hj
    simp [issued, hh]
  · simp [issued, hj]

/-- A node that has a copy misses with a store only. -/
theorem store_of_miss (hop : op = .LOAD ∨ op = .STORE) (hh : hits (s.line i a) op = false)
    (hp : (s.line i a).pending = false) (hi : i ∈ s.holders a) : op = .STORE := by
  refine hop.resolve_left fun hl => ?_
  have hrank := (mem_holders.mp hi).resolve_right (by rw [hp]; decide)
  rw [hl] at hh
  simp [hits] at hh
  omega

theorem Counted.asked_issued (h : Counted p (lineOf addr) accs s) (f : Features) {j : Fin n} {op' : Message}
    {addr' : Paddr} (hj : (s.issued f i op addr).outstanding j = some (op', addr')) :
    lineOf addr' = lineOf addr := by
  simp only [Untimed.issued] at hj
  split_ifs at hj
  · obtain ⟨-, rfl⟩ := Prod.mk.inj (Option.some.inj hj)
    rfl
  · exact h.asked j op' addr' hj

theorem Counted.issued_hit (h : Counted p (lineOf addr) accs s) (hop : op = .LOAD ∨ op = .STORE)
    (ho : s.outstanding i = none) (hh : hits (s.line i (lineOf addr)) op = true) :
    Counted p (lineOf addr) (accs ++ [.ofOp i op addr]) (s.issued p.features i op addr) := by
  obtain ⟨hi, hholders⟩ := holders_issued_hit p.features hh
  have husers : users (accs ++ [.ofOp i op addr]) = users accs := by
    rw [users_append]
    exact Finset.insert_eq_of_mem (h.used hi)
  have hstores : stores (accs ++ [.ofOp i op addr]) = stores accs + (decide (op = .STORE)).toNat :=
    stores_append _
  have hwrites : (s.issued p.features i op addr).writes = s.writes := by
    rw [writes_issued, hh]
    rfl
  have hmisses : (s.issued p.features i op addr).stats.cacheMisses = s.stats.cacheMisses := by
    show s.stats.cacheMisses + (!hits (s.line i (lineOf addr)) op).toNat = _
    rw [hh]
    rfl
  -- a silent upgrade is a store, which allows for one
  have hupgrades : (s.issued p.features i op addr).stats.silentUpgrades ≤
      s.stats.silentUpgrades + (users accs).card * (decide (op = .STORE)).toNat := by
    refine Nat.add_le_add_left (Nat.le_trans ?_ (Nat.le_mul_of_pos_left _
      (Finset.card_pos.mpr ⟨i, h.used hi⟩))) _
    refine Bool.toNat_le_toNat fun hu => ?_
    exact decide_eq_true (of_decide_eq_true hu).2
  have hmost := h.most
  have hle := h.writes_le
  refine { live := h.live.next (h.live.step_issue hop ho), asked := fun _ _ _ => h.asked_issued p.features,
           used := by rw [hholders, husers]; exact h.used, writes_le := by rw [hwrites, hstores]; omega,
           least := by rw [husers, hmisses]; exact h.least, most := ?_ }
  rw [husers, hholders, hmisses, hwrites, hstores, Nat.mul_add]
  omega

theorem Counted.issued_miss (h : Counted p (lineOf addr) accs s) (hp : p.features.shared = true)
    (hop : op = .LOAD ∨ op = .STORE) (ho : s.outstanding i = none)
    (hh : hits (s.line i (lineOf addr)) op = false) :
    Counted p (lineOf addr) (accs ++ [.ofOp i op addr]) (s.issued p.features i op addr) := by
  have hholders := holders_issued_miss p.features hh
  have husers : users (accs ++ [.ofOp i op addr]) = insert i (users accs) := users_append _
  have hstores : stores (accs ++ [.ofOp i op addr]) = stores accs + (decide (op = .STORE)).toNat :=
    stores_append _
  have hwrites : (s.issued p.features i op addr).writes = s.writes + (decide (op = .STORE)).toNat := by
    rw [writes_issued, hh, Bool.not_false, Bool.true_and, decide_eq_decide.mpr (request_eq_GETM hp hop)]
  have hmisses : (s.issued p.features i op addr).stats.cacheMisses = s.stats.cacheMisses + 1 := by
    show s.stats.cacheMisses + (!hits (s.line i (lineOf addr)) op).toNat = _
    rw [hh]
    rfl
  have hupgrades : (s.issued p.features i op addr).stats.silentUpgrades = s.stats.silentUpgrades := by
    show s.stats.silentUpgrades + (upgrades (s.line i (lineOf addr)) op).toNat = _
    rw [not_upgrades hh]
    rfl
  have hleast := h.least
  have hmost := h.most
  have hle := h.writes_le
  refine { live := h.live.next (h.live.step_issue hop ho), asked := fun _ _ _ => h.asked_issued p.features,
           used := by rw [hholders, husers]; exact Finset.insert_subset_insert i h.used,
           writes_le := by rw [hwrites, hstores]; omega, least := ?_, most := ?_ }
  · rw [husers, hmisses]
    exact (Finset.card_insert_le i _).trans (Nat.add_le_add_right hleast 1)
  · rw [husers, hholders, hmisses, hupgrades, hwrites, hstores]
    by_cases hi : i ∈ s.holders (lineOf addr)
    · -- a store to a copy that is shared: its request will take the other copies away
      have hpend : (s.line i (lineOf addr)).pending = false := by
        by_contra hpend
        obtain ⟨op', addr', hout, -⟩ := h.live.pending i _ (by simpa using hpend)
        rw [ho] at hout
        cases hout
      obtain rfl := store_of_miss hop hh hpend hi
      rw [Finset.insert_eq_of_mem hi, Finset.insert_eq_of_mem (h.used hi), decide_eq_true rfl, Bool.toNat_true,
        Nat.mul_add, Nat.mul_add]
      omega
    · rw [Finset.card_insert_of_notMem hi]
      by_cases hu : i ∈ users accs
      · rw [Finset.insert_eq_of_mem hu, Nat.mul_add, Nat.mul_add]
        omega
      · rw [Finset.card_insert_of_notMem hu]
        simp only [Nat.mul_add, Nat.add_mul]
        omega

/-- A node that waits goes on waiting. -/
theorem pending_afterGrant (f : Features) (s : Untimed n) (m : Mreq) (q : List Mreq) (j : Fin n) (b : Paddr) :
    ((s.afterGrant f m q).line j b).pending = (s.line j b).pending := by
  rw [line_afterGrant]
  split
  · exact yield_pending _ _ _
  · rfl

/-- A request takes copies away, and brings none yet. -/
theorem holders_afterGrant_subset (f : Features) (s : Untimed n) (m : Mreq) (q : List Mreq) (a : Paddr) :
    (s.afterGrant f m q).holders a ⊆ s.holders a := by
  intro j hj
  rw [mem_holders, pending_afterGrant, line_afterGrant] at hj
  rw [mem_holders]
  refine hj.imp_left fun hr => ?_
  split at hr
  · exact hr.trans (yield_rank_le _ _ _)
  · exact hr

theorem Counted.afterGrant {q : List Mreq} (h : Counted p a accs s) (hp : p.features.shared = true)
    (hr : s.bus.requestInProgress = false) (hq : s.bus.pendingRequests = m :: q) :
    Counted p a accs (s.afterGrant p.features m q) := by
  obtain ⟨i, hask⟩ := h.live.asked m (mem_requests_of_queue (by rw [hq]; exact List.mem_cons_self))
  obtain ⟨op, addr, hout, hm⟩ := id hask
  have haddr : m.addr = a := by
    rw [hm]
    exact h.asked i op addr hout
  have hwrites : s.writes = (s.afterGrant p.features m q).writes + (decide (m.msg = .GETM)).toNat := by
    unfold writes
    rw [hq]
    show _ = q.countP _ + _
    rw [List.countP_cons]
    by_cases hk : m.msg = .GETM <;> simp [hk]
  have hmost := h.most
  have hle := h.writes_le
  have hstats : (s.afterGrant p.features m q).stats.cacheMisses = s.stats.cacheMisses ∧
    (s.afterGrant p.features m q).stats.silentUpgrades = s.stats.silentUpgrades := ⟨rfl, rfl⟩
  refine { live := h.live.next (h.live.step_grant hr hq), asked := h.asked,
           used := (holders_afterGrant_subset _ s m q a).trans h.used, writes_le := by omega,
           least := h.least, most := ?_ }
  rw [hstats.1, hstats.2]
  rcases hask.kind with hk | hk
  · -- a request to read leaves every copy
    have hholders : (s.afterGrant p.features m q).holders a = s.holders a := by
      refine Finset.Subset.antisymm (holders_afterGrant_subset _ s m q a) fun j hj => ?_
      rw [mem_holders] at hj
      rw [mem_holders, pending_afterGrant, line_afterGrant, if_pos haddr.symm, hk]
      exact hj.imp_left (yield_GETS_rank p.features hp _).1.mpr
    have hsame : s.writes = (s.afterGrant p.features m q).writes := by
      rw [hwrites, hk]
      rfl
    rw [hholders, ← hsame]
    exact hmost
  · -- one to write leaves the requester, who waits, and takes away what it has been kept back for
    have hi : i ∈ (s.afterGrant p.features m q).holders a := by
      rw [mem_holders, pending_afterGrant, ← h.asked i op addr hout, h.live.wait i op addr hout]
      exact Or.inr (pend_pending _)
    have hpos : 1 ≤ ((s.afterGrant p.features m q).holders a).card := Finset.card_pos.mpr ⟨i, hi⟩
    have hused := Finset.card_le_card h.used
    rw [hk, decide_eq_true rfl, Bool.toNat_true] at hwrites
    rw [hwrites, Nat.mul_add] at hmost
    omega

theorem Counted.afterDeliver {d : Mreq} (h : Counted p a accs s) (hi : s.Asks p m i)
    (ht : s.step p .deliver = .ok (s.afterDeliver p.features m d i)) :
    Counted p a accs (s.afterDeliver p.features m d i) := by
  obtain ⟨op, addr, hout, hm⟩ := hi
  have haddr : m.addr = lineOf addr := by rw [hm]; rfl
  have hline : lineOf addr = a := h.asked i op addr hout
  -- who has waited has a copy now
  have hholders : (s.afterDeliver p.features m d i).holders a = s.holders a := by
    ext j
    rw [mem_holders, mem_holders]
    by_cases hj : j = i
    · subst hj
      simp only [Untimed.afterDeliver, haddr, hline, and_self, if_true]
      rw [← hline, h.live.wait j op addr hout]
      exact ⟨fun _ => Or.inr (pend_pending _), fun _ => Or.inl (fill_rank_pos _ _ _)⟩
    · simp only [Untimed.afterDeliver, hj, false_and, if_false]
  have hwrites : (s.afterDeliver p.features m d i).writes = s.writes := rfl
  refine { live := h.live.next ht, asked := fun j op' addr' hj => ?_, used := by rw [hholders]; exact h.used,
           writes_le := h.writes_le, least := h.least, most := by rw [hholders, hwrites]; exact h.most }
  simp only [Untimed.afterDeliver] at hj
  split_ifs at hj
  exact h.asked j op' addr' hj

/-- **An event keeps the count.** -/
theorem Counted.step (h : Counted p a accs s) (hp : p.features.shared = true) {e : Event n}
    (ha : ∀ k ∈ e.access, lineOf k.addr = a) (ht : s.step p e = .ok t) :
    Counted p a (accs ++ e.access.toList) t := by
  cases h.live.happens ht with
  | issue i op addr hop ho =>
    obtain rfl : lineOf addr = a := ha _ rfl
    cases hh : hits (s.line i (lineOf addr)) op with
    | true => exact h.issued_hit hop ho hh
    | false => exact h.issued_miss hp hop ho hh
  | grant m q hr hq =>
    rw [show (Event.grant : Event n).access.toList = [] from rfl, List.append_nil]
    exact h.afterGrant hp hr hq
  | deliver m d i hg hi =>
    rw [show (Event.deliver : Event n).access.toList = [] from rfl, List.append_nil]
    exact h.afterDeliver hi ht

theorem Counted.run {es : List (Event n)} (h : Counted p a accs s) (hp : p.features.shared = true)
    (ha : ∀ k ∈ es.filterMap Event.access, lineOf k.addr = a) (ht : s.run p es = .ok t) :
    Counted p a (accs ++ es.filterMap Event.access) t := by
  induction es generalizing s accs with
  | nil =>
    obtain rfl : s = t := Except.ok.inj ht
    rwa [List.filterMap_nil, List.append_nil]
  | cons e es ih =>
    rw [run_cons] at ht
    obtain ⟨u, hu, hrun⟩ := Loop.bind_eq_ok ht
    have hcons : (e :: es).filterMap Event.access = e.access.toList ++ es.filterMap Event.access := by
      cases he : e.access <;> simp [he]
    rw [hcons] at ha ⊢
    rw [← List.append_assoc]
    exact ih (h.step hp (fun k hk => ha k (List.mem_append_left _ (Option.mem_toList.mpr hk))) hu)
      (fun k hk => ha k (List.mem_append_right _ hk)) hrun

/-- **The misses on a line.** -/
theorem Counted.bounds (h : Counted p a accs s) : (users accs).card ≤ s.stats.cacheMisses ∧
    s.stats.cacheMisses + s.stats.silentUpgrades ≤ (users accs).card * (1 + stores accs) := by
  refine ⟨h.least, ?_⟩
  have hmost := h.most
  have hused := Finset.card_le_card h.used
  have hpay : s.writes ≤ (users accs).card * s.writes := by
    rcases Nat.eq_zero_or_pos s.writes with h0 | hpos
    · rw [h0]
      exact Nat.zero_le _
    · obtain ⟨acc, hacc, -⟩ := List.countP_pos_iff.mp (hpos.trans_le h.writes_le)
      exact Nat.le_mul_of_pos_left _
        (Finset.card_pos.mpr ⟨acc.node, List.mem_toFinset.mpr (List.mem_map_of_mem hacc)⟩)
  rw [Nat.mul_add, Nat.mul_one]
  omega

/-! ### All of them -/

/-- The accesses to the line, of a sequence of events. -/
def accessesTo (es : List (Event n)) (a : Paddr) : List (Access n) :=
  (es.filterMap Event.access).filter fun k => lineOf k.addr = a

theorem sum_sharing {es : List (Event n)} {lines : Finset Paddr} (hp : p.features.shared = true)
    (hl : ∀ k ∈ es.filterMap Event.access, lineOf k.addr ∈ lines) (h : (start n).run p es = .ok s) :
    ∑ a ∈ lines, (users (accessesTo es a)).card ≤ s.stats.cacheMisses ∧
    s.stats.cacheMisses + s.stats.silentUpgrades ≤
      ∑ a ∈ lines, (users (accessesTo es a)).card * (1 + stores (accessesTo es a)) := by
  obtain ⟨u, hu, hparts⟩ := (parts_start p lines).run hl h
  have hbounds : ∀ a, (users (accessesTo es a)).card ≤ (u a).stats.cacheMisses ∧
      (u a).stats.cacheMisses + (u a).stats.silentUpgrades ≤
        (users (accessesTo es a)).card * (1 + stores (accessesTo es a)) := by
    intro a
    have hto : (about p a es (start n)).filterMap Event.access = accessesTo es a := access_about h a
    have hcount := (counted_start p a).run hp (fun k hk => ?_) (hu a)
    · rw [List.nil_append, hto] at hcount
      exact hcount.bounds
    · rw [hto] at hk
      simpa using (List.mem_filter.mp hk).2
  have hmisses : s.stats.cacheMisses = ∑ a ∈ lines, (u a).stats.cacheMisses :=
    congrArg Stats.cacheMisses hparts.stats
  have hupgrades : s.stats.silentUpgrades = ∑ a ∈ lines, (u a).stats.silentUpgrades :=
    congrArg Stats.silentUpgrades hparts.stats
  rw [hmisses, hupgrades, ← Finset.sum_add_distrib]
  exact ⟨Finset.sum_le_sum fun a _ => (hbounds a).1, Finset.sum_le_sum fun a _ => (hbounds a).2⟩

/-- **What sharing costs**, whatever the order of the events: of a line with `k` users and `w`
stores there are `k` misses at least, and at most `k (1 + w)` with the silent upgrades. -/
theorem misses_of_sharing (hp : p.features.shared = true) (es : List (Event n))
    (h : (start n).run p es = .ok s) :
    ∑ a ∈ linesIn es, (users (accessesTo es a)).card ≤ s.stats.cacheMisses ∧
    s.stats.cacheMisses + s.stats.silentUpgrades ≤
      ∑ a ∈ linesIn es, (users (accessesTo es a)).card * (1 + stores (accessesTo es a)) :=
  sum_sharing hp (fun _ hk => List.mem_toFinset.mpr (List.mem_map_of_mem hk)) h

/-- Two nodes with a store each to one line, one of them after a load, and a line of one alone. -/
theorem misses_of_sharing_upgrade : ∃ s : Untimed 2,
    let es : List (Event 2) := [.issue 0 .LOAD 0x40, .grant, .deliver, .issue 0 .STORE 0x44,
      .issue 1 .STORE 0x48, .grant, .deliver, .issue 0 .LOAD 0x80, .grant]
    (start 2).run .MOSI_PRO es = .ok s ∧
      ∑ a ∈ linesIn es, (users (accessesTo es a)).card ≤ s.stats.cacheMisses ∧
      s.stats.cacheMisses + s.stats.silentUpgrades ≤
        ∑ a ∈ linesIn es, (users (accessesTo es a)).card * (1 + stores (accessesTo es a)) :=
  ⟨_, rfl, misses_of_sharing (p := .MOSI_PRO) rfl _ rfl⟩

/-- Three nodes load a line, one stores to it, and the others load it again: the most there can be. -/
example :
    let accs : List (Access 3) := [⟨0, false, 0x40⟩, ⟨1, false, 0x40⟩, ⟨2, false, 0x40⟩, ⟨0, true, 0x40⟩,
      ⟨1, false, 0x40⟩, ⟨2, false, 0x40⟩]
    (((start 3).serial .MSI_PRO accs).map (·.stats.cacheMisses)).toOption = some (3 * (1 + 1)) := by decide

end Untimed

/-! ### The simulator -/

open Untimed

variable {x : Input n}

/-- The stores to the line in the traces. -/
def Input.storesTo (x : Input n) (a : Paddr) : ℕ :=
  ∑ i, (x.traces i).countP fun l => l.1 = 'w' ∧ lineOf l.2 = a

/-- What there is of some accesses is the sum of what each node has of them. -/
theorem countP_eq_sum_ofNode (l : List (Access n)) (q : Access n → Bool) :
    l.countP q = ∑ i, (ofNode i l).countP q := by
  induction l with
  | nil => simp [ofNode]
  | cons k l ih =>
    have hcons : ∀ i, (ofNode i (k :: l)).countP q =
        (ofNode i l).countP q + if k.node = i then (q k).toNat else 0 := by
      intro i
      unfold ofNode
      rw [List.filter_cons]
      by_cases hi : k.node = i
      · rw [if_pos (decide_eq_true hi), if_pos hi, List.countP_cons]
        cases q k <;> rfl
      · rw [if_neg (by simpa using hi), if_neg hi]
        rfl
    rw [Finset.sum_congr rfl fun i _ => hcons i, Finset.sum_add_distrib, ← ih, Finset.sum_ite_eq,
      if_pos (Finset.mem_univ _), List.countP_cons]
    cases q k <;> rfl

namespace Run

variable (r : Run x)

theorem Ends.users_eq {R : ℕ} (h : r.Ends R) (a : Paddr) : users (accessesTo (r.events R) a) = x.users a := by
  ext i
  simp only [users, accessesTo, List.mem_toFinset, List.mem_map, List.mem_filter, Input.users,
    Finset.mem_filter, Finset.mem_univ, true_and, linesOf, decide_eq_true_eq]
  constructor
  · rintro ⟨k, ⟨hk, rfl⟩, rfl⟩
    exact h.exists_access hk
  · rintro ⟨l, hl, rfl⟩
    have hmem : (⟨i, l.1 = 'w', lineOf l.2⟩ : Access n) ∈ ofNode i ((r.events R).filterMap Event.access) := by
      rw [h.ofNode_events]
      exact List.mem_map_of_mem hl
    exact ⟨_, ⟨(List.mem_filter.mp hmem).1, lineOf_lineOf l.2⟩, rfl⟩

theorem Ends.stores_eq {R : ℕ} (h : r.Ends R) (a : Paddr) :
    stores (accessesTo (r.events R) a) = x.storesTo a := by
  unfold stores accessesTo
  rw [List.countP_filter, countP_eq_sum_ofNode]
  refine Finset.sum_congr rfl fun i _ => ?_
  rw [h.ofNode_events r i, List.countP_map]
  refine List.countP_congr fun l _ => ?_
  simp [lineOf_lineOf]

/-- **What sharing costs in a run**: under every protocol but MI its misses are no fewer than
the nodes that use each line, and with the silent upgrades no more than these times the stores
to it and one; the run takes no longer than if the memory answered so many. -/
theorem misses_le_sharing (r : Run x) (hx : x.protocol ≠ .MI_PRO) : ∃ s,
    (∃ fuel, (Simulator.init x.traces).run x.settings fuel = .ok (some s)) ∧
    ∑ a ∈ x.lines, (x.users a).card ≤ s.stats.cacheMisses ∧
    s.stats.cacheMisses + s.stats.silentUpgrades ≤ ∑ a ∈ x.lines, (x.users a).card * (1 + x.storesTo a) ∧
    s.globalClock ≤ 1 + 2 * x.longest +
      (x.hitTime + 2) * ∑ a ∈ x.lines, (x.users a).card * (1 + x.storesTo a) := by
  have hp : x.protocol.features.shared = true := by
    revert hx
    cases x.protocol <;> decide
  obtain ⟨R, hR⟩ := r.exists_ends
  obtain ⟨v, hrun, -, -, hstats⟩ := hR.untimed r
  obtain ⟨hleast, hmost⟩ := sum_sharing hp (fun _ => hR.mem_lines) hrun
  simp only [hR.users_eq, hR.stores_eq, hstats] at hleast hmost
  refine ⟨r.state R, ⟨R, by rw [r.run_eq_of_ends hR, if_pos (Nat.le_refl R)]⟩, hleast, hmost, ?_⟩
  calc (r.state R).globalClock = R := r.clock R
    _ ≤ 1 + 2 * x.longest + r.busy R := (hR.le r).1
    _ ≤ 1 + 2 * x.longest + (x.hitTime + 2) * (r.state R).stats.cacheMisses :=
        Nat.add_le_add_left (r.busy_le_misses R) _
    _ ≤ _ := Nat.add_le_add_left (Nat.mul_le_mul_left _ ((Nat.le_add_right _ _).trans hmost)) _

end Run

theorem Run.misses_le_sharing_storeLoadStore :
    let x := Input.storeLoadStore 1 (Nat.le_refl 1)
    ∃ s, (∃ fuel, (Simulator.init x.traces).run x.settings fuel = .ok (some s)) ∧
      ∑ a ∈ x.lines, (x.users a).card ≤ s.stats.cacheMisses ∧
      s.stats.cacheMisses + s.stats.silentUpgrades ≤ ∑ a ∈ x.lines, (x.users a).card * (1 + x.storesTo a) ∧
      s.globalClock ≤ 1 + 2 * x.longest +
        (x.hitTime + 2) * ∑ a ∈ x.lines, (x.users a).card * (1 + x.storesTo a) :=
  Run.misses_le_sharing (Input.storeLoadStore 1 (Nat.le_refl 1)).run (by decide)

end CoherenceSim
