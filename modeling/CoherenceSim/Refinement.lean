/-
# The simulator is the untimed system with a clock

`Run.untimed_run`: the state at the start of every cycle of a run is one the untimed
system reaches (`Shows`). What a cycle does is a sequence of its events
(`Inv.untimed_cycle`): the caches take the requests of their processors, in the order of
the nodes, and then the bus grants a request or delivers DATA, or neither. The memory is
in it only by the time it takes.
-/
import CoherenceSim.Run
import CoherenceSim.UntimedInv

namespace CoherenceSim

open Features

variable {n : ℕ} {x : Input n} {s : Simulator n Trace} {gr : Option Mreq} {u v : Untimed n}

/-! ### The requests of the processors -/

/-- The event with which the cache of node `i` takes the request of its processor. -/
def Node.issues (nd : Node Trace) (i : Fin n) : Option (Event n) :=
  nd.L1.procRequest.map fun r => .issue i r.msg r.addr

/-- The access node `i` waits for when its cache has taken the request, if it does. -/
def Node.awaits (nd : Node Trace) : Option (Message × Paddr) :=
  nd.L1.procRequest.bind fun r => if hits (nd.line r.addr) r.msg then none else some (r.msg, r.addr)

/-- The untimed system after the caches of `l` have taken the requests of their processors. -/
def Untimed.issuing (f : Features) (s : Simulator n Trace) (u : Untimed n) (l : List (Fin n)) :
    Untimed n where
  line i a := if i ∈ l then ((s.Nd i).procTick f i).line a else u.line i a
  outstanding i := if i ∈ l then (s.Nd i).awaits.or (u.outstanding i) else u.outstanding i
  bus := { u.bus with
    pendingRequests := u.bus.pendingRequests ++ l.flatMap fun i => (s.Nd i).queued f i }
  stats := { u.stats with
    cacheMisses := u.stats.cacheMisses + (l.flatMap fun i => (s.Nd i).queued f i).length
    cacheAccesses := u.stats.cacheAccesses + l.countP fun i => (s.Nd i).L1.procRequest.isSome
    silentUpgrades := u.stats.silentUpgrades + l.countP fun i => (s.Nd i).upgraded }

namespace Untimed

theorem issuing_none {f : Features} {l : List (Fin n)} {i : Fin n} (hu : u.line = s.lines)
    (hi : i ∉ l) (hr : (s.Nd i).L1.procRequest = none) :
    u.issuing f s (l ++ [i]) = u.issuing f s l := by
  have hproc : (s.Nd i).procTick f i = s.Nd i := Node.procTick_none f i hr
  have hqueued : (s.Nd i).queued f i = [] := by simp [Node.queued, hr]
  apply Untimed.ext
  · funext j a
    by_cases hj : j = i
    · subst hj
      simp [issuing, hi, hproc, hu]
    · simp [issuing, hj]
  · funext j
    by_cases hj : j = i
    · subst hj
      simp [issuing, hi, Node.awaits, hr]
    · simp [issuing, hj]
  · simp [issuing, hqueued]
  · simp [issuing, hqueued, Node.upgraded, hr]

theorem issuing_some {f : Features} {l : List (Fin n)} {i : Fin n} {r : Mreq} (hu : u.line = s.lines)
    (hi : i ∉ l) (hr : (s.Nd i).L1.procRequest = some r) (ha : lineOf r.addr = r.addr)
    (ho : u.outstanding i = none) :
    u.issuing f s (l ++ [i]) = (u.issuing f s l).issued f i r.msg r.addr := by
  have hline : (u.issuing f s l).line i (lineOf r.addr) = (s.Nd i).line r.addr := by
    simp [issuing, hi, hu, ha]
  apply Untimed.ext
  · funext j a
    simp only [issued, hline]
    by_cases hj : j = i
    · subst hj
      cases hh : hits ((s.Nd j).line r.addr) r.msg with
      | true => simp [issuing, hi, hu, ha, (Node.procTick_hit f j hr hh).2]
      | false => simp [issuing, hi, hu, ha, (Node.procTick_miss f j hr hh).2]
    · simp [issuing, hj]
  · funext j
    simp only [issued, hline]
    by_cases hj : j = i
    · subst hj
      cases hh : hits ((s.Nd j).line r.addr) r.msg <;> simp [issuing, Node.awaits, hr, hh, ho]
    · simp [issuing, hj]
  · simp only [issued, hline]
    simp [issuing, Node.queued, hr]
  · simp only [issued, hline]
    cases hh : hits ((s.Nd i).line r.addr) r.msg <;>
      cases hup : upgrades ((s.Nd i).line r.addr) r.msg <;>
        simp [issuing, Node.queued, Node.upgraded, hr, hh, hup, Nat.add_assoc]

/-- The caches take the requests of their processors, one after the other. -/
theorem run_issues (hS : Sound x.protocol u) (hu : u.line = s.lines)
    (hreq : ∀ i r, (s.Nd i).L1.procRequest = some r → (r.msg = .LOAD ∨ r.msg = .STORE) ∧
      lineOf r.addr = r.addr ∧ u.outstanding i = none) (l : List (Fin n)) (hl : l.Nodup) :
    u.run x.protocol (l.filterMap fun i => (s.Nd i).issues i) = .ok (u.issuing x.f s l) ∧
      Sound x.protocol (u.issuing x.f s l) := by
  induction l using List.reverseRecOn with
  | nil =>
    have hsame : u.issuing x.f s [] = u := by
      apply Untimed.ext <;> simp [issuing]
    rw [hsame]
    exact ⟨rfl, hS⟩
  | append_singleton l i ih =>
    obtain ⟨hrun, hsound⟩ := ih (List.nodup_append.mp hl).1
    have hi := Loop.notMem_of_nodup hl
    unfold run at hrun ⊢
    rw [List.filterMap_append, List.foldlM_append, hrun]
    show List.foldlM (step x.protocol) (u.issuing x.f s l) _ = _ ∧ _
    cases hr : (s.Nd i).L1.procRequest with
    | none =>
      rw [issuing_none hu hi hr]
      refine ⟨?_, hsound⟩
      simp [Node.issues, hr, pure, Except.pure]
    | some r =>
      obtain ⟨hop, ha, ho⟩ := hreq i r hr
      have hout : (u.issuing x.f s l).outstanding i = none := by simp [issuing, hi, ho]
      rw [issuing_some hu hi hr ha ho]
      refine ⟨?_, hsound.issued hout⟩
      have hstep : (u.issuing x.f s l).step x.protocol (.issue i r.msg r.addr) = _ :=
        hsound.step_issue hop hout
      simp [Node.issues, hr, hstep, pure, Except.pure]
      rfl

end Untimed

/-! ### A cycle -/

/-- The untimed system is where the simulator is. DATA of the memory that waits for the bus
is on its way in time only. -/
structure Shows (x : Input n) (s : Simulator n Trace) (gr : Option Mreq) (u : Untimed n) : Prop where
  line : u.line = s.lines
  node : ∀ i, ∃ st k e, At x s gr i st k e ∧
    u.outstanding i = if st.waits then some (opOf e.1, lineOf e.2) else none
  queue : u.bus.pendingRequests = s.bus.pendingRequests
  inProgress : u.bus.requestInProgress = s.bus.requestInProgress
  granted : u.granted = gr
  reply : u.bus.dataReply = s.bus.dataReply.filter (·.srcMid ≠ MCid n)
  shared : u.bus.sharedLine = s.bus.sharedLine
  stats : u.stats = s.stats

/-- The events of a cycle: the caches take the requests of their processors, and then the bus
moves. -/
def Simulator.events (s : Simulator n Trace) : List (Event n) :=
  ((List.finRange n).filterMap fun i => (s.Nd i).issues i) ++
    match s.wire with
    | none => []
    | some m => if m.msg = .DATA then [.deliver] else [.grant]

section
variable {i : Fin n} {st st' : Stage} {k k' : ℕ} {e e' : Char × Paddr}

theorem AtNode.awaits (h : AtNode x i (s.Nd i) s.globalClock st k e) : (s.Nd i).awaits =
    if st = .issued ∧ hits ((s.Nd i).line (lineOf e.2)) (opOf e.1) = false
    then some (opOf e.1, lineOf e.2) else none := by
  unfold Node.awaits
  rw [h.proc]
  by_cases hst : st = .issued
  · cases hh : hits ((s.Nd i).line (lineOf e.2)) (opOf e.1) <;> simp [hst, Mreq.new, hh]
  · simp [hst]

/-- What node `i` waits for when its cache has taken the request of its processor: where it
stands after the cycle, but for the DATA. -/
theorem Move.outstanding (hm : Move x s i st k e st' k' e')
    (ha : AtNode x i (s.Nd i) s.globalClock st k e) :
    (s.Nd i).awaits.or (if st.waits then some (opOf e.1, lineOf e.2) else none) =
      if st'.waits ∨ Addressed i s.wire ∧ st = .granted then some (opOf e'.1, lineOf e'.2) else none := by
  rw [ha.awaits]
  cases hm with
  | fetch hst | finish hst => rcases hst with rfl | ⟨rfl, -⟩ <;> simp [Stage.waits]
  | hit hh | miss hh => simp [Stage.waits, hh]
  | data hw => simp [Stage.waits, hw]
  | _ => simp [Stage.waits]

end

/-- What is left to show of a state `v` to which the events of a cycle lead. -/
theorem Inv.shows_next (h : Inv x s gr) (hu : Shows x s gr u)
    (hline : ∀ i a, v.line i a = (s.ticked x i).line a)
    (hout : ∀ i, v.outstanding i =
      if Addressed i s.wire then none else (s.Nd i).awaits.or (u.outstanding i))
    (hqueue : v.bus.pendingRequests = s.bus.tick.pendingRequests ++
      (List.finRange n).flatMap fun i => (s.Nd i).queued x.f i)
    (hprogress : v.bus.requestInProgress = s.bus.tick.requestInProgress)
    (hgranted : v.granted = nextGrant gr s.wire)
    (hreply : v.bus.dataReply = (s.next x.settings).bus.dataReply.filter (·.srcMid ≠ MCid n))
    (hshared : v.bus.sharedLine = (s.next x.settings).bus.sharedLine)
    (hstats : v.stats = (s.next x.settings).stats) :
    Shows x (s.next x.settings) (nextGrant gr s.wire) v where
  line := by
    funext i a
    rw [hline, Simulator.lines, line_next]
  node i := by
    obtain ⟨st, k, e, ha, hi⟩ := hu.node i
    obtain ⟨st', k', e', hm, ha'⟩ := h.move ha
    refine ⟨st', k', e', ha', ?_⟩
    rw [hout, hi, hm.outstanding ha.toAtNode]
    by_cases hadd : Addressed i s.wire
    · have hst := (h.addressed ha hadd).1
      have hanswered : st'.waits = false := by
        subst hst
        cases hm with
        | hold hw => exact absurd hadd hw
        | data => rfl
        | fetch hst => rcases hst with hst | ⟨hst, -⟩ <;> cases hst
        | finish hst => rcases hst with hst | ⟨hst, -⟩ <;> cases hst
      simp [hadd, hanswered]
    · simp [hadd]
  queue := by rw [hqueue, Simulator.next_pendingRequests]
  inProgress := by rw [hprogress, Simulator.next_requestInProgress]
  granted := hgranted
  reply := hreply
  shared := hshared
  stats := hstats

/-- The counters of a cycle, in which the caches have given `answers` answers. -/
theorem stats_next (hstats : u.stats = s.stats) (answers : ℕ)
    (hans : ((List.finRange n).countP fun i =>
      (((s.Nd i).procTick x.f i).reply i s.wire).isSome) = answers) :
    (s.next x.settings).stats = { (u.issuing x.f s (List.finRange n)).stats with
      cacheToCacheTransfers := u.stats.cacheToCacheTransfers + answers } := by
  rw [Simulator.next_stats, Untimed.issuing, hstats, ← hans]
  rfl

theorem countP_reply_eq_zero (hw : ∀ m, s.wire = some m → m.msg = .DATA) :
    ((List.finRange n).countP fun i => (((s.Nd i).procTick x.f i).reply i s.wire).isSome) = 0 := by
  rw [List.countP_eq_zero]
  intro i _ hr
  obtain ⟨m, hm, hmd, -⟩ := Inv.rank_of_reply hr
  exact hmd (hw m hm)

theorem not_raised (hw : ∀ m, s.wire = some m → m.msg = .DATA) :
    ((List.finRange n).any fun i => ((s.Nd i).procTick x.f i).raised x.f s.wire) = false := by
  rw [List.any_eq_false]
  intro i _
  cases hm : s.wire with
  | none => simp [Node.raised]
  | some m => simp [Node.raised, hw m hm]

/-- The request a cache takes is one that the untimed system can issue. -/
theorem Shows.request (hu : Shows x s gr u) (i : Fin n) (r : Mreq)
    (hr : (s.Nd i).L1.procRequest = some r) : (r.msg = .LOAD ∨ r.msg = .STORE) ∧
      lineOf r.addr = r.addr ∧ u.outstanding i = none := by
  obtain ⟨st, k, e, ha, hi⟩ := hu.node i
  have hp := ha.proc
  rw [hr] at hp
  by_cases hst : st = .issued
  · subst hst
    obtain rfl : r = .new (opOf e.1) e.2 (PRid i) := by simpa using hp
    exact ⟨opOf_cases e.1, lineOf_lineOf e.2, hi⟩
  · simp [hst] at hp

/-- The untimed system after all caches have taken the requests of their processors. -/
abbrev Untimed.taken (x : Input n) (s : Simulator n Trace) (u : Untimed n) : Untimed n :=
  u.issuing x.f s (List.finRange n)

theorem line_taken (u : Untimed n) (i : Fin n) (a : Paddr) :
    (u.taken x s).line i a = ((s.Nd i).procTick x.f i).line a := by simp [Untimed.issuing]

theorem outstanding_taken (u : Untimed n) (i : Fin n) :
    (u.taken x s).outstanding i = (s.Nd i).awaits.or (u.outstanding i) := by simp [Untimed.issuing]

theorem Shows.queue_taken (hu : Shows x s gr u) : (u.taken x s).bus.pendingRequests =
    s.bus.pendingRequests ++ (List.finRange n).flatMap fun i => (s.Nd i).queued x.f i := by
  rw [← hu.queue]
  rfl

/-- A cycle without a message on the bus. -/
theorem Inv.shows_quiet (h : Inv x s gr) (hu : Shows x s gr u)
    (ht : s.bus.tick = { s.bus with currentRequest := none }) (hdr : s.bus.dataReply = none)
    (hd : (s.next x.settings).bus.dataReply.filter (·.srcMid ≠ MCid n) = none) :
    Shows x (s.next x.settings) (nextGrant gr s.wire) (u.taken x s) := by
  have hwire : s.wire = none := by rw [Simulator.wire, ht]
  have hno := not_raised (x := x) (s := s) (by simp [hwire])
  refine h.shows_next hu ?_ ?_ ?_ ?_ ?_ ?_ ?_ ?_
  · intro i a
    rw [line_taken, Simulator.ticked, Node.cacheTick, hwire]
    rfl
  · intro i
    rw [outstanding_taken, if_neg]
    rintro ⟨d, hd, -⟩
    rw [hwire] at hd
    cases hd
  · rw [hu.queue_taken, ht]
  · rw [ht]
    exact hu.inProgress
  · rw [hwire]
    exact hu.granted
  · rw [hd]
    exact hu.reply.trans (by rw [hdr]; rfl)
  · rw [Simulator.next_sharedLine, hno, Bool.or_false, ht]
    exact hu.shared
  · rw [stats_next hu.stats 0 (countP_reply_eq_zero (by simp [hwire]))]
    rfl

/-- No reply of a cache is the memory's. -/
theorem cacheReply_filter (x : Input n) (s : Simulator n Trace) :
    (s.cacheReply x.settings).filter (·.srcMid ≠ MCid n) = s.cacheReply x.settings := by
  cases hd : s.cacheReply x.settings with
  | none => rfl
  | some d =>
    obtain ⟨m, j, -, -, rfl, -⟩ := Inv.reply_of_cacheReply hd
    simp [Option.filter, replyTo, L1id, MCid]

/-- A grant. -/
theorem Inv.shows_grant (h : Inv x s gr) (hu : Shows x s gr u)
    (hS : Untimed.Sound x.protocol (u.taken x s)) {m : Mreq} {q : List Mreq} (hg : gr = none)
    (hq : s.bus.pendingRequests = m :: q) (hmd : m.msg ≠ .DATA)
    (ht : s.bus.tick = ⟨some m, q, none, true, false⟩)
    (hd : (s.next x.settings).bus.dataReply = s.cacheReply x.settings) :
    ∃ v, (u.taken x s).step x.protocol .grant = .ok v ∧ Untimed.Sound x.protocol v ∧
      Shows x (s.next x.settings) (nextGrant gr s.wire) v := by
  have hwire : s.wire = some m := by rw [Simulator.wire, ht]
  have hfree : (u.taken x s).bus.requestInProgress = false := by
    show u.bus.requestInProgress = false
    rw [hu.inProgress, h.busy, hg]
    rfl
  have hqueue : (u.taken x s).bus.pendingRequests =
      m :: (q ++ (List.finRange n).flatMap fun i => (s.Nd i).queued x.f i) := by
    rw [hu.queue_taken, hq]
    rfl
  have hnot : ∀ i : Fin n, ¬ Addressed i s.wire := by
    rintro i ⟨d, hd, hdm, -⟩
    exact hmd (Option.some.inj (hwire.symm.trans hd) ▸ hdm)
  have hreply : (u.taken x s).answer m = fun i => ((s.Nd i).procTick x.f i).reply i s.wire := by
    funext i
    simp [Untimed.answer, Node.reply, line_taken, hwire, hmd]
  have hafter : ((u.taken x s).afterGrant x.f m (q ++ (List.finRange n).flatMap fun i =>
      (s.Nd i).queued x.f i)).bus.dataReply = (List.finRange n).findSome? fun i =>
        ((s.Nd i).procTick x.f i).reply i s.wire := by
    show ((List.finRange n).findSome? ((u.taken x s).answer m)).or (u.taken x s).bus.dataReply = _
    rw [hS.idle hfree, Option.or_none, hreply]
  refine ⟨_, hS.step_grant hfree hqueue, hS.afterGrant hfree hqueue, ?_⟩
  refine h.shows_next hu ?_ ?_ ?_ ?_ ?_ ?_ ?_ ?_
  · intro i a
    rw [Untimed.line_afterGrant, line_taken, Simulator.ticked, Node.cacheTick,
      (Node.snoopTick_quiet x.f _ (hnot i) _).2.2]
    simp [lineSnoop, hwire, hmd]
  · intro i
    rw [if_neg (hnot i)]
    exact outstanding_taken (x := x) (s := s) u i
  · rw [ht]
    rfl
  · rw [ht]
    rfl
  · rw [hwire, nextGrant, if_neg hmd]
    rfl
  · rw [hd]
    refine hafter.trans (cacheReply_filter x s).symm
  · rw [Untimed.sharedLine_afterGrant, Simulator.next_sharedLine, ht, Bool.false_or]
    refine congrArg _ (funext fun i => ?_)
    simp [Node.raised, line_taken, hmd]
  · rw [stats_next hu.stats _ rfl]
    refine congrArg (Stats.mk _ _ _) (congrArg (u.stats.cacheToCacheTransfers + ·) ?_)
    apply List.countP_congr
    intro i _
    rw [line_taken]
    simp [Node.reply, hwire, hmd]

/-- DATA. -/
theorem Inv.shows_deliver (h : Inv x s gr) (hu : Shows x s gr u)
    (hS : Untimed.Sound x.protocol (u.taken x s)) {m d : Mreq} (hg : gr = some m)
    (hdr : s.bus.dataReply = some d) (hmd : d.msg = .DATA)
    (ht : s.bus.tick = ⟨some d, s.bus.pendingRequests, none, false, s.bus.sharedLine⟩)
    (hd : (s.next x.settings).bus.dataReply = none) :
    ∃ v, (u.taken x s).step x.protocol .deliver = .ok v ∧ Untimed.Sound x.protocol v ∧
      Shows x (s.next x.settings) (nextGrant gr s.wire) v := by
  have hwire : s.wire = some d := by rw [Simulator.wire, ht]
  have hdata : ∀ m, s.wire = some m → m.msg = .DATA := by
    intro m hm
    rwa [Option.some.inj (hm.symm.trans hwire)]
  have hgr : (u.taken x s).granted = some m := by
    rw [← hg, ← hu.granted]
    rfl
  obtain ⟨i, k, e, ha, hm, hda, hdest, hfill⟩ := h.line_data hg hdr
  have haddr : ∀ j, Addressed j s.wire ↔ j = i := by
    intro j
    constructor
    · rintro ⟨d', hd', -, hj⟩
      obtain rfl : d' = d := Option.some.inj (hd'.symm.trans hwire)
      exact L1id_injective (hj.symm.trans hdest)
    · rintro rfl
      exact ⟨d, hwire, hmd, hdest⟩
  obtain ⟨i', d', hask, hstep⟩ := hS.step_deliver hgr
  obtain rfl : i' = i := L1id_injective (hask.srcMid.symm.trans (by rw [hm]; rfl))
  refine ⟨_, hstep, hS.afterDeliver hgr hask, ?_⟩
  refine h.shows_next hu ?_ ?_ ?_ ?_ ?_ ?_ ?_ ?_
  · intro j a
    have hdeliver : ((u.taken x s).afterDeliver x.f m d' i').line j a =
        if j = i' ∧ a = m.addr then x.f.fill m.msg s.bus.sharedLine
        else ((s.Nd j).procTick x.f j).line a := by
      rw [← line_taken u j a, ← hu.shared]
      rfl
    rw [hdeliver]
    by_cases hj : j = i'
    · subst hj
      rw [hfill, Node.procTick_none x.f j (by simpa using ha.proc)]
      simp
    · have hquiet : ¬ Addressed j s.wire := fun hadd => hj ((haddr j).mp hadd)
      rw [Simulator.ticked, Node.cacheTick, (Node.snoopTick_quiet x.f _ hquiet _).2.2]
      simp [hj, lineSnoop, hwire, hmd]
  · intro j
    simp only [haddr]
    rw [← outstanding_taken (x := x) (s := s) u j]
    rfl
  · rw [ht]
    exact hu.queue_taken
  · rw [ht]
    rfl
  · rw [hwire, nextGrant, if_pos hmd]
    rfl
  · rw [hd]
    rfl
  · rw [Simulator.next_sharedLine, not_raised hdata, Bool.or_false, ht]
    exact hu.shared
  · rw [stats_next hu.stats 0 (countP_reply_eq_zero hdata)]
    rfl

/-- **The events of a cycle take the untimed system along with the simulator.** -/
theorem Inv.untimed_cycle (h : Inv x s gr) (hu : Shows x s gr u) (hS : Untimed.Sound x.protocol u) :
    ∃ v, u.run x.protocol s.events = .ok v ∧ Untimed.Sound x.protocol v ∧
      Shows x (s.next x.settings) (nextGrant gr s.wire) v := by
  obtain ⟨hrun, htaken⟩ := Untimed.run_issues (s := s) hS hu.line hu.request (List.finRange n)
    (List.nodup_finRange n)
  have hlast : ∀ es, u.run x.protocol (((List.finRange n).filterMap fun i => (s.Nd i).issues i) ++ es) =
      (u.taken x s).run x.protocol es := by
    intro es
    unfold Untimed.run at hrun ⊢
    rw [List.foldlM_append, hrun]
    rfl
  have hone : ∀ e, (u.taken x s).run x.protocol [e] = (u.taken x s).step x.protocol e := by
    intro e
    exact bind_pure _
  rw [Simulator.events, hlast]
  cases h.phase with
  | rest hg hq ht hd =>
    have hwire : s.wire = none := by rw [Simulator.wire, ht]
    refine ⟨u.taken x s, by rw [hwire]; rfl, htaken, h.shows_quiet hu ht (h.free hg).1 ?_⟩
    rw [hd]
    rfl
  | hold m hg hdr ht hd =>
    have hwire : s.wire = none := by rw [Simulator.wire, ht]
    refine ⟨u.taken x s, by rw [hwire]; rfl, htaken, h.shows_quiet hu ht hdr ?_⟩
    -- what the memory answers is no DATA of a cache
    rw [hd]
    split
    · simp [Option.filter, MemoryController.answer]
    · rfl
  | grant m q hg hq hmd ht hd =>
    have hwire : s.wire = some m := by rw [Simulator.wire, ht]
    simp only [hwire, hmd, if_false, hone]
    rw [← hwire]
    exact h.shows_grant hu htaken hg hq hmd ht hd
  | data m d hg hdr hmd ht hd =>
    have hwire : s.wire = some d := by rw [Simulator.wire, ht]
    simp only [hwire, hmd, if_true, hone]
    rw [← hwire]
    exact h.shows_deliver hu htaken hg hdr hmd ht hd

/-! ### Runs -/

theorem shows_start (x : Input n) : Shows x (.init x.traces) none (Untimed.start n) where
  line := rfl
  node i := ⟨_, _, _, Inv.at_init x i, rfl⟩
  queue := rfl
  inProgress := rfl
  granted := rfl
  reply := rfl
  shared := rfl
  stats := rfl

namespace Run

/-- The events of the first `c` cycles. -/
def events (r : Run x) (c : ℕ) : List (Event n) := (List.range c).flatMap fun k => (r.state k).events

/-- **A run of the simulator is a run of the untimed system.** -/
theorem untimed_run (r : Run x) (c : ℕ) : ∃ u, (Untimed.start n).run x.protocol (r.events c) = .ok u ∧
    Untimed.Sound x.protocol u ∧ Shows x (r.state c) (r.granted c) u := by
  induction c with
  | zero =>
    refine ⟨.start n, rfl, Untimed.sound_start x.protocol, ?_⟩
    rw [r.start]
    exact shows_start x
  | succ c ih =>
    obtain ⟨u, hrun, hS, hu⟩ := ih
    obtain ⟨v, hcycle, hS', hv⟩ := (r.inv c).untimed_cycle hu hS
    refine ⟨v, ?_, hS', ?_⟩
    · unfold Untimed.run at hrun hcycle ⊢
      rw [events, List.range_succ, List.flatMap_append, List.foldlM_append]
      show Except.bind (List.foldlM _ _ (r.events c)) _ = _
      rw [hrun, List.flatMap_singleton]
      exact hcycle
    · rw [r.next, r.granted_succ]
      exact hv

end Run

end CoherenceSim
