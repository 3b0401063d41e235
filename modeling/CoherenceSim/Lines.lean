/-
# Every line is a system of its own

What the untimed system makes of a line depends on the events about that line only
(`about`): they alone can happen, in the order they have, and leave the line as it is in
the whole (`Part`). `line_by_line`: so the whole is its lines side by side, and its
counters are their sums. What the lines share is the bus, and that a processor waits: these
settle which sequences of events there are, not what becomes of a line in them.
`lines_apart`: so it is for a run of the simulator.
-/
import CoherenceSim.MemoryOnce
import CoherenceSim.Lib.Along
import CoherenceSim.Serial

namespace CoherenceSim

open Features

variable {n : ℕ}

/-! ### Sums of counters -/

namespace Stats

/-- Counters, and what is counted on top of them. -/
def add (s d : Stats) : Stats where
  cacheMisses := s.cacheMisses + d.cacheMisses
  cacheAccesses := s.cacheAccesses + d.cacheAccesses
  silentUpgrades := s.silentUpgrades + d.silentUpgrades
  cacheToCacheTransfers := s.cacheToCacheTransfers + d.cacheToCacheTransfers

def sum {κ : Type} (A : Finset κ) (g : κ → Stats) : Stats where
  cacheMisses := ∑ k ∈ A, (g k).cacheMisses
  cacheAccesses := ∑ k ∈ A, (g k).cacheAccesses
  silentUpgrades := ∑ k ∈ A, (g k).silentUpgrades
  cacheToCacheTransfers := ∑ k ∈ A, (g k).cacheToCacheTransfers

theorem add_zero (s : Stats) : s.add ⟨0, 0, 0, 0⟩ = s := rfl

theorem sum_zero {κ : Type} (A : Finset κ) : sum A (fun _ => ⟨0, 0, 0, 0⟩) = ⟨0, 0, 0, 0⟩ := by
  simp [sum]

/-- One of the summands counts on. -/
theorem sum_update {κ : Type} [DecidableEq κ] {A : Finset κ} {g g' : κ → Stats} {k : κ} {d : Stats}
    (hk : k ∈ A) (hat : g' k = (g k).add d) (helse : ∀ j, j ≠ k → g' j = g j) : sum A g' = (sum A g).add d := by
  have hone : ∀ (c : Stats → ℕ), c (g' k) = c (g k) + c d → ∑ j ∈ A, c (g' j) = ∑ j ∈ A, c (g j) + c d :=
    fun c hc => Along.sum_add_at hk hc fun j hj => congrArg c (helse j hj)
  simp only [sum, add, Stats.mk.injEq]
  refine ⟨hone _ ?_, hone _ ?_, hone _ ?_, hone _ ?_⟩ <;> rw [hat] <;> rfl

end Stats

namespace Untimed

variable {p : Protocol} {s t u : Untimed n} {i : Fin n} {op : Message} {addr a b : Paddr} {m : Mreq}

/-! ### The events about a line -/

/-- The line an event is about. -/
def subject (s : Untimed n) : Event n → Option Paddr
  | .issue _ _ addr => some (lineOf addr)
  | .grant => s.bus.pendingRequests.head?.map (·.addr)
  | .deliver => s.granted.map (·.addr)

/-- The events about the line `a`. -/
def about (p : Protocol) (a : Paddr) : List (Event n) → Untimed n → List (Event n)
  | [], _ => []
  | e :: es, s => (if s.subject e = some a then [e] else []) ++
      match s.step p e with
      | .ok t => about p a es t
      | .error _ => []

/-- In `u` the line `a` is as it is in `s`, and no other line is in use. -/
structure Part (p : Protocol) (a : Paddr) (s u : Untimed n) : Prop where
  live : Live p u
  line : ∀ i b, u.line i b = if b = a then s.line i b else .I
  outstanding : ∀ i, u.outstanding i = (s.outstanding i).filter fun e => lineOf e.2 = a
  queue : u.bus.pendingRequests = s.bus.pendingRequests.filter fun m => m.addr = a
  granted : u.granted = s.granted.filter fun m => m.addr = a
  shared : ∀ m, u.granted = some m → u.bus.sharedLine = s.bus.sharedLine

theorem part_start (p : Protocol) (a : Paddr) : Part p a (start n) (start n) where
  live := live_start p
  line i b := (ite_self _).symm
  outstanding i := rfl
  queue := rfl
  granted := rfl
  shared m hm := by cases hm

/-! ### An event about the line -/

theorem Part.issued (h : Part p (lineOf addr) s u) (hop : op = .LOAD ∨ op = .STORE)
    (ho : s.outstanding i = none) : u.outstanding i = none ∧
      Part p (lineOf addr) (s.issued p.features i op addr) (u.issued p.features i op addr) ∧
      ∃ d, (s.issued p.features i op addr).stats = s.stats.add d ∧
        (u.issued p.features i op addr).stats = u.stats.add d := by
  have hu : u.outstanding i = none := by rw [h.outstanding, ho]; rfl
  have hline : u.line i (lineOf addr) = s.line i (lineOf addr) := by rw [h.line, if_pos rfl]
  refine ⟨hu, { live := h.live.next (h.live.step_issue hop hu), line := fun j b => ?_,
                outstanding := fun j => ?_, queue := ?_, granted := h.granted, shared := h.shared }, ?_⟩
  · simp only [Untimed.issued, hline, h.line j b]
    by_cases hb : b = lineOf addr
    · rw [hb, if_pos rfl, if_pos rfl]
    · simp [hb]
  · by_cases hji : j = i
    · simp only [Untimed.issued, hline, hji, if_true]
      split
      · rfl
      · rw [Option.filter_some, if_pos (by simp)]
    · simp [Untimed.issued, hji, h.outstanding]
  · simp only [Untimed.issued, hline, h.queue, List.filter_append]
    split <;> simp [getMsg]
  · refine ⟨⟨(!hits (s.line i (lineOf addr)) op).toNat, 1, (upgrades (s.line i (lineOf addr)) op).toNat, 0⟩,
      rfl, ?_⟩
    simp only [Untimed.issued, hline]
    rfl

theorem Part.afterGrant {q : List Mreq} (h : Part p m.addr s u) (hr : s.bus.requestInProgress = false)
    (hq : s.bus.pendingRequests = m :: q) : ∃ q', u.bus.requestInProgress = false ∧
      u.bus.pendingRequests = m :: q' ∧
      Part p m.addr (s.afterGrant p.features m q) (u.afterGrant p.features m q') ∧
      ∃ d, (s.afterGrant p.features m q).stats = s.stats.add d ∧
        (u.afterGrant p.features m q').stats = u.stats.add d := by
  have hg : s.granted = none := if_neg (by rw [hr]; decide)
  have hur : u.bus.requestInProgress = false := by rw [h.live.busy, h.granted, hg]; rfl
  have huq : u.bus.pendingRequests = m :: q.filter fun m' => m'.addr = m.addr := by
    rw [h.queue, hq, List.filter_cons_of_pos (by simp)]
  have hline : ∀ j, u.line j m.addr = s.line j m.addr := fun j => by rw [h.line, if_pos rfl]
  refine ⟨_, hur, huq, { live := h.live.next (h.live.step_grant hur huq), line := fun j b => ?_,
                         outstanding := h.outstanding, queue := rfl, granted := ?_, shared := fun m' _ => ?_ },
    ⟨0, 0, 0, (List.finRange n).countP fun j => supplies (s.line j m.addr)⟩, rfl, ?_⟩
  · rw [line_afterGrant, line_afterGrant]
    by_cases hb : b = m.addr
    · rw [if_pos hb, if_pos hb, if_pos hb, hb, hline]
    · rw [if_neg hb, if_neg hb, h.line, if_neg hb]
  · show some m = Option.filter _ (some m)
    rw [Option.filter_some, if_pos (by simp)]
  · rw [sharedLine_afterGrant, sharedLine_afterGrant]
    simp only [hline]
  · simp only [Untimed.afterGrant, snooped, hline]
    rfl

theorem Part.afterDeliver {d : Mreq} (h : Part p m.addr s u) (hg : s.granted = some m) (hi : s.Asks p m i) :
    ∃ v, u.step p .deliver = .ok v ∧ Part p m.addr (s.afterDeliver p.features m d i) v ∧
      v.stats = u.stats := by
  have hug : u.granted = some m := by rw [h.granted, hg, Option.filter_some, if_pos (by simp)]
  obtain ⟨j, d', hj, hstep⟩ := h.live.step_deliver hug
  obtain rfl : j = i := L1id_injective (hj.srcMid.symm.trans hi.srcMid)
  refine ⟨_, hstep, { live := h.live.next hstep, line := fun k b => ?_, outstanding := fun k => ?_,
                      queue := h.queue, granted := rfl, shared := fun m' hm' => (by cases hm') }, rfl⟩
  · simp only [Untimed.afterDeliver, h.shared m hug, h.line k b]
    by_cases hb : b = m.addr
    · simp [hb]
    · simp [hb]
  · simp only [Untimed.afterDeliver, h.outstanding k]
    split <;> simp

/-! ### And one about another line -/

theorem Part.issued_of_ne (h : Part p a s u) (ho : s.outstanding i = none) (ha : lineOf addr ≠ a) :
    Part p a (s.issued p.features i op addr) u := by
  refine { live := h.live, line := fun j b => ?_, outstanding := fun j => ?_, queue := ?_,
           granted := h.granted, shared := h.shared }
  · rw [h.line]
    by_cases hb : b = a
    · have hne : ¬ (j = i ∧ b = lineOf addr) := fun hc => ha (hc.2.symm.trans hb)
      simp only [Untimed.issued, if_neg hne]
    · rw [if_neg hb, if_neg hb]
  · rw [h.outstanding]
    by_cases hji : j = i
    · simp only [Untimed.issued, hji, ho, if_true]
      split
      · rfl
      · rw [Option.filter_some, if_neg (by simpa using ha)]
        rfl
    · simp [Untimed.issued, hji]
  · rw [h.queue]
    simp only [Untimed.issued, List.filter_append]
    split <;> simp [getMsg, ha]

theorem Part.afterGrant_of_ne {q : List Mreq} (h : Part p a s u) (hr : s.bus.requestInProgress = false)
    (hq : s.bus.pendingRequests = m :: q) (ha : m.addr ≠ a) : Part p a (s.afterGrant p.features m q) u := by
  have hg : s.granted = none := if_neg (by rw [hr]; decide)
  have hug : u.granted = none := by rw [h.granted, hg]; rfl
  refine { live := h.live, line := fun j b => ?_, outstanding := h.outstanding, queue := ?_,
           granted := ?_, shared := fun m' hm' => ?_ }
  · rw [h.line, line_afterGrant]
    by_cases hb : b = a
    · have hne : b ≠ m.addr := fun hbm => ha (hbm.symm.trans hb)
      rw [if_neg hne]
    · rw [if_neg hb, if_neg hb]
  · rw [h.queue, hq, List.filter_cons_of_neg (by simpa using ha)]
    rfl
  · rw [hug]
    show none = Option.filter _ (some m)
    rw [Option.filter_some, if_neg (by simpa using ha)]
  · rw [hug] at hm'
    cases hm'

theorem Part.afterDeliver_of_ne {d : Mreq} (h : Part p a s u) (hg : s.granted = some m) (hi : s.Asks p m i)
    (ha : m.addr ≠ a) : Part p a (s.afterDeliver p.features m d i) u := by
  have hug : u.granted = none := by
    rw [h.granted, hg, Option.filter_some, if_neg (by simpa using ha)]
  obtain ⟨op, addr, hout, hm⟩ := hi
  have haddr : m.addr = lineOf addr := by rw [hm]; rfl
  refine { live := h.live, line := fun j b => ?_, outstanding := fun j => ?_, queue := h.queue,
           granted := hug, shared := fun m' hm' => ?_ }
  · rw [h.line]
    by_cases hb : b = a
    · have hne : b ≠ m.addr := fun hbm => ha (hbm.symm.trans hb)
      simp [Untimed.afterDeliver, hne]
    · rw [if_neg hb, if_neg hb]
  · rw [h.outstanding]
    by_cases hji : j = i
    · have hne : lineOf addr ≠ a := haddr ▸ ha
      simp [Untimed.afterDeliver, hji, hout, hne]
    · simp [Untimed.afterDeliver, hji]
  · rw [hug] at hm'
    cases hm'

/-! ### The lines side by side -/

/-- The whole `s`, of which `u a` has the line `a`. All lines are of `lines`. -/
structure Parts (p : Protocol) (lines : Finset Paddr) (s : Untimed n) (u : Paddr → Untimed n) : Prop where
  live : Live p s
  part : ∀ a, Part p a s (u a)
  asked : ∀ i op addr, s.outstanding i = some (op, addr) → lineOf addr ∈ lines
  stats : s.stats = .sum lines fun a => (u a).stats

variable {lines : Finset Paddr} {w : Paddr → Untimed n}

theorem parts_start (p : Protocol) (lines : Finset Paddr) : Parts p lines (start n) fun _ => start n where
  live := live_start p
  part a := part_start p a
  asked i op addr h := by cases h
  stats := (Stats.sum_zero lines).symm

/-- What the parts become if the line `a` alone goes on. -/
theorem Parts.goes_on (h : Parts p lines s w) {e : Event n} {v : Untimed n} {d : Stats} (ha : a ∈ lines)
    (ht : s.step p e = .ok t) (hv : (w a).step p e = .ok v) (hpart : Part p a t v)
    (helse : ∀ b, a ≠ b → Part p b t (w b)) (hs : t.stats = s.stats.add d) (hd : v.stats = (w a).stats.add d)
    (hasked : ∀ i op addr, t.outstanding i = some (op, addr) → lineOf addr ∈ lines) :
    ∃ w', (∀ b, (w b).run p (if some a = some b then [e] else []) = .ok (w' b)) ∧ Parts p lines t w' := by
  refine ⟨Function.update w a v, fun b => ?_, h.live.next ht, fun b => ?_, hasked, ?_⟩
  · by_cases hb : a = b
    · subst hb
      rw [if_pos rfl, Function.update_self, run_cons, hv]
      rfl
    · rw [if_neg (fun hab => hb (Option.some.inj hab)), Function.update_of_ne (Ne.symm hb)]
      rfl
  · by_cases hb : a = b
    · subst hb
      rwa [Function.update_self]
    · rw [Function.update_of_ne (Ne.symm hb)]
      exact helse b hb
  · rw [hs, h.stats]
    refine (Stats.sum_update ha ?_ fun b hb => ?_).symm
    · rw [Function.update_self, hd]
    · rw [Function.update_of_ne hb]

/-- **An event happens to its line alone.** -/
theorem Parts.step (h : Parts p lines s w) {e : Event n} (hl : ∀ k ∈ e.access, lineOf k.addr ∈ lines)
    (ht : s.step p e = .ok t) : ∃ w',
      (∀ a, (w a).run p (if s.subject e = some a then [e] else []) = .ok (w' a)) ∧ Parts p lines t w' := by
  cases h.live.happens ht with
  | issue i op addr hop ho =>
    obtain ⟨hu, hpart, d, hs, hd⟩ := (h.part (lineOf addr)).issued hop ho
    refine h.goes_on (hl _ rfl) ht ((h.part (lineOf addr)).live.step_issue hop hu) hpart
      (fun b hb => (h.part b).issued_of_ne ho hb) hs hd fun j op' addr' hj => ?_
    simp only [Untimed.issued] at hj
    split_ifs at hj
    · obtain ⟨rfl, rfl⟩ := Prod.mk.inj (Option.some.inj hj)
      exact hl _ rfl
    · exact h.asked j op' addr' hj
  | grant m q hr hq =>
    obtain ⟨i, op, addr, hout, hm⟩ :=
      h.live.asked m (mem_requests_of_queue (by rw [hq]; exact List.mem_cons_self))
    have haddr : m.addr = lineOf addr := by rw [hm]; rfl
    obtain ⟨q', hur, huq, hpart, d, hs, hd⟩ := (h.part m.addr).afterGrant hr hq
    have hsubject : s.subject .grant = some m.addr := by rw [subject, hq]; rfl
    rw [hsubject]
    exact h.goes_on (haddr ▸ h.asked i op addr hout) ht ((h.part m.addr).live.step_grant hur huq) hpart
      (fun b hb => (h.part b).afterGrant_of_ne hr hq hb) hs hd h.asked
  | deliver m d i hg hi =>
    obtain ⟨op, addr, hout, hm⟩ := id hi
    have haddr : m.addr = lineOf addr := by rw [hm]; rfl
    obtain ⟨v, hv, hpart, hd⟩ := (h.part m.addr).afterDeliver hg hi
    have hsubject : s.subject .deliver = some m.addr := by rw [subject, hg]; rfl
    rw [hsubject]
    refine h.goes_on (haddr ▸ h.asked i op addr hout) ht hv hpart
      (fun b hb => (h.part b).afterDeliver_of_ne hg hi hb) (Stats.add_zero _).symm
      (hd.trans (Stats.add_zero _).symm) fun j op' addr' hj => ?_
    simp only [Untimed.afterDeliver] at hj
    split_ifs at hj
    exact h.asked j op' addr' hj

theorem run_append (es es' : List (Event n)) : s.run p (es ++ es') = s.run p es >>= fun u => u.run p es' :=
  List.foldlM_append

theorem Parts.run {es : List (Event n)} (h : Parts p lines s w)
    (hl : ∀ k ∈ es.filterMap Event.access, lineOf k.addr ∈ lines) (ht : s.run p es = .ok t) : ∃ w',
      (∀ a, (w a).run p (about p a es s) = .ok (w' a)) ∧ Parts p lines t w' := by
  induction es generalizing s w with
  | nil =>
    obtain rfl : s = t := Except.ok.inj ht
    exact ⟨w, fun a => rfl, h⟩
  | cons e es ih =>
    rw [run_cons] at ht
    obtain ⟨u, hu, hrun⟩ := Loop.bind_eq_ok ht
    have hcons : (e :: es).filterMap Event.access = e.access.toList ++ es.filterMap Event.access := by
      cases he : e.access <;> simp [he]
    rw [hcons] at hl
    obtain ⟨v, hv, hparts⟩ := h.step (fun k hk => hl k (List.mem_append_left _ (Option.mem_toList.mpr hk))) hu
    obtain ⟨w', hw', hparts'⟩ := ih hparts (fun k hk => hl k (List.mem_append_right _ hk)) hrun
    refine ⟨w', fun a => ?_, hparts'⟩
    rw [about, hu, run_append, hv a]
    exact hw' a

/-- The accesses among the events about a line are those to the line. -/
theorem access_about {es : List (Event n)} (ht : s.run p es = .ok t) (a : Paddr) :
    (about p a es s).filterMap Event.access =
      (es.filterMap Event.access).filter fun k => lineOf k.addr = a := by
  induction es generalizing s with
  | nil => rfl
  | cons e es ih =>
    rw [run_cons] at ht
    obtain ⟨u, hu, hrun⟩ := Loop.bind_eq_ok ht
    rw [about, hu, List.filterMap_append, ih hrun]
    cases e with
    | issue i op addr =>
      have hacc : (Event.issue i op addr).access = some (.ofOp i op addr) := rfl
      rw [List.filterMap_cons_some hacc, List.filter_cons]
      by_cases ha : lineOf addr = a <;> simp [subject, ha, hacc]
    | grant =>
      have hacc : (Event.grant : Event n).access = none := rfl
      rw [List.filterMap_cons_none hacc]
      split <;> simp [hacc]
    | deliver =>
      have hacc : (Event.deliver : Event n).access = none := rfl
      rw [List.filterMap_cons_none hacc]
      split <;> simp [hacc]

theorem ofNode_filter (i : Fin n) (l : List (Access n)) (q : Access n → Bool) :
    ofNode i (l.filter q) = (ofNode i l).filter q := by
  unfold ofNode
  rw [List.filter_filter, List.filter_filter]
  exact List.filter_congr fun k _ => Bool.and_comm _ _

/-- The lines of the accesses of a sequence of events. -/
def linesIn (es : List (Event n)) : Finset Paddr :=
  ((es.filterMap Event.access).map fun k => lineOf k.addr).toFinset

/-- **Every line is a system of its own.** Of any sequence of events those about one line can
happen alone, and do to that line what they do in the whole; the counters of the whole are
the sums of those of its lines. -/
theorem line_by_line (p : Protocol) (es : List (Event n)) (h : (start n).run p es = .ok s) :
    ∃ u : Paddr → Untimed n,
      (∀ a, (start n).run p (about p a es (start n)) = .ok (u a) ∧ Part p a s (u a) ∧
        (about p a es (start n)).filterMap Event.access =
          (es.filterMap Event.access).filter fun k => lineOf k.addr = a) ∧
      s.stats = .sum (linesIn es) fun a => (u a).stats := by
  obtain ⟨u, hu, hparts⟩ := (parts_start p (linesIn es)).run
    (fun k hk => List.mem_toFinset.mpr (List.mem_map_of_mem hk)) h
  exact ⟨u, fun a => ⟨hu a, hparts.part a, access_about h a⟩, hparts.stats⟩

/-- Two nodes with a store each to one line, and one that loads another line in between. -/
theorem line_by_line_two : ∃ s : Untimed 3,
    let es : List (Event 3) := [.issue 0 .STORE 0x40, .issue 2 .LOAD 0x84, .issue 1 .STORE 0x48,
      .grant, .deliver, .grant, .deliver, .grant]
    (start 3).run .MOESI_PRO es = .ok s ∧ ∃ u : Paddr → Untimed 3,
      (∀ a, (start 3).run .MOESI_PRO (about .MOESI_PRO a es (start 3)) = .ok (u a) ∧ Part .MOESI_PRO a s (u a) ∧
        (about .MOESI_PRO a es (start 3)).filterMap Event.access =
          (es.filterMap Event.access).filter fun k => lineOf k.addr = a) ∧
      s.stats = .sum (linesIn es) fun a => (u a).stats :=
  ⟨_, rfl, line_by_line .MOESI_PRO _ rfl⟩

end Untimed

/-! ### The simulator -/

open Untimed

variable {x : Input n}

namespace Run

/-- What the events issue is in the traces. -/
theorem Ends.exists_access {r : Run x} {R : ℕ} (h : r.Ends R) {k : Access n}
    (hk : k ∈ (r.events R).filterMap Event.access) : ∃ l ∈ x.traces k.node, lineOf l.2 = lineOf k.addr := by
  have hmem : k ∈ ofNode k.node ((r.events R).filterMap Event.access) := List.mem_filter.mpr ⟨hk, by simp⟩
  rw [h.ofNode_events, List.mem_map] at hmem
  obtain ⟨l, hl, hle⟩ := hmem
  exact ⟨l, hl, by rw [← hle, lineOf_lineOf]⟩

theorem Ends.mem_lines {r : Run x} {R : ℕ} (h : r.Ends R) {k : Access n}
    (hk : k ∈ (r.events R).filterMap Event.access) : lineOf k.addr ∈ x.lines :=
  Input.mem_lines.mpr ⟨k.node, h.exists_access hk⟩

/-- **A run is its lines side by side.** For every line there is a sequence of events with the
accesses of the traces to this line only, in the order in which every trace has them,
that ends with the states in which the run leaves it; the counters of the run are the
sums of theirs. -/
theorem lines_apart (r : Run x) : ∃ s, (∃ fuel, (Simulator.init x.traces).run x.settings fuel = .ok (some s)) ∧
    ∃ (es : Paddr → List (Event n)) (u : Paddr → Untimed n),
      (∀ a, (Untimed.start n).run x.protocol (es a) = .ok (u a) ∧ (∀ i, (u a).outstanding i = none) ∧
        (∀ i b, (u a).line i b = if b = a then s.lines i b else .I) ∧
        ∀ i, ofNode i ((es a).filterMap Event.access) =
          ((x.traces i).filter fun l => lineOf l.2 = a).map fun l => ⟨i, l.1 = 'w', a⟩) ∧
      s.stats = .sum x.lines fun a => (u a).stats := by
  obtain ⟨R, hR⟩ := r.exists_ends
  obtain ⟨v, hrun, hout, hline, hstats⟩ := hR.untimed r
  have hnode := hR.ofNode_events
  obtain ⟨u, hu, hparts⟩ := (parts_start x.protocol x.lines).run (fun _ => hR.mem_lines) hrun
  refine ⟨r.state R, ⟨R, by rw [r.run_eq_of_ends hR, if_pos (Nat.le_refl R)]⟩,
    fun a => about x.protocol a (r.events R) (.start n), u, fun a => ⟨hu a, fun i => ?_, fun i b => ?_,
    fun i => ?_⟩, hstats.symm.trans hparts.stats⟩
  · rw [(hparts.part a).outstanding, hout]
    rfl
  · rw [(hparts.part a).line, hline]
  · rw [access_about hrun, ofNode_filter, hnode, List.filter_map]
    simp only [Function.comp_def, lineOf_lineOf]
    refine List.map_congr_left fun l hl => ?_
    have ha : lineOf l.2 = a := by simpa using (List.mem_filter.mp hl).2
    rw [ha]

end Run

end CoherenceSim
