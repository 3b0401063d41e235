/-
# What the ticks do to a node

The fields and the lines of a node after each of its ticks, case by case: the
request of the processor hits or misses (`procTick_hit`, `procTick_miss`), the
message on the bus is DATA for this cache (`snoopTick_addressed`) or it is not
(`snoopTick_quiet`), the processor waits, completes or starts an access.
-/
import CoherenceSim.Cycle

namespace CoherenceSim

open Features

variable {n : ℕ} {F : Type}

/-- The message on the bus is DATA for cache `i`. -/
def Addressed (i : Fin n) (cur : Option Mreq) : Prop :=
  ∃ d, cur = some d ∧ d.msg = .DATA ∧ d.destMid = L1id i

instance (i : Fin n) (cur : Option Mreq) : Decidable (Addressed i cur) :=
  decidable_of_iff (cur.any fun d => d.msg = .DATA ∧ d.destMid = L1id i)
    (by cases cur <;> simp [Addressed])

/-- The state of a line after the message on the bus, when that is not DATA for it. -/
def lineSnoop (f : Features) (cur : Option Mreq) (a : Paddr) (st : CacheState) : CacheState :=
  match cur with
  | none => st
  | some m => if m.msg ≠ .DATA ∧ a = m.addr then f.yield m.msg st else st

theorem lineSnoop_rank_le (f : Features) (cur : Option Mreq) (a : Paddr) (st : CacheState) :
    (lineSnoop f cur a st).rank ≤ st.rank := by
  unfold lineSnoop
  split
  · exact Nat.le_refl _
  · split
    · exact yield_rank_le f _ st
    · exact Nat.le_refl _

theorem lineSnoop_pending (f : Features) (cur : Option Mreq) (a : Paddr) (st : CacheState) :
    (lineSnoop f cur a st).pending = st.pending := by
  unfold lineSnoop
  split
  · rfl
  · split
    · exact yield_pending f _ st
    · rfl

theorem lineSnoop_of_pending {f : Features} {cur : Option Mreq} {a : Paddr} {st : CacheState}
    (h : st.pending = true) : lineSnoop f cur a st = st := by
  unfold lineSnoop
  split
  · rfl
  · split
    · exact yield_of_pending f h
    · rfl

theorem valid_lineSnoop {p : Protocol} {st : CacheState} (cur : Option Mreq) (a : Paddr)
    (h : p.features.valid st = true) : p.features.valid (lineSnoop p.features cur a st) = true := by
  unfold lineSnoop
  split
  · exact h
  · split
    · exact valid_yield p _ h
    · exact h

namespace Node

/-! ### The request of the processor -/

section Proc
variable (f : Features) (i : Fin n) {nd : Node F}

theorem procTick_none (h : nd.L1.procRequest = none) : nd.procTick f i = nd := by
  simp [procTick, h]

theorem procRequest_procTick (nd : Node F) : (nd.procTick f i).L1.procRequest = none := by
  unfold procTick
  cases hr : nd.L1.procRequest with
  | none => exact hr
  | some r => simp only; split <;> rfl

theorem procTick_hit {r : Mreq} (hr : nd.L1.procRequest = some r)
    (hh : hits (nd.line r.addr) r.msg = true) :
    (nd.procTick f i).PR = { nd.PR with inboundRequestBuf := some (dataToProc (L1id i) r.addr) } ∧
    ∀ a, (nd.procTick f i).line a =
      if a = r.addr then afterHit (nd.line r.addr) r.msg else nd.line a := by
  unfold procTick
  simp only [hr, hh, if_true]
  exact ⟨rfl, fun a => line_setLine nd r.addr a _⟩

theorem procTick_miss {r : Mreq} (hr : nd.L1.procRequest = some r)
    (hh : hits (nd.line r.addr) r.msg = false) :
    (nd.procTick f i).PR = nd.PR ∧
    ∀ a, (nd.procTick f i).line a = if a = r.addr then pend (f.request r.msg) else nd.line a := by
  unfold procTick
  simp only [hr, hh]
  exact ⟨rfl, fun a => line_setLine nd r.addr a _⟩

/-- A request of the processor leaves no line more rank than it had. -/
theorem rank_procTick_le (nd : Node F) (a : Paddr) :
    ((nd.procTick f i).line a).rank ≤ (nd.line a).rank := by
  cases hr : nd.L1.procRequest with
  | none => exact Nat.le_of_eq (by rw [procTick_none f i hr])
  | some r =>
    cases hh : hits (nd.line r.addr) r.msg with
    | true =>
      rw [(procTick_hit f i hr hh).2]
      split
      · next h => exact Nat.le_of_eq (by rw [h, afterHit_rank hh])
      · exact Nat.le_refl _
    | false =>
      rw [(procTick_miss f i hr hh).2]
      split
      · simp
      · exact Nat.le_refl _

theorem valid_procTick {p : Protocol} {nd : Node F}
    (h : ∀ a, p.features.valid (nd.line a) = true) (a : Paddr) :
    p.features.valid ((nd.procTick p.features i).line a) = true := by
  cases hr : nd.L1.procRequest with
  | none => rw [procTick_none _ i hr]; exact h a
  | some r =>
    cases hh : hits (nd.line r.addr) r.msg with
    | true =>
      rw [(procTick_hit _ i hr hh).2]
      split
      · exact valid_afterHit p _ (h _)
      · exact h a
    | false =>
      rw [(procTick_miss _ i hr hh).2]
      split
      · exact valid_pend p _
      · exact h a

end Proc

/-! ### The message on the bus -/

section Snoop
variable (f : Features) {i : Fin n} {cur : Option Mreq} (sh : Bool) {nd : Node F}

theorem snoopTick_quiet (h : ¬ Addressed i cur) (nd : Node F) :
    (nd.snoopTick f i cur sh).PR = nd.PR ∧
    (nd.snoopTick f i cur sh).L1.procRequest = nd.L1.procRequest ∧
    ∀ a, (nd.snoopTick f i cur sh).line a = lineSnoop f cur a (nd.line a) := by
  unfold snoopTick lineSnoop
  cases cur with
  | none => exact ⟨rfl, rfl, fun _ => rfl⟩
  | some m =>
    by_cases hd : m.msg = .DATA
    · have hdest : m.destMid ≠ L1id i := fun hi => h ⟨m, rfl, hd, hi⟩
      simp [hd, hdest]
    · refine ⟨by simp [hd], by simp [hd], fun a => ?_⟩
      by_cases ha : a = m.addr <;> simp [hd, ha]

theorem snoopTick_addressed {d : Mreq} (hc : cur = some d) (hd : d.msg = .DATA)
    (hi : d.destMid = L1id i) (nd : Node F) :
    (nd.snoopTick f i cur sh).PR =
      { nd.PR with inboundRequestBuf := some (dataToProc (L1id i) d.addr) } ∧
    (nd.snoopTick f i cur sh).L1.procRequest = nd.L1.procRequest ∧
    ∀ a, (nd.snoopTick f i cur sh).line a =
      if a = d.addr then f.fill (asked (nd.line d.addr)) sh else nd.line a := by
  unfold snoopTick
  simp only [hc, hd, hi, if_true]
  exact ⟨rfl, rfl, fun a => line_setLine nd d.addr a _⟩

/-- The tick of a cache leaves its processor alone but for the input buffer. -/
theorem PR_cacheTick (f : Features) (i : Fin n) (cur : Option Mreq) (sh : Bool) (nd : Node F) :
    ∃ b, (nd.cacheTick f i cur sh).PR = { nd.PR with inboundRequestBuf := b } := by
  have hproc : ∃ b, (nd.procTick f i).PR = { nd.PR with inboundRequestBuf := b } := by
    unfold procTick
    split
    · exact ⟨_, rfl⟩
    · split <;> exact ⟨_, rfl⟩
  obtain ⟨b, hb⟩ := hproc
  unfold cacheTick
  by_cases ha : Addressed i cur
  · obtain ⟨d, hc, hd, hi⟩ := ha
    exact ⟨_, by rw [(snoopTick_addressed f sh hc hd hi _).1, hb]⟩
  · exact ⟨b, by rw [(snoopTick_quiet f sh ha _).1, hb]⟩

theorem cacheTick_quiet (hp : nd.L1.procRequest = none) (h : ¬ Addressed i cur) :
    (nd.cacheTick f i cur sh).PR = nd.PR ∧ (nd.cacheTick f i cur sh).L1.procRequest = none ∧
    ∀ a, (nd.cacheTick f i cur sh).line a = lineSnoop f cur a (nd.line a) := by
  unfold cacheTick
  rw [procTick_none f i hp, ← hp]
  exact snoopTick_quiet f sh h nd

theorem procRequest_cacheTick (nd : Node F) : (nd.cacheTick f i cur sh).L1.procRequest = none := by
  rw [← procRequest_procTick f i nd]
  unfold cacheTick snoopTick
  split
  · rfl
  · split
    · split <;> rfl
    · rfl

theorem cacheTick_hit {r : Mreq} (hr : nd.L1.procRequest = some r)
    (hh : hits (nd.line r.addr) r.msg = true) (h : ¬ Addressed i cur) :
    (nd.cacheTick f i cur sh).PR =
      { nd.PR with inboundRequestBuf := some (dataToProc (L1id i) r.addr) } ∧
    (nd.cacheTick f i cur sh).L1.procRequest = none ∧
    ∀ a, (nd.cacheTick f i cur sh).line a =
      lineSnoop f cur a (if a = r.addr then afterHit (nd.line r.addr) r.msg else nd.line a) := by
  obtain ⟨hPR, hline⟩ := procTick_hit f i hr hh
  obtain ⟨hPR', hreq, hline'⟩ := snoopTick_quiet f sh h (nd.procTick f i)
  refine ⟨hPR'.trans hPR, hreq.trans (procRequest_procTick f i nd), fun a => ?_⟩
  rw [← hline]
  exact hline' a

theorem cacheTick_miss {r : Mreq} (hr : nd.L1.procRequest = some r)
    (hh : hits (nd.line r.addr) r.msg = false) (h : ¬ Addressed i cur) :
    (nd.cacheTick f i cur sh).PR = nd.PR ∧ (nd.cacheTick f i cur sh).L1.procRequest = none ∧
    ∀ a, (nd.cacheTick f i cur sh).line a =
      lineSnoop f cur a (if a = r.addr then pend (f.request r.msg) else nd.line a) := by
  obtain ⟨hPR, hline⟩ := procTick_miss f i hr hh
  obtain ⟨hPR', hreq, hline'⟩ := snoopTick_quiet f sh h (nd.procTick f i)
  refine ⟨hPR'.trans hPR, hreq.trans (procRequest_procTick f i nd), fun a => ?_⟩
  rw [← hline]
  exact hline' a

theorem cacheTick_data {d : Mreq} (hp : nd.L1.procRequest = none) (hc : cur = some d)
    (hd : d.msg = .DATA) (hi : d.destMid = L1id i) :
    (nd.cacheTick f i cur sh).PR =
      { nd.PR with inboundRequestBuf := some (dataToProc (L1id i) d.addr) } ∧
    (nd.cacheTick f i cur sh).L1.procRequest = none ∧
    ∀ a, (nd.cacheTick f i cur sh).line a =
      if a = d.addr then f.fill (asked (nd.line d.addr)) sh else nd.line a := by
  unfold cacheTick
  rw [procTick_none f i hp, ← hp]
  exact snoopTick_addressed f sh hc hd hi nd

end Snoop

/-! ### The processor -/

section Processor
variable (i : Fin n) {nd : Node Trace}

theorem complete_none (h : nd.PR.inboundRequest = none) : nd.complete = nd := by
  simp [complete, h]

theorem prTick_waits (hi : nd.PR.inboundRequest = none) (ho : nd.PR.outstandingRequest = true) :
    nd.prTick i = nd := by
  simp [prTick, complete_none hi, ho]

theorem prTick_eot (hi : nd.PR.inboundRequest = none) (he : nd.PR.endOfTrace = true) :
    nd.prTick i = nd := by
  simp [prTick, complete_none hi, he]

/-- A processor whose access is over, or who has none, issues the next. -/
theorem prTick_free (he : nd.PR.endOfTrace = false)
    (h : nd.PR.inboundRequest.isSome ∨ nd.PR.outstandingRequest = false) : nd.prTick i =
      issue i { nd with PR := { nd.PR with outstandingRequest := false, inboundRequest := none } } := by
  obtain ⟨L1, ⟨infile, eot, out, inb, buf⟩⟩ := nd
  simp only at he h
  subst he
  cases inb with
  | none =>
    obtain rfl : out = false := by simpa using h
    rfl
  | some d => rfl

@[simp] theorem line_issue (a : Paddr) : (nd.issue i).line a = nd.line a := by
  unfold issue
  split <;> rfl

@[simp] theorem line_prTick (a : Paddr) : (nd.prTick i).line a = nd.line a := by
  have hc : nd.complete.line a = nd.line a := by unfold complete; split <;> rfl
  unfold prTick
  split
  · exact hc
  · rw [line_issue, hc]

@[simp] theorem line_tock (a : Paddr) : nd.tock.line a = nd.line a := rfl

@[simp] theorem procRequest_tock : nd.tock.L1.procRequest = nd.L1.procRequest := rfl

theorem tock_PR (nd : Node Trace) : nd.tock.PR = { nd.PR with
    inboundRequest := nd.PR.inboundRequestBuf.or nd.PR.inboundRequest, inboundRequestBuf := none } := by
  obtain ⟨L1, ⟨infile, eot, out, inb, buf⟩⟩ := nd
  cases buf <;> rfl

/-- A processor that waits takes what is in its input buffer. -/
theorem tock_prTick_waits (hi : nd.PR.inboundRequest = none) (ho : nd.PR.outstandingRequest = true) :
    (nd.prTick i).tock.PR =
      { nd.PR with inboundRequest := nd.PR.inboundRequestBuf, inboundRequestBuf := none } := by
  rw [prTick_waits i hi ho, tock_PR, hi, Option.or_none]

/-- A free processor at the end of its trace. -/
theorem tock_prTick_nil (he : nd.PR.endOfTrace = false)
    (h : nd.PR.inboundRequest.isSome ∨ nd.PR.outstandingRequest = false)
    (hb : nd.PR.inboundRequestBuf = none) (hf : nd.PR.infile = []) :
    (nd.prTick i).tock.PR = ⟨[], true, false, none, none⟩ ∧
    (nd.prTick i).tock.L1.procRequest = nd.L1.procRequest := by
  rw [prTick_free i he h, tock_PR, procRequest_tock]
  simp [issue, hf, hb]

/-- A free processor with a line to fetch. -/
theorem tock_prTick_cons {l : Char × Paddr} {rest : Trace} (he : nd.PR.endOfTrace = false)
    (h : nd.PR.inboundRequest.isSome ∨ nd.PR.outstandingRequest = false)
    (hb : nd.PR.inboundRequestBuf = none) (hf : nd.PR.infile = l :: rest) :
    (nd.prTick i).tock.PR = ⟨rest, false, true, none, none⟩ ∧
    (nd.prTick i).tock.L1.procRequest = some (.new (opOf l.1) l.2 (PRid i)) := by
  rw [prTick_free i he h, tock_PR, procRequest_tock]
  simp [issue, hf, hb, he]

end Processor

end Node

end CoherenceSim
