/-
# Safety

`single_writer`: at most one cache owns a line, and a line that can be written is
in one cache only. `no_error`: no assertion fails and no fatal error is met.
`no_request_lost`: an access that is under way is in exactly one place.
-/
import CoherenceSim.Run

namespace CoherenceSim

open Features

variable {n : ℕ} {F : Type} {x : Input n}

/-! ### Single writer, multiple readers -/

/-- Cache `i` has the line `a` in one of these states. -/
def Simulator.Holds (s : Simulator n F) (i : Fin n) (a : Paddr) (sts : List CacheState) : Prop :=
  ∃ e, (s.Nd i).L1.myEntries a = some e ∧ e.state ∈ sts

structure SingleWriter (s : Simulator n F) (a : Paddr) : Prop where
  owner : ∀ i j, s.Holds i a [.M, .E, .O, .F] → s.Holds j a [.M, .E, .O, .F] → i = j
  writer : ∀ i j, s.Holds i a [.M, .E] → j ≠ i →
    ∀ e, (s.Nd j).L1.myEntries a = some e → e.state ∈ [CacheState.I, .IM, .IS]

theorem Simulator.Holds.line {s : Simulator n Trace} {i : Fin n} {a : Paddr} {sts : List CacheState}
    (h : s.Holds i a sts) : (s.Nd i).line a ∈ sts := by
  obtain ⟨e, he, hm⟩ := h
  simpa [Node.line, HashTable.getEntry, he] using hm

theorem singleWriter_of_fits {s : Simulator n Trace} {a : Paddr} (h : Permission.Fits 3 (ranks s a)) :
    SingleWriter s a where
  owner i j hi hj := by
    have hrank : ∀ st ∈ [CacheState.M, .E, .O, .F], 3 < 2 * st.rank := by decide
    exact h.unique (hrank _ hi.line) (hrank _ hj.line)
  writer i j hi hj e he := by
    have hrank : ∀ st ∈ [CacheState.M, .E], st.rank = 3 := by decide
    have hi3 : ranks s a i = 3 := hrank _ hi.line
    have hj0 : ranks s a j = 0 := by
      have := h i j (Ne.symm hj)
      omega
    have hline : (s.Nd j).line a = e.state := by simp [Node.line, HashTable.getEntry, he]
    rw [ranks, hline] at hj0
    revert hj0
    cases e.state <;> decide

/-- **Single writer, multiple readers**, between two cycles and after the ticks of
any number of the caches of one. -/
theorem single_writer (r : Run x) (c : ℕ) (a : Paddr) : SingleWriter (r.state c) a ∧
    ∀ j, ∃ t, (r.state c).tickBus.tickCaches x.settings ((List.finRange n).take j) = .ok t ∧
      SingleWriter t a := by
  have h := r.inv c
  refine ⟨singleWriter_of_fits (h.fits a), fun j => ?_⟩
  have hn : ((List.finRange n).take j).Nodup := (List.take_sublist j _).nodup (List.nodup_finRange n)
  exact ⟨_, Simulator.tickCaches_eq_sync x.settings h.ready hn, singleWriter_of_fits (h.fits_sync _ a)⟩

/-! ### No error -/

/-- The state in which the processor of node `i` ticks. -/
def Simulator.beforePr (S : Settings) (s : Simulator n Trace) (i : Fin n) :
    Except Fatal (Simulator n Trace) := do
  let s ← s.tickBus.tickCaches S (List.finRange n)
  s.tickPrs ((List.finRange n).take i)

theorem Inv.beforePr {s : Simulator n Trace} {gr : Option Mreq} (h : Inv x s gr) (i : Fin n) :
    ∃ t, s.beforePr x.settings i = .ok t ∧ (t.Nd i).L1.procRequest = none := by
  have hn : ((List.finRange n).take i).Nodup := (List.take_sublist i _).nodup (List.nodup_finRange n)
  have ht : s.beforePr x.settings i = (s.afterCaches x.settings).tickPrs ((List.finRange n).take i) := by
    unfold Simulator.beforePr
    rw [Simulator.tickCaches_eq_sync x.settings h.ready (List.nodup_finRange n)]
    rfl
  refine ⟨_, ht.trans (Simulator.tickPrs_eq h.prReady hn), ?_⟩
  simp only [Loop.notMem_take_finRange, if_false, Simulator.afterCaches, Simulator.sync, List.mem_finRange,
    if_true]
  exact Node.procRequest_cacheTick _ _ _

theorem Inv.cycles {s : Simulator n Trace} {gr : Option Mreq} (h : Inv x s gr) (c : ℕ) :
    ∃ t, s.cycles x.settings c = .ok t := by
  induction c generalizing s gr with
  | zero => exact ⟨s, rfl⟩
  | succ c ih =>
    obtain ⟨t, ht⟩ := ih h.next
    refine ⟨t, ?_⟩
    rw [Simulator.cycles, h.cycle_eq]
    exact ht

theorem Inv.run_ne_error {s : Simulator n Trace} {gr : Option Mreq} (h : Inv x s gr) (fuel : ℕ)
    (e : Fatal) : s.run x.settings fuel ≠ .error e := by
  induction fuel generalizing s gr with
  | zero => intro he; cases he
  | succ fuel ih =>
    rw [Simulator.run, h.cycle_eq]
    show (if _ then _ else _) ≠ _
    split
    · intro he; cases he
    · exact ih h.next

/-- **No assertion fails and no fatal error is met**, in the loop and however long it is
taken on; and the slot of a cache is empty whenever its processor ticks. -/
theorem no_error (x : Input n) :
    (∀ fuel e, (Simulator.init x.traces).run x.settings fuel ≠ .error e) ∧
    (∀ c, ∃ s, (Simulator.init x.traces).cycles x.settings c = .ok s) ∧
    ∀ (r : Run x) c i, ∃ t, (r.state c).beforePr x.settings i = .ok t ∧
      (t.Nd i).L1.procRequest = none :=
  ⟨(Inv.init x).run_ne_error, (Inv.init x).cycles, fun r c i => (r.inv c).beforePr i⟩

/-! ### No request is lost -/

/-- The places where an access that is under way can be. -/
inductive Place
  | slot | queue | bus | back
deriving DecidableEq, Repr

/-- What a place holds of node `i`: `proc_request` of its cache; its messages in the
queue; the request of it that is granted and without its DATA; `inbound_request` of
its processor. -/
def Simulator.contents (s : Simulator n Trace) (gr : Option Mreq) (i : Fin n) : Place → List Mreq
  | .slot => (s.Nd i).L1.procRequest.toList
  | .queue => s.bus.pendingRequests.filter (·.srcMid = L1id i)
  | .bus => (gr.filter (·.srcMid = L1id i)).toList
  | .back => (s.Nd i).PR.inboundRequest.toList

/-- What it holds of the access `l`. -/
def Input.carries (x : Input n) (i : Fin n) (l : Char × Paddr) : Place → Mreq
  | .slot => .new (opOf l.1) l.2 (PRid i)
  | .queue | .bus => x.ask i l
  | .back => dataToProc (L1id i) l.2

/-- The places of the stages. -/
def Stage.place : Stage → Option Place
  | .idle => none
  | .issued => some .slot
  | .queued => some .queue
  | .granted => some .bus
  | .answered => some .back

section
variable {s : Simulator n Trace} {gr : Option Mreq} {i : Fin n} {st : Stage} {k : ℕ} {l : Char × Paddr}

theorem At.contents (h : At x s gr i st k l) (p : Place) :
    s.contents gr i p = if st.place = some p then [x.carries i l p] else [] := by
  cases p with
  | slot => rw [Simulator.contents, h.proc]; cases st <;> rfl
  | queue => rw [Simulator.contents, h.queue]; cases st <;> rfl
  | bus => rw [Simulator.contents, h.grant]; cases st <;> rfl
  | back => rw [Simulator.contents, h.inbound]; cases st <;> rfl

end

/-- Which request line `a` of cache `i` waits for. -/
def Awaits (st : CacheState) (m : Mreq) : Prop :=
  st = .IM ∧ m.msg = .GETM ∨ st = .IS ∧ m.msg = .GETS

/-- Every access that is under way is in one place, the line that waits for it is the
one its request names, and the DATA that waits for the bus is the granted request's. -/
structure Conserved (x : Input n) (s : Simulator n Trace) (gr : Option Mreq) : Prop where
  outstanding : ∀ i, (s.Nd i).PR.outstandingRequest = true ↔ ∃! p, s.contents gr i p ≠ []
  nowhere : ∀ i, (s.Nd i).PR.outstandingRequest = false → ∀ p, s.contents gr i p = []
  current : ∀ i p, s.contents gr i p ≠ [] →
    ∃ l, x.current s i = some l ∧ s.contents gr i p = [x.carries i l p]
  oneLine : ∀ i a b, ((s.Nd i).line a).pending = true → ((s.Nd i).line b).pending = true → a = b
  waits : ∀ i, (∃ a, ((s.Nd i).line a).pending = true) ↔
    s.contents gr i .queue ≠ [] ∨ s.contents gr i .bus ≠ []
  awaits : ∀ i a, ((s.Nd i).line a).pending = true →
    ∀ m, m ∈ s.contents gr i .queue ∨ m ∈ s.contents gr i .bus →
      m.srcMid = L1id i ∧ m.addr = a ∧ Awaits ((s.Nd i).line a) m
  inProgress : s.bus.requestInProgress = gr.isSome
  reply : ∀ d, s.bus.dataReply = some d → s.bus.requestInProgress = true ∧
    ∃ m, gr = some m ∧ d.addr = m.addr ∧ d.destMid = m.srcMid

theorem awaits_pend (f : Features) (op : Message) {m : Mreq} (h : m.msg = f.request op) :
    Awaits (pend (f.request op)) m := by
  rcases request_cases f op with hr | hr
  · exact Or.inr ⟨by rw [hr]; rfl, h.trans hr⟩
  · exact Or.inl ⟨by rw [hr]; rfl, h.trans hr⟩

theorem Inv.conserved {s : Simulator n Trace} {gr : Option Mreq} (h : Inv x s gr) :
    Conserved x s gr where
  outstanding i := by
    obtain ⟨st, k, l, ha⟩ := h.node i
    rw [ha.outstanding]
    simp only [ha.contents, ne_eq, ite_eq_right_iff, reduceCtorEq, imp_false, not_not]
    cases st <;> simp [Stage.place, ExistsUnique]
  nowhere i ho p := by
    obtain ⟨st, k, l, ha⟩ := h.node i
    rw [ha.outstanding] at ho
    obtain rfl : st = .idle := by simpa using ho
    rw [ha.contents]
    rfl
  current i p hp := by
    obtain ⟨st, k, l, ha⟩ := h.node i
    rw [ha.contents] at hp ⊢
    split at hp
    · next hst =>
      refine ⟨l, ha.toAtNode.current ?_, if_pos hst⟩
      rintro rfl
      cases hst
    · exact absurd rfl hp
  oneLine i a b hpa hpb := by
    obtain ⟨st, k, l, ha⟩ := h.node i
    rw [(ha.pending a hpa).2, (ha.pending b hpb).2]
  waits i := by
    obtain ⟨st, k, l, ha⟩ := h.node i
    have hwaits : (∃ a, ((s.Nd i).line a).pending = true) ↔ st.waits = true := by
      refine ⟨fun ⟨a, hp⟩ => (ha.pending a hp).1, fun hst => ⟨lineOf l.2, ?_⟩⟩
      rw [ha.wait hst, pend_pending]
    rw [hwaits]
    simp only [ha.contents]
    cases st <;> simp [Stage.place, Stage.waits]
  awaits i a hp m hm := by
    obtain ⟨st, k, l, ha⟩ := h.node i
    obtain ⟨hst, rfl⟩ := ha.pending a hp
    have hask : m = x.ask i l := by
      rcases hm with hm | hm <;> rw [ha.contents] at hm <;> split at hm <;>
        first | exact List.mem_singleton.mp hm | cases hm
    rw [hask, ha.wait hst]
    exact ⟨rfl, rfl, awaits_pend x.f _ rfl⟩
  inProgress := h.busy
  reply d hd := by
    cases hg : gr with
    | none => rw [(h.free hg).1] at hd; cases hd
    | some m => exact ⟨by rw [h.busy, hg]; rfl, m, rfl, (h.reply m d hg hd).2⟩

/-- **No request is lost, duplicated or misdirected**, after any number of cycles. -/
theorem no_request_lost (r : Run x) (c : ℕ) : Conserved x (r.state c) (r.granted c) :=
  (r.inv c).conserved

end CoherenceSim
