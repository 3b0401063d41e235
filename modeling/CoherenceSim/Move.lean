/-
# A cycle moves every access on by one place

`Inv.move`: where the access of a processor stands after a cycle, as a relation
(`Move`) between the places before and after it. An access goes from the slot of
its cache to its processor if it hits, and else through the queue of the bus, the
grant and the DATA.
-/
import CoherenceSim.Step

namespace CoherenceSim

open Features

variable {n : ℕ}

/-- The ways the access `l`, the `k`-th of node `i`, moves in the cycle that starts at `s`. -/
inductive Move (x : Input n) (s : Simulator n Trace) (i : Fin n) :
    Stage → ℕ → Char × Paddr → Stage → ℕ → Char × Paddr → Prop
  | rest {k l} (he : (s.Nd i).PR.endOfTrace = true) : Move x s i .idle k l .idle k l
  | hit {k l} (hh : hits ((s.Nd i).line (lineOf l.2)) (opOf l.1) = true) :
      Move x s i .issued k l .answered k l
  | miss {k l} (hh : hits ((s.Nd i).line (lineOf l.2)) (opOf l.1) = false) :
      Move x s i .issued k l .queued k l
  | wait {k l} (hw : s.wire ≠ some (x.ask i l)) : Move x s i .queued k l .queued k l
  | grant {k l} (hw : s.wire = some (x.ask i l)) : Move x s i .queued k l .granted k l
  | hold {k l} (hw : ¬ Addressed i s.wire) : Move x s i .granted k l .granted k l
  | data {k l} (hw : Addressed i s.wire) : Move x s i .granted k l .answered k l
  | fetch {st k l l'} (hst : st = .answered ∨ st = .idle ∧ s.globalClock = 0 ∧ k = 0)
      (hl : (x.traces i)[k]? = some l') : Move x s i st k l .issued (k + 1) l'
  | finish {st k l} (hst : st = .answered ∨ st = .idle ∧ s.globalClock = 0 ∧ k = 0)
      (hk : k = (x.traces i).length) : Move x s i st k l .idle k l

/-! ### The node -/

/-- The node of `i` after the ticks of the caches. -/
abbrev Simulator.ticked (x : Input n) (s : Simulator n Trace) (i : Fin n) : Node Trace :=
  (s.Nd i).cacheTick x.f i s.wire s.bus.tick.sharedLine

theorem next_node (x : Input n) (s : Simulator n Trace) (i : Fin n) :
    (s.next x.settings).Nd i = ((s.ticked x i).prTick i).tock :=
  Simulator.next_Nd x.settings s i

theorem line_next (x : Input n) (s : Simulator n Trace) (i : Fin n) (a : Paddr) :
    ((s.next x.settings).Nd i).line a = (s.ticked x i).line a := by
  rw [next_node, Node.line_tock, Node.line_prTick]

section
variable {x : Input n} {s : Simulator n Trace} {gr : Option Mreq} {i : Fin n} {st : Stage} {k : ℕ}
variable {l : Char × Paddr}

namespace AtNode

/-- An access that is neither in the slot of the cache nor over keeps its
processor waiting. -/
theorem next_waits {st' : Stage} (h : AtNode x i (s.Nd i) s.globalClock st k l)
    (hst : st ≠ .idle ∧ st ≠ .answered) (hst' : st' ≠ .idle ∧ st' ≠ .issued)
    (hPR : (s.ticked x i).PR = { (s.Nd i).PR with
      inboundRequestBuf := if st' = .answered then some (dataToProc (L1id i) l.2) else none })
    (hreq : (s.ticked x i).L1.procRequest = none)
    (hwait : st'.waits = true → (s.ticked x i).line (lineOf l.2) = pend (x.f.request (opOf l.1)))
    (hpend : ∀ a, ((s.ticked x i).line a).pending = true → st'.waits = true ∧ a = lineOf l.2) :
    AtNode x i ((s.next x.settings).Nd i) (s.globalClock + 1) st' k l := by
  have hin : (s.ticked x i).PR.inboundRequest = none := by rw [hPR]; simp [h.inbound, hst.2]
  have hout : (s.ticked x i).PR.outstandingRequest = true := by rw [hPR]; simp [h.outstanding, hst.1]
  have heot : (s.Nd i).PR.endOfTrace = false := by
    by_contra he
    exact hst.1 (h.eot (by simpa using he)).1
  have hN := Node.tock_prTick_waits i hin hout
  rw [hPR] at hN
  have hL : ((s.ticked x i).prTick i).L1.procRequest = none := by
    rw [Node.prTick_waits i hin hout, hreq]
  rw [next_node]
  refine { infile := ?_, k_le := h.k_le, fetched := fun _ => h.fetched hst.1, outstanding := ?_,
           proc := ?_, inbound := ?_, buf := ?_, wait := ?_, pending := ?_, eot := ?_,
           idle := fun hi => absurd hi hst'.1 }
  · rw [hN]; exact h.infile
  · rw [hN]; simp [h.outstanding, hst.1, hst'.1]
  · simp [hL, hst'.2]
  · rw [hN]
  · rw [hN]
  · simpa using hwait
  · simpa using hpend
  · rw [hN]; simp [heot]

/-- A processor whose access is over, or who has had none, fetches the next or
finds the end of its trace. -/
theorem next_free (h : AtNode x i (s.Nd i) s.globalClock st k l)
    (hst : st = .answered ∨ st = .idle ∧ s.globalClock = 0 ∧ k = 0)
    (heot : (s.Nd i).PR.endOfTrace = false) (hw : ¬ Addressed i s.wire) :
    ∃ st' k' l', Move x s i st k l st' k' l' ∧
      AtNode x i ((s.next x.settings).Nd i) (s.globalClock + 1) st' k' l' := by
  have hproc : (s.Nd i).L1.procRequest = none := by
    rw [h.proc]; rcases hst with rfl | ⟨rfl, -⟩ <;> rfl
  have hwaits : st.waits = false := by rcases hst with rfl | ⟨rfl, -⟩ <;> rfl
  obtain ⟨hPR, hreq, hline⟩ := Node.cacheTick_quiet x.f s.bus.tick.sharedLine hproc hw
  have hfree : (s.ticked x i).PR.inboundRequest.isSome ∨ (s.ticked x i).PR.outstandingRequest = false := by
    rw [hPR, h.inbound, h.outstanding]
    rcases hst with rfl | ⟨rfl, -⟩
    · exact Or.inl rfl
    · exact Or.inr rfl
  have hpend : ∀ a, ((s.ticked x i).line a).pending = false := by
    intro a
    rw [hline, lineSnoop_pending]
    by_contra hp
    have := (h.pending a (by simpa using hp)).1
    rw [hwaits] at this
    cases this
  have heot' : (s.ticked x i).PR.endOfTrace = false := by rw [hPR, heot]
  have hinfile : (s.ticked x i).PR.infile = (x.traces i).drop k := by rw [hPR, h.infile]
  have hbuf : (s.ticked x i).PR.inboundRequestBuf = none := by rw [hPR, h.buf]
  cases hdrop : (x.traces i).drop k with
  | nil =>
    have hk : k = (x.traces i).length := le_antisymm h.k_le (List.drop_eq_nil_iff.mp hdrop)
    obtain ⟨hT, hL⟩ := Node.tock_prTick_nil i heot' hfree hbuf (hinfile.trans hdrop)
    refine ⟨.idle, k, l, .finish hst hk, ?_⟩
    rw [next_node]
    exact { infile := by rw [hT, hdrop], k_le := h.k_le, fetched := fun hi => absurd rfl hi
            outstanding := by rw [hT]; rfl
            proc := by rw [hL]; exact hreq
            inbound := by rw [hT]; rfl
            buf := by rw [hT]
            wait := fun hi => by cases hi
            pending := fun a ha => by simp [hpend] at ha
            eot := fun _ => ⟨rfl, hk⟩
            idle := fun _ => Or.inl (by rw [hT]) }
  | cons l' rest =>
    have hl' : (x.traces i)[k]? = some l' := by
      have hhead : ((x.traces i).drop k)[0]? = some l' := by rw [hdrop]; rfl
      rw [List.getElem?_drop] at hhead
      simpa using hhead
    have hk : k < (x.traces i).length := (List.getElem?_eq_some_iff.mp hl').1
    obtain ⟨hT, hL⟩ := Node.tock_prTick_cons i heot' hfree hbuf (hinfile.trans hdrop)
    refine ⟨.issued, k + 1, l', .fetch hst hl', ?_⟩
    rw [next_node]
    exact { infile := by rw [hT, ← List.drop_drop, hdrop]; rfl
            k_le := hk
            fetched := fun _ => ⟨by omega, by simpa using hl'⟩
            outstanding := by rw [hT]; rfl
            proc := by rw [hL]; rfl
            inbound := by rw [hT]; rfl
            buf := by rw [hT]
            wait := fun hi => by cases hi
            pending := fun a ha => by simp [hpend] at ha
            eot := fun he => by rw [hT] at he; cases he
            idle := fun hi => by cases hi }

theorem next_rest (h : AtNode x i (s.Nd i) s.globalClock .idle k l)
    (heot : (s.Nd i).PR.endOfTrace = true) (hw : ¬ Addressed i s.wire) :
    AtNode x i ((s.next x.settings).Nd i) (s.globalClock + 1) .idle k l := by
  obtain ⟨hPR, hreq, hline⟩ := Node.cacheTick_quiet x.f s.bus.tick.sharedLine h.proc hw
  have hnode : (s.next x.settings).Nd i = s.ticked x i := by
    rw [next_node, Node.prTick_eot i (by rw [hPR, h.inbound]; rfl) (by rw [hPR, heot]), Node.tock,
      Processor.tock, hPR, h.buf, ← hPR]
  have hpend : ∀ a, ((s.ticked x i).line a).pending = false := by
    intro a
    rw [hline, lineSnoop_pending]
    by_contra hp
    cases (h.pending a (by simpa using hp)).1
  rw [hnode]
  exact { infile := by rw [hPR, h.infile]
          k_le := h.k_le
          fetched := fun hi => absurd rfl hi
          outstanding := by rw [hPR, h.outstanding]
          proc := hreq
          inbound := by rw [hPR, h.inbound]
          buf := by rw [hPR, h.buf]
          wait := fun hi => by cases hi
          pending := fun a ha => by simp [hpend] at ha
          eot := fun he => h.eot (hPR ▸ he)
          idle := fun _ => Or.inl (by rw [hPR, heot]) }

end AtNode

/-! ### The bus -/

theorem flatMap_singled {α β : Type} [DecidableEq α] {a : α} (g : List β) :
    ∀ {l : List α}, l.Nodup → (l.flatMap fun b => if b = a then g else []) = if a ∈ l then g else []
  | [], _ => rfl
  | b :: l, hn => by
    obtain ⟨hb, hl⟩ := List.nodup_cons.mp hn
    rw [List.flatMap_cons, flatMap_singled g hl]
    by_cases h : b = a
    · subst h
      simp [hb]
    · simp [h, Ne.symm h]

/-- The requests of one node among those of a cycle. -/
theorem filter_queued (f : Features) (i : Fin n) (nds : Fin n → Node Trace) :
    ((List.finRange n).flatMap fun j => (nds j).queued f j).filter (·.srcMid = L1id i) =
      (nds i).queued f i := by
  have hone : ∀ j, ((nds j).queued f j).filter (·.srcMid = L1id i) =
      if j = i then (nds i).queued f i else [] := by
    intro j
    have hsrc : ∀ m ∈ (nds j).queued f j, m.srcMid = L1id j := by
      intro m hm
      unfold Node.queued at hm
      split at hm
      · cases hm
      · split at hm
        · cases hm
        · rw [List.mem_singleton.mp hm]; rfl
    by_cases hj : j = i
    · subst hj
      rw [if_pos rfl, List.filter_eq_self.mpr fun m hm => by simp [hsrc m hm]]
    · rw [if_neg hj, List.filter_eq_nil_iff.mpr fun m hm => by simp [hsrc m hm, hj]]
  rw [List.filter_flatMap, funext hone, flatMap_singled _ (List.nodup_finRange n),
    if_pos (List.mem_finRange i)]

/-- The request of a node after the bus has moved: it stays in the queue unless it
is on the wires now. -/
theorem Inv.queue_tick (h : Inv x s gr) (ha : At x s gr i st k l) :
    s.bus.tick.pendingRequests.filter (·.srcMid = L1id i) =
      if st = .queued ∧ s.wire ≠ some (x.ask i l) then [x.ask i l] else [] := by
  have hq := ha.queue
  cases h.phase with
  | rest _ _ ht | hold _ _ _ ht => simpa [Simulator.wire, ht] using hq
  | data m d _ _ hmd ht =>
    have hne : d ≠ x.ask i l := fun he => request_ne_DATA _ _ (he ▸ hmd)
    simpa [Simulator.wire, ht, hne] using hq
  | grant m q _ hp _ ht =>
    simp only [Simulator.wire, ht]
    rw [hp] at hq
    by_cases hm : m.srcMid = L1id i
    · simp only [List.filter_cons, hm, decide_true, if_true] at hq
      split at hq
      · obtain ⟨rfl, hnil⟩ := List.cons_eq_cons.mp hq
        simp [hnil]
      · cases hq
    · have hne : m ≠ x.ask i l := fun he => hm (he ▸ rfl)
      simpa [hm, hne] using hq

/-- The granted request of a node after a cycle. -/
theorem Inv.grant_next (h : Inv x s gr) (ha : At x s gr i st k l) :
    (nextGrant gr s.wire).filter (·.srcMid = L1id i) =
      if st = .queued ∧ s.wire = some (x.ask i l) ∨ st = .granted ∧ ¬ Addressed i s.wire
      then some (x.ask i l) else none := by
  have hq := ha.queue
  have hg := ha.grant
  cases h.phase with
  | rest hgr _ ht | hold _ hgr _ ht =>
    rw [nextGrant_quiet ht]
    simpa [Simulator.wire, ht, hgr, Addressed] using hg
  | data m d hgr hdr hmd ht =>
    have hne : d ≠ x.ask i l := fun he => request_ne_DATA _ _ (he ▸ hmd)
    have hst : ¬ (st = .granted ∧ ¬ Addressed i s.wire) := by
      rintro ⟨rfl, hna⟩
      simp only [hgr, if_true] at hg
      have hsrc : m.srcMid = L1id i := by
        by_contra hm
        simp [Option.filter, hm] at hg
      exact hna ⟨d, by simp [Simulator.wire, ht], hmd, (h.reply m d hgr hdr).2.2.trans hsrc⟩
    rw [nextGrant_data ht hmd, if_neg]
    · rfl
    · simp [Simulator.wire, ht, hne] at hst ⊢
      exact hst
  | grant m q hgr hp hmd ht =>
    have hst : st ≠ .granted := by
      rintro rfl
      simp [hgr] at hg
    rw [nextGrant_grant ht hmd]
    simp only [Simulator.wire, ht, hst, false_and, or_false]
    rw [hp] at hq
    by_cases hm : m.srcMid = L1id i
    · simp only [List.filter_cons, hm, decide_true, if_true] at hq
      split at hq
      · next hs =>
        obtain ⟨rfl, -⟩ := List.cons_eq_cons.mp hq
        simp [hs]
      · cases hq
    · have hne : m ≠ x.ask i l := fun he => hm (he ▸ rfl)
      simp [Option.filter, hm, hne]

/-! ### Both -/

/-- What a node puts in the queue. -/
theorem AtNode.queued (h : AtNode x i (s.Nd i) s.globalClock st k l) : (s.Nd i).queued x.f i =
    if st = .issued ∧ hits ((s.Nd i).line (lineOf l.2)) (opOf l.1) = false then [x.ask i l] else [] := by
  unfold Node.queued
  rw [h.proc]
  by_cases hst : st = .issued
  · simp only [hst, if_true, true_and]
    show (if hits ((s.Nd i).line (lineOf l.2)) (opOf l.1) = true then [] else
      [getMsg (x.f.request (opOf l.1)) (L1id i) (lineOf l.2)]) = _
    rw [getMsg_lineOf]
    cases hits ((s.Nd i).line (lineOf l.2)) (opOf l.1) <;> rfl
  · simp [hst]

theorem Inv.not_addressed (h : Inv x s gr) (ha : At x s gr i st k l) (hst : st ≠ .granted) :
    ¬ Addressed i s.wire := fun hadd => hst (h.addressed ha hadd).1

theorem AtNode.eot_false (h : AtNode x i (s.Nd i) s.globalClock st k l) (hst : st ≠ .idle) :
    (s.Nd i).PR.endOfTrace = false := by
  by_contra he
  exact hst (h.eot (by simpa using he)).1

/-- A node whose access moved from `st` to `st'` has it in the queue and granted as
`st'` says. -/
theorem Inv.at_next {st' : Stage} {k' : ℕ} {l' : Char × Paddr} (h : Inv x s gr)
    (ha : At x s gr i st k l) (hm : Move x s i st k l st' k' l')
    (hn : AtNode x i ((s.next x.settings).Nd i) (s.globalClock + 1) st' k' l') :
    At x (s.next x.settings) (nextGrant gr s.wire) i st' k' l' := by
  refine { Simulator.next_globalClock x.settings s ▸ hn with queue := ?_, grant := ?_ }
  · rw [Simulator.next_pendingRequests, List.filter_append, h.queue_tick ha]
    show _ ++ List.filter _ (List.flatMap (fun j => (s.Nd j).queued x.f j) _) = _
    rw [filter_queued, ha.queued]
    cases hm with
    | hit hh | miss hh | wait hh | grant hh => simp [hh]
    | fetch hst | finish hst => rcases hst with rfl | ⟨rfl, -⟩ <;> simp
    | _ => simp
  · rw [h.grant_next ha]
    cases hm with
    | wait hh | grant hh | hold hh | data hh => simp [hh]
    | fetch hst | finish hst => rcases hst with rfl | ⟨rfl, -⟩ <;> simp
    | _ => simp

/-- **Every access moves on by one place.** -/
theorem Inv.move (h : Inv x s gr) (ha : At x s gr i st k l) : ∃ st' k' l',
    Move x s i st k l st' k' l' ∧ At x (s.next x.settings) (nextGrant gr s.wire) i st' k' l' := by
  suffices hnode : ∃ st' k' l', Move x s i st k l st' k' l' ∧
      AtNode x i ((s.next x.settings).Nd i) (s.globalClock + 1) st' k' l' by
    obtain ⟨st', k', l', hm, hn⟩ := hnode
    exact ⟨st', k', l', hm, h.at_next ha hm hn⟩
  have hA := ha.toAtNode
  have hbufs : ∀ st' : Stage, st' ≠ .answered → (s.Nd i).PR = { (s.Nd i).PR with
      inboundRequestBuf := if st' = .answered then some (dataToProc (L1id i) l.2) else none } := by
    intro st' hst'
    rw [if_neg hst', ← ha.buf]
  cases st with
  | idle =>
    have hw := h.not_addressed ha (by decide)
    cases he : (s.Nd i).PR.endOfTrace with
    | true => exact ⟨_, _, _, .rest he, hA.next_rest he hw⟩
    | false =>
      rcases ha.idle rfl with he' | hstart
      · rw [he] at he'; cases he'
      · exact hA.next_free (Or.inr ⟨rfl, hstart⟩) he hw
  | issued =>
    have hw := h.not_addressed ha (by decide)
    have hr : (s.Nd i).L1.procRequest = some (.new (opOf l.1) l.2 (PRid i)) := ha.proc
    cases hh : hits ((s.Nd i).line (lineOf l.2)) (opOf l.1) with
    | true =>
      obtain ⟨hPR, hreq, hline⟩ := Node.cacheTick_hit x.f s.bus.tick.sharedLine hr hh hw
      refine ⟨.answered, k, l, .hit hh, hA.next_waits (by decide) (by decide) ?_ hreq
        (fun hi => by cases hi) fun a hp => ?_⟩
      · exact hPR.trans (by simp [Mreq.new])
      · rw [hline, lineSnoop_pending] at hp
        split at hp
        · exact absurd (hp.symm.trans (afterHit_pending hh)) (by decide)
        · cases (ha.pending a hp).1
    | false =>
      obtain ⟨hPR, hreq, hline⟩ := Node.cacheTick_miss x.f s.bus.tick.sharedLine hr hh hw
      refine ⟨.queued, k, l, .miss hh, hA.next_waits (by decide) (by decide) ?_ hreq
        (fun _ => ?_) fun a hp => ?_⟩
      · exact hPR.trans (hbufs _ (by decide))
      · rw [hline, if_pos (by rfl), lineSnoop_of_pending (pend_pending _)]
        rfl
      · rw [hline, lineSnoop_pending] at hp
        split at hp
        · next ha => exact ⟨rfl, ha⟩
        · cases (ha.pending a hp).1
  | queued =>
    have hw := h.not_addressed ha (by decide)
    obtain ⟨hPR, hreq, hline⟩ := Node.cacheTick_quiet x.f s.bus.tick.sharedLine ha.proc hw
    have hnext : ∀ st' : Stage, st'.waits = true → st' ≠ .answered ∧ st' ≠ .idle ∧ st' ≠ .issued →
        AtNode x i ((s.next x.settings).Nd i) (s.globalClock + 1) st' k l := by
      intro st' hwt hst'
      refine hA.next_waits (by decide) hst'.2 (hPR.trans (hbufs _ hst'.1)) hreq (fun _ => ?_) fun a hp => ?_
      · rw [hline, ha.wait rfl, lineSnoop_of_pending (pend_pending _)]
      · rw [hline, lineSnoop_pending] at hp
        exact ⟨hwt, (ha.pending a hp).2⟩
    by_cases hg : s.wire = some (x.ask i l)
    · exact ⟨_, _, _, .grant hg, hnext .granted rfl (by decide)⟩
    · exact ⟨_, _, _, .wait hg, hnext .queued rfl (by decide)⟩
  | granted =>
    by_cases hw : Addressed i s.wire
    · obtain ⟨-, d, hc, hd, hi, hda⟩ := h.addressed ha hw
      obtain ⟨hPR, hreq, hline⟩ := Node.cacheTick_data x.f s.bus.tick.sharedLine ha.proc hc hd hi
      refine ⟨.answered, k, l, .data hw, hA.next_waits (by decide) (by decide) ?_ hreq
        (fun hi => by cases hi) fun a hp => ?_⟩
      · exact hPR.trans (by simp [hda])
      · rw [hline, hda] at hp
        split at hp
        · rw [fill_pending] at hp; cases hp
        · next hne => exact absurd (ha.pending a hp).2 hne
    · obtain ⟨hPR, hreq, hline⟩ := Node.cacheTick_quiet x.f s.bus.tick.sharedLine ha.proc hw
      refine ⟨.granted, k, l, .hold hw, hA.next_waits (by decide) (by decide)
        (hPR.trans (hbufs _ (by decide))) hreq (fun _ => ?_) fun a hp => ?_⟩
      · rw [hline, ha.wait rfl, lineSnoop_of_pending (pend_pending _)]
      · rw [hline, lineSnoop_pending] at hp
        exact ha.pending a hp
  | answered => exact hA.next_free (Or.inl rfl) (hA.eot_false (by decide)) (h.not_addressed ha (by decide))

end

end CoherenceSim
