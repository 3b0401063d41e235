/-
# The tick of a cache keeps the values right

`Inv.cache_tick`: the two halves of the tick of a cache carry `Coherent` on, and the
access of its node performs in it exactly if it is answered then. What a half does to
the values depends on whether the request of the processor hits (`Inv.proc_hit`) and on
whether the DATA on the bus is for this cache (`Inv.snoop_data`).
-/
import CoherenceSim.Coherent

namespace CoherenceSim

open Features SharedMemory

variable {n : ℕ} {x : Input n} {s : Simulator n Trace} {gr : Option Mreq} {l : List (Fin n)} {i : Fin n}
variable {st : Stage} {k : ℕ} {e : Char × Paddr} {g : Ghost n}

/-- The state of a cycle after the ticks of the caches of `l`. -/
abbrev Simulator.mid (x : Input n) (s : Simulator n Trace) (l : List (Fin n)) : Simulator n Trace :=
  s.tickBus.sync x.settings l

/-- And after the first half of that of cache `i`. -/
abbrev Simulator.half (x : Input n) (s : Simulator n Trace) (l : List (Fin n)) (i : Fin n) :
    Simulator n Trace :=
  (s.mid x l).afterProc x.settings i

theorem mid_Nd (hi : i ∉ l) : (s.mid x l).Nd i = s.Nd i := Simulator.sync_Nd x.settings s.tickBus hi

theorem half_Nd (hi : i ∉ l) (j : Fin n) : (s.half x l i).Nd j =
    if j = i then (s.Nd i).procTick x.f i else (s.mid x l).Nd j := by
  rw [← mid_Nd (x := x) hi]
  rfl

theorem current_mid (hi : i ∉ l) : x.current (s.mid x l) i = x.current s i := by
  unfold Input.current
  rw [mid_Nd hi]

theorem Inv.tick_dataReply (h : Inv x s gr) : s.bus.tick.dataReply = none := by
  cases h.phase with
  | rest hg _ ht => rw [ht]; exact (h.free hg).1
  | grant _ _ _ _ _ ht | data _ _ _ _ _ ht => rw [ht]
  | hold _ _ hdr ht => rw [ht]; exact hdr

theorem Inv.mid_dataReply (h : Inv x s gr) (l : List (Fin n)) : (s.mid x l).bus.dataReply =
    l.findSome? fun j => ((s.Nd j).procTick x.f j).reply j s.wire := by
  show (l.findSome? _).or s.bus.tick.dataReply = _
  rw [h.tick_dataReply, Option.or_none]
  rfl

/-- DATA of a cache that waits after the ticks of `l` answers the request on the bus. -/
theorem Inv.mid_reply (h : Inv x s gr) {d : Mreq} (hd : (s.mid x l).bus.dataReply = some d) :
    ∃ j ∈ l, ∃ m, s.wire = some m ∧ m.msg ≠ .DATA ∧ d.addr = m.addr ∧ 2 ≤ ranks s m.addr j := by
  rw [h.mid_dataReply] at hd
  obtain ⟨j, hj, hr⟩ := List.exists_of_findSome?_eq_some hd
  obtain ⟨m, hw, hmd, -, h2⟩ := Inv.rank_of_reply (Option.isSome_of_eq_some hr)
  obtain ⟨-, -, -, -, i, _, e, -, hm⟩ := h.wire_request hw hmd
  refine ⟨j, hj, m, hw, hmd, ?_, h2⟩
  unfold Node.reply at hr
  rw [hw] at hr
  simp only at hr
  split at hr
  · rw [← Option.some.inj hr, replyTo, hm, ask_addr, lineOf_lineOf]
  · cases hr

/-! ### The first half of a tick -/

/-- The access of node `i` as the log has it. -/
def accessOf (i : Fin n) (e : Char × Paddr) (v : ℕ) : Access (Fin n) Paddr ℕ :=
  ⟨i, opOf e.1 = .STORE, lineOf e.2, v⟩

/-- The request of the processor, if there is none or it misses. -/
theorem At.proc_miss (ha : At x s gr i st k e) (hi : i ∉ l)
    (hm : st = .issued → hits ((s.Nd i).line (lineOf e.2)) (opOf e.1) = false)
    (hc : Coherent (s.mid x l).lines s.wire (s.mid x l).bus.dataReply g) :
    g.seeProc x i (s.mid x l) (s.half x l i) = g ∧
      Coherent (s.half x l i).lines s.wire (s.half x l i).bus.dataReply g := by
  by_cases hst : st = .issued
  · have hr : (s.Nd i).L1.procRequest = some (.new (opOf e.1) e.2 (PRid i)) := by
      rw [ha.proc, if_pos hst]
    obtain ⟨hPR, hline⟩ := Node.procTick_miss x.f i hr (hm hst)
    refine ⟨?_, hc.lower (fun j b hj => ?_) fun j b hj => ?_⟩
    · simp only [Ghost.seeProc, half_Nd hi, if_true, hPR, ha.buf]
      split <;> simp_all
    · simp only [Simulator.lines, half_Nd hi] at hj ⊢
      split at hj
      · next hji =>
        subst hji
        rw [mid_Nd hi]
        exact hj.trans (Node.rank_procTick_le x.f j (s.Nd j) b)
      · exact hj
    · simp only [Simulator.lines, half_Nd hi] at hj ⊢
      split
      · next hji =>
        subst hji
        rw [mid_Nd hi] at hj
        rw [hline]
        split
        · next hb =>
          have hfalse := hm hst
          rw [hb] at hj
          rw [show (s.Nd j).line (lineOf e.2) = .M from hj] at hfalse
          rcases opOf_cases e.1 with hop | hop <;> rw [hop] at hfalse <;> cases hfalse
        · exact hj
      · exact hj
  · have hnone : (s.Nd i).procTick x.f i = s.Nd i := Node.procTick_none _ i (by simp [ha.proc, hst])
    have hsame : (s.half x l i).lines = (s.mid x l).lines := by
      funext j b
      simp only [Simulator.lines, half_Nd hi]
      split
      · next hji => rw [hji, hnone, mid_Nd hi]
      · rfl
    refine ⟨?_, hsame ▸ hc⟩
    simp only [Ghost.seeProc, half_Nd hi, if_true, hnone, ha.buf]
    split <;> simp_all

/-- The request of the processor, if it hits: the access performs. -/
theorem Inv.proc_hit (h : Inv x s gr) (ha : At x s gr i .issued k e) (hi : i ∉ l)
    (hh : hits ((s.Nd i).line (lineOf e.2)) (opOf e.1) = true)
    (hc : Coherent (s.mid x l).lines s.wire (s.mid x l).bus.dataReply g) :
    g.seeProc x i (s.mid x l) (s.half x l i) = g.perform i (opOf e.1) (lineOf e.2) ∧
      Coherent (s.half x l i).lines s.wire (s.half x l i).bus.dataReply
        (g.perform i (opOf e.1) (lineOf e.2)) := by
  have hr : (s.Nd i).L1.procRequest = some (.new (opOf e.1) e.2 (PRid i)) := ha.proc
  obtain ⟨hPR, hline⟩ := Node.procTick_hit x.f i hr hh
  have hmidline : (s.mid x l).lines i (lineOf e.2) = (s.Nd i).line (lineOf e.2) := by
    rw [Simulator.lines, mid_Nd hi]
  have hhalf : ∀ j b, (s.half x l i).lines j b = if j = i ∧ b = lineOf e.2 then
      afterHit ((s.Nd i).line (lineOf e.2)) (opOf e.1) else (s.mid x l).lines j b := by
    intro j b
    simp only [Simulator.lines, half_Nd hi]
    by_cases hji : j = i
    · subst hji
      rw [if_pos rfl, hline, mid_Nd hi]
      by_cases hb : b = lineOf e.2 <;> simp [hb, Mreq.new]
    · simp [hji]
  have hrank : ∀ j b, ¬ (j = i ∧ b = lineOf e.2) → (s.half x l i).lines j b = (s.mid x l).lines j b :=
    fun j b hjb => (hhalf j b).trans (if_neg hjb)
  refine ⟨?_, ?_⟩
  · have hcur : x.current (s.mid x l) i = some e :=
      (current_mid hi).trans (ha.toAtNode.current (by decide))
    simp only [Ghost.seeProc, half_Nd hi, if_true, hPR, mid_Nd hi, ha.buf, hcur]
    simp [dataToProc, Mreq.new]
  · by_cases hop : opOf e.1 = .STORE
    · rw [hop] at hh hhalf ⊢
      -- who can store has the only copy, and no copy has answered a request for it
      have hrank3 : ((s.Nd i).line (lineOf e.2)).rank = 3 := by simpa [hits] using hh
      have h3 : ranks s (lineOf e.2) i = 3 := hrank3
      have hfits : Permission.Fits 3 (ranks (s.mid x l) (lineOf e.2)) := h.fits_sync l (lineOf e.2)
      refine hc.store ((hhalf _ _).trans (if_pos ⟨rfl, rfl⟩)) hrank (fun j hj => ?_) fun d hd hda => ?_
      · have hi3 : ranks (s.mid x l) (lineOf e.2) i = 3 := by
          rw [ranks, mid_Nd hi]
          exact h3
        have := hfits j i hj
        show ranks (s.mid x l) (lineOf e.2) j = 0
        omega
      · obtain ⟨j, hj, m, -, -, hdm, h2⟩ := h.mid_reply hd
        rw [← hdm, hda] at h2
        have hji : j ≠ i := fun hji => hi (hji ▸ hj)
        have := h.fits (lineOf e.2) j i hji
        omega
    · refine hc.load hop (hc.copy i _ ?_) hrank fun hM => ?_
      · rw [hmidline]
        unfold hits at hh
        rw [if_neg hop] at hh
        simpa using hh
      · rw [hhalf, if_pos ⟨rfl, rfl⟩, afterHit, if_neg hop, ← hmidline, hM]

/-! ### The second half -/

theorem mid_succ_Nd (s : Simulator n Trace) (j : Fin n) : (s.mid x (l ++ [i])).Nd j =
    if j = i then s.ticked x i else (s.mid x l).Nd j := by
  show (if j ∈ l ++ [i] then _ else _) = _
  by_cases hj : j = i
  · rw [if_pos (by simp [hj]), if_pos hj, hj]
    rfl
  · simp only [List.mem_append, List.mem_singleton, hj, or_false, if_false]
    rfl

theorem Inv.mid_succ_dataReply (h : Inv x s gr) : (s.mid x (l ++ [i])).bus.dataReply =
    (s.half x l i).bus.dataReply.or (((s.Nd i).procTick x.f i).reply i s.wire) := by
  show _ = (s.mid x l).bus.dataReply.or _
  rw [h.mid_dataReply, h.mid_dataReply, List.findSome?_append, List.findSome?_singleton]

/-- Nothing is handed to the processor: only a reply is seen. -/
theorem seeSnoop_eq {t u : Simulator n Trace} (x : Input n) (hPR : (u.Nd i).PR = (t.Nd i).PR) :
    g.seeSnoop x i t u = g.seeReply i t u := by
  unfold Ghost.seeSnoop Ghost.seeFill Ghost.seeProc
  rw [hPR]
  cases (t.Nd i).PR.inboundRequestBuf <;> rfl

/-- A copy in `M` that has nothing to answer stays. -/
theorem lineSnoop_of_no_reply {f : Features} {cur : Option Mreq} {nd : Node Trace} {b : Paddr}
    (hr : nd.reply i cur = none) (hM : nd.line b = .M) : lineSnoop f cur b .M = .M := by
  unfold lineSnoop
  unfold Node.reply at hr
  cases cur with
  | none => rfl
  | some m =>
    simp only at hr ⊢
    split
    · next hcond =>
      rw [← hcond.2, hM, if_pos ⟨hcond.1, rfl⟩] at hr
      cases hr
    · rfl

theorem lineSnoop_other {f : Features} {cur : Option Mreq} {m : Mreq} {b : Paddr} {st : CacheState}
    (hw : cur = some m) (hb : b ≠ m.addr) : lineSnoop f cur b st = st := by
  subst hw
  simp [lineSnoop, hb]

/-- The lines after the second half, if the message on the bus is not DATA for cache `i`. -/
theorem lines_quiet (hi : i ∉ l) (hq : ¬ Addressed i s.wire) (j : Fin n) (b : Paddr) :
    (s.mid x (l ++ [i])).lines j b = if j = i then lineSnoop x.f s.wire b ((s.half x l i).lines i b)
      else (s.half x l i).lines j b := by
  obtain ⟨-, -, hline⟩ := Node.snoopTick_quiet x.f s.bus.tick.sharedLine hq ((s.Nd i).procTick x.f i)
  simp only [Simulator.lines, mid_succ_Nd, half_Nd hi, if_true, ← hline b]
  split <;> rfl

/-- A cache that does not answer. -/
theorem Inv.snoop_silent (h : Inv x s gr) (hi : i ∉ l) (hq : ¬ Addressed i s.wire)
    (hr : ((s.Nd i).procTick x.f i).reply i s.wire = none)
    (hc : Coherent (s.half x l i).lines s.wire (s.half x l i).bus.dataReply g) :
    g.seeReply i (s.half x l i) (s.mid x (l ++ [i])) = g ∧
      Coherent (s.mid x (l ++ [i])).lines s.wire (s.mid x (l ++ [i])).bus.dataReply g := by
  have hdr : (s.mid x (l ++ [i])).bus.dataReply = (s.half x l i).bus.dataReply := by
    rw [h.mid_succ_dataReply, hr, Option.or_none]
  have hlines := lines_quiet (x := x) hi hq
  refine ⟨g.seeReply_same hdr, ?_⟩
  rw [hdr]
  refine hc.lower (fun j b hj => ?_) fun j b hj => ?_
  · rw [hlines] at hj
    split at hj
    · next hji =>
      rw [hji]
      exact hj.trans (lineSnoop_rank_le _ _ _ _)
    · exact hj
  · rw [hlines]
    split
    · next hji =>
      subst hji
      rw [hj]
      apply lineSnoop_of_no_reply hr
      rw [← hj, Simulator.lines, half_Nd hi, if_pos rfl]
    · exact hj

/-- A cache that answers: it is the first, and its copy is good. -/
theorem Inv.snoop_reply (h : Inv x s gr) (hi : i ∉ l) (hq : ¬ Addressed i s.wire) {d : Mreq}
    (hr : ((s.Nd i).procTick x.f i).reply i s.wire = some d)
    (hc : Coherent (s.half x l i).lines s.wire (s.half x l i).bus.dataReply g) :
    (g.seeReply i (s.half x l i) (s.mid x (l ++ [i]))).log = g.log ∧
      Coherent (s.mid x (l ++ [i])).lines s.wire (s.mid x (l ++ [i])).bus.dataReply
        (g.seeReply i (s.half x l i) (s.mid x (l ++ [i]))) := by
  obtain ⟨m, hw, hmd, h2, -⟩ := Inv.rank_of_reply (Option.isSome_of_eq_some hr)
  obtain ⟨-, -, -, -, i', _, e', -, hm⟩ := h.wire_request hw hmd
  have hnone : (s.half x l i).bus.dataReply = none := by
    show (s.mid x l).bus.dataReply = none
    rw [h.mid_dataReply]
    exact h.ready.alone x.settings hi (Option.isSome_of_eq_some hr)
  have hd : d = replyTo (L1id i) m := by
    unfold Node.reply at hr
    rw [hw] at hr
    simp only at hr
    split at hr
    · exact (Option.some.inj hr).symm
    · cases hr
  have hda : d.addr = m.addr := by rw [hd, replyTo, hm, ask_addr, lineOf_lineOf]
  have hdr : (s.mid x (l ++ [i])).bus.dataReply = some d := by
    rw [h.mid_succ_dataReply, hr, hnone, Option.none_or]
  have hsee : g.seeReply i (s.half x l i) (s.mid x (l ++ [i])) = { g with reply := g.copy i m.addr } := by
    unfold Ghost.seeReply
    rw [hdr, hnone, ← hda]
  rw [hsee, hdr]
  rw [hnone] at hc
  refine ⟨rfl, hc.supply ?_ hda ?_ ?_ fun j b hjb => ?_⟩
  · intro m' hm'
    rwa [Option.some.inj (hm'.symm.trans hw)]
  · rw [hd]
    simp [replyTo, L1id, MCid]
  · rw [Simulator.lines, half_Nd hi, if_pos rfl]
    omega
  · rw [lines_quiet hi hq]
    split
    · next hji =>
      rw [hji]
      exact lineSnoop_other hw fun hb => hjb ⟨hji, hb⟩
    · rfl

/-- The message on the bus is not DATA for cache `i`. -/
theorem Inv.snoop_quiet (h : Inv x s gr) (hi : i ∉ l) (hq : ¬ Addressed i s.wire)
    (hc : Coherent (s.half x l i).lines s.wire (s.half x l i).bus.dataReply g) :
    (g.seeSnoop x i (s.half x l i) (s.mid x (l ++ [i]))).log = g.log ∧
      Coherent (s.mid x (l ++ [i])).lines s.wire (s.mid x (l ++ [i])).bus.dataReply
        (g.seeSnoop x i (s.half x l i) (s.mid x (l ++ [i]))) := by
  obtain ⟨hPR, -, -⟩ := Node.snoopTick_quiet x.f s.bus.tick.sharedLine hq ((s.Nd i).procTick x.f i)
  rw [seeSnoop_eq x (by rw [mid_succ_Nd, if_pos rfl, half_Nd hi, if_pos rfl]; exact hPR)]
  cases hr : ((s.Nd i).procTick x.f i).reply i s.wire with
  | none =>
    obtain ⟨hsee, hcoh⟩ := h.snoop_silent hi hq hr hc
    rw [hsee]
    exact ⟨rfl, hcoh⟩
  | some d => exact h.snoop_reply hi hq hr hc

/-! ### DATA for cache `i` -/

/-- Nobody answers DATA. -/
theorem Inv.data_quiet (h : Inv x s gr) {d : Mreq} (hw : s.wire = some d) (hmd : d.msg = .DATA) :
    (s.half x l i).bus.dataReply = none ∧ (s.mid x (l ++ [i])).bus.dataReply = none := by
  have hhalf : (s.half x l i).bus.dataReply = none := by
    by_contra hne
    obtain ⟨d', hd'⟩ := Option.ne_none_iff_exists'.mp hne
    obtain ⟨j, -, m, hw', hmd', -⟩ := h.mid_reply (l := l) hd'
    exact hmd' (Option.some.inj (hw.symm.trans hw') ▸ hmd)
  have hreply : ((s.Nd i).procTick x.f i).reply i s.wire = none := by
    simp [Node.reply, hw, hmd]
  refine ⟨hhalf, ?_⟩
  rw [h.mid_succ_dataReply, hhalf, hreply]
  rfl

section
variable {d : Mreq}

/-- The other copies leave room for what the DATA brings. -/
theorem Inv.data_room (h : Inv x s gr) (ha : At x s gr i .granted k e) (hi : i ∉ l)
    (hw : s.wire = some d) (hdi : d.destMid = L1id i) {j : Fin n} (hj : j ≠ i) :
    ((s.half x l i).lines j (lineOf e.2)).rank +
      (x.f.fill (x.f.request (opOf e.1)) s.bus.sharedLine).rank ≤ 3 := by
  have hle : ranks (s.mid x l) (lineOf e.2) j ≤ ranks s (lineOf e.2) j := by
    apply Inv.rank_sync_le l
    rintro ⟨d', hw', -, hdj, -⟩
    rw [← Option.some.inj (hw.symm.trans hw'), hdi] at hdj
    exact hj (L1id_injective hdj).symm
  have hsame : ((s.half x l i).lines j (lineOf e.2)).rank = ranks (s.mid x l) (lineOf e.2) j := by
    rw [Simulator.lines, half_Nd hi, if_neg hj]
    rfl
  have hroom := h.room (x.ask i e) i ha.granted_eq rfl j hj
  rw [ask_addr, ask_msg] at hroom
  omega

/-- The lines after the DATA. -/
theorem Inv.data_lines (h : Inv x s gr) (ha : At x s gr i .granted k e) (hi : i ∉ l)
    (hw : s.wire = some d) (hmd : d.msg = .DATA) (hdi : d.destMid = L1id i)
    (hda : d.addr = lineOf e.2) (j : Fin n) (b : Paddr) :
    (s.mid x (l ++ [i])).lines j b = if j = i ∧ b = lineOf e.2 then
      x.f.fill (x.f.request (opOf e.1)) s.bus.sharedLine else (s.half x l i).lines j b := by
  have hproc : (s.Nd i).L1.procRequest = none := ha.proc
  obtain ⟨-, -, hline⟩ := Node.cacheTick_data x.f s.bus.tick.sharedLine hproc hw hmd hdi
  have hshared := h.tick_sharedLine ha.granted_eq
  simp only [Simulator.lines, mid_succ_Nd, half_Nd hi]
  by_cases hji : j = i
  · subst hji
    rw [if_pos rfl, if_pos rfl, Node.procTick_none _ j hproc, Simulator.ticked, hline, hda, ha.wait rfl,
      asked_pend, hshared]
    by_cases hb : b = lineOf e.2 <;> simp [hb]
  · simp [hji]

/-- What is seen of it: the copy is overwritten, and the access performs. -/
theorem Inv.data_seen (h : Inv x s gr) (ha : At x s gr i .granted k e) (hi : i ∉ l)
    (hw : s.wire = some d) (hmd : d.msg = .DATA) (hdi : d.destMid = L1id i)
    (hda : d.addr = lineOf e.2) (g : Ghost n) :
    g.seeSnoop x i (s.half x l i) (s.mid x (l ++ [i])) =
      (g.setCopy i (lineOf e.2) g.wire).perform i (opOf e.1) (lineOf e.2) := by
  have hproc : (s.Nd i).L1.procRequest = none := ha.proc
  have hnode : (s.half x l i).Nd i = s.Nd i := by
    rw [half_Nd hi, if_pos rfl, Node.procTick_none _ i hproc]
  obtain ⟨hPR, -, -⟩ := Node.cacheTick_data x.f s.bus.tick.sharedLine hproc hw hmd hdi
  obtain ⟨hdrh, hdru⟩ := h.data_quiet (l := l) (i := i) hw hmd
  have hcur : x.current (s.half x l i) i = some e := by
    unfold Input.current
    rw [hnode]
    exact ha.toAtNode.current (by decide)
  unfold Ghost.seeSnoop
  rw [g.seeReply_same (hdru.trans hdrh.symm)]
  simp only [Ghost.seeFill, Ghost.seeProc, hnode, ha.buf, hcur, mid_succ_Nd, if_true,
    Simulator.ticked, hPR, hda, dataToProc, lineOf_lineOf]

end

/-- The message on the bus is DATA for cache `i`: the access performs. -/
theorem Inv.snoop_data (h : Inv x s gr) (ha : At x s gr i .granted k e) (hi : i ∉ l)
    (hadd : Addressed i s.wire)
    (hc : Coherent (s.half x l i).lines s.wire (s.half x l i).bus.dataReply g) :
    (∃ v, (g.seeSnoop x i (s.half x l i) (s.mid x (l ++ [i]))).log = g.log ++ [accessOf i e v]) ∧
      Coherent (s.mid x (l ++ [i])).lines s.wire (s.mid x (l ++ [i])).bus.dataReply
        (g.seeSnoop x i (s.half x l i) (s.mid x (l ++ [i]))) := by
  obtain ⟨-, d, hw, hmd, hdi, hda⟩ := h.addressed ha hadd
  have hroom := fun j => h.data_room (j := j) ha hi hw hdi
  have hlines := h.data_lines ha hi hw hmd hdi hda
  obtain ⟨hdrh, hdru⟩ := h.data_quiet (l := l) (i := i) hw hmd
  have hzero : ((s.half x l i).lines i (lineOf e.2)).rank = 0 := by
    rw [Simulator.lines, half_Nd hi, if_pos rfl, Node.procTick_none _ i ha.proc, ha.wait rfl, pend_rank]
  -- no copy in `M` is left that the line could have been written in since
  have hwire : g.wire = latest 0 (lineOf e.2) g.log := by
    rw [← hda]
    refine (hc.wire d hw hmd).resolve_right ?_
    rintro ⟨j, hj⟩
    rw [hda] at hj
    have hrank : ((s.half x l i).lines j (lineOf e.2)).rank = 3 := by rw [hj]; rfl
    have hji : j ≠ i := by
      rintro rfl
      omega
    have := hroom j hji
    have := x.f.fill_rank_pos (x.f.request (opOf e.1)) s.bus.sharedLine
    omega
  have hrank : ∀ j b, ¬ (j = i ∧ b = lineOf e.2) →
      (s.mid x (l ++ [i])).lines j b = (s.half x l i).lines j b :=
    fun j b hjb => (hlines j b).trans (if_neg hjb)
  rw [h.data_seen ha hi hw hmd hdi hda, hdru]
  rw [hdrh] at hc
  refine ⟨⟨_, rfl⟩, ?_⟩
  have hset := hc.setCopy hzero g.wire
  by_cases hop : opOf e.1 = .STORE
  · rw [hop] at hlines hroom ⊢
    have hM : (s.mid x (l ++ [i])).lines i (lineOf e.2) = .M := by
      rw [hlines, if_pos ⟨rfl, rfl⟩, fill_request_STORE]
    refine hset.store hM hrank (fun j hj => ?_) fun d' hd' => by cases hd'
    have := hroom j hj
    rw [fill_request_STORE] at this
    have h3 : CacheState.M.rank = 3 := rfl
    omega
  · refine hset.load hop ?_ hrank fun hM => ?_
    · simpa [Ghost.setCopy] using hwire
    · rw [hM] at hzero
      cases hzero

/-! ### The tick -/

/-- What the observation makes of the tick of cache `i`, after those of `l`. -/
def Ghost.seeCache (g : Ghost n) (x : Input n) (s : Simulator n Trace) (l : List (Fin n)) (i : Fin n) :
    Ghost n :=
  (g.seeProc x i (s.mid x l) (s.half x l i)).seeSnoop x i (s.half x l i) (s.mid x (l ++ [i]))

theorem Inv.ghostCache_eq (h : Inv x s gr) (hi : i ∉ l) (g : Ghost n) :
    ghostCache x (s.mid x l, g) i = .ok (s.mid x (l ++ [i]), g.seeCache x s l i) := by
  unfold ghostCache
  rw [Simulator.tickProcRequest_sync x.settings h.ready hi]
  show Except.bind ((s.half x l i).tickSnoop x.settings i) _ = _
  rw [Simulator.tickSnoop_sync x.settings h.ready hi]
  rfl

/-- **The tick of a cache keeps the values right**, and the access of its node performs
if it is answered. -/
theorem Inv.cache_tick {st' : Stage} {k' : ℕ} {e' : Char × Paddr} (h : Inv x s gr)
    (ha : At x s gr i st k e) (hm : Move x s i st k e st' k' e') (hi : i ∉ l)
    (hc : Coherent (s.mid x l).lines s.wire (s.mid x l).bus.dataReply g) :
    (if st' = .answered then ∃ v, (g.seeCache x s l i).log = g.log ++ [accessOf i e v]
      else (g.seeCache x s l i).log = g.log) ∧
    Coherent (s.mid x (l ++ [i])).lines s.wire (s.mid x (l ++ [i])).bus.dataReply
      (g.seeCache x s l i) := by
  have hquiet : st ≠ .granted → ¬ Addressed i s.wire := h.not_addressed ha
  -- every access but one that hits leaves the first half without a trace
  have hsilent : (st = .issued → hits ((s.Nd i).line (lineOf e.2)) (opOf e.1) = false) →
      ¬ Addressed i s.wire → (g.seeCache x s l i).log = g.log ∧
      Coherent (s.mid x (l ++ [i])).lines s.wire (s.mid x (l ++ [i])).bus.dataReply
        (g.seeCache x s l i) := by
    intro hh hq
    obtain ⟨hsee, hhalf⟩ := ha.proc_miss hi hh hc
    unfold Ghost.seeCache
    rw [hsee]
    exact h.snoop_quiet hi hq hhalf
  cases hm with
  | hit hh =>
    obtain ⟨hsee, hhalf⟩ := h.proc_hit ha hi hh hc
    obtain ⟨hlog, hcoh⟩ := h.snoop_quiet hi (hquiet (by decide)) hhalf
    unfold Ghost.seeCache
    rw [hsee, if_pos rfl]
    exact ⟨⟨_, hlog⟩, hcoh⟩
  | data hw =>
    obtain ⟨hsee, hhalf⟩ := ha.proc_miss hi (by simp) hc
    unfold Ghost.seeCache
    rw [hsee, if_pos rfl]
    exact h.snoop_data ha hi hw hhalf
  | miss hh => simpa using hsilent (fun _ => hh) (hquiet (by decide))
  | hold hw => simpa using hsilent (by simp) hw
  | rest | wait | grant => simpa using hsilent (by simp) (hquiet (by decide))
  | fetch hst | finish hst =>
    rcases hst with rfl | ⟨rfl, -⟩ <;> simpa using hsilent (by simp) (hquiet (by decide))

end CoherenceSim
