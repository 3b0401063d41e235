/-
# One reply per transaction

`one_reply`: between a grant and the next there is one DATA on the bus. It is for
the cache whose request was granted, and comes from the cache that supplies the
line when it snoops the request, in the next cycle, or else from the memory,
`hitTime + 1` cycles after the grant.
-/
import CoherenceSim.Run

namespace CoherenceSim

open Features

variable {n : ℕ} {x : Input n}

/-! ### The state in which a cache snoops -/

/-- The state in which cache `j` snoops: it has seen to its own processor. -/
def Simulator.beforeSnoop (S : Settings) (s : Simulator n Trace) (j : Fin n) :
    Except Fatal (Simulator n Trace) := do
  let s ← s.tickBus.tickCaches S ((List.finRange n).take j)
  s.tickProcRequest S j

/-- The state in which cache `j` has the line `a` when it snoops in cycle `c`. -/
def Run.snooped (r : Run x) (c : ℕ) (j : Fin n) (a : Paddr) : CacheState :=
  match (r.state c).beforeSnoop x.settings j with
  | .ok t => (t.Nd j).line a
  | .error _ => .I

/-- The states in which a cache of the protocol supplies a line. -/
def Supplier (p : Protocol) (st : CacheState) : Prop :=
  match st with
  | .M => True
  | .E => p ∈ [Protocol.MESI_PRO, .MOESI_PRO, .MOESIF_PRO]
  | .O => p ∈ [Protocol.MOSI_PRO, .MOESI_PRO, .MOESIF_PRO]
  | .F => p = .MOESIF_PRO
  | _ => False

theorem supplier_iff {p : Protocol} {st : CacheState} (h : p.features.valid st = true) :
    Supplier p st ↔ supplies st = true := by
  cases p <;> cases st <;> first | (cases h; done) | simp [Supplier, supplies, CacheState.rank]

theorem Inv.beforeSnoop {s : Simulator n Trace} {gr : Option Mreq} (h : Inv x s gr) (j : Fin n) :
    ∃ t, s.beforeSnoop x.settings j = .ok t ∧ t.Nd j = (s.Nd j).procTick x.f j := by
  have hn : ((List.finRange n).take j).Nodup := (List.take_sublist j _).nodup (List.nodup_finRange n)
  have hj := Loop.notMem_take_finRange j
  have ht : s.beforeSnoop x.settings j =
      (s.tickBus.sync x.settings ((List.finRange n).take j)).tickProcRequest x.settings j := by
    unfold Simulator.beforeSnoop
    rw [Simulator.tickCaches_eq_sync x.settings h.ready hn]
    rfl
  refine ⟨_, ht.trans (Simulator.tickProcRequest_sync x.settings h.ready hj), ?_⟩
  simp only [Simulator.afterProc, Simulator.setNode_Nd, if_true, Simulator.sync_Nd x.settings _ hj]
  rfl

theorem Run.snooped_eq (r : Run x) (c : ℕ) (j : Fin n) (a : Paddr) :
    r.snooped c j a = (((r.state c).Nd j).procTick x.f j).line a := by
  obtain ⟨t, ht, hnd⟩ := (r.inv c).beforeSnoop j
  simp only [Run.snooped, ht, hnd]

theorem Run.supplier_snooped (r : Run x) (c : ℕ) (j : Fin n) (a : Paddr) :
    Supplier x.protocol (r.snooped c j a) ↔
      supplies ((((r.state c).Nd j).procTick x.f j).line a) = true := by
  rw [r.snooped_eq]
  exact supplier_iff (Node.valid_procTick j ((r.inv c).valid j) a)

namespace Run

variable (r : Run x) {g c : ℕ} {m d : Mreq}

/-! ### What a cycle does to a line -/

/-- The first half of a cycle: the processor's own request leaves the line alone, hits
or misses. -/
inductive OwnStep (r : Run x) (c : ℕ) (j : Fin n) (a : Paddr) : Prop
  | other (ho : ∀ q, ((r.state c).Nd j).L1.procRequest = some q → q.addr ≠ a)
      (hs : r.snooped c j a = ((r.state c).Nd j).line a)
  | hit (q : Mreq) (hq : ((r.state c).Nd j).L1.procRequest = some q) (ha : q.addr = a)
      (hh : hits (((r.state c).Nd j).line a) q.msg = true)
      (hs : r.snooped c j a = afterHit (((r.state c).Nd j).line a) q.msg)
  | miss (q : Mreq) (hq : ((r.state c).Nd j).L1.procRequest = some q) (ha : q.addr = a)
      (hh : hits (((r.state c).Nd j).line a) q.msg = false)
      (hs : r.snooped c j a = pend (x.f.request q.msg))

theorem ownStep (c : ℕ) (j : Fin n) (a : Paddr) : r.OwnStep c j a := by
  cases hq : ((r.state c).Nd j).L1.procRequest with
  | none => exact .other (by simp [hq]) (by rw [r.snooped_eq, Node.procTick_none _ j hq])
  | some q =>
    cases hh : hits (((r.state c).Nd j).line q.addr) q.msg with
    | true =>
      have hline := (Node.procTick_hit x.f j hq hh).2 a
      rw [← r.snooped_eq] at hline
      by_cases ha : a = q.addr
      · subst ha
        exact .hit q hq rfl hh (by rw [hline, if_pos rfl])
      · exact .other (by rw [hq]; rintro _ ⟨⟩; exact Ne.symm ha) (by rw [hline, if_neg ha])
    | false =>
      have hline := (Node.procTick_miss x.f j hq hh).2 a
      rw [← r.snooped_eq] at hline
      by_cases ha : a = q.addr
      · subst ha
        exact .miss q hq rfl hh (by rw [hline, if_pos rfl])
      · exact .other (by rw [hq]; rintro _ ⟨⟩; exact Ne.symm ha) (by rw [hline, if_neg ha])

/-- The second half: the line is filled by its own DATA, or yields to the request that
is granted, or keeps its state. -/
inductive BusStep (r : Run x) (c : ℕ) (j : Fin n) (a : Paddr) : Prop
  | fill (m : Mreq) (hg : r.granted c = some m) (hsrc : m.srcMid = L1id j) (ha : m.addr = a)
      (hg' : r.granted (c + 1) = none) (hs : r.snooped c j a = pend m.msg)
      (hl : ((r.state (c + 1)).Nd j).line a = x.f.fill m.msg (r.state c).bus.sharedLine)
  | yield (m : Mreq) (hg : r.grantAt c = some m) (ha : m.addr = a)
      (hl : ((r.state (c + 1)).Nd j).line a = x.f.yield m.msg (r.snooped c j a))
  | keep (hno : ∀ m, r.grantAt c = some m → m.addr ≠ a)
      (hl : ((r.state (c + 1)).Nd j).line a = r.snooped c j a)

theorem busStep (c : ℕ) (j : Fin n) (a : Paddr) : r.BusStep c j a := by
  have hline : ((r.state (c + 1)).Nd j).line a = ((r.state c).ticked x j).line a := by
    rw [r.next, line_next]
  by_cases hadd : Addressed j (r.state c).wire
  · obtain ⟨st, k, l, ha⟩ := (r.inv c).node j
    obtain ⟨rfl, d, hc, hd, hi, hda⟩ := (r.inv c).addressed ha hadd
    have hb : r.onBus c = some d := (r.onBus_eq c).trans hc
    have hpt : ((r.state c).Nd j).procTick x.f j = (r.state c).Nd j :=
      Node.procTick_none _ j (by simpa using ha.proc)
    have hcache := (Node.cacheTick_data x.f (r.state c).bus.tick.sharedLine
      (by simpa using ha.proc) hc hd hi).2.2 a
    have hask := ha.granted_eq
    have hg' : r.granted (c + 1) = none := by simp [granted, hb, nextGrant, hd]
    by_cases haa : a = d.addr
    · subst haa
      have hshared := (r.inv c).tick_sharedLine hask
      refine .fill (x.ask j l) hask rfl hda.symm hg' ?_ ?_
      · rw [r.snooped_eq, hpt, hda, ha.wait rfl, ask_msg]
      · rw [hline]
        apply hcache.trans
        rw [if_pos rfl, hda, ha.wait rfl, asked_pend, ask_msg, hshared]
    · refine .keep (by simp [grantAt, hb, hd]) ?_
      rw [hline, r.snooped_eq, hpt]
      exact hcache.trans (if_neg haa)
  · have hcache := (Node.snoopTick_quiet x.f (r.state c).bus.tick.sharedLine hadd
      (((r.state c).Nd j).procTick x.f j)).2.2 a
    have hl := hline.trans hcache
    rw [← r.snooped_eq, ← r.onBus_eq] at hl
    unfold lineSnoop at hl
    cases hb : r.onBus c with
    | none => exact .keep (by simp [grantAt, hb]) (by simpa [hb] using hl)
    | some m =>
      rw [hb] at hl
      simp only at hl
      by_cases hcond : m.msg ≠ .DATA ∧ a = m.addr
      · rw [if_pos hcond] at hl
        exact .yield m (r.grantAt_eq_some.mpr ⟨hb, hcond.1⟩) hcond.2.symm hl
      · rw [if_neg hcond] at hl
        refine .keep (fun m' hm' haa => hcond ?_) hl
        obtain ⟨hb', hmd⟩ := r.grantAt_eq_some.mp hm'
        obtain rfl : m = m' := Option.some.inj (hb.symm.trans hb')
        exact ⟨hmd, haa.symm⟩

/-! ### Between a grant and its DATA -/

theorem granted_eq_none_of_grantAt (h : r.grantAt g = some m) : r.granted g = none := by
  obtain ⟨hb, hmd⟩ := r.grantAt_eq_some.mp h
  rw [r.onBus_eq] at hb
  exact ((r.inv g).wire_request hb hmd).1

theorem granted_of_grantAt (h : r.grantAt g = some m) : r.onBus g = some m ∧ m.msg ≠ .DATA ∧
    r.granted (g + 1) = some m := by
  obtain ⟨hb, hmd⟩ := r.grantAt_eq_some.mp h
  refine ⟨hb, hmd, ?_⟩
  rw [granted, hb, nextGrant]
  simp [hmd]

theorem granted_of_dataAt (h : r.dataAt c = some d) : (∃ m, r.granted c = some m) ∧
    r.grantAt c = none ∧ r.granted (c + 1) = none := by
  obtain ⟨hb, hmd⟩ := r.dataAt_eq_some.mp h
  refine ⟨?_, by simp [grantAt, hb, hmd], by simp [granted, hb, nextGrant, hmd]⟩
  cases r.turn c with
  | rest _ hb' | hold _ _ hb' => rw [hb] at hb'; cases hb'
  | grant _ _ _ hb' hmd' => rw [hb] at hb'; rw [Option.some.inj hb'] at hmd; exact absurd hmd hmd'
  | data m _ hg => exact ⟨m, hg⟩

/-- Nothing is granted as long as there is no grant. -/
theorem granted_none {c' : ℕ} (h : r.granted c = none) (hle : c ≤ c')
    (hno : ∀ e, c ≤ e → e < c' → r.grantAt e = none) : r.granted c' = none := by
  induction c', hle using Nat.le_induction with
  | base => exact h
  | succ c' hle ih =>
    have hg := ih fun e he he' => hno e he (by omega)
    have hnow := hno c' hle (by omega)
    cases r.turn c' with
    | rest _ _ _ _ hg' => exact hg'
    | grant _ _ _ hb hmd => simp [grantAt, hb, hmd] at hnow
    | hold _ hgm => rw [hg] at hgm; cases hgm
    | data _ _ hgm => rw [hg] at hgm; cases hgm

/-- The DATA of cycle `t`, and no other, is on the bus between the grant of cycle `g`
and the next grant, which is not before the cycle after it. -/
structure OnlyData (r : Run x) (g t : ℕ) (d : Mreq) : Prop where
  after : g < t
  data : r.dataAt t = some d
  noGrant : ∀ c, g < c → c ≤ t → r.grantAt c = none
  only : ∀ c, g < c → (∀ c', g < c' → c' < c → r.grantAt c' = none) → r.dataAt c ≠ none → c = t

theorem onlyData {t : ℕ} (hlt : g < t) (hd : r.dataAt t = some d)
    (hquiet : ∀ c, g < c → c < t → r.onBus c = none) : r.OnlyData g t d where
  after := hlt
  data := hd
  noGrant c hc hct := by
    by_cases h : c = t
    · rw [h]; exact (r.granted_of_dataAt hd).2.1
    · rw [grantAt, hquiet c hc (by omega)]; rfl
  only c hc hno hdata := by
    rcases Nat.lt_trichotomy c t with h | h | h
    · rw [dataAt, hquiet c hc h] at hdata
      exact absurd rfl hdata
    · exact h
    · -- after the DATA nothing is granted before the next grant
      have hnone := r.granted_none (r.granted_of_dataAt hd).2.2 (show t + 1 ≤ c by omega)
        fun e he he' => hno e (by omega) he'
      obtain ⟨d', hd'⟩ := Option.ne_none_iff_exists'.mp hdata
      obtain ⟨⟨m, hm⟩, -⟩ := r.granted_of_dataAt hd'
      rw [hnone] at hm
      cases hm

/-- A reply that a cache has given is on the bus in the next cycle. -/
theorem dataAt_of_replied (hg : r.grantAt g = some m) (hr : r.replied g = some d) :
    (r.state (g + 1)).bus.dataReply = some d ∧ r.dataAt (g + 1) = some d ∧
      (r.state (g + 2)).bus.dataReply = none := by
  obtain ⟨hb, hmd, hg'⟩ := r.granted_of_grantAt hg
  have hd : (r.state (g + 1)).bus.dataReply = some d := by
    cases r.turn g with
    | rest _ hb' | hold _ _ hb' => rw [hb] at hb'; cases hb'
    | data _ _ _ hb' _ hmd' => rw [hb] at hb'; rw [Option.some.inj hb'] at hmd; exact absurd hmd' hmd
    | grant _ _ _ _ _ _ _ _ hd' => exact hd'.trans hr
  refine ⟨hd, ?_⟩
  cases r.turn (g + 1) with
  | rest hgn | grant _ _ hgn => rw [hg'] at hgn; cases hgn
  | hold _ _ _ _ hdn => rw [hd] at hdn; cases hdn
  | data _ d' _ hb' _ hmd' hd'' _ _ hd' =>
    obtain rfl : d = d' := Option.some.inj (hd.symm.trans hd'')
    exact ⟨by simp [dataAt, hb', hmd'], hd'⟩

/-- Without it the memory controller waits out its latency. -/
theorem awaits_memory (hg : r.grantAt g = some m) (hr : r.replied g = none) : ∀ c, g < c → c ≤ g + x.hitTime →
      r.granted c = some m ∧ (r.state c).bus.dataReply = none ∧
        (r.state c).MC = ⟨true, g + x.hitTime, m.addr, m.srcMid⟩ := by
  obtain ⟨hb, hmd, hg'⟩ := r.granted_of_grantAt hg
  intro c hc
  induction c, hc using Nat.le_induction with
  | base =>
    intro _
    cases r.turn g with
    | rest _ hb' | hold _ _ hb' => rw [hb] at hb'; cases hb'
    | data _ _ _ hb' _ hmd' => rw [hb] at hb'; rw [Option.some.inj hb'] at hmd; exact absurd hmd' hmd
    | grant m' _ _ hb' _ _ hgm _ hd' hm' =>
      obtain rfl : m = m' := Option.some.inj (hb.symm.trans hb')
      exact ⟨hgm, hd'.trans hr, hm'⟩
  | succ c hc ih =>
    intro hle
    obtain ⟨hgc, hdc, hmc⟩ := ih (by omega)
    cases r.turn c with
    | rest hgn | grant _ _ hgn => rw [hgc] at hgn; cases hgn
    | data _ _ _ _ _ _ hd => rw [hdc] at hd; cases hd
    | hold m' hgm _ _ _ hgm' _ hd' hm' =>
      have hlate : ¬ (r.state c).MC.dataTime ≤ c := by rw [hmc]; simp only; omega
      rw [if_neg hlate] at hd' hm'
      exact ⟨hgm'.trans (hgm.symm.trans hgc), hd', hm'.trans hmc⟩

theorem onBus_none_of_awaits (hg : r.granted c = some m) (hd : (r.state c).bus.dataReply = none) :
    r.onBus c = none := by
  cases r.turn c with
  | rest hgn | grant _ _ hgn => rw [hg] at hgn; cases hgn
  | hold _ _ hb => exact hb
  | data _ _ _ _ _ _ hd' => rw [hd] at hd'; cases hd'

/-- And then answers. -/
theorem dataAt_of_memory (hg : r.grantAt g = some m) (hr : r.replied g = none) :
    r.dataAt (g + x.hitTime + 1) = some ⟨.DATA, lineOf m.addr, MCid n, m.srcMid⟩ := by
  have hpos := x.hitTime_pos
  obtain ⟨hgc, hdc, hmc⟩ := r.awaits_memory hg hr (g + x.hitTime) (by omega) (Nat.le_refl _)
  cases r.turn (g + x.hitTime) with
  | rest hgn | grant _ _ hgn => rw [hgc] at hgn; cases hgn
  | data _ _ _ _ _ _ hd => rw [hdc] at hd; cases hd
  | hold _ _ _ _ _ hgm _ hd' =>
    rw [hmc, if_pos (Nat.le_refl _)] at hd'
    cases r.turn (g + x.hitTime + 1) with
    | rest hgn | grant _ _ hgn => rw [hgm] at hgn; cases hgn
    | hold _ _ _ _ hdn => rw [hd'] at hdn; cases hdn
    | data _ _ _ hb' _ hmd' hd'' =>
      rw [dataAt, hb', ← Option.some.inj (hd'.symm.trans hd'')]
      rfl

/-! ### Who answers -/

/-- A granted request was in the queue, of a node whose access stands there. -/
theorem requester (hg : r.grantAt g = some m) :
    ∃ i k l, At x (r.state g) (r.granted g) i .queued k l ∧ m = x.ask i l := by
  obtain ⟨hb, hmd, -⟩ := r.granted_of_grantAt hg
  rw [r.onBus_eq] at hb
  exact ((r.inv g).wire_request hb hmd).2.2.2.2

/-- The requester does not supply the line it asks for. -/
theorem not_supplier_requester {i : Fin n} {k : ℕ} {l : Char × Paddr} {gr : Option Mreq}
    (ha : At x (r.state g) gr i .queued k l) :
    supplies ((((r.state g).Nd i).procTick x.f i).line (lineOf l.2)) = false := by
  rw [Node.procTick_none _ i (by simpa using ha.proc), ha.wait rfl]
  exact not_supplies_of_pending (pend_pending _)

/-- A copy that supplies answers. -/
theorem reply_of_supplies (hb : r.onBus g = some m) (hmd : m.msg ≠ .DATA) {j : Fin n}
    (hs : supplies ((((r.state g).Nd j).procTick x.f j).line m.addr) = true) :
    (((r.state g).Nd j).procTick x.f j).reply j (r.state g).wire = some (replyTo (L1id j) m) := by
  rw [← r.onBus_eq, hb]
  simp [Node.reply, hmd, hs]

theorem supplier_unique (hg : r.grantAt g = some m) {i j : Fin n}
    (hi : supplies ((((r.state g).Nd i).procTick x.f i).line m.addr) = true)
    (hj : supplies ((((r.state g).Nd j).procTick x.f j).line m.addr) = true) : i = j := by
  obtain ⟨hb, hmd, -⟩ := r.granted_of_grantAt hg
  exact (r.inv g).ready.one i j (Option.isSome_of_eq_some (r.reply_of_supplies hb hmd hi))
    (Option.isSome_of_eq_some (r.reply_of_supplies hb hmd hj))

theorem replied_of_supplies (hg : r.grantAt g = some m) {j : Fin n}
    (hs : supplies ((((r.state g).Nd j).procTick x.f j).line m.addr) = true) :
    r.replied g = some (replyTo (L1id j) m) := by
  obtain ⟨hb, hmd, -⟩ := r.granted_of_grantAt hg
  have hne : r.replied g ≠ none := by
    intro hnone
    have hj := List.findSome?_eq_none_iff.mp hnone j (List.mem_finRange j)
    have hr := r.reply_of_supplies hb hmd hs
    exact absurd (hr.symm.trans hj) (by simp)
  obtain ⟨d, hd⟩ := Option.ne_none_iff_exists'.mp hne
  obtain ⟨m', j', hw, -, rfl, hs'⟩ := Inv.reply_of_cacheReply hd
  obtain rfl : m' = m := Option.some.inj (hw.symm.trans ((r.onBus_eq g).symm.trans hb))
  rw [hd, r.supplier_unique hg hs' hs]

theorem replied_none (hg : r.grantAt g = some m)
    (hs : ∀ j, supplies ((((r.state g).Nd j).procTick x.f j).line m.addr) = false) :
    r.replied g = none := by
  obtain ⟨hb, -, -⟩ := r.granted_of_grantAt hg
  by_contra hne
  obtain ⟨d, hd⟩ := Option.ne_none_iff_exists'.mp hne
  obtain ⟨m', j', hw, -, -, hs'⟩ := Inv.reply_of_cacheReply hd
  obtain rfl : m' = m := Option.some.inj (hw.symm.trans ((r.onBus_eq g).symm.trans hb))
  rw [hs j'] at hs'
  cases hs'

/-- DATA that the memory controller has put into `data_reply` waits there at the end
of cycle `c`. -/
def memorySent (c : ℕ) : Prop :=
  ∃ d, (r.state (c + 1)).bus.dataReply = some d ∧ d.srcMid = MCid n

/-- The memory sends nothing from the grant of cycle `g` to the next. -/
theorem not_memorySent (hg : r.grantAt g = some m) {j : Fin n}
    (hr : r.replied g = some (replyTo (L1id j) m)) (hc : g ≤ c)
    (hno : ∀ c', g < c' → c' ≤ c → r.grantAt c' = none) : ¬ r.memorySent c := by
  obtain ⟨hd1, hdata, hd2⟩ := r.dataAt_of_replied hg hr
  rintro ⟨d, hd, hsrc⟩
  by_cases hcg : c = g
  · rw [hcg, hd1] at hd
    rw [← Option.some.inj hd] at hsrc
    simp [replyTo, L1id, MCid] at hsrc
  · have hnone := r.granted_none (r.granted_of_dataAt hdata).2.2 (show g + 2 ≤ c + 1 by omega)
      fun e he he' => hno e (by omega) (by omega)
    rw [((r.inv (c + 1)).free hnone).1] at hd
    cases hd

/-- **One reply per transaction, from the right sender, at the right time.** For a
GETS or GETM granted in cycle `g` one DATA is on the bus before the next grant. If
some cache supplies the line when it snoops the request, it is the only one and not
the requester, and the DATA is its own, in the next cycle, and the memory controller
sends none; else the DATA is the memory's, `hitTime + 1` cycles after the grant. -/
theorem one_reply (hg : r.grantAt g = some m) :
    ∃ i : Fin n, m.srcMid = L1id i ∧ (m.msg = .GETS ∨ m.msg = .GETM) ∧
      (∀ j, Supplier x.protocol (r.snooped g j m.addr) → j ≠ i ∧
        (∀ j', Supplier x.protocol (r.snooped g j' m.addr) → j' = j) ∧
        r.OnlyData g (g + 1) ⟨.DATA, m.addr, L1id j, L1id i⟩ ∧
        ∀ c, g ≤ c → (∀ c', g < c' → c' ≤ c → r.grantAt c' = none) → ¬ r.memorySent c) ∧
      ((∀ j, ¬ Supplier x.protocol (r.snooped g j m.addr)) →
        r.OnlyData g (g + x.hitTime + 1) ⟨.DATA, m.addr, MCid n, L1id i⟩) := by
  obtain ⟨i, k, l, ha, hm⟩ := r.requester hg
  have hsrc : m.srcMid = L1id i := by rw [hm, ask_srcMid]
  have hline : lineOf m.addr = m.addr := by rw [hm, ask_addr, lineOf_lineOf]
  simp only [supplier_snooped]
  refine ⟨i, hsrc, by rw [hm]; exact request_cases _ _, fun j hj => ?_, fun hnone => ?_⟩
  · have hr := r.replied_of_supplies hg hj
    refine ⟨?_, fun j' hj' => r.supplier_unique hg hj' hj, ?_, fun c => r.not_memorySent hg hr⟩
    · rintro rfl
      rw [hm, ask_addr, r.not_supplier_requester ha] at hj
      cases hj
    · refine r.onlyData (Nat.lt_succ_self g) ?_ fun c hc hc' => by omega
      rw [(r.dataAt_of_replied hg hr).2.1, replyTo, hline, hsrc]
  · have hr := r.replied_none hg fun j => by simpa using hnone j
    refine r.onlyData (by omega) ?_ fun c hc hc' => ?_
    · rw [r.dataAt_of_memory hg hr, hline, hsrc]
    · obtain ⟨hgc, hdc, -⟩ := r.awaits_memory hg hr c hc (by omega)
      exact r.onBus_none_of_awaits hgc hdc

end Run

/-- Two nodes under MOSI: node 0 stores twice to a line that node 1 loads. -/
def Input.storeLoadStore (hitTime : ℕ) (h : 1 ≤ hitTime) : Input 2 where
  protocol := .MOSI_PRO
  hitTime := hitTime
  hitTime_pos := h
  traces := ![[('w', 0x40), ('w', 0x40)], [('r', 0x40)]]
  wellFormed := by decide

/-- The load, which node 0 answers. -/
theorem one_reply_of_load :
    let r := (Input.storeLoadStore 1 (Nat.le_refl 1)).run
    let m : Mreq := ⟨.GETS, 0x40, ⟨1, .L1_M⟩, .invalid⟩
    ∃ i : Fin 2, m.srcMid = L1id i ∧ (m.msg = .GETS ∨ m.msg = .GETM) ∧
      (∀ j, Supplier .MOSI_PRO (r.snooped 5 j m.addr) → j ≠ i ∧
        (∀ j', Supplier .MOSI_PRO (r.snooped 5 j' m.addr) → j' = j) ∧
        r.OnlyData 5 6 ⟨.DATA, m.addr, L1id j, L1id i⟩ ∧
        ∀ c, 5 ≤ c → (∀ c', 5 < c' → c' ≤ c → r.grantAt c' = none) → ¬ r.memorySent c) ∧
      ((∀ j, ¬ Supplier .MOSI_PRO (r.snooped 5 j m.addr)) →
        r.OnlyData 5 7 ⟨.DATA, m.addr, MCid 2, L1id i⟩) :=
  Run.one_reply _ (g := 5) (by decide +kernel)

end CoherenceSim
