/-
# Hits are what the bus history says

`hit_iff_history`: whether a cache serves an access of its processor by itself is
determined by the requests granted before, as the protocol reads them
(`HistoryHit`), and an access it does not serve is one miss and one request in the
queue. `LineHistory` relates the state of a line to that history.
-/
import CoherenceSim.Lib.History
import CoherenceSim.Transaction

namespace CoherenceSim

open Features

variable {n : ℕ} {x : Input n}

namespace Run

variable (r : Run x) {c : ℕ} {i : Fin n} {a : Paddr} {m : Mreq}

/-! ### The history -/

/-- A request for the line is granted in cycle `c`. -/
def GrantFor (a : Paddr) (c : ℕ) : Prop := ∃ m, r.grantAt c = some m ∧ m.addr = a

/-- A request of cache `i` for it. -/
def OwnGrant (i : Fin n) (a : Paddr) (c : ℕ) : Prop :=
  ∃ m, r.grantAt c = some m ∧ m.addr = a ∧ m.srcMid = L1id i

/-- A request of cache `i` for it, by `kind`. -/
def OwnGrantBy (kind : Message) (i : Fin n) (a : Paddr) (c : ℕ) : Prop :=
  ∃ m, r.grantAt c = some m ∧ m.addr = a ∧ m.srcMid = L1id i ∧ m.msg = kind

/-- A GETM of another cache for it. -/
def OtherGETM (i : Fin n) (a : Paddr) (c : ℕ) : Prop :=
  ∃ m, r.grantAt c = some m ∧ m.addr = a ∧ m.srcMid ≠ L1id i ∧ m.msg = .GETM

/-- No cache but `i` holds the line when it snoops in cycle `c`. -/
def Alone (i : Fin n) (a : Paddr) (c : ℕ) : Prop :=
  ∀ j, j ≠ i → r.snooped c j a ∉ [CacheState.S, .E, .O, .M, .F]

/-- A GETM of cache `i`, or a GETS with the line in no other cache. -/
def OwnExclusive (i : Fin n) (a : Paddr) (c : ℕ) : Prop :=
  r.OwnGrantBy .GETM i a c ∨ r.OwnGrantBy .GETS i a c ∧ r.Alone i a c

/-- What makes an access of cache `i` to the line a hit, by the requests granted before
cycle `c`. -/
def HistoryHit (i : Fin n) (a : Paddr) (op : Message) (c : ℕ) : Prop :=
  match x.protocol, op with
  | .MI_PRO, _ => History.Since (r.OwnGrant i a) (r.GrantFor a) c
  | _, .LOAD => History.Since (r.OwnGrant i a) (r.OtherGETM i a) c
  | .MSI_PRO, _ | .MOSI_PRO, _ => History.Since (r.OwnGrantBy .GETM i a) (r.GrantFor a) c
  | _, _ => History.Since (r.OwnExclusive i a) (r.GrantFor a) c

/-! ### The shared line -/

theorem mem_held_iff (st : CacheState) :
    st ∈ [CacheState.S, .E, .O, .M, .F] ↔ 1 ≤ st.rank := by
  cases st <;> decide

/-- In a protocol with `E` the copies that raise the shared line on a GETS are all. -/
theorem raises_iff (p : Protocol) {st : CacheState} (he : p.features.exclusive = true) :
    p.features.raises .GETS st = true ↔ 1 ≤ st.rank := by
  cases st <;> simp [raises, supplies, CacheState.rank, he]

/-- After a grant the shared line says whether a copy has raised it. -/
theorem sharedLine_grant (hg : r.grantAt c = some m) :
    (r.state (c + 1)).bus.sharedLine = true ↔
      ∃ j, x.f.raises m.msg (r.snooped c j m.addr) = true := by
  obtain ⟨hb, hmd, -⟩ := r.granted_of_grantAt hg
  have hw : (r.state c).wire = some m := (r.onBus_eq c).symm.trans hb
  rw [r.next, Simulator.next_sharedLine]
  cases (r.inv c).phase with
  | rest _ _ ht | hold _ _ _ ht => simp [Simulator.wire, ht] at hw
  | data _ _ _ _ hd ht =>
    obtain rfl : _ = m := by simpa [Simulator.wire, ht] using hw
    exact absurd hd hmd
  | grant m' q _ _ _ ht =>
    obtain rfl : m' = m := by simpa [Simulator.wire, ht] using hw
    rw [ht]
    simp only [Bool.false_or, List.any_eq_true, List.mem_finRange, true_and, Node.raised,
      decide_eq_true_eq, hmd, ne_eq, not_false_eq_true, r.snooped_eq]

/-- And it stays so while the DATA is awaited. -/
theorem sharedLine_hold (hg : r.granted c = some m) (hg' : r.granted (c + 1) = some m) :
    (r.state (c + 1)).bus.sharedLine = (r.state c).bus.sharedLine := by
  rw [r.next, Simulator.next_sharedLine]
  cases (r.inv c).phase with
  | rest hn | grant _ _ hn => rw [hg] at hn; cases hn
  | hold _ _ _ ht => rw [ht]; simp [Node.raised]
  | data _ _ _ _ hmd ht =>
    rw [r.granted_succ, Simulator.wire, ht] at hg'
    simp [nextGrant, hmd] at hg'

/-- The grant a granted request has had, and what the shared line says since then. -/
theorem in_flight (hg : r.granted c = some m) : ∃ g i, g < c ∧ r.grantAt g = some m ∧
    m.srcMid = L1id i ∧ (∀ e, g < e → e < c → r.grantAt e = none) ∧
    (x.f.exclusive = true → m.msg = .GETS →
      ((r.state c).bus.sharedLine = false ↔ r.Alone i m.addr g)) := by
  induction c with
  | zero => cases hg
  | succ c ih =>
    cases r.turn c with
    | rest _ _ _ _ hg' => rw [hg] at hg'; cases hg'
    | data _ _ _ _ _ _ _ hg' => rw [hg] at hg'; cases hg'
    | hold m' hgm hb _ _ hg' =>
      obtain rfl : m = m' := Option.some.inj (hg.symm.trans hg')
      obtain ⟨g, i, hlt, hgg, hsrc, hno, hsh⟩ := ih hgm
      refine ⟨g, i, by omega, hgg, hsrc, fun e he he' => ?_, ?_⟩
      · rcases Nat.lt_or_eq_of_le (Nat.lt_succ_iff.mp he') with h | rfl
        · exact hno e he h
        · rw [grantAt, hb]; rfl
      · rw [r.sharedLine_hold hgm hg]
        exact hsh
    | grant m' _ _ hb hmd _ hg' =>
      obtain rfl : m = m' := Option.some.inj (hg.symm.trans hg')
      have hgg := r.grantAt_eq_some.mpr ⟨hb, hmd⟩
      obtain ⟨i, k, l, ha, hm⟩ := r.requester hgg
      refine ⟨c, i, by omega, hgg, by rw [hm, ask_srcMid], fun e he he' => by omega, fun he hk => ?_⟩
      have hraise := r.sharedLine_grant hgg
      rw [hk] at hraise
      simp only [Input.f, raises_iff x.protocol he] at hraise
      have hself : (r.snooped c i m.addr).rank = 0 := by
        rw [r.snooped_eq, Node.procTick_none _ i (by simpa using ha.proc), hm, ask_addr, ha.wait rfl,
          pend_rank]
      rw [← Bool.not_eq_true, hraise]
      simp only [Alone, mem_held_iff]
      push Not
      refine ⟨fun h j _ => by simpa using h j, fun h j => ?_⟩
      by_cases hj : j = i
      · rw [hj, hself]; decide
      · simpa using h j hj

/-! ### The state of a line and its history -/

/-- What makes the only copy: as `OwnExclusive`, but that a GETS does it only where there
is an `E`. -/
def OwnWritable (i : Fin n) (a : Paddr) (c : ℕ) : Prop :=
  r.OwnGrantBy .GETM i a c ∨ x.f.exclusive = true ∧ r.OwnGrantBy .GETS i a c ∧ r.Alone i a c

/-- The state of a line that waits for nothing, by the requests granted before cycle `c`. -/
structure LineHistory (i : Fin n) (a : Paddr) (c : ℕ) : Prop where
  readable : 1 ≤ (((r.state c).Nd i).line a).rank ↔
    History.Since (r.OwnGrant i a) (r.OtherGETM i a) c
  writable : (((r.state c).Nd i).line a).rank = 3 ↔
    History.Since (r.OwnWritable i a) (r.GrantFor a) c

theorem OwnWritable.ownGrant (h : r.OwnWritable i a c) : r.OwnGrant i a c := by
  rcases h with ⟨m, hg, ha, hsrc, -⟩ | ⟨-, ⟨m, hg, ha, hsrc, -⟩, -⟩ <;> exact ⟨m, hg, ha, hsrc⟩

/-- A cycle that grants nothing for the line leaves its history as it is. -/
theorem LineHistory.keep (h : r.LineHistory i a c)
    (hrank : (((r.state (c + 1)).Nd i).line a).rank = (((r.state c).Nd i).line a).rank)
    (hno : ∀ m, r.grantAt c = some m → m.addr ≠ a) : r.LineHistory i a (c + 1) := by
  have hown : ¬ r.OwnGrant i a c := fun ⟨m, hg, ha, _⟩ => hno m hg ha
  have hwrite : ¬ r.OwnWritable i a c := fun hw => hown hw.ownGrant
  have hother : ¬ r.OtherGETM i a c := fun ⟨m, hg, ha, _⟩ => hno m hg ha
  have hgrant : ¬ r.GrantFor a c := fun ⟨m, hg, ha⟩ => hno m hg ha
  constructor
  · rw [hrank, h.readable, History.since_succ]
    simp [hown, hother]
  · rw [hrank, h.writable, History.since_succ]
    simp [hwrite, hgrant]

/-- A request of another cache: a GETM ends the copy, a GETS leaves it to read. -/
theorem LineHistory.yield (h : r.LineHistory i a c) (hg : r.grantAt c = some m) (ha : m.addr = a)
    (hsrc : m.srcMid ≠ L1id i) {st : CacheState} (hst : st.rank = (((r.state c).Nd i).line a).rank)
    (hl : ((r.state (c + 1)).Nd i).line a = x.f.yield m.msg st) : r.LineHistory i a (c + 1) := by
  have hown : ¬ r.OwnGrant i a c := by
    rintro ⟨m', hg', -, hsrc'⟩
    obtain rfl : m = m' := Option.some.inj (hg.symm.trans hg')
    exact hsrc hsrc'
  have hwrite : ¬ r.OwnWritable i a c := fun hw => hown hw.ownGrant
  have hgrant : r.GrantFor a c := ⟨m, hg, ha⟩
  obtain ⟨j, k, l, -, hm⟩ := r.requester hg
  rcases request_cases x.f (opOf l.1) with hk | hk
  · have hkind : m.msg = .GETS := by rw [hm, ask_msg, hk]
    have hsh : x.f.shared = true := by
      by_contra hns
      simp [request, hns] at hk
    have hother : ¬ r.OtherGETM i a c := by
      rintro ⟨m', hg', -, -, hk'⟩
      obtain rfl : m = m' := Option.some.inj (hg.symm.trans hg')
      rw [hkind] at hk'
      cases hk'
    obtain ⟨hpos, hne⟩ := x.f.yield_GETS_rank hsh st
    rw [hkind] at hl
    constructor
    · rw [hl, hpos, hst, h.readable, History.since_succ]
      simp [hown, hother]
    · rw [hl, History.since_succ]
      simp [hwrite, hgrant, hne]
  · have hkind : m.msg = .GETM := by rw [hm, ask_msg, hk]
    have hother : r.OtherGETM i a c := ⟨m, hg, ha, hsrc, hkind⟩
    rw [hkind] at hl
    constructor
    · rw [hl, x.f.yield_GETM_rank, History.since_succ]
      simp [hown, hother]
    · rw [hl, x.f.yield_GETM_rank, History.since_succ]
      simp [hwrite, hgrant]

/-- The line's own DATA: its request is the last that was granted. -/
theorem LineHistory.fill (hg : r.granted c = some m) (hsrc : m.srcMid = L1id i) (ha : m.addr = a)
    (hno : r.grantAt c = none)
    (hl : ((r.state (c + 1)).Nd i).line a = x.f.fill m.msg (r.state c).bus.sharedLine) :
    r.LineHistory i a (c + 1) := by
  obtain ⟨g, i', hlt, hgg, hsrc', hquiet, hsh⟩ := r.in_flight hg
  obtain rfl : i' = i := L1id_injective (hsrc'.symm.trans hsrc)
  have hnone : ∀ e, g < e → e < c + 1 → r.grantAt e = none := by
    intro e he he'
    rcases Nat.lt_or_eq_of_le (Nat.lt_succ_iff.mp he') with h | rfl
    · exact hquiet e he h
    · exact hno
  constructor
  · rw [hl]
    refine ⟨fun _ => ⟨g, by omega, ⟨m, hgg, ha, hsrc⟩, ?_⟩, fun _ => x.f.fill_rank_pos _ _⟩
    rintro e he he' ⟨m', hg', -⟩
    rw [hnone e he he'] at hg'
    cases hg'
  · have hlast : History.Since (r.OwnWritable i' a) (r.GrantFor a) (c + 1) ↔ r.OwnWritable i' a g := by
      constructor
      · rintro ⟨e, he, hw, hstop⟩
        rcases Nat.lt_trichotomy e g with h | rfl | h
        · exact absurd ⟨m, hgg, ha⟩ (hstop g h (by omega))
        · exact hw
        · obtain ⟨m', hg', -⟩ := hw.ownGrant
          rw [hnone e h he] at hg'
          cases hg'
      · intro hw
        refine ⟨g, by omega, hw, ?_⟩
        rintro e he he' ⟨m', hg', -⟩
        rw [hnone e he he'] at hg'
        cases hg'
    have hby : ∀ kind, r.OwnGrantBy kind i' a g ↔ m.msg = kind := by
      intro kind
      refine ⟨?_, fun hk => ⟨m, hgg, ha, hsrc, hk⟩⟩
      rintro ⟨m', hg', -, -, hk⟩
      rwa [Option.some.inj (hgg.symm.trans hg')]
    rw [hl, hlast, OwnWritable, hby, hby]
    obtain ⟨j, k, l, -, hm⟩ := r.requester hgg
    have hkind : m.msg = .GETS ∨ m.msg = .GETM := by rw [hm]; exact request_cases _ _
    rcases hkind with hk | hk
    · have hfill : (x.f.fill .GETS (r.state c).bus.sharedLine).rank = 3 ↔
          x.f.exclusive = true ∧ (r.state c).bus.sharedLine = false := by
        unfold Features.fill
        split_ifs <;> simp_all [CacheState.rank]
      rw [hk, hfill]
      subst ha
      constructor
      · rintro ⟨he, hs⟩
        exact Or.inr ⟨he, rfl, (hsh he hk).mp hs⟩
      · rintro (h | ⟨he, -, hal⟩)
        · cases h
        · exact ⟨he, (hsh he hk).mpr hal⟩
    · rw [hk]
      simp [Features.fill, CacheState.rank]

/-- **The state of a line says what its history does**, unless it waits for DATA. -/
theorem lineHistory (c : ℕ) (i : Fin n) (a : Paddr) (h : (((r.state c).Nd i).line a).pending = false) :
    r.LineHistory i a c := by
  induction c with
  | zero =>
    have hI : ((r.state 0).Nd i).line a = .I := by rw [r.start]; rfl
    exact ⟨by simp [hI, CacheState.rank, History.not_since_zero],
      by simp [hI, CacheState.rank, History.not_since_zero]⟩
  | succ c ih =>
    -- a line that waits for nothing after the cycle has not been asked for in it
    have hown : (r.snooped c i a).pending = false → (((r.state c).Nd i).line a).pending = false ∧
        (r.snooped c i a).rank = (((r.state c).Nd i).line a).rank := by
      intro hp
      cases r.ownStep c i a with
      | other _ hs => rw [hs] at hp ⊢; exact ⟨hp, rfl⟩
      | hit q hq ha hh hs =>
        refine ⟨?_, by rw [hs, afterHit_rank hh]⟩
        rw [← ha]
        exact ((r.inv c).procReady i q hq).2.2.1
      | miss q _ _ _ hs => rw [hs, pend_pending] at hp; cases hp
    cases r.busStep c i a with
    | keep hno hl =>
      rw [hl] at h
      obtain ⟨hp, hrank⟩ := hown h
      exact (ih hp).keep r (by rw [hl, hrank]) hno
    | yield m hg ha hl =>
      rw [hl, yield_pending] at h
      obtain ⟨hp, hrank⟩ := hown h
      refine (ih hp).yield r hg ha ?_ hrank hl
      intro hsrc
      obtain ⟨j, k, l, hat, rfl⟩ := r.requester hg
      obtain rfl : j = i := L1id_injective hsrc
      rw [← ha, ask_addr, hat.wait rfl, pend_pending] at hp
      cases hp
    | fill m hg hsrc ha hg' _ hl =>
      refine LineHistory.fill r hg hsrc ha ?_ hl
      by_contra hne
      obtain ⟨m', hm'⟩ := Option.ne_none_iff_exists'.mp hne
      rw [r.granted_eq_none_of_grantAt hm'] at hg
      cases hg

/-! ### Hits -/

theorem ownWritable_of_exclusive (he : x.f.exclusive = true) : r.OwnWritable i a = r.OwnExclusive i a := by
  funext c
  simp [OwnWritable, OwnExclusive, he]

theorem ownWritable_of_not_exclusive (he : x.f.exclusive = false) :
    r.OwnWritable i a = r.OwnGrantBy .GETM i a := by
  funext c
  simp [OwnWritable, he]

/-- Without `S` every request is a GETM. -/
theorem ownGrant_of_not_shared (hs : x.f.shared = false) : r.OwnGrant i a = r.OwnGrantBy .GETM i a := by
  funext c
  refine propext ⟨?_, fun ⟨m, hg, ha, hsrc, _⟩ => ⟨m, hg, ha, hsrc⟩⟩
  rintro ⟨m, hg, ha, hsrc⟩
  obtain ⟨j, k, l, -, rfl⟩ := r.requester hg
  exact ⟨_, hg, ha, hsrc, by simp [request, hs]⟩

/-- What the state of the line decides is what the protocol reads off the history. -/
theorem hits_iff {op : Message} (hop : op = .LOAD ∨ op = .STORE)
    (hp : (((r.state c).Nd i).line a).pending = false) :
    hits (((r.state c).Nd i).line a) op = true ↔ r.HistoryHit i a op c := by
  obtain ⟨hread, hwrite⟩ := r.lineHistory c i a hp
  have hvalid := (r.inv c).valid i a
  have hload : hits (((r.state c).Nd i).line a) .LOAD = true ↔
      History.Since (r.OwnGrant i a) (r.OtherGETM i a) c := by simpa [hits] using hread
  have hstore : hits (((r.state c).Nd i).line a) .STORE = true ↔
      History.Since (r.OwnWritable i a) (r.GrantFor a) c := by simpa [hits] using hwrite
  unfold HistoryHit
  cases hpro : x.protocol with
  | MI_PRO =>
    have hf : x.f = ⟨false, false, false, false⟩ := by rw [Input.f, hpro]; rfl
    rw [r.ownWritable_of_not_exclusive (by rw [hf]),
      ← r.ownGrant_of_not_shared (by rw [hf])] at hstore
    -- in MI the only copy is one to write
    have hone : ∀ st, (⟨false, false, false, false⟩ : Features).valid st = true →
        (hits st .LOAD = true ↔ hits st .STORE = true) := by
      intro st
      cases st <;> decide
    rw [hf] at hvalid
    rcases hop with rfl | rfl
    · exact (hone _ hvalid).trans hstore
    · exact hstore
  | MSI_PRO | MOSI_PRO =>
    rw [r.ownWritable_of_not_exclusive (by rw [Input.f, hpro]; rfl)] at hstore
    rcases hop with rfl | rfl
    · exact hload
    · exact hstore
  | MESI_PRO | MOESI_PRO | MOESIF_PRO =>
    rw [r.ownWritable_of_exclusive (by rw [Input.f, hpro]; rfl)] at hstore
    rcases hop with rfl | rfl
    · exact hload
    · exact hstore

/-- **Hits are exactly what the bus history says.** When cache `i` sees to the request
`q` of its processor in cycle `c`, it hands over DATA at once if and only if the
requests granted before the cycle say so; and if it does not, that is one miss and one
request of its own for the line in the queue. -/
theorem hit_iff_history (c : ℕ) (i : Fin n) {q : Mreq}
    (hq : ((r.state c).Nd i).L1.procRequest = some q) :
    ∃ t t', (r.state c).tickBus.tickCaches x.settings ((List.finRange n).take i) = .ok t ∧
      t.tickProcRequest x.settings i = .ok t' ∧
      ((t'.Nd i).PR.inboundRequestBuf.isSome = true ↔ r.HistoryHit i q.addr q.msg c) ∧
      ((t'.Nd i).PR.inboundRequestBuf.isSome = true →
        t'.stats.cacheMisses = t.stats.cacheMisses ∧ t'.bus.pendingRequests = t.bus.pendingRequests) ∧
      ((t'.Nd i).PR.inboundRequestBuf.isSome = false →
        t'.stats.cacheMisses = t.stats.cacheMisses + 1 ∧
        ∃ m, t'.bus.pendingRequests = t.bus.pendingRequests ++ [m] ∧ m.srcMid = L1id i ∧
          m.addr = q.addr) := by
  obtain ⟨hop, -, hp, hbuf⟩ := (r.inv c).procReady i q hq
  have hn : ((List.finRange n).take i).Nodup := (List.take_sublist i _).nodup (List.nodup_finRange n)
  set t := (r.state c).tickBus.sync x.settings ((List.finRange n).take i) with ht
  have hi := Loop.notMem_take_finRange i
  have hnd : t.Nd i = (r.state c).Nd i := Simulator.sync_Nd x.settings _ hi
  refine ⟨t, t.afterProc x.settings i,
    Simulator.tickCaches_eq_sync x.settings (r.inv c).ready hn,
    Simulator.tickProcRequest_sync x.settings (r.inv c).ready hi, ?_⟩
  have hnd' : (t.afterProc x.settings i).Nd i = ((r.state c).Nd i).procTick x.f i := by
    simp only [Simulator.afterProc, Simulator.setNode_Nd, if_true, hnd]
  have hmisses : (t.afterProc x.settings i).stats.cacheMisses =
      t.stats.cacheMisses + (((r.state c).Nd i).queued x.f i).length := by
    rw [← hnd]; rfl
  have hqueue : (t.afterProc x.settings i).bus.pendingRequests =
      t.bus.pendingRequests ++ ((r.state c).Nd i).queued x.f i := by
    rw [← hnd]; rfl
  rw [hnd', hmisses, hqueue, ← r.hits_iff hop hp]
  unfold Node.queued
  simp only [hq]
  cases hh : hits (((r.state c).Nd i).line q.addr) q.msg with
  | true =>
    rw [(Node.procTick_hit x.f i hq hh).1]
    simp
  | false =>
    rw [(Node.procTick_miss x.f i hq hh).1, hbuf]
    obtain ⟨st, k, l, ha⟩ := (r.inv c).node i
    have hline : lineOf q.addr = q.addr := by
      have hproc := ha.proc
      rw [hq] at hproc
      split at hproc
      · rw [Option.some.inj hproc]
        exact lineOf_lineOf _
      · cases hproc
    simp [getMsg, hline]

end Run

/-- The second store of node 0, after the load of node 1. -/
theorem hit_iff_history_second_store :
    let x := Input.storeLoadStore 1 (Nat.le_refl 1)
    ∃ t t', (x.run.state 6).tickBus.tickCaches x.settings ((List.finRange 2).take 0) = .ok t ∧
      t.tickProcRequest x.settings 0 = .ok t' ∧
      ((t'.Nd 0).PR.inboundRequestBuf.isSome = true ↔ x.run.HistoryHit 0 0x40 .STORE 6) ∧
      ((t'.Nd 0).PR.inboundRequestBuf.isSome = true →
        t'.stats.cacheMisses = t.stats.cacheMisses ∧ t'.bus.pendingRequests = t.bus.pendingRequests) ∧
      ((t'.Nd 0).PR.inboundRequestBuf.isSome = false →
        t'.stats.cacheMisses = t.stats.cacheMisses + 1 ∧
        ∃ m, t'.bus.pendingRequests = t.bus.pendingRequests ++ [m] ∧ m.srcMid = L1id (0 : Fin 2) ∧
          m.addr = 0x40) :=
  Run.hit_iff_history _ 6 0 (q := .new .STORE 0x40 (PRid (0 : Fin 2))) (by decide +kernel)

end CoherenceSim
