/-
# Who answers is what the history says

Whether a granted request is answered by a cache, and by which, or by the memory is
determined by the requests granted before it and by the stores of the cache to its own copy
(`HistorySupplier`, `answered_iff_history`): in MI, MSI and MESI by the last request for the
line alone, and with an owner or a forwarder by how far back it goes. `has_succ`: how a cycle
starts and ends the possession of a line in states that outlast the GETS of others.
-/
import CoherenceSim.Hits
import CoherenceSim.Log

namespace CoherenceSim

open Features

variable {n : ℕ} {x : Input n}

/-- States that a GETS of another cache keeps among themselves. -/
structure Features.Lasting (f : Features) (good : CacheState → Bool) : Prop where
  rank : ∀ st, good st = true → 1 ≤ st.rank
  modified : good .M = true
  gets : ∀ st, good (f.yield .GETS st) = good st

namespace Run

variable (r : Run x) {c g : ℕ} {j : Fin n} {a : Paddr} {m : Mreq} {good : CacheState → Bool}

/-! ### The history -/

/-- The processor of cache `j` stores to the line in cycle `c` without a hit. -/
def StoreMiss (j : Fin n) (a : Paddr) (c : ℕ) : Prop :=
  ∃ q, ((r.state c).Nd j).L1.procRequest = some q ∧ q.addr = a ∧ q.msg = .STORE ∧
    hits (((r.state c).Nd j).line a) q.msg = false

/-- It stores to the line in `E`. -/
def SilentUpgrade (j : Fin n) (a : Paddr) (c : ℕ) : Prop :=
  ∃ q, ((r.state c).Nd j).L1.procRequest = some q ∧ q.addr = a ∧
    upgrades (((r.state c).Nd j).line a) q.msg = true

/-- What ends the possession of a line. -/
def Loses (j : Fin n) (a : Paddr) (c : ℕ) : Prop := r.OtherGETM j a c ∨ r.StoreMiss j a c

/-- Cache `j` has come by the line before cycle `c`, and has not lost it to a GETM of another
cache before the cycle, nor to a store of its own in the cycle either. -/
def Keeps (start : ℕ → Prop) (j : Fin n) (a : Paddr) (c : ℕ) : Prop :=
  History.Held start (r.Loses j a) c ∧ ¬ r.StoreMiss j a c

/-- What makes cache `j` answer a request for the line that is granted in cycle `c`. -/
def HistorySupplier (j : Fin n) (a : Paddr) (c : ℕ) : Prop :=
  match x.protocol with
  | .MI_PRO => History.Since (r.OwnGrant j a) (r.GrantFor a) c
  | .MSI_PRO => History.Since (r.OwnGrantBy .GETM j a) (r.GrantFor a) c
  | .MESI_PRO => History.Since (r.OwnExclusive j a) (r.GrantFor a) c
  | .MOSI_PRO => r.Keeps (r.OwnGrantBy .GETM j a) j a c
  | .MOESI_PRO => History.Since (r.OwnExclusive j a) (r.GrantFor a) c ∨
      r.Keeps (fun e => r.OwnGrantBy .GETM j a e ∨ r.SilentUpgrade j a e) j a c
  | .MOESIF_PRO => r.Keeps (r.OwnExclusive j a) j a c

/-! ### An access of the node itself -/

/-- A node whose access is in its cache has no request on the bus. -/
theorem not_asking_of_proc {q : Mreq} (hq : ((r.state c).Nd j).L1.procRequest = some q) :
    (∀ m, r.granted c = some m → m.srcMid ≠ L1id j) ∧ ∀ m, r.grantAt c = some m → m.srcMid ≠ L1id j := by
  obtain ⟨st, k, l, ha⟩ := (r.inv c).node j
  have hst : st = .issued := by
    by_contra hne
    have hproc := ha.proc
    rw [hq, if_neg hne] at hproc
    cases hproc
  constructor
  · intro m hm hsrc
    have hgrant := ha.grant
    rw [hm, hst] at hgrant
    simp [Option.filter, hsrc] at hgrant
  · intro m hm hsrc
    obtain ⟨i, k', l', ha', rfl⟩ := r.requester hm
    obtain rfl : i = j := L1id_injective hsrc
    have hproc := ha'.proc
    rw [hq] at hproc
    cases hproc

/-- What an access of its own leaves of a line: a store that misses gives it up, one to an `E`
makes it an `M`. -/
theorem good_snooped (hrank : ∀ st, good st = true → 1 ≤ st.rank) (hM : good .M = true) (c : ℕ) (j : Fin n)
    (a : Paddr) :
    good (r.snooped c j a) = true ↔ (good (((r.state c).Nd j).line a) = true ∧ ¬ r.StoreMiss j a c) ∨
      good .E = false ∧ r.SilentUpgrade j a c := by
  cases r.ownStep c j a with
  | other ho hs =>
    have hmiss : ¬ r.StoreMiss j a c := fun ⟨q, hq, ha, _⟩ => ho q hq ha
    have hup : ¬ r.SilentUpgrade j a c := fun ⟨q, hq, ha, _⟩ => ho q hq ha
    rw [hs]
    simp [hmiss, hup]
  | hit q hq ha hh hs =>
    have hmiss : ¬ r.StoreMiss j a c := by
      rintro ⟨q', hq', -, -, hh'⟩
      rw [← Option.some.inj (hq.symm.trans hq'), hh] at hh'
      cases hh'
    have hup : r.SilentUpgrade j a c ↔ upgrades (((r.state c).Nd j).line a) q.msg = true := by
      refine ⟨?_, fun hu => ⟨q, hq, ha, hu⟩⟩
      rintro ⟨q', hq', -, hu⟩
      rwa [Option.some.inj (hq.symm.trans hq')]
    have hgood : ∀ st op, hits st op = true →
        (good (afterHit st op) = true ↔ good st = true ∨ good .E = false ∧ upgrades st op = true) := by
      intro st op hop
      by_cases hst : op = .STORE
      · -- a store hits an `E` or an `M`
        have hEM : st = .E ∨ st = .M := by
          rw [hst] at hop
          revert hop
          cases st <;> decide
        rcases hEM with rfl | rfl
        · cases hE : good .E <;> simp [afterHit, upgrades, hst, hM]
        · simp [afterHit, upgrades, hst, hM]
      · simp [afterHit, upgrades, hst]
    rw [hs, hup, hgood _ _ hh]
    simp [hmiss]
  | miss q hq ha hh hs =>
    have hpend : good (pend (x.f.request q.msg)) = false := by
      by_contra hp
      have := hrank _ (by simpa using hp)
      rw [pend_rank] at this
      omega
    have hup : ¬ r.SilentUpgrade j a c := by
      rintro ⟨q', hq', -, hu⟩
      rw [← Option.some.inj (hq.symm.trans hq'), not_upgrades hh] at hu
      cases hu
    have hlost : good (((r.state c).Nd j).line a) = true → r.StoreMiss j a c := by
      intro hgood
      rcases ((r.inv c).procReady j q hq).1 with hop | hop
      · have hrank := hrank _ hgood
        rw [hop] at hh
        simp [hits] at hh
        omega
      · exact ⟨q, hq, ha, hop, hh⟩
    rw [hs, hpend]
    simp only [Bool.false_eq_true, false_iff, not_or, not_and, not_not]
    exact ⟨hlost, fun _ => hup⟩

/-! ### Possession -/

/-- Cache `j` waits for DATA that takes the line to such a state. -/
def Coming (good : CacheState → Bool) (j : Fin n) (a : Paddr) (c : ℕ) : Prop :=
  ∃ m, r.granted c = some m ∧ m.addr = a ∧ m.srcMid = L1id j ∧
    good (x.f.fill m.msg (r.state c).bus.sharedLine) = true

/-- Its request for such DATA is granted in cycle `c`. -/
def Brings (good : CacheState → Bool) (j : Fin n) (a : Paddr) (c : ℕ) : Prop :=
  ∃ m, r.grantAt c = some m ∧ m.addr = a ∧ m.srcMid = L1id j ∧
    good (x.f.fill m.msg (r.state (c + 1)).bus.sharedLine) = true

/-- The line is in such a state, or about to be. -/
def Has (good : CacheState → Bool) (j : Fin n) (a : Paddr) (c : ℕ) : Prop :=
  good (((r.state c).Nd j).line a) = true ∨ r.Coming good j a c

def Starts (good : CacheState → Bool) (j : Fin n) (a : Paddr) (c : ℕ) : Prop :=
  r.Brings good j a c ∨ good .E = false ∧ r.SilentUpgrade j a c

/-- In a cycle that brings nothing for the line from the bus only the node itself can give it up. -/
theorem has_keep (h : x.f.Lasting good)
    (hl : good (((r.state (c + 1)).Nd j).line a) = good (r.snooped c j a))
    (hother : ¬ r.OtherGETM j a c) (hbrings : ¬ r.Brings good j a c)
    (hcoming : r.Coming good j a (c + 1) ↔ r.Coming good j a c) :
    r.Has good j a (c + 1) ↔ (r.Starts good j a c ∨ r.Has good j a c) ∧ ¬ r.Loses j a c := by
  have hmiss : r.StoreMiss j a c → ¬ r.Coming good j a c := by
    rintro ⟨q, hq, -⟩ ⟨m, hm, -, hsrc, -⟩
    exact (r.not_asking_of_proc hq).1 m hm hsrc
  have hup : r.SilentUpgrade j a c → ¬ r.StoreMiss j a c := by
    rintro ⟨q, hq, -, hu⟩ ⟨q', hq', -, -, hh⟩
    rw [← Option.some.inj (hq.symm.trans hq')] at hh
    rw [not_upgrades hh] at hu
    cases hu
  unfold Has Starts Loses
  rw [hl, r.good_snooped h.rank h.modified, hcoming]
  tauto

/-- The grant of a request of its own. -/
theorem has_ask (h : x.f.Lasting good) (hg : r.grantAt c = some m) (ha : m.addr = a) (hsrc : m.srcMid = L1id j) :
    r.Has good j a (c + 1) ↔ (r.Starts good j a c ∨ r.Has good j a c) ∧ ¬ r.Loses j a c := by
  obtain ⟨i, k, l, hat, hm⟩ := r.requester hg
  obtain rfl : i = j := L1id_injective (by rw [← hsrc, hm, ask_srcMid])
  have haddr : lineOf l.2 = a := by rw [← ha, hm, ask_addr]
  have hproc : ∀ q, ((r.state c).Nd i).L1.procRequest ≠ some q := fun q hq =>
    (r.not_asking_of_proc hq).2 m hg hsrc
  have hpend : ∀ st : CacheState, st.pending = true → good st = false := by
    intro st hst
    by_contra hgood
    have := h.rank st (by simpa using hgood)
    rw [CacheState.rank_of_pending hst] at this
    omega
  have hline : (((r.state c).Nd i).line a).pending = true := by
    rw [← haddr, hat.wait rfl]
    exact pend_pending _
  have hline' : (((r.state (c + 1)).Nd i).line a).pending = true := by
    have hsnooped : r.snooped c i a = ((r.state c).Nd i).line a := by
      rw [r.snooped_eq, Node.procTick_none _ i (by simpa using hat.proc)]
    cases r.busStep c i a with
    | fill m' hg' => rw [r.granted_eq_none_of_grantAt hg] at hg'; cases hg'
    | yield m' _ _ hl => rw [hl, yield_pending, hsnooped, hline]
    | keep hno => exact absurd ha (hno m hg)
  have hcoming : r.Coming good i a (c + 1) ↔ r.Brings good i a c := by
    unfold Coming Brings
    rw [(r.granted_of_grantAt hg).2.2, hg]
  have hnow : ¬ r.Coming good i a c := by
    rintro ⟨m', hm', -⟩
    rw [r.granted_eq_none_of_grantAt hg] at hm'
    cases hm'
  have hup : ¬ r.SilentUpgrade i a c := fun ⟨q, hq, _⟩ => hproc q hq
  have hmiss : ¬ r.StoreMiss i a c := fun ⟨q, hq, _⟩ => hproc q hq
  have hother : ¬ r.OtherGETM i a c := by
    rintro ⟨m', hm', -, hsrc', -⟩
    rw [← Option.some.inj (hg.symm.trans hm')] at hsrc'
    exact hsrc' hsrc
  unfold Has Starts Loses
  rw [hcoming, hpend _ hline, hpend _ hline']
  tauto

/-- The grant of a request of another cache. -/
theorem has_yield (h : x.f.Lasting good) (hg : r.grantAt c = some m) (ha : m.addr = a) (hsrc : m.srcMid ≠ L1id j) :
    r.Has good j a (c + 1) ↔ (r.Starts good j a c ∨ r.Has good j a c) ∧ ¬ r.Loses j a c := by
  have hl : ((r.state (c + 1)).Nd j).line a = x.f.yield m.msg (r.snooped c j a) := by
    cases r.busStep c j a with
    | fill m' hg' => rw [r.granted_eq_none_of_grantAt hg] at hg'; cases hg'
    | yield m' hg' _ hl => rwa [← Option.some.inj (hg.symm.trans hg')] at hl
    | keep hno => exact absurd ha (hno m hg)
  have hnext : ¬ r.Coming good j a (c + 1) := by
    rintro ⟨m', hm', -, hsrc', -⟩
    rw [← Option.some.inj ((r.granted_of_grantAt hg).2.2.symm.trans hm')] at hsrc'
    exact hsrc hsrc'
  have hnow : ¬ r.Coming good j a c := by
    rintro ⟨m', hm', -⟩
    rw [r.granted_eq_none_of_grantAt hg] at hm'
    cases hm'
  have hbrings : ¬ r.Brings good j a c := by
    rintro ⟨m', hm', -, hsrc', -⟩
    rw [← Option.some.inj (hg.symm.trans hm')] at hsrc'
    exact hsrc hsrc'
  obtain ⟨i, k, l, -, hm⟩ := r.requester hg
  rcases request_cases x.f (opOf l.1) with hk | hk
  · have hkind : m.msg = .GETS := by rw [hm, ask_msg, hk]
    refine r.has_keep h (by rw [hl, hkind, h.gets]) ?_ hbrings (iff_of_false hnext hnow)
    rintro ⟨m', hm', -, -, hk'⟩
    rw [← Option.some.inj (hg.symm.trans hm'), hkind] at hk'
    cases hk'
  · have hkind : m.msg = .GETM := by rw [hm, ask_msg, hk]
    have hgone : good (((r.state (c + 1)).Nd j).line a) ≠ true := by
      intro hgood
      have := h.rank _ hgood
      rw [hl, hkind, x.f.yield_GETM_rank] at this
      omega
    have hlost : r.Loses j a c := Or.inl ⟨m, hg, ha, hsrc, hkind⟩
    exact iff_of_false (not_or.mpr ⟨hgone, hnext⟩) fun hh => hh.2 hlost

/-- The DATA of a request of its own. -/
theorem has_fill (h : x.f.Lasting good) (hg : r.granted c = some m) (hg' : r.granted (c + 1) = none)
    (hgrant : r.grantAt c = none) (ha : m.addr = a) (hsrc : m.srcMid = L1id j) :
    r.Has good j a (c + 1) ↔ (r.Starts good j a c ∨ r.Has good j a c) ∧ ¬ r.Loses j a c := by
  have hproc : ∀ q, ((r.state c).Nd j).L1.procRequest ≠ some q := fun q hq =>
    (r.not_asking_of_proc hq).1 m hg hsrc
  obtain ⟨d, hd⟩ : ∃ d, (r.state c).bus.dataReply = some d := by
    cases r.turn c with
    | rest hgn | grant _ _ hgn => rw [hg] at hgn; cases hgn
    | hold _ _ _ _ _ hgm => rw [hg'] at hgm; cases hgm
    | data m' d _ _ _ _ hd => exact ⟨d, hd⟩
  obtain ⟨i, k, l, hat, hm, -, -, hfill⟩ := (r.inv c).line_data hg hd
  obtain rfl : i = j := L1id_injective (by rw [← hsrc, hm, ask_srcMid])
  have haddr : lineOf l.2 = a := by rw [← ha, hm, ask_addr]
  have hl : ((r.state (c + 1)).Nd i).line a = x.f.fill m.msg (r.state c).bus.sharedLine := by
    rw [r.next, line_next, hfill, if_pos ha.symm]
  have hline : good (((r.state c).Nd i).line a) ≠ true := by
    intro hgood
    have := h.rank _ hgood
    rw [← haddr, hat.wait rfl, pend_rank] at this
    omega
  have hcoming : r.Coming good i a c ↔ good (x.f.fill m.msg (r.state c).bus.sharedLine) = true := by
    unfold Coming
    rw [hg]
    refine ⟨?_, fun hgood => ⟨m, rfl, ha, hsrc, hgood⟩⟩
    rintro ⟨m', hm', -, -, hgood⟩
    rwa [Option.some.inj hm']
  have hnext : ¬ r.Coming good i a (c + 1) := by
    rintro ⟨m', hm', -⟩
    rw [hg'] at hm'
    cases hm'
  have hup : ¬ r.SilentUpgrade i a c := fun ⟨q, hq, _⟩ => hproc q hq
  have hmiss : ¬ r.StoreMiss i a c := fun ⟨q, hq, _⟩ => hproc q hq
  have hother : ¬ r.OtherGETM i a c := by
    rintro ⟨m', hm', -⟩
    rw [hgrant] at hm'
    cases hm'
  have hbrings : ¬ r.Brings good i a c := by
    rintro ⟨m', hm', -⟩
    rw [hgrant] at hm'
    cases hm'
  unfold Has Starts Loses
  rw [hl, hcoming]
  tauto

/-- **How a cycle starts and ends the possession of a line.** -/
theorem has_succ (h : x.f.Lasting good) (c : ℕ) (j : Fin n) (a : Paddr) :
    r.Has good j a (c + 1) ↔ (r.Starts good j a c ∨ r.Has good j a c) ∧ ¬ r.Loses j a c := by
  -- a cycle that grants nothing for the line and brings no DATA for it
  have hkeep : (∀ m, r.grantAt c = some m → m.addr ≠ a) →
      (∀ m, r.granted c = some m → m.addr = a → m.srcMid = L1id j → r.granted (c + 1) ≠ none) →
      (r.Coming good j a (c + 1) ↔ r.Coming good j a c) →
      (r.Has good j a (c + 1) ↔ (r.Starts good j a c ∨ r.Has good j a c) ∧ ¬ r.Loses j a c) := by
    intro hno hnf hcoming
    refine r.has_keep h ?_ (fun ⟨m, hg, ha, _⟩ => hno m hg ha) (fun ⟨m, hg, ha, _⟩ => hno m hg ha) hcoming
    cases r.busStep c j a with
    | fill m hg hsrc ha hg' => exact absurd hg' (hnf m hg ha hsrc)
    | yield m hg ha => exact absurd ha (hno m hg)
    | keep _ hl => rw [hl]
  have hnone : ∀ {c'}, r.granted c' = none → ¬ r.Coming good j a c' := by
    rintro c' hg ⟨m, hm, -⟩
    rw [hg] at hm
    cases hm
  cases r.turn c with
  | rest hg hb _ _ hg' =>
    have hgrant : ∀ m, r.grantAt c ≠ some m := by simp [grantAt, hb]
    exact hkeep (fun m hm => absurd hm (hgrant m)) (fun m hm => by rw [hg] at hm; cases hm)
      (iff_of_false (hnone hg') (hnone hg))
  | grant m _ hg hb hmd _ hg' =>
    have hgrant := r.grantAt_eq_some.mpr ⟨hb, hmd⟩
    by_cases ha : m.addr = a
    · by_cases hsrc : m.srcMid = L1id j
      · exact r.has_ask h hgrant ha hsrc
      · exact r.has_yield h hgrant ha hsrc
    · refine hkeep (fun m' hm' => ?_) (fun m' hm' => by rw [hg] at hm'; cases hm')
        (iff_of_false ?_ (hnone hg))
      · rwa [← Option.some.inj (hgrant.symm.trans hm')]
      · rintro ⟨m', hm', ha', -⟩
        rw [← Option.some.inj (hg'.symm.trans hm')] at ha'
        exact ha ha'
  | hold m hg hb _ _ hg' =>
    have hgrant : ∀ m, r.grantAt c ≠ some m := by simp [grantAt, hb]
    refine hkeep (fun m hm => absurd hm (hgrant m)) (fun m' _ _ _ => by rw [hg']; exact Option.some_ne_none m) ?_
    unfold Coming
    rw [hg', r.sharedLine_hold hg hg', hg]
  | data m d hg hb _ hmd _ hg' =>
    have hgrant : r.grantAt c = none := by simp [grantAt, hb, hmd]
    by_cases hown : m.addr = a ∧ m.srcMid = L1id j
    · exact r.has_fill h hg hg' hgrant hown.1 hown.2
    · have hnow : ∀ m', r.granted c = some m' → ¬ (m'.addr = a ∧ m'.srcMid = L1id j) := by
        intro m' hm'
        rwa [← Option.some.inj (hg.symm.trans hm')]
      exact hkeep (fun m' hm' => by rw [hgrant] at hm'; cases hm')
        (fun m' hm' ha hsrc => absurd ⟨ha, hsrc⟩ (hnow m' hm'))
        (iff_of_false (hnone hg') fun ⟨m', hm', ha, hsrc, _⟩ => hnow m' hm' ⟨ha, hsrc⟩)

/-- **The state of a line says how it was come by.** -/
theorem has_iff (h : x.f.Lasting good) (c : ℕ) (j : Fin n) (a : Paddr) :
    r.Has good j a c ↔ History.Held (r.Starts good j a) (r.Loses j a) c := by
  refine History.iff_held ?_ (fun c => r.has_succ h c j a) c
  rintro (hgood | ⟨m, hm, -⟩)
  · have hI : ((r.state 0).Nd j).line a = .I := by rw [r.start]; rfl
    have := h.rank _ hgood
    rw [hI] at this
    exact absurd this (by decide)
  · cases hm

/-! ### The only copy -/

theorem not_storeMiss_of_rank (h : (((r.state c).Nd j).line a).rank = 3) : ¬ r.StoreMiss j a c := by
  rintro ⟨q, -, -, hop, hh⟩
  rw [hop] at hh
  simp [hits, h] at hh

/-- The only copy of a line is not given up by an access of its own. -/
theorem pending_succ (h : (((r.state c).Nd j).line a).rank = 3) :
    (((r.state (c + 1)).Nd j).line a).pending = false := by
  have hp : (((r.state c).Nd j).line a).pending = false := by
    by_contra hp
    rw [CacheState.rank_of_pending (by simpa using hp)] at h
    cases h
  have hs : (r.snooped c j a).pending = false := by
    cases r.ownStep c j a with
    | other _ hs => rw [hs, hp]
    | hit q _ _ hh hs => rw [hs, afterHit_pending hh]
    | miss q hq _ hh =>
      rcases ((r.inv c).procReady j q hq).1 with hop | hop <;> rw [hop] at hh <;> simp [hits, h] at hh
  cases r.busStep c j a with
  | fill m _ _ _ _ hpend =>
    rw [hpend, pend_pending] at hs
    cases hs
  | yield m _ _ hl => rw [hl, yield_pending, hs]
  | keep _ hl => rw [hl, hs]

/-- A line that waits for its turn has not been come by since. -/
theorem not_since_of_pending (hp : (((r.state c).Nd j).line a).pending = true)
    (hg : ∀ m, r.granted c = some m → m.addr = a → m.srcMid ≠ L1id j) :
    ¬ History.Since (r.OwnWritable j a) (r.GrantFor a) c := by
  induction c with
  | zero => exact History.not_since_zero
  | succ c ih =>
    rw [History.since_succ]
    rintro (hw | ⟨hsince, -⟩)
    · obtain ⟨m, hm, ha, hsrc⟩ := hw.ownGrant
      exact hg m (r.granted_of_grantAt hm).2.2 ha hsrc
    · cases hpc : (((r.state c).Nd j).line a).pending with
      | false =>
        have hrank := (r.lineHistory c j a hpc).writable.mpr hsince
        rw [r.pending_succ hrank] at hp
        cases hp
      | true =>
        refine ih hpc (fun m hm ha hsrc => ?_) hsince
        cases r.turn c with
        | rest hgn | grant _ _ hgn => rw [hm] at hgn; cases hgn
        | hold m' hgm _ _ _ hg' =>
          obtain rfl : m = m' := Option.some.inj (hm.symm.trans hgm)
          exact hg m hg' ha hsrc
        | data m' d hgm _ _ _ hd =>
          obtain rfl : m = m' := Option.some.inj (hm.symm.trans hgm)
          obtain ⟨i, k, l, -, hask, -, -, hfill⟩ := (r.inv c).line_data hgm hd
          obtain rfl : i = j := L1id_injective (by rw [← hsrc, hask, ask_srcMid])
          rw [r.next, line_next, hfill, if_pos ha.symm, fill_pending] at hp
          cases hp

/-- A cache has the only copy if it was the last to ask for the line, and so asked. -/
theorem rank_iff_since (hg : r.granted c = none) (j : Fin n) (a : Paddr) :
    (((r.state c).Nd j).line a).rank = 3 ↔ History.Since (r.OwnWritable j a) (r.GrantFor a) c := by
  cases hp : (((r.state c).Nd j).line a).pending with
  | false => exact (r.lineHistory c j a hp).writable
  | true =>
    refine iff_of_false ?_ (r.not_since_of_pending hp fun m hm => ?_)
    · rw [CacheState.rank_of_pending hp]
      decide
    · rw [hg] at hm
      cases hm

/-! ### Who supplies -/

/-- Between two transactions. -/
theorem has_of_free (hg : r.granted c = none) (j : Fin n) (a : Paddr) :
    r.Has good j a c ↔ good (((r.state c).Nd j).line a) = true := by
  refine or_iff_left ?_
  rintro ⟨m, hm, -⟩
  rw [hg] at hm
  cases hm

/-- The states of an owner. -/
def dirty (st : CacheState) : Bool := st = .M ∨ st = .O

theorem lasting_dirty (hs : x.f.shared = true) (ho : x.f.owned = true) : x.f.Lasting dirty where
  rank st := by cases st <;> decide
  modified := rfl
  gets st := by
    rcases hf : x.f with ⟨s, e, o, w⟩
    rw [hf] at hs ho
    obtain rfl : s = true := hs
    obtain rfl : o = true := ho
    cases st <;> cases e <;> cases w <;> rfl

theorem rank_of_supplies (st : CacheState) (h : supplies st = true) : 1 ≤ st.rank := by
  simp only [supplies, decide_eq_true_eq] at h
  omega

theorem lasting_supplies (hs : x.f.shared = true) (ho : x.f.owned = true) (hw : x.f.forward = true) :
    x.f.Lasting supplies where
  rank := rank_of_supplies
  modified := rfl
  gets st := by
    rcases hf : x.f with ⟨s, e, o, w⟩
    rw [hf] at hs ho hw
    obtain rfl : s = true := hs
    obtain rfl : o = true := ho
    obtain rfl : w = true := hw
    cases st <;> rfl

/-- A cache that asks by a GETS gets the only copy where there is no other. -/
theorem sharedLine_iff_alone (he : x.f.exclusive = true) (hg : r.grantAt c = some m) (hsrc : m.srcMid = L1id j)
    (hk : m.msg = .GETS) : (r.state (c + 1)).bus.sharedLine = false ↔ r.Alone j m.addr c := by
  obtain ⟨e, i, hlt, hge, hsrc', hno, hsh⟩ := r.in_flight (r.granted_of_grantAt hg).2.2
  obtain rfl : i = j := L1id_injective (hsrc'.symm.trans hsrc)
  obtain rfl : e = c := by
    by_contra hne
    rw [hno c (by omega) (by omega)] at hg
    cases hg
  exact hsh he hk

theorem brings_dirty : r.Brings dirty j a = r.OwnGrantBy .GETM j a := by
  funext c
  refine propext ⟨?_, ?_⟩
  · rintro ⟨m, hg, ha, hsrc, hgood⟩
    refine ⟨m, hg, ha, hsrc, ?_⟩
    by_contra hk
    obtain ⟨i, k, l, -, hm⟩ := r.requester hg
    have hgets : m.msg = .GETS := by
      rcases request_cases x.f (opOf l.1) with h | h
      · rw [hm, ask_msg, h]
      · exact absurd (by rw [hm, ask_msg, h]) hk
    rw [hgets, fill, if_pos rfl] at hgood
    split at hgood <;> cases hgood
  · rintro ⟨m, hg, ha, hsrc, hk⟩
    exact ⟨m, hg, ha, hsrc, by rw [hk]; rfl⟩

theorem brings_supplies (he : x.f.exclusive = true) : r.Brings supplies j a = r.OwnExclusive j a := by
  funext c
  refine propext ⟨?_, ?_⟩
  · rintro ⟨m, hg, rfl, hsrc, hgood⟩
    obtain ⟨i, k, l, -, hm⟩ := r.requester hg
    rcases request_cases x.f (opOf l.1) with hk | hk
    · have hgets : m.msg = .GETS := by rw [hm, ask_msg, hk]
      refine Or.inr ⟨⟨m, hg, rfl, hsrc, hgets⟩, (r.sharedLine_iff_alone he hg hsrc hgets).mp ?_⟩
      by_contra hsh
      rw [hgets, fill, if_pos rfl, if_neg fun h => hsh h.2] at hgood
      cases hgood
    · exact Or.inl ⟨m, hg, rfl, hsrc, by rw [hm, ask_msg, hk]⟩
  · rintro (⟨m, hg, ha, hsrc, hk⟩ | ⟨⟨m, hg, rfl, hsrc, hk⟩, halone⟩)
    · exact ⟨m, hg, ha, hsrc, by rw [hk]; rfl⟩
    · refine ⟨m, hg, rfl, hsrc, ?_⟩
      rw [hk, fill, if_pos rfl, if_pos ⟨he, (r.sharedLine_iff_alone he hg hsrc hk).mpr halone⟩]
      rfl

/-- **Which cache supplies a line is what the history says.** -/
theorem supplies_iff (hg : r.grantAt c = some m) (j : Fin n) (a : Paddr) :
    supplies (r.snooped c j a) = true ↔ r.HistorySupplier j a c := by
  have hfree := r.granted_eq_none_of_grantAt hg
  have hsnooped : supplies (r.snooped c j a) = true ↔
      supplies (((r.state c).Nd j).line a) = true ∧ ¬ r.StoreMiss j a c := by
    have hall := r.good_snooped rank_of_supplies rfl c j a
    rw [hall]
    exact or_iff_left fun h => by cases h.1
  have hthree := r.rank_iff_since hfree j a
  have hkeep := r.not_storeMiss_of_rank (c := c) (j := j) (a := a)
  have hvalid := (r.inv c).valid j a
  set st := ((r.state c).Nd j).line a with hst
  -- without an owner or a forwarder the copy that supplies is the only one
  have hone : x.f.owned = false → x.f.forward = false →
      (supplies (r.snooped c j a) = true ↔ History.Since (r.OwnWritable j a) (r.GrantFor a) c) := by
    intro ho hw
    have hrank : supplies st = true ↔ st.rank = 3 := by
      revert hvalid
      cases st <;> simp [valid, ho, hw, supplies, CacheState.rank]
    rw [hsnooped, hrank, ← hthree]
    exact and_iff_left_of_imp hkeep
  -- with an owner but no forwarder it is the only one or dirty
  have hdirty : x.f.shared = true → x.f.owned = true → (dirty st = true ∧ ¬ r.StoreMiss j a c ↔
      r.Keeps (r.Starts dirty j a) j a c) := by
    intro hs ho
    rw [← r.has_of_free hfree, r.has_iff (lasting_dirty hs ho), Keeps]
  unfold HistorySupplier
  cases hp : x.protocol with
  | MI_PRO =>
    have hf : x.f = Protocol.features .MI_PRO := congrArg Protocol.features hp
    rw [hone (by rw [hf]; rfl) (by rw [hf]; rfl), r.ownWritable_of_not_exclusive (by rw [hf]; rfl),
      ← r.ownGrant_of_not_shared (by rw [hf]; rfl)]
  | MSI_PRO =>
    have hf : x.f = Protocol.features .MSI_PRO := congrArg Protocol.features hp
    rw [hone (by rw [hf]; rfl) (by rw [hf]; rfl), r.ownWritable_of_not_exclusive (by rw [hf]; rfl)]
  | MESI_PRO =>
    have hf : x.f = Protocol.features .MESI_PRO := congrArg Protocol.features hp
    rw [hone (by rw [hf]; rfl) (by rw [hf]; rfl), r.ownWritable_of_exclusive (by rw [hf]; rfl)]
  | MOSI_PRO =>
    have hf : x.f = Protocol.features .MOSI_PRO := congrArg Protocol.features hp
    have hrank : supplies st = true ↔ dirty st = true := by
      rw [hf] at hvalid
      revert hvalid
      cases st <;> decide
    have hstarts : r.Starts dirty j a = r.OwnGrantBy .GETM j a := by
      funext e
      -- there is no `E`
      have hno : ¬ r.SilentUpgrade j a e := by
        rintro ⟨q, -, -, hu⟩
        have hve := (r.inv e).valid j a
        rw [hf] at hve
        revert hve hu
        cases ((r.state e).Nd j).line a <;> simp [valid, upgrades, Protocol.features]
      rw [Starts, brings_dirty]
      simp [hno]
    rw [hsnooped, hrank, hdirty (by rw [hf]; rfl) (by rw [hf]; rfl), hstarts]
  | MOESI_PRO =>
    have hf : x.f = Protocol.features .MOESI_PRO := congrArg Protocol.features hp
    have hrank : supplies st = true ↔ st.rank = 3 ∨ dirty st = true := by
      rw [hf] at hvalid
      revert hvalid
      cases st <;> decide
    have hstarts : r.Starts dirty j a = fun e => r.OwnGrantBy .GETM j a e ∨ r.SilentUpgrade j a e := by
      funext e
      rw [Starts, brings_dirty]
      simp [dirty]
    rw [hsnooped, hrank, or_and_right, and_iff_left_of_imp hkeep, hthree,
      r.ownWritable_of_exclusive (by rw [hf]; rfl), hdirty (by rw [hf]; rfl) (by rw [hf]; rfl), hstarts]
  | MOESIF_PRO =>
    have hf : x.f = Protocol.features .MOESIF_PRO := congrArg Protocol.features hp
    have hstarts : r.Starts supplies j a = r.OwnExclusive j a := by
      funext e
      rw [Starts, brings_supplies r (by rw [hf]; rfl)]
      exact propext (or_iff_left fun h => by cases h.1)
    rw [hsnooped, ← r.has_of_free hfree,
      r.has_iff (lasting_supplies (by rw [hf]; rfl) (by rw [hf]; rfl) (by rw [hf]; rfl)), hstarts]
    rfl

/-! ### Who answers -/

theorem replied_isSome_iff (hg : r.grantAt c = some m) :
    (r.replied c).isSome = true ↔ ∃ j, r.HistorySupplier j m.addr c := by
  simp only [← r.supplies_iff hg, r.snooped_eq]
  constructor
  · intro hr
    by_contra hnone
    rw [r.replied_none hg fun j => by simpa using not_exists.mp hnone j] at hr
    cases hr
  · rintro ⟨j, hj⟩
    rw [r.replied_of_supplies hg hj]
    rfl

/-- **Who answers is what the history says.** The DATA for a request granted in cycle `g` is
cache `j`'s, in the next cycle, if and only if the history makes `j` the supplier; and if it
makes none, it is the memory's, after its latency. -/
theorem answered_iff_history (hg : r.grantAt g = some m) :
    (∀ j : Fin n, r.OnlyData g (g + 1) ⟨.DATA, m.addr, L1id j, m.srcMid⟩ ↔ r.HistorySupplier j m.addr g) ∧
    ((∀ j, ¬ r.HistorySupplier j m.addr g) →
      r.OnlyData g (g + x.hitTime + 1) ⟨.DATA, m.addr, MCid n, m.srcMid⟩) := by
  have hline : lineOf m.addr = m.addr := by
    obtain ⟨i, k, l, -, hm⟩ := r.requester hg
    rw [hm, ask_addr, lineOf_lineOf]
  refine ⟨fun j => ⟨fun h => ?_, fun h => ?_⟩, fun hnone => ?_⟩
  · have hdata := h.data
    cases hr : r.replied g with
    | none =>
      -- the memory is not so fast
      have hpos := x.hitTime_pos
      obtain ⟨hgc, hdc, -⟩ := r.awaits_memory hg hr (g + 1) (by omega) (by omega)
      rw [dataAt, r.onBus_none_of_awaits hgc hdc] at hdata
      cases hdata
    | some d =>
      obtain ⟨i, hi⟩ := (r.replied_isSome_iff hg).mp (by rw [hr]; rfl)
      have hs := (r.supplies_iff hg i m.addr).mpr hi
      rw [r.snooped_eq] at hs
      rw [(r.dataAt_of_replied hg (r.replied_of_supplies hg hs)).2.1] at hdata
      have hsrc : L1id i = L1id j := congrArg Mreq.srcMid (Option.some.inj hdata)
      rwa [← L1id_injective hsrc]
  · have hs := (r.supplies_iff hg j m.addr).mpr h
    rw [r.snooped_eq] at hs
    refine r.onlyData (Nat.lt_succ_self g) ?_ fun c hc hc' => by omega
    rw [(r.dataAt_of_replied hg (r.replied_of_supplies hg hs)).2.1, replyTo, hline]
  · have hr : r.replied g = none := by
      by_contra hne
      obtain ⟨j, hj⟩ := (r.replied_isSome_iff hg).mp (Option.isSome_iff_ne_none.mpr hne)
      exact hnone j hj
    refine r.onlyData (by omega) ?_ fun c hc hc' => ?_
    · rw [r.dataAt_of_memory hg hr, hline]
    · obtain ⟨hgc, hdc, -⟩ := r.awaits_memory hg hr c hc (by omega)
      exact r.onBus_none_of_awaits hgc hdc

open Classical in
/-- **So the transfers can be counted in the history.** -/
theorem transfers_eq_history (r : Run x) (c : ℕ) : (r.state c).stats.cacheToCacheTransfers =
    {g ∈ Finset.range c | ∃ m, r.grantAt g = some m ∧ ∃ j, r.HistorySupplier j m.addr g}.card := by
  induction c with
  | zero => rw [r.start]; rfl
  | succ c ih =>
    have hone : (r.replied c).isSome = true ↔ ∃ m, r.grantAt c = some m ∧ ∃ j, r.HistorySupplier j m.addr c := by
      cases hg : r.grantAt c with
      | none =>
        refine iff_of_false ?_ (by rintro ⟨m, hm, -⟩; cases hm)
        cases r.turn c with
        | rest _ _ hr | hold _ _ _ hr | data _ _ _ _ hr => rw [hr]; decide
        | grant m _ _ hb hmd => rw [r.grantAt_eq_some.mpr ⟨hb, hmd⟩] at hg; cases hg
      | some m =>
        rw [r.replied_isSome_iff hg]
        refine ⟨fun h => ⟨m, rfl, h⟩, ?_⟩
        rintro ⟨m', hm', h⟩
        rwa [Option.some.inj hm']
    rw [r.cacheToCacheTransfers_succ, ih, Finset.range_add_one, Finset.filter_insert]
    cases hr : r.replied c with
    | none =>
      rw [hr] at hone
      rw [if_neg fun h => by cases hone.mpr h]
      rfl
    | some d =>
      rw [hr] at hone
      rw [if_pos (hone.mp rfl), Finset.card_insert_of_notMem (by simp)]
      rfl

end Run

/-- The load, which node 0 answers. -/
theorem answered_iff_history_load :
    let r := (Input.storeLoadStore 1 (Nat.le_refl 1)).run
    (∀ j : Fin 2, r.OnlyData 5 6 ⟨.DATA, 0x40, L1id j, ⟨1, .L1_M⟩⟩ ↔ r.HistorySupplier j 0x40 5) ∧
    ((∀ j, ¬ r.HistorySupplier j 0x40 5) → r.OnlyData 5 7 ⟨.DATA, 0x40, MCid 2, ⟨1, .L1_M⟩⟩) :=
  Run.answered_iff_history _ (g := 5) (m := ⟨.GETS, 0x40, ⟨1, .L1_M⟩, .invalid⟩) (by decide +kernel)

end CoherenceSim
