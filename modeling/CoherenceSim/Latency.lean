/-
# How long an access takes

`latency`: an access that hits is completed two cycles after its line of the trace is
fetched. One that misses waits for what the bus is at and for the requests that are
ahead of its own, two cycles for each that a cache answers and `hitTime + 2` for each
that the memory does, and then for its own DATA as long. So no access takes more than
`2 + n (hitTime + 2)` cycles.
-/
import CoherenceSim.Bypass
import CoherenceSim.Lib.Server

namespace CoherenceSim

open Features

variable {n : ℕ} {x : Input n}

namespace Run

variable (r : Run x) {c e g : ℕ} {i : Fin n} {m : Mreq} {st : Stage} {k : ℕ} {l : Char × Paddr}

/-! ### The bus serves its queue -/

theorem owed_of_free (h : r.granted c = none) : r.owed c = 0 := by
  rw [owed, h]
  rfl

theorem owed_pos (h : r.granted c = some m) : 0 < r.owed c := by
  rw [owed, h, Option.isSome_some, if_pos rfl]
  cases hd : (r.state c).bus.dataReply with
  | some d => exact Nat.one_pos
  | none =>
    have hlate := ((r.inv c).lookup m h hd).2.2.2
    rw [r.clock] at hlate
    simp only [Option.isSome_none, Bool.false_eq_true, if_false]
    omega

/-- A cycle of a transaction. -/
theorem owed_succ (h : r.granted c = some m) : r.grantAt c = none ∧ r.owed (c + 1) + 1 = r.owed c := by
  cases r.turn c with
  | rest hg | grant _ _ hg => rw [h] at hg; cases hg
  | data m' d hg hb _ hmd hd hg' =>
    refine ⟨by simp [grantAt, hb, hmd], ?_⟩
    rw [r.owed_of_free hg', owed, hg, hd]
    rfl
  | hold m' hg hb _ hd hg' _ hd' hm' =>
    refine ⟨by simp [grantAt, hb], ?_⟩
    have hlate := ((r.inv c).lookup m' hg hd).2.2.2
    rw [r.clock] at hlate
    simp only [owed, hg, hg', hd, hd', hm', Option.isSome_some, Option.isSome_none, if_true,
      Bool.false_eq_true, if_false]
    by_cases hle : (r.state c).MC.dataTime ≤ c
    · simp only [if_pos hle, Option.isSome_some, if_true]
      omega
    · simp only [if_neg hle, Option.isSome_none, Bool.false_eq_true, if_false]
      omega

/-- **The bus is the server of its queue**: it grants as soon as it is free. -/
def server : Server Mreq where
  toQueue := r.queue
  owed := r.owed
  takes c m q ho hq := by
    have hq' : (r.state c).bus.pendingRequests = m :: q := hq
    cases r.turn c with
    | rest _ _ _ hempty => rw [hempty] at hq'; cases hq'
    | grant m' q' _ hb hmd hq'' =>
      obtain ⟨rfl, -⟩ := List.cons.inj (hq'.symm.trans hq'')
      exact r.grantAt_eq_some.mpr ⟨hb, hmd⟩
    | hold m' hg | data m' _ hg =>
      have := r.owed_pos hg
      omega
  works c ho := by
    cases hg : r.granted c with
    | none =>
      rw [r.owed_of_free hg] at ho
      cases ho
    | some m => exact r.owed_succ hg

/-- The cycles the bus spends on what it grants in cycle `c`. -/
def service (c : ℕ) : ℕ :=
  if (r.grantAt c).isSome then (if (r.replied c).isSome then 2 else x.hitTime + 2) else 0

theorem owed_grant (h : r.grantAt c = some m) : r.owed (c + 1) + 1 = r.service c := by
  rw [service, h]
  have hb := (r.grantAt_eq_some.mp h).1
  cases r.turn c with
  | rest _ hb' | hold _ _ hb' => rw [hb] at hb'; cases hb'
  | data _ _ _ _ _ hmd => exact absurd hmd (by
      obtain ⟨hb', hmd'⟩ := r.grantAt_eq_some.mp h
      simp_all)
  | grant m' q _ _ _ _ hg' _ hd' hm' =>
    simp only [owed, hg', hd', hm', Option.isSome_some, if_true]
    split <;> omega

theorem server_service (c : ℕ) : r.server.service c = r.service c := by
  cases h : r.grantAt c with
  | none => rw [r.server.service_of_none h, service, h]; rfl
  | some m => exact (r.server.service_of_takes h).trans (r.owed_grant h)

theorem service_le (c : ℕ) : r.service c ≤ x.hitTime + 2 := by
  unfold service
  split_ifs <;> omega

theorem owed_le (c : ℕ) : r.owed c ≤ (r.granted c).toList.length * (x.hitTime + 2) := by
  induction c with
  | zero => rw [r.owed_of_free (c := 0) rfl]; exact Nat.zero_le _
  | succ c ih =>
    cases hg' : r.granted (c + 1) with
    | none => rw [r.owed_of_free hg']; exact Nat.zero_le _
    | some m =>
      rw [Option.toList_some, List.length_singleton, Nat.one_mul]
      cases hg : r.granted c with
      | some m' =>
        rw [hg, Option.toList_some, List.length_singleton, Nat.one_mul] at ih
        have := (r.owed_succ hg).2
        omega
      | none =>
        have hgrant : r.grantAt c = some m := by
          rw [granted, hg] at hg'
          cases r.turn c with
          | rest _ hb | hold _ _ hb => rw [hb] at hg'; cases hg'
          | data _ _ hgm => rw [hg] at hgm; cases hgm
          | grant m' _ _ hb hmd _ hgm =>
            obtain rfl : m' = m := Option.some.inj (hgm.symm.trans (by rw [granted, hg]; exact hg'))
            exact r.grantAt_eq_some.mpr ⟨hb, hmd⟩
        have := r.owed_grant hgrant
        have := r.service_le c
        omega

/-- A node has one request at most in the queue and on its way. -/
theorem length_requests_le (c : ℕ) :
    ((r.granted c).toList ++ (r.state c).bus.pendingRequests).length ≤ n := by
  set l := (r.granted c).toList ++ (r.state c).bus.pendingRequests with hl
  have hnode : ∀ m ∈ l, ∃ i : Fin n, m.srcMid = L1id i := by
    intro m hm
    rcases List.mem_append.mp hm with hg | hq
    · exact (r.inv c).grantee m (Option.mem_toList.mp hg)
    · exact (r.inv c).queued m hq
  have hone : ∀ i : Fin n, (l.filter (·.srcMid = L1id i)).length ≤ 1 := by
    intro i
    obtain ⟨st, k, e, ha⟩ := (r.inv c).node i
    have hgrant := ha.grant
    rw [hl, List.filter_append, ha.queue]
    cases hg : r.granted c with
    | none => simp only [Option.toList_none, List.filter_nil, List.nil_append]; split <;> simp
    | some m =>
      rw [hg] at hgrant
      by_cases hsrc : m.srcMid = L1id i
      · -- what is granted is not in the queue
        have hst : st = .granted := by
          by_contra hst
          simp [Option.filter, hsrc, hst] at hgrant
        simp [hst, hsrc]
      · simp only [Option.toList_some]
        split <;> simp [hsrc]
  have hdistinct : (l.map (·.srcMid)).Nodup := by
    refine List.nodup_iff_count_le_one.mpr fun id => ?_
    by_cases hid : ∃ m ∈ l, m.srcMid = id
    · obtain ⟨m, hm, rfl⟩ := hid
      obtain ⟨i, hi⟩ := hnode m hm
      rw [hi, List.count, List.countP_map, List.countP_eq_length_filter]
      exact hone i
    · rw [List.count_eq_zero_of_not_mem]
      · exact Nat.zero_le 1
      · intro hmem
        exact hid (by simpa using hmem)
  have hsub : l.map (·.srcMid) ⊆ (List.finRange n).map L1id := by
    intro id hid
    obtain ⟨m, hm, rfl⟩ := List.mem_map.mp hid
    obtain ⟨i, hi⟩ := hnode m hm
    exact List.mem_map.mpr ⟨i, List.mem_finRange i, hi.symm⟩
  simpa using (hdistinct.subperm hsub).length_le

/-! ### The wait for the bus -/

/-- What is ahead of a request in the queue is of other nodes. -/
theorem ahead_srcMid {ahead behind : List Mreq}
    (h : (r.state c).bus.pendingRequests = ahead ++ m :: behind) : ∀ m' ∈ ahead, m'.srcMid ≠ m.srcMid := by
  intro m' hm' hsame
  have hnodup := r.nodup_pending c
  rw [h, List.map_append, List.nodup_append] at hnodup
  exact hnodup.2.2 m'.srcMid (List.mem_map_of_mem hm') m.srcMid (by simp) hsame

/-- **A request is granted when the bus has done with what is ahead of it**, and not a
cycle later. -/
theorem granted_exactly (hm : m ∈ r.appended e i) : ∃ g, e < g ∧ r.grantAt g = some m ∧
    (∀ c, e < c → c < g → ∀ m', r.grantAt c = some m' → m'.srcMid ≠ m.srcMid) ∧
    g = e + 1 + r.owed (e + 1) + ∑ c ∈ Finset.Ico (e + 1) g, r.service c ∧
    g ≤ e + 1 + (n - 1) * (x.hitTime + 2) := by
  obtain ⟨ahead, behind, hsplit⟩ := List.append_of_mem (r.waits_of_appended hm)
  obtain ⟨j, hleave, hleft, hj, hle⟩ := r.server.waits_at_most (T := x.hitTime + 2)
    (fun c => (r.server_service c).trans_le (r.service_le c)) hsplit
  have hspent : r.server.spent (e + 1) j = ∑ c ∈ Finset.Ico (e + 1) (e + 1 + j), r.service c :=
    Finset.sum_congr rfl fun c _ => r.server_service c
  refine ⟨e + 1 + j, by omega, hleave, fun c hc hcg m' hg => ?_, ?_, ?_⟩
  · have hmem : m' ∈ r.server.left (e + 1) j := by
      rw [Queue.left, List.mem_filterMap]
      exact ⟨c, List.mem_range'_1.mpr ⟨hc, hcg⟩, hg⟩
    rw [hleft] at hmem
    exact r.ahead_srcMid hsplit m' hmem
  · rw [← hspent]
    have howed : r.server.owed (e + 1) = r.owed (e + 1) := rfl
    omega
  · -- of the `n` nodes one is `i`
    have hlen := r.length_requests_le (e + 1)
    rw [show (r.state (e + 1)).bus.pendingRequests = ahead ++ m :: behind from hsplit, List.length_append,
      List.length_append, List.length_cons] at hlen
    have howed := r.owed_le (e + 1)
    calc e + 1 + j ≤ e + 1 + (r.owed (e + 1) + ahead.length * (x.hitTime + 2)) := Nat.add_le_add_left hle _
      _ ≤ e + 1 + ((r.granted (e + 1)).toList.length + ahead.length) * (x.hitTime + 2) := by
          rw [Nat.add_mul]; omega
      _ ≤ e + 1 + (n - 1) * (x.hitTime + 2) :=
          Nat.add_le_add_left (Nat.mul_le_mul_right _ (by omega)) _

/-! ### The way of an access -/

/-- It waits in the queue until its request is granted. -/
theorem queued_until (ha : At x (r.state c) (r.granted c) i .queued k l)
    (hno : ∀ c', c ≤ c' → c' < g → ∀ m', r.grantAt c' = some m' → m'.srcMid ≠ L1id i) (hle : c ≤ g) :
    At x (r.state g) (r.granted g) i .queued k l := by
  induction g, hle using Nat.le_induction with
  | base => exact ha
  | succ g hle ih =>
    have hnow := ih fun c' hc hc' => hno c' hc (by omega)
    obtain ⟨st', k', l', hmove, hnext⟩ := r.move hnow
    cases hmove with
    | wait => exact hnext
    | grant hw =>
      have hgrant : r.grantAt g = some (x.ask i l) :=
        r.grantAt_eq_some.mpr ⟨(r.onBus_eq g).trans hw, request_ne_DATA x.f (opOf l.1)⟩
      exact absurd rfl (hno g hle (Nat.lt_succ_self g) _ hgrant)
    | fetch hst | finish hst => rcases hst with hst | ⟨hst, -⟩ <;> cases hst

theorem granted_next (ha : At x (r.state c) (r.granted c) i .queued k l)
    (hg : r.grantAt c = some (x.ask i l)) : At x (r.state (c + 1)) (r.granted (c + 1)) i .granted k l := by
  obtain ⟨st', k', l', hmove, hnext⟩ := r.move ha
  have hwire : (r.state c).wire = some (x.ask i l) := by
    rw [← r.onBus_eq]
    exact (r.grantAt_eq_some.mp hg).1
  cases hmove with
  | wait hw => exact absurd hwire hw
  | grant => exact hnext
  | fetch hst | finish hst => rcases hst with hst | ⟨hst, -⟩ <;> cases hst

/-- Then for its DATA as long as the bus is busy with it. -/
theorem answered_of_granted (ha : At x (r.state c) (r.granted c) i .granted k l) :
    At x (r.state (c + r.owed c)) (r.granted (c + r.owed c)) i .answered k l := by
  induction ho : r.owed c generalizing c with
  | zero =>
    have := r.owed_pos ha.granted_eq
    omega
  | succ o ih =>
    have howed := (r.owed_succ ha.granted_eq).2
    obtain ⟨st', k', l', hmove, hnext⟩ := r.move ha
    cases hmove with
    | hold =>
      rw [show c + (o + 1) = c + 1 + o by omega]
      exact ih hnext (by omega)
    | data hw =>
      -- with its DATA the transaction is over
      obtain ⟨d, hd, hmd, -⟩ := hw
      have hfree : r.granted (c + 1) = none := by
        rw [r.granted_succ, hd, nextGrant, if_pos hmd]
      rw [r.owed_of_free hfree] at howed
      obtain rfl : o = 0 := by omega
      exact hnext
    | fetch hst | finish hst => rcases hst with hst | ⟨hst, -⟩ <;> cases hst

/-- Node `i` fetches line `k` of its trace in cycle `f`. -/
def FetchedIn (i : Fin n) (k f : ℕ) : Prop := r.fetched f i = k ∧ r.fetched (f + 1) i = k + 1

/-- And completes its access in cycle `e`. -/
def CompletedIn (i : Fin n) (k e : ℕ) : Prop :=
  (r.completions i e).length = k ∧ (r.completions i (e + 1)).length = k + 1

theorem completedIn_of_answered (ha : At x (r.state c) (r.granted c) i .answered (k + 1) l) :
    r.CompletedIn i k c := by
  obtain ⟨st', k', l', ha', -, hcomp⟩ := r.issues_completions i c
  obtain rfl : k' = k + 1 := (r.fetched_eq ha').symm.trans (r.fetched_eq ha)
  have hst : st' ≠ .idle := by
    have hout := ha'.outstanding
    rw [ha.outstanding] at hout
    simpa using hout.symm
  have hlen : (r.completions i c).length = k := by
    have hk := ha.k_le
    rw [hcomp, if_neg hst, Nat.add_sub_cancel, List.length_map, List.length_take]
    omega
  refine ⟨hlen, ?_⟩
  rw [completions, List.length_append, hlen, ha.inbound]
  rfl

/-- Every line is fetched in some cycle. -/
theorem exists_fetchedIn (i : Fin n) {k : ℕ} (hk : k < (x.traces i).length) : ∃ f l,
    r.FetchedIn i k f ∧ (x.traces i)[k]? = some l ∧
      At x (r.state (f + 1)) (r.granted (f + 1)) i .issued (k + 1) l := by
  have hex : ∃ c, k < r.fetched c i := by
    obtain ⟨R, hR⟩ := r.exists_ends
    obtain ⟨st, k', l, ha⟩ := (r.inv R).node i
    exact ⟨R, by rwa [r.fetched_eq ha, (hR.idle r ha).2]⟩
  have hzero : r.fetched 0 i = 0 := by simp [fetched, r.start, Simulator.init, Simulator.build]
  obtain ⟨f, hf⟩ : ∃ f, Nat.find hex = f + 1 := by
    refine ⟨Nat.find hex - 1, ?_⟩
    have hne : Nat.find hex ≠ 0 := by
      intro h0
      have hspec := Nat.find_spec hex
      rw [h0, hzero] at hspec
      exact Nat.not_lt_zero k hspec
    omega
  have hafter : k < r.fetched (f + 1) i := hf ▸ Nat.find_spec hex
  have hbefore : ¬ k < r.fetched f i := Nat.find_min hex (by omega)
  obtain ⟨st, k', l, ha⟩ := (r.inv (f + 1)).node i
  have hstep := r.fetched_succ i (c := f)
  rw [r.procRequest_toNat ha] at hstep
  have hone := Bool.toNat_le (decide (st = .issued))
  have hst : st = .issued := by
    by_contra hst
    rw [decide_eq_false hst, Bool.toNat_false] at hstep
    omega
  have hk' := r.fetched_eq ha
  obtain rfl : k' = k + 1 := by omega
  subst hst
  obtain ⟨-, hl⟩ := ha.fetched (by decide)
  exact ⟨f, l, ⟨by omega, hk'⟩, hl, ha⟩

/-! ### The latency -/

/-- The cycles in which an access goes through. -/
inductive Timing (r : Run x) (i : Fin n) (l : Char × Paddr) (f : ℕ) : ℕ → Prop
  | hit (hh : hits (((r.state (f + 1)).Nd i).line (lineOf l.2)) (opOf l.1) = true) : Timing r i l f (f + 2)
  | miss (hh : hits (((r.state (f + 1)).Nd i).line (lineOf l.2)) (opOf l.1) = false) (g : ℕ)
      (hg : r.grantAt g = some (x.ask i l)) (hle : f + 2 ≤ g)
      (hwait : g = f + 2 + r.owed (f + 2) + ∑ c ∈ Finset.Ico (f + 2) g, r.service c) :
      Timing r i l f (g + r.service g)

/-- **The latency of an access.** Every line of every trace is fetched in some cycle `f`
and completed in one that its access takes it to, two cycles later if it hits, and else
when the bus has served those ahead and then it; `2 + n (hitTime + 2)` cycles later at
the latest. -/
theorem latency (r : Run x) (i : Fin n) (k : Fin (x.traces i).length) : ∃ f e,
    r.FetchedIn i k f ∧ r.CompletedIn i k e ∧ r.Timing i (x.traces i)[k] f e ∧
      e ≤ f + 2 + n * (x.hitTime + 2) := by
  obtain ⟨f, l, hfetch, hl, ha⟩ := r.exists_fetchedIn i k.isLt
  obtain rfl : (x.traces i)[k] = l := by
    rw [List.getElem?_eq_getElem k.isLt] at hl
    exact Option.some.inj hl
  obtain ⟨st', k', l', hmove, hnext⟩ := r.move ha
  cases hmove with
  | hit hh =>
    exact ⟨f, f + 2, hfetch, r.completedIn_of_answered hnext, .hit hh, Nat.le_add_right _ _⟩
  | miss hh =>
    have hsent : x.ask i (x.traces i)[k] ∈ r.appended (f + 1) i := by
      rw [r.appended_at ha, if_pos ⟨rfl, hh⟩]
      exact List.mem_singleton_self _
    obtain ⟨g, hlt, hg, hother, hwait, hle⟩ := r.granted_exactly hsent
    have hqueued := r.queued_until hnext (g := g)
      (fun c hc hc' m' hm' => hother c (by omega) hc' m' hm') hlt
    have hdone := r.answered_of_granted (r.granted_next hqueued hg)
    have hservice := r.owed_grant hg
    have hmost := r.service_le g
    rw [show g + 1 + r.owed (g + 1) = g + r.service g by omega] at hdone
    refine ⟨f, g + r.service g, hfetch, r.completedIn_of_answered hdone, .miss hh g hg hlt hwait, ?_⟩
    -- of the `n` requests one is this
    have hn : 1 ≤ n := i.pos
    calc g + r.service g ≤ f + 2 + (n - 1) * (x.hitTime + 2) + (x.hitTime + 2) := by omega
      _ = f + 2 + (n - 1 + 1) * (x.hitTime + 2) := by rw [Nat.add_mul, Nat.one_mul, Nat.add_assoc]
      _ = f + 2 + n * (x.hitTime + 2) := by rw [Nat.sub_add_cancel hn]
  | fetch hst | finish hst => rcases hst with hst | ⟨hst, -⟩ <;> cases hst

end Run

end CoherenceSim
