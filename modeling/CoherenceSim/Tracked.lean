/-
# All caches track the same lines

`same_lines`: a cache has an entry for the lines that have been granted on the bus and
those of the accesses it has taken from its processor, and for no others; and when the
loop ends every cache has one for every line of every trace.
-/
import CoherenceSim.Hits
import CoherenceSim.Log

namespace CoherenceSim

open Features

variable {n : ℕ} {x : Input n}

/-! ### The lines of a node -/

theorem dvd_lineOf (a : Paddr) : 64 ∣ (lineOf a).toNat := by
  have hmask : lineOf a = (a >>> 6) <<< 6 := by
    apply BitVec.eq_of_getLsbD_eq
    intro k hk
    rw [lineOf, BitVec.getLsbD_and, getLsbD_lineMask k hk, BitVec.getLsbD_shiftLeft, BitVec.getLsbD_ushiftRight]
    by_cases h : k < 6
    · simp [h]
    · rw [show 6 + (k - 6) = k by omega]
      simp [h, hk, Nat.not_lt.mp h]
  rw [hmask, BitVec.toNat_shiftLeft, Nat.shiftLeft_eq]
  exact (Nat.dvd_mod_iff (by norm_num)).mpr (Dvd.intro_left _ rfl)

namespace Node

variable {F : Type} (f : Features) (i : Fin n) (a : Paddr)

/-- The table has an entry for the line. -/
def tracks (nd : Node F) (a : Paddr) : Prop := (nd.L1.myEntries a).isSome

/-- An entry is about the line it is found under. -/
def Tagged (nd : Node F) : Prop := ∀ a e, nd.L1.myEntries a = some e → e.tag = a

theorem tracks_setLine (nd : Node F) (b : Paddr) (st : CacheState) :
    (nd.setLine b st).tracks a ↔ nd.tracks a ∨ b = a := by
  unfold tracks setLine HashTable.setEntry
  by_cases h : a = b
  · simp [h]
  · simp [h, Ne.symm h]

theorem Tagged.setLine {nd : Node F} (h : nd.Tagged) (b : Paddr) (st : CacheState) :
    (nd.setLine b st).Tagged := by
  intro a e he
  have hget : (nd.L1.getEntry b).tag = b := by
    unfold HashTable.getEntry
    cases hb : nd.L1.myEntries b with
    | none => rfl
    | some e' => exact h b e' hb
  unfold Node.setLine HashTable.setEntry at he
  by_cases hab : a = b
  · simp only [hab, if_true] at he
    rw [← Option.some.inj he, hab]
    exact hget
  · simp only [hab, if_false] at he
    exact h a e he

theorem tracks_procTick (nd : Node F) : (nd.procTick f i).tracks a ↔
    nd.tracks a ∨ ∃ q, nd.L1.procRequest = some q ∧ q.addr = a := by
  unfold procTick
  cases hr : nd.L1.procRequest with
  | none => simp
  | some q =>
    simp only [Option.some.injEq, exists_eq_left']
    split <;> exact tracks_setLine a nd q.addr _

theorem Tagged.procTick {nd : Node F} (h : nd.Tagged) : (nd.procTick f i).Tagged := by
  unfold Node.procTick
  split
  · exact h
  · split <;> exact h.setLine _ _

theorem tracks_snoopTick (nd : Node F) (cur : Option Mreq) (sh : Bool) :
    (nd.snoopTick f i cur sh).tracks a ↔ nd.tracks a ∨
      ∃ m, cur = some m ∧ m.addr = a ∧ (m.msg = .DATA → m.destMid = L1id i) := by
  unfold snoopTick
  cases cur with
  | none => simp
  | some m =>
    simp only [Option.some.injEq, exists_eq_left']
    by_cases hd : m.msg = .DATA
    · by_cases hi : m.destMid = L1id i
      · simp only [hd, hi, if_true, forall_const, and_true]
        exact tracks_setLine a nd m.addr _
      · simp [hd, hi]
    · simp only [hd, if_false, false_implies, and_true]
      exact tracks_setLine a nd m.addr _

theorem Tagged.snoopTick {nd : Node F} (h : nd.Tagged) (cur : Option Mreq) (sh : Bool) :
    (nd.snoopTick f i cur sh).Tagged := by
  unfold Node.snoopTick
  split
  · exact h
  · split
    · split
      · exact h.setLine _ _
      · exact h
    · exact h.setLine _ _

theorem myEntries_prTick (nd : Node Trace) : (nd.prTick i).tock.L1.myEntries = nd.L1.myEntries := by
  have hc : nd.complete.L1.myEntries = nd.L1.myEntries := by unfold complete; split <;> rfl
  have hi : (nd.complete.issue i).L1.myEntries = nd.complete.L1.myEntries := by
    unfold issue; split <;> rfl
  unfold prTick tock
  split
  · exact hc
  · exact hi.trans hc

end Node

namespace Run

variable (r : Run x) {c : ℕ} {i : Fin n} {m q : Mreq}

/-- The accesses cache `i` has taken from its processor before cycle `c`. -/
def taken (i : Fin n) (c : ℕ) : List Mreq :=
  (List.range c).filterMap fun e => ((r.state e).Nd i).L1.procRequest

theorem mem_taken : q ∈ r.taken i c ↔ ∃ e, e < c ∧ ((r.state e).Nd i).L1.procRequest = some q := by
  simp [taken]

theorem mem_issues (h : q ∈ r.issues i c) : ∃ e, e ≤ c ∧ ((r.state e).Nd i).L1.procRequest = some q := by
  induction c with
  | zero => cases h
  | succ c ih =>
    rw [issues, List.mem_append] at h
    rcases h with h | h
    · obtain ⟨e, he, hq⟩ := ih h
      exact ⟨e, by omega, hq⟩
    · exact ⟨c + 1, Nat.le_refl _, Option.mem_toList.mp h⟩

/-! ### A cycle -/

theorem mem_grants_of_granted (hg : r.granted c = some m) : m ∈ r.grants c := by
  obtain ⟨g, -, hlt, hgg, -⟩ := r.in_flight hg
  exact r.mem_grants.mpr ⟨g, hlt, hgg⟩

theorem myEntries_succ (c : ℕ) (i : Fin n) : ((r.state (c + 1)).Nd i).L1.myEntries =
    ((r.state c).ticked x i).L1.myEntries := by
  rw [r.next, next_node, Node.myEntries_prTick]

/-- A cache gets an entry for the access it takes and for the request that is granted. -/
theorem tracks_succ (c : ℕ) (i : Fin n) (a : Paddr) : ((r.state (c + 1)).Nd i).tracks a ↔
    ((r.state c).Nd i).tracks a ∨
      (∃ m, r.onBus c = some m ∧ m.addr = a ∧ (m.msg = .DATA → m.destMid = L1id i)) ∨
      ∃ q, ((r.state c).Nd i).L1.procRequest = some q ∧ q.addr = a := by
  have hticked : ((r.state (c + 1)).Nd i).tracks a ↔ ((r.state c).ticked x i).tracks a := by
    unfold Node.tracks
    rw [r.myEntries_succ]
  rw [hticked, Simulator.ticked, Node.cacheTick, Node.tracks_snoopTick, Node.tracks_procTick,
    r.onBus_eq, or_assoc, or_congr_right or_comm]

/-- DATA on the bus is about a line that has been granted. -/
theorem grants_or_onBus (c : ℕ) (i : Fin n) (a : Paddr) : (∃ m ∈ r.grants c, m.addr = a) ∨
    (∃ m, r.onBus c = some m ∧ m.addr = a ∧ (m.msg = .DATA → m.destMid = L1id i)) ↔
      ∃ m ∈ r.grants (c + 1), m.addr = a := by
  have hgrants : (∃ m ∈ r.grants (c + 1), m.addr = a) ↔
      (∃ m ∈ r.grants c, m.addr = a) ∨ ∃ m, r.grantAt c = some m ∧ m.addr = a := by
    rw [r.grants_succ]
    cases h : r.grantAt c <;> simp [or_and_right, exists_or]
  rw [hgrants]
  cases r.turn c with
  | rest _ hb | hold _ _ hb => simp [grantAt, hb]
  | grant m _ _ hb hmd => simp [r.grantAt_eq_some.mpr ⟨hb, hmd⟩, hb, hmd]
  | data m d hg hb _ hmd hd =>
    have hda := ((r.inv c).reply m d hg hd).2.1
    have hm := r.mem_grants_of_granted hg
    have hno : r.grantAt c = none := by simp [grantAt, hb, hmd]
    simp only [hno, hb, Option.some.injEq, exists_eq_left', reduceCtorEq, false_and, exists_false,
      or_false, or_iff_left_iff_imp]
    rintro ⟨ha, -⟩
    exact ⟨m, hm, hda.symm.trans ha⟩

/-- **What a cache tracks**, by what has been granted and what it has taken. -/
theorem tracks_iff (c : ℕ) (i : Fin n) (a : Paddr) : ((r.state c).Nd i).tracks a ↔
    (∃ m ∈ r.grants c, m.addr = a) ∨ ∃ q ∈ r.taken i c, q.addr = a := by
  induction c with
  | zero =>
    rw [r.start]
    simp [grants, taken, Node.tracks, Simulator.init, Simulator.build]
  | succ c ih =>
    have htaken : (∃ q ∈ r.taken i (c + 1), q.addr = a) ↔ (∃ q ∈ r.taken i c, q.addr = a) ∨
        ∃ q, ((r.state c).Nd i).L1.procRequest = some q ∧ q.addr = a := by
      rw [taken, List.range_succ, List.filterMap_append]
      cases h : ((r.state c).Nd i).L1.procRequest <;>
        simp [h, taken, or_and_right, exists_or]
    rw [r.tracks_succ, ih, htaken, ← r.grants_or_onBus c i a]
    exact or_or_or_comm

/-! ### The entries -/

theorem tagged (c : ℕ) (i : Fin n) : ((r.state c).Nd i).Tagged := by
  induction c with
  | zero =>
    rw [r.start]
    intro a e he
    cases he
  | succ c ih =>
    intro a e he
    rw [r.myEntries_succ] at he
    exact (ih.procTick x.f i).snoopTick x.f i _ _ a e he

/-! ### The lines of the traces -/

theorem grants_addr (hm : m ∈ r.grants c) : ∃ j, ∃ l ∈ x.traces j, m.addr = lineOf l.2 := by
  obtain ⟨g, -, hg⟩ := r.mem_grants.mp hm
  obtain ⟨j, k, l, ha, rfl⟩ := r.requester hg
  exact ⟨j, l, List.mem_of_getElem? (ha.fetched (by decide)).2, rfl⟩

/-- What is in the slot of a cache is the access its node stands at. -/
theorem issued_of_procRequest (hq : ((r.state c).Nd i).L1.procRequest = some q) : ∃ k l,
    At x (r.state c) (r.granted c) i .issued k l ∧ q = .new (opOf l.1) l.2 (PRid i) := by
  obtain ⟨st, k, l, ha⟩ := (r.inv c).node i
  have hproc := ha.proc
  rw [hq] at hproc
  split at hproc
  · next hst =>
    subst hst
    exact ⟨k, l, ha, Option.some.inj hproc⟩
  · cases hproc

theorem taken_addr (hq : q ∈ r.taken i c) : ∃ l ∈ x.traces i, q.addr = lineOf l.2 := by
  obtain ⟨e, -, hqe⟩ := r.mem_taken.mp hq
  obtain ⟨k, l, ha, rfl⟩ := r.issued_of_procRequest hqe
  exact ⟨l, List.mem_of_getElem? (ha.fetched (by decide)).2, rfl⟩

/-- **A line a cache has taken an access to has been granted** when the queue is empty:
the access hit, and then a request of its own had brought the line, or it missed. -/
theorem granted_of_taken {e : ℕ} (hq : ((r.state e).Nd i).L1.procRequest = some q) (he : e < c)
    (hempty : (r.state c).bus.pendingRequests = []) : ∃ m ∈ r.grants c, m.addr = q.addr := by
  obtain ⟨k, l, ha, hql⟩ := r.issued_of_procRequest hq
  have hp : (((r.state e).Nd i).line q.addr).pending = false := ((r.inv e).procReady i q hq).2.2.1
  cases hh : hits (((r.state e).Nd i).line q.addr) q.msg with
  | true =>
    have hrank : 1 ≤ (((r.state e).Nd i).line q.addr).rank := by
      unfold hits at hh
      split at hh
      · simp only [decide_eq_true_eq] at hh
        omega
      · simpa using hh
    obtain ⟨g, hg, ⟨m, hgm, hma, -⟩, -⟩ := (r.lineHistory e i q.addr hp).readable.mp hrank
    exact ⟨m, r.mem_grants.mpr ⟨g, by omega, hgm⟩, hma⟩
  | false =>
    have happ : r.appended e i = [x.ask i l] := by
      rw [r.appended_at ha, if_pos]
      rw [hql] at hh
      exact ⟨rfl, hh⟩
    have hjoined : x.ask i l ∈ r.queue.joined c := by
      apply List.mem_flatMap.mpr
      exact ⟨e, List.mem_range.mpr he, List.mem_flatMap.mpr ⟨i, List.mem_finRange i, by simp [happ]⟩⟩
    rw [r.queue.joined_eq, r.queue_left] at hjoined
    have hwaits : r.queue.waits c = [] := hempty
    rw [hwaits, List.append_nil] at hjoined
    exact ⟨_, hjoined, by rw [hql]; rfl⟩

/-- The lines granted by the end of the loop are those of the traces. -/
theorem Ends.granted_iff {R : ℕ} (h : r.Ends R) (a : Paddr) :
    (∃ m ∈ r.grants R, m.addr = a) ↔ ∃ j, ∃ l ∈ x.traces j, lineOf l.2 = a := by
  constructor
  · rintro ⟨m, hm, rfl⟩
    obtain ⟨j, l, hl, hma⟩ := r.grants_addr hm
    exact ⟨j, l, hl, hma.symm⟩
  · rintro ⟨j, l, hl, rfl⟩
    have hmem : Mreq.new (opOf l.1) l.2 (PRid j) ∈ r.issues j R := by
      rw [(h.quiescent r).issued]
      exact List.mem_map_of_mem hl
    obtain ⟨e, he, hq⟩ := r.mem_issues hmem
    have hlt : e < R := by
      refine lt_of_le_of_ne he fun heq => ?_
      subst heq
      obtain ⟨k, l', ha, -⟩ := r.issued_of_procRequest hq
      cases (h.idle r ha).1
    exact r.granted_of_taken hq hlt (h.bus r).2

/-- **All caches track the same lines.** At the start of every cycle a cache has an entry
for the lines granted so far and those of the accesses it has taken, each under its own
address; and when the loop ends, for the lines of all the traces. -/
theorem same_lines (r : Run x) :
    (∀ c i a, (((r.state c).Nd i).L1.myEntries a).isSome ↔
      (∃ m ∈ r.grants c, m.addr = a) ∨ ∃ q ∈ r.taken i c, q.addr = a) ∧
    (∀ c i a e, ((r.state c).Nd i).L1.myEntries a = some e → e.tag = a ∧ 64 ∣ e.tag.toNat) ∧
    ∃ R, (∀ fuel, (Simulator.init x.traces).run x.settings fuel =
        .ok (if R ≤ fuel then some (r.state R) else none)) ∧
      ∀ i a, (((r.state R).Nd i).L1.myEntries a).isSome ↔ ∃ j, ∃ l ∈ x.traces j, lineOf l.2 = a := by
  refine ⟨r.tracks_iff, fun c i a e he => ?_, ?_⟩
  · have htag := r.tagged c i a e he
    refine ⟨htag, ?_⟩
    have htracks : ((r.state c).Nd i).tracks a := by simp [Node.tracks, he]
    rw [htag]
    rcases (r.tracks_iff c i a).mp htracks with ⟨m, hm, rfl⟩ | ⟨q, hq, rfl⟩
    · obtain ⟨j, l, -, hma⟩ := r.grants_addr hm
      rw [hma]
      exact dvd_lineOf l.2
    · obtain ⟨l, -, hqa⟩ := r.taken_addr hq
      rw [hqa]
      exact dvd_lineOf l.2
  · obtain ⟨R, h⟩ := r.exists_ends
    refine ⟨R, r.run_eq_of_ends h, fun i a => ?_⟩
    rw [← h.granted_iff r]
    apply (r.tracks_iff R i a).trans
    refine or_iff_left_of_imp ?_
    rintro ⟨q, hq, rfl⟩
    obtain ⟨e, he, hqe⟩ := r.mem_taken.mp hq
    exact r.granted_of_taken hqe he (h.bus r).2

end Run

end CoherenceSim
