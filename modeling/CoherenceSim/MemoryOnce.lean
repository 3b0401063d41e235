/-
# Under MI the memory serves every line once

Once a line has been granted under MI some cache has it in `M`, or is about to get it
there (`hasOwner`). So the memory answers the first request for a line and no other
(`memory_once`), and what is left of the misses is served from cache to cache.
-/
import CoherenceSim.Conservation
import CoherenceSim.Tracked

namespace CoherenceSim

open Features

variable {n : ℕ} {x : Input n}

/-- The lines of all the traces. -/
def Input.lines (x : Input n) : Finset Paddr :=
  Finset.univ.biUnion fun i => ((x.traces i).map fun l => lineOf l.2).toFinset

theorem Input.mem_lines {x : Input n} {a : Paddr} :
    a ∈ x.lines ↔ ∃ i, ∃ l ∈ x.traces i, lineOf l.2 = a := by
  simp [Input.lines]

namespace Run

variable (r : Run x) {c : ℕ} {m : Mreq} {a : Paddr}

/-- The lines of the requests granted before cycle `c`, with repetitions. -/
def grantedLines (c : ℕ) : List Paddr := (r.grants c).map (·.addr)

/-- The lines the memory controller has sent before cycle `c`. -/
def memoryLines (c : ℕ) : List Paddr := (r.memoryReplies c).map (·.addr)

theorem grantedLines_succ (c : ℕ) :
    r.grantedLines (c + 1) = r.grantedLines c ++ ((r.grantAt c).map (·.addr)).toList := by
  rw [grantedLines, r.grants_succ, List.map_append]
  cases r.grantAt c <;> rfl

theorem memoryLines_succ (c : ℕ) :
    r.memoryLines (c + 1) = r.memoryLines c ++ ((r.mcSent c).map (·.addr)).toList := by
  rw [memoryLines, r.memoryReplies_succ, List.map_append]
  cases r.mcSent c <;> rfl

/-- The line `a` is that of the request whose DATA has not been sent. -/
def awaitsLine (c : ℕ) (a : Paddr) : Bool :=
  r.awaitsData c && (r.granted c).any fun m => m.addr = a

/-! ### The owner -/

/-- Some cache has the line in `M`, or its request is granted. -/
def HasOwner (c : ℕ) (a : Paddr) : Prop :=
  (∃ j, ((r.state c).Nd j).line a = .M) ∨ ∃ m, r.granted c = some m ∧ m.addr = a

section MI
variable (hx : x.protocol = .MI_PRO)
include hx

/-- Under MI every request is a GETM. -/
theorem msg_of_granted (hg : r.granted c = some m) : m.msg = .GETM := by
  obtain ⟨i, k, l, -, rfl⟩ := (r.inv c).of_granted hg
  rw [ask_msg, Input.f, hx]
  rfl

/-- The DATA takes the line to `M`. -/
theorem hasOwner_of_data {d : Mreq} (hg : r.granted c = some m) (hd : (r.state c).bus.dataReply = some d) :
    r.HasOwner (c + 1) m.addr := by
  obtain ⟨i, k, l, -, -, -, -, hline⟩ := (r.inv c).line_data hg hd
  refine Or.inl ⟨i, ?_⟩
  rw [r.next, line_next, hline, if_pos rfl, r.msg_of_granted hx hg]
  rfl

/-- A line in `M` stays there unless it is granted. -/
theorem HasOwner.succ (h : r.HasOwner c a) : r.HasOwner (c + 1) a := by
  rcases h with ⟨j, hj⟩ | ⟨m, hg, rfl⟩
  · have hs : r.snooped c j a = .M := by
      cases r.ownStep c j a with
      | other _ hs => rw [hs, hj]
      | hit q _ _ _ hs =>
        rw [hs, hj, afterHit]
        split <;> rfl
      | miss q _ _ hh =>
        rw [hj, hits] at hh
        split at hh <;> cases hh
    cases r.busStep c j a with
    | fill m _ _ _ _ hp =>
      rw [hs] at hp
      exact absurd (hp ▸ pend_pending m.msg) (by decide)
    | yield m hg ha => exact Or.inr ⟨m, (r.granted_of_grantAt hg).2.2, ha⟩
    | keep _ hl => exact Or.inl ⟨j, hl.trans hs⟩
  · cases r.turn c with
    | rest hn | grant _ _ hn => rw [hg] at hn; cases hn
    | hold m' hgm _ _ _ hg' =>
      obtain rfl : m = m' := Option.some.inj (hg.symm.trans hgm)
      exact Or.inr ⟨m, hg', rfl⟩
    | data _ _ _ _ _ _ hd => exact r.hasOwner_of_data hx hg hd

/-- **A line that has been granted has an owner.** -/
theorem hasOwner (ha : a ∈ r.grantedLines c) : r.HasOwner c a := by
  induction c with
  | zero => cases ha
  | succ c ih =>
    rw [r.grantedLines_succ, List.mem_append] at ha
    rcases ha with ha | ha
    · exact (ih ha).succ r hx
    · obtain ⟨m, hg, rfl⟩ : ∃ m, r.grantAt c = some m ∧ m.addr = a := by simpa using ha
      exact Or.inr ⟨m, (r.granted_of_grantAt hg).2.2, rfl⟩

/-- A request is answered by a cache if and only if its line has been granted before. -/
theorem replied_isSome (hg : r.grantAt c = some m) :
    (r.replied c).isSome = true ↔ m.addr ∈ r.grantedLines c := by
  obtain ⟨hb, hmd, -⟩ := r.granted_of_grantAt hg
  constructor
  · intro hr
    obtain ⟨d, hd⟩ := Option.isSome_iff_exists.mp hr
    obtain ⟨m', j, hw, -, -, hs⟩ := Inv.reply_of_cacheReply hd
    obtain rfl : m' = m := Option.some.inj (hw.symm.trans ((r.onBus_eq c).symm.trans hb))
    -- a copy that answers has been brought by a grant of its own
    have hrank : 2 ≤ (((r.state c).Nd j).line m'.addr).rank := by
      have hle := Node.rank_procTick_le x.f j ((r.state c).Nd j) m'.addr
      simp only [supplies, decide_eq_true_eq] at hs
      omega
    have hp : (((r.state c).Nd j).line m'.addr).pending = false := by
      by_contra hpend
      rw [CacheState.rank_of_pending (by simpa using hpend)] at hrank
      omega
    obtain ⟨g, hlt, ⟨m, hgm, hma, -⟩, -⟩ := (r.lineHistory c j m'.addr hp).readable.mp (by omega)
    exact List.mem_map.mpr ⟨m, r.mem_grants.mpr ⟨g, hlt, hgm⟩, hma⟩
  · intro ha
    rcases r.hasOwner hx ha with ⟨j, hj⟩ | ⟨m', hgm, -⟩
    · have hs : supplies ((((r.state c).Nd j).procTick x.f j).line m.addr) = true := by
        rw [← r.snooped_eq]
        cases r.ownStep c j m.addr with
        | other _ hs => rw [hs, hj]; rfl
        | hit q _ _ hh hs => rw [hs, supplies, afterHit_rank hh, hj]; rfl
        | miss q _ _ hh =>
          rw [hj, hits] at hh
          split at hh <;> cases hh
      rw [r.replied_of_supplies hg hs]
      rfl
    · rw [r.granted_eq_none_of_grantAt hg] at hgm
      cases hgm

/-! ### What the memory sends -/

/-- **The memory has sent a line once it has been granted**, or is about to, and not
again. -/
theorem memoryLines_count (c : ℕ) (a : Paddr) : (r.memoryLines c).count a + (r.awaitsLine c a).toNat =
    if a ∈ r.grantedLines c then 1 else 0 := by
  induction c with
  | zero =>
    simp [memoryLines, memoryReplies, grantedLines, grants, awaitsLine, awaitsData, granted]
  | succ c ih =>
    rw [r.memoryLines_succ, r.grantedLines_succ, List.count_append]
    unfold awaitsLine awaitsData at ih ⊢
    cases r.turn c with
    | rest hg hb _ _ hg' =>
      rw [hg] at ih
      simpa [r.mcSent_of_free hg, grantAt, hb, hg'] using ih
    | grant m q hg hb hmd _ hg' _ hd' =>
      have hgg := r.grantAt_eq_some.mpr ⟨hb, hmd⟩
      have hreply := r.replied_isSome hx hgg
      rw [hg] at ih
      rw [hgg, r.mcSent_of_free hg, hg', hd']
      by_cases ha : m.addr = a
      · subst ha
        cases hr : r.replied c with
        | none =>
          rw [hr] at hreply
          have hnot : m.addr ∉ r.grantedLines c := fun h => by cases hreply.mpr h
          simpa [hnot] using ih
        | some d =>
          rw [hr] at hreply
          simpa [hreply.mp rfl] using ih
      · simpa [ha, Ne.symm ha] using ih
    | hold m hg hb hr hd hg' _ hd' =>
      rw [hg, hd] at ih
      rw [r.mcSent_of_awaits hg hd, hg', hd', grantAt, hb]
      split
      · by_cases ha : m.addr = a
        · simpa [ha] using ih
        · simpa [ha] using ih
      · simpa using ih
    | data m d hg hb _ hmd hd hg' =>
      rw [hg, hd] at ih
      simpa [r.mcSent_of_reply hd, grantAt, hb, hmd, hg'] using ih

/-- At the end of the loop the memory has sent every line of the traces, once. -/
theorem Ends.memoryLines_count {R : ℕ} (h : r.Ends R) (a : Paddr) :
    (r.memoryLines R).count a = if a ∈ x.lines then 1 else 0 := by
  have hcount := r.memoryLines_count hx R a
  have hlines : a ∈ r.grantedLines R ↔ a ∈ x.lines := by
    rw [Input.mem_lines, ← h.granted_iff r, grantedLines, List.mem_map]
  simpa only [awaitsLine, awaitsData, (h.bus r).1, hlines, Option.isSome_none, Bool.false_and,
    Bool.toNat_false, Nat.add_zero] using hcount

theorem Ends.memoryReplies_length {R : ℕ} (h : r.Ends R) :
    (r.memoryReplies R).length = x.lines.card := by
  have hnodup : (r.memoryLines R).Nodup := by
    rw [List.nodup_iff_count_le_one]
    intro a
    rw [h.memoryLines_count r hx]
    split <;> omega
  have hlines : (r.memoryLines R).toFinset = x.lines := by
    ext a
    rw [List.mem_toFinset, ← List.count_pos_iff, h.memoryLines_count r hx]
    split <;> simp_all
  calc (r.memoryReplies R).length = (r.memoryLines R).length := by rw [memoryLines, List.length_map]
    _ = (r.memoryLines R).toFinset.card := (List.toFinset_card_of_nodup hnodup).symm
    _ = x.lines.card := by rw [hlines]

end MI

/-- **Under MI the memory serves every line once.** By the end of the loop the memory
controller has sent DATA once for every line of the traces and for no other line, and
all other misses were served from cache to cache. -/
theorem memory_once (r : Run x) (hx : x.protocol = .MI_PRO) : ∃ R,
    (∀ fuel, (Simulator.init x.traces).run x.settings fuel =
      .ok (if R ≤ fuel then some (r.state R) else none)) ∧
    (∀ a, ((r.memoryReplies R).map (·.addr)).count a = if a ∈ x.lines then 1 else 0) ∧
    x.lines.card ≤ (r.state R).stats.cacheMisses ∧
    (r.state R).stats.cacheToCacheTransfers = (r.state R).stats.cacheMisses - x.lines.card := by
  obtain ⟨R, h⟩ := r.exists_ends
  obtain ⟨hg, hq⟩ := h.bus r
  have hmisses : (r.state R).stats.cacheMisses =
      (r.state R).stats.cacheToCacheTransfers + x.lines.card := by
    rw [r.misses_eq, hq, r.grants_eq, awaitsData, hg, h.memoryReplies_length r hx]
    rfl
  exact ⟨R, r.run_eq_of_ends h, h.memoryLines_count r hx, by omega, by omega⟩

end Run

/-- Two nodes under MI that use one line. -/
def Input.oneLine : Input 2 where
  protocol := .MI_PRO
  hitTime := 1
  hitTime_pos := Nat.le_refl 1
  traces := ![[('r', 0x40)], [('w', 0x48)]]
  wellFormed := by decide

theorem memory_once_oneLine :
    let x := Input.oneLine
    ∃ R, (∀ fuel, (Simulator.init x.traces).run x.settings fuel =
        .ok (if R ≤ fuel then some (x.run.state R) else none)) ∧
      (∀ a, ((x.run.memoryReplies R).map (·.addr)).count a = if a ∈ x.lines then 1 else 0) ∧
      x.lines.card ≤ (x.run.state R).stats.cacheMisses ∧
      (x.run.state R).stats.cacheToCacheTransfers =
        (x.run.state R).stats.cacheMisses - x.lines.card :=
  Run.memory_once _ rfl

end CoherenceSim
