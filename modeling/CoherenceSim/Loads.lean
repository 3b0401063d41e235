/-
# Traces of loads only

Where no trace has a store, a cache that has asked for a line keeps it (`copy_iff`). So every
node misses each of its lines once, and which of these misses are served from cache to cache
depends only on how many have asked for the line before (`supplier_iff_once`,
`supplier_iff_mem`). `loads_only`: the counters such a run ends with, under all protocols but
MI, in terms of the lines of the traces.
-/
import CoherenceSim.MemoryOnce
import CoherenceSim.Private
import CoherenceSim.Supplier

namespace CoherenceSim

open Features

variable {n : ℕ} {x : Input n}

/-! ### What occurs twice -/

section
variable {α : Type} [DecidableEq α] (l : List α) (a : α)

/-- The elements that occur twice or more. -/
def repeated : Finset α := l.toFinset.filter fun b => 2 ≤ l.count b

theorem mem_repeated {l : List α} {b : α} : b ∈ repeated l ↔ 2 ≤ l.count b := by
  rw [repeated, Finset.mem_filter, List.mem_toFinset, and_iff_right_iff_imp]
  exact fun h => List.count_pos_iff.mp (Nat.two_pos.trans_le h)

theorem card_repeated_append :
    (repeated (l ++ [a])).card = (repeated l).card + if l.count a = 1 then 1 else 0 := by
  have hmem : ∀ b, b ∈ repeated (l ++ [a]) ↔ b ∈ repeated l ∨ b = a ∧ l.count a = 1 := by
    intro b
    rw [mem_repeated, mem_repeated, List.count_append, List.count_singleton']
    by_cases hb : b = a
    · subst hb
      simp only [if_true, true_and]
      omega
    · rw [if_neg (Ne.symm hb)]
      simp [hb]
  split
  · next hone =>
    have hnot : a ∉ repeated l := by rw [mem_repeated]; omega
    have heq : repeated (l ++ [a]) = insert a (repeated l) := by
      ext b
      rw [hmem, Finset.mem_insert, or_comm]
      simp [hone]
    rw [heq, Finset.card_insert_of_notMem hnot]
  · next hone =>
    have heq : repeated (l ++ [a]) = repeated l := by
      ext b
      rw [hmem]
      simp [hone]
    rw [heq, Nat.add_zero]

theorem card_toFinset_append : (l ++ [a]).toFinset.card = l.toFinset.card + if a ∈ l then 0 else 1 := by
  rw [List.toFinset_append, List.toFinset_cons, List.toFinset_nil, insert_empty_eq, Finset.union_comm,
    ← Finset.insert_eq]
  split
  · next h => rw [Finset.insert_eq_of_mem (List.mem_toFinset.mpr h), Nat.add_zero]
  · next h => rw [Finset.card_insert_of_notMem (by rwa [List.mem_toFinset])]

end

/-! ### A copy stays -/

/-- No trace has a store. -/
def Input.LoadsOnly (x : Input n) : Prop := ∀ i, ∀ l ∈ x.traces i, l.1 = 'r'

/-- The nodes that use the line. -/
def Input.users (x : Input n) (a : Paddr) : Finset (Fin n) := Finset.univ.filter fun i => a ∈ linesOf (x.traces i)

/-- The lines that two nodes use, or more. -/
def Input.sharedLines (x : Input n) : Finset Paddr := x.lines.filter fun a => 2 ≤ (x.users a).card

def copy (st : CacheState) : Bool := 1 ≤ st.rank

theorem lasting_copy {f : Features} (hs : f.shared = true) : f.Lasting copy where
  rank st h := by simpa [copy] using h
  modified := rfl
  gets st := by
    rw [Bool.eq_iff_iff, copy, copy, decide_eq_true_eq, decide_eq_true_eq]
    exact (yield_GETS_rank f hs st).1

namespace Run

variable (r : Run x) {c g : ℕ} {i j : Fin n} {a : Paddr} {m : Mreq} {R : ℕ}

theorem starts_copy : r.Starts copy i a = r.OwnGrant i a := by
  funext c
  have hE : copy .E = true := rfl
  rw [Starts, hE]
  refine propext ⟨?_, ?_⟩
  · rintro (⟨m, hg, ha, hsrc, -⟩ | ⟨h, -⟩)
    · exact ⟨m, hg, ha, hsrc⟩
    · cases h
  · rintro ⟨m, hg, ha, hsrc⟩
    exact Or.inl ⟨m, hg, ha, hsrc, by simpa [copy] using x.f.fill_rank_pos _ _⟩

section
variable (hl : x.LoadsOnly) (hs : x.f.shared = true)
include hl

theorem opOf_eq_load {l : Char × Paddr} (hmem : l ∈ x.traces i) : opOf l.1 = .LOAD := by
  rw [hl i l hmem]
  rfl

theorem load_of_procRequest {q : Mreq} (hq : ((r.state c).Nd i).L1.procRequest = some q) : q.msg = .LOAD := by
  obtain ⟨k, l, ha, rfl⟩ := r.issued_of_procRequest hq
  exact opOf_eq_load hl (List.mem_of_getElem? (ha.fetched (by decide)).2)

theorem not_storeMiss : ¬ r.StoreMiss i a c := by
  rintro ⟨q, hq, -, hop, -⟩
  rw [r.load_of_procRequest hl hq] at hop
  cases hop

theorem not_silentUpgrade : ¬ r.SilentUpgrade i a c := by
  rintro ⟨q, hq, -, hu⟩
  rw [r.load_of_procRequest hl hq] at hu
  simp [upgrades] at hu

include hs

/-- Every request is a GETS. -/
theorem gets_of_grantAt (hg : r.grantAt c = some m) : m.msg = .GETS := by
  obtain ⟨i, k, l, ha, rfl⟩ := r.requester hg
  rw [ask_msg, opOf_eq_load hl (List.mem_of_getElem? (ha.fetched (by decide)).2)]
  simp [request, hs]

theorem not_ownGETM : ¬ r.OwnGrantBy .GETM i a c := by
  rintro ⟨m, hg, -, -, hk⟩
  rw [r.gets_of_grantAt hl hs hg] at hk
  cases hk

theorem not_loses : ¬ r.Loses i a c := by
  rintro (⟨m, hg, -, -, hk⟩ | hmiss)
  · rw [r.gets_of_grantAt hl hs hg] at hk
    cases hk
  · exact r.not_storeMiss hl hmiss

theorem held_iff {start : ℕ → Prop} : History.Held start (r.Loses i a) c ↔ ∃ e, e < c ∧ start e := by
  constructor
  · rintro ⟨e, he, hstart, -⟩
    exact ⟨e, he, hstart⟩
  · rintro ⟨e, he, hstart⟩
    exact ⟨e, he, hstart, fun _ _ _ => r.not_loses hl hs⟩

/-- **A cache that has asked for a line keeps it.** -/
theorem copy_iff (hg : r.granted c = none) :
    copy (((r.state c).Nd i).line a) = true ↔ ∃ e, e < c ∧ r.OwnGrant i a e := by
  rw [← r.has_of_free hg, r.has_iff (lasting_copy hs), starts_copy, r.held_iff hl hs]

theorem copy_snooped_iff (hg : r.granted c = none) :
    copy (r.snooped c i a) = true ↔ ∃ e, e < c ∧ r.OwnGrant i a e := by
  have hsnooped := r.good_snooped (lasting_copy hs).rank rfl c i a
  rw [hsnooped, ← r.copy_iff hl hs hg]
  have hmiss := r.not_storeMiss (i := i) (a := a) (c := c) hl
  have hup := r.not_silentUpgrade (i := i) (a := a) (c := c) hl
  tauto

/-- So it does not ask again. -/
theorem asks_once (h : r.OwnGrant i a c) : ¬ ∃ e, e < c ∧ r.OwnGrant i a e := by
  obtain ⟨m, hg, rfl, hsrc⟩ := h
  obtain ⟨i', k, l, ha, hm⟩ := r.requester hg
  obtain rfl : i' = i := L1id_injective (by rw [← hsrc, hm, ask_srcMid])
  rw [← r.copy_iff hl hs (r.granted_eq_none_of_grantAt hg), hm, ask_addr, ha.wait rfl, copy, pend_rank]
  decide

end

/-! ### Who supplies -/

theorem mem_grantedLines : a ∈ r.grantedLines c ↔ ∃ e, e < c ∧ ∃ j, r.OwnGrant j a e := by
  rw [grantedLines, List.mem_map]
  constructor
  · rintro ⟨m, hm, rfl⟩
    obtain ⟨e, he, hg⟩ := r.mem_grants.mp hm
    obtain ⟨j, k, l, -, hask⟩ := r.requester hg
    exact ⟨e, he, j, m, hg, rfl, by rw [hask, ask_srcMid]⟩
  · rintro ⟨e, he, j, m, hg, ha, -⟩
    exact ⟨m, r.mem_grants.mpr ⟨e, he, hg⟩, ha⟩

/-- A cycle without a grant for the line. -/
theorem grantedLines_rest (h : ¬ r.GrantFor a c) : (r.grantedLines (c + 1)).count a = (r.grantedLines c).count a := by
  rw [r.grantedLines_succ, List.count_append]
  cases hg : r.grantAt c with
  | none => rfl
  | some m =>
    have hne : m.addr ≠ a := fun ha => h ⟨m, hg, ha⟩
    simp [hne]

theorem grantedLines_grant (h : r.OwnGrant i a c) : r.grantedLines (c + 1) = r.grantedLines c ++ [a] := by
  obtain ⟨m, hg, rfl, -⟩ := h
  rw [r.grantedLines_succ, hg]
  rfl

section
variable (hl : x.LoadsOnly) (hs : x.f.shared = true)
include hl hs

/-- The first to ask finds the line in no cache. -/
theorem ownExclusive_iff (h : r.OwnGrant i a c) : r.OwnExclusive i a c ↔ a ∉ r.grantedLines c := by
  obtain ⟨m, hg, ha, hsrc⟩ := h
  have hfree := r.granted_eq_none_of_grantAt hg
  have halone : r.Alone i a c ↔ a ∉ r.grantedLines c := by
    unfold Alone
    simp only [mem_held_iff]
    rw [mem_grantedLines, not_exists]
    constructor
    · rintro halone e ⟨he, j, hj⟩
      have hji : j ≠ i := by
        rintro rfl
        exact r.asks_once hl hs ⟨m, hg, ha, hsrc⟩ ⟨e, he, hj⟩
      have hcopy := (r.copy_snooped_iff hl hs hfree).mpr ⟨e, he, hj⟩
      exact halone j hji (by simpa [copy] using hcopy)
    · intro hnone j hji hrank
      obtain ⟨e, he, hj⟩ := (r.copy_snooped_iff (i := j) hl hs hfree).mp (by simpa [copy] using hrank)
      exact hnone e ⟨he, j, hj⟩
  rw [← halone]
  refine ⟨?_, fun h => Or.inr ⟨⟨m, hg, ha, hsrc, r.gets_of_grantAt hl hs hg⟩, h⟩⟩
  rintro (hM | ⟨-, h⟩)
  · exact absurd hM (r.not_ownGETM hl hs)
  · exact h

theorem OwnExclusive.ownGrant (h : r.OwnExclusive i a c) : r.OwnGrant i a c := by
  rcases h with hM | ⟨⟨m, hg, ha, hsrc, -⟩, -⟩
  · exact absurd hM (r.not_ownGETM hl hs)
  · exact ⟨m, hg, ha, hsrc⟩

/-- Where the `E` is not forwarded, the second to ask is answered by a cache. -/
theorem supplier_iff_once : (∃ j, History.Since (r.OwnExclusive j a) (r.GrantFor a) c) ↔
    (r.grantedLines c).count a = 1 := by
  induction c with
  | zero =>
    refine iff_of_false ?_ (by simp [grantedLines, grants])
    rintro ⟨j, hj⟩
    exact History.not_since_zero hj
  | succ c ih =>
    simp only [History.since_succ, exists_or]
    by_cases hgrant : r.GrantFor a c
    · obtain ⟨m, hg, ha⟩ := hgrant
      obtain ⟨i, k, l, -, hm⟩ := r.requester hg
      have hown : r.OwnGrant i a c := ⟨m, hg, ha, by rw [hm, ask_srcMid]⟩
      have hfirst : (∃ j, r.OwnExclusive j a c) ↔ a ∉ r.grantedLines c := by
        refine ⟨?_, fun h => ⟨i, (r.ownExclusive_iff hl hs hown).mpr h⟩⟩
        rintro ⟨j, hj⟩
        exact (r.ownExclusive_iff hl hs (hj.ownGrant r hl hs)).mp hj
      have hno : ¬ ∃ j, History.Since (r.OwnExclusive j a) (r.GrantFor a) c ∧ ¬ r.GrantFor a c := by
        rintro ⟨j, -, hn⟩
        exact hn ⟨m, hg, ha⟩
      rw [r.grantedLines_grant hown, List.count_append, List.count_singleton_self, hfirst, or_iff_left hno,
        ← List.count_eq_zero]
      omega
    · have hno : ¬ ∃ j, r.OwnExclusive j a c := by
        rintro ⟨j, hj⟩
        obtain ⟨m, hg, ha, -⟩ := hj.ownGrant r hl hs
        exact hgrant ⟨m, hg, ha⟩
      rw [r.grantedLines_rest hgrant, ← ih, or_iff_right hno]
      simp only [hgrant, not_false_eq_true, and_true]

/-- Where it is, everyone after the first is. -/
theorem supplier_iff_mem : (∃ j, r.Keeps (r.OwnExclusive j a) j a c) ↔ a ∈ r.grantedLines c := by
  have hkeeps : ∀ j, r.Keeps (r.OwnExclusive j a) j a c ↔ ∃ e, e < c ∧ r.OwnExclusive j a e := by
    intro j
    rw [Keeps, r.held_iff hl hs]
    exact and_iff_left (r.not_storeMiss hl)
  simp only [hkeeps]
  rw [mem_grantedLines]
  constructor
  · rintro ⟨j, e, he, hj⟩
    exact ⟨e, he, j, hj.ownGrant r hl hs⟩
  · intro hgrant
    -- the first of them
    classical
    have hex : ∃ e, ∃ j, r.OwnGrant j a e := by
      obtain ⟨e, -, hj⟩ := hgrant
      exact ⟨e, hj⟩
    obtain ⟨e, he, hj⟩ := hgrant
    obtain ⟨j, hown⟩ := Nat.find_spec hex
    refine ⟨j, Nat.find hex, lt_of_le_of_lt (Nat.find_min' hex hj) he, (r.ownExclusive_iff hl hs hown).mpr ?_⟩
    rw [mem_grantedLines]
    rintro ⟨e', he', hj'⟩
    exact Nat.find_min hex he' hj'

theorem historySupplier_iff : (∃ j, r.HistorySupplier j a c) ↔
    if x.f.exclusive then (if x.f.forward then a ∈ r.grantedLines c else (r.grantedLines c).count a = 1)
    else False := by
  have hsince : ¬ ∃ j, History.Since (r.OwnGrantBy .GETM j a) (r.GrantFor a) c := by
    rintro ⟨j, e, -, hstart, -⟩
    exact r.not_ownGETM hl hs hstart
  have hkeeps : ∀ {start : Fin n → ℕ → Prop}, (∀ j e, ¬ start j e) → ¬ ∃ j, r.Keeps (start j) j a c := by
    rintro start hno ⟨j, ⟨e, -, hstart, -⟩, -⟩
    exact hno j e hstart
  unfold HistorySupplier
  cases hp : x.protocol with
  | MI_PRO => simp [Input.f, hp, Protocol.features] at hs
  | MSI_PRO =>
    rw [Input.f, hp]
    exact iff_of_false hsince not_false
  | MOSI_PRO =>
    rw [Input.f, hp]
    exact iff_of_false (hkeeps fun j e => r.not_ownGETM hl hs) not_false
  | MESI_PRO =>
    rw [Input.f, hp]
    exact r.supplier_iff_once hl hs
  | MOESI_PRO =>
    have hno : ¬ ∃ j, r.Keeps (fun e => r.OwnGrantBy .GETM j a e ∨ r.SilentUpgrade j a e) j a c :=
      hkeeps fun j e h => h.elim (r.not_ownGETM hl hs) (r.not_silentUpgrade hl)
    simp only [exists_or, hno, or_false]
    rw [Input.f, hp]
    exact r.supplier_iff_once hl hs
  | MOESIF_PRO =>
    rw [Input.f, hp]
    exact r.supplier_iff_mem hl hs

end

/-! ### What is served -/

/-- How many of the requests for these lines, in this order, a cache answers. -/
def served (f : Features) (l : List Paddr) : ℕ :=
  if f.exclusive then (if f.forward then l.length - l.toFinset.card else (repeated l).card) else 0

open Classical in
theorem served_append (f : Features) (l : List Paddr) (a : Paddr) : served f (l ++ [a]) = served f l +
    if (if f.exclusive then (if f.forward then a ∈ l else l.count a = 1) else False) then 1 else 0 := by
  unfold served
  split
  · split
    · have hle : l.toFinset.card ≤ l.length := List.toFinset_card_le l
      rw [card_toFinset_append, List.length_append, List.length_singleton]
      split <;> omega
    · exact card_repeated_append l a
  · rfl

section
variable (hl : x.LoadsOnly) (hs : x.f.shared = true)
include hl hs

theorem transfers_eq_served (c : ℕ) : (r.state c).stats.cacheToCacheTransfers = served x.f (r.grantedLines c) := by
  classical
  induction c with
  | zero =>
    rw [r.start]
    have hnil : r.grantedLines 0 = [] := rfl
    rw [hnil, served]
    split_ifs <;> rfl
  | succ c ih =>
    rw [r.cacheToCacheTransfers_succ, ih]
    cases hg : r.grantAt c with
    | none =>
      have hr : r.replied c = none := by
        cases r.turn c with
        | rest _ _ hr | hold _ _ _ hr | data _ _ _ _ hr => exact hr
        | grant m _ _ hb hmd => rw [r.grantAt_eq_some.mpr ⟨hb, hmd⟩] at hg; cases hg
      rw [r.grantedLines_succ, hg, hr]
      simp
    | some m =>
      have hsome := r.replied_isSome_iff hg
      rw [r.historySupplier_iff hl hs] at hsome
      have hlines : r.grantedLines (c + 1) = r.grantedLines c ++ [m.addr] := by
        rw [r.grantedLines_succ, hg]
        rfl
      rw [hlines, served_append]
      cases hr : r.replied c with
      | none =>
        rw [hr] at hsome
        rw [if_neg fun h => by cases hsome.mpr h]
        rfl
      | some d =>
        rw [if_pos (hsome.mp (by rw [hr]; rfl))]
        rfl

omit hs in
/-- A node whose access has been looked up has asked for the line, when the queue is empty. -/
theorem own_of_procRequest {e : ℕ} {q : Mreq} (hq : ((r.state e).Nd i).L1.procRequest = some q) (he : e < c)
    (hempty : (r.state c).bus.pendingRequests = []) : ∃ g, g < c ∧ r.OwnGrant i q.addr g := by
  obtain ⟨k, l, ha, hql⟩ := r.issued_of_procRequest hq
  have hp : (((r.state e).Nd i).line q.addr).pending = false := ((r.inv e).procReady i q hq).2.2.1
  cases hh : hits (((r.state e).Nd i).line q.addr) q.msg with
  | true =>
    rw [r.load_of_procRequest hl hq] at hh
    obtain ⟨g, hg, hown, -⟩ := (r.lineHistory e i q.addr hp).readable.mp (by simpa [hits] using hh)
    exact ⟨g, by omega, hown⟩
  | false =>
    have happ : r.appended e i = [x.ask i l] := by
      rw [r.appended_at ha, if_pos]
      rw [hql] at hh
      exact ⟨rfl, hh⟩
    have hjoined : x.ask i l ∈ r.queue.joined c := by
      apply List.mem_flatMap.mpr
      exact ⟨e, List.mem_range.mpr he, List.mem_flatMap.mpr ⟨i, List.mem_finRange i, by simp [happ]⟩⟩
    have hwaits : r.queue.waits c = [] := hempty
    rw [r.queue.joined_eq, r.queue_left, hwaits, List.append_nil] at hjoined
    obtain ⟨g, hg, hgg⟩ := r.mem_grants.mp hjoined
    exact ⟨g, hg, _, hgg, by rw [hql]; rfl, rfl⟩

omit hs in
/-- In the end every node has asked for its lines, and for no others. -/
theorem Ends.ownGrant_iff (h : r.Ends R) (i : Fin n) (a : Paddr) :
    (∃ e, e < R ∧ r.OwnGrant i a e) ↔ a ∈ linesOf (x.traces i) := by
  rw [linesOf, List.mem_toFinset, List.mem_map]
  constructor
  · rintro ⟨e, -, m, hg, rfl, hsrc⟩
    obtain ⟨j, k, l, ha, hm⟩ := r.requester hg
    obtain rfl : j = i := L1id_injective (by rw [← hsrc, hm, ask_srcMid])
    exact ⟨l, List.mem_of_getElem? (ha.fetched (by decide)).2, by rw [hm, ask_addr]⟩
  · rintro ⟨l, hmem, rfl⟩
    have hissue : Mreq.new (opOf l.1) l.2 (PRid i) ∈ r.issues i R := by
      rw [(h.quiescent r).issued]
      exact List.mem_map_of_mem hmem
    obtain ⟨e, he, hq⟩ := r.mem_issues hissue
    have hlt : e < R := by
      refine lt_of_le_of_ne he fun heq => ?_
      subst heq
      obtain ⟨k, l', ha, -⟩ := r.issued_of_procRequest hq
      cases (h.idle r ha).1
    exact r.own_of_procRequest hl hq hlt (h.bus r).2

open Classical in
/-- How often a line has been granted is how many have asked for it. -/
theorem count_grantedLines (c : ℕ) (a : Paddr) : (r.grantedLines c).count a =
    (Finset.univ.filter fun i => ∃ e, e < c ∧ r.OwnGrant i a e).card := by
  induction c with
  | zero => simp [grantedLines, grants]
  | succ c ih =>
    have hsucc : ∀ i, (∃ e, e < c + 1 ∧ r.OwnGrant i a e) ↔ r.OwnGrant i a c ∨ ∃ e, e < c ∧ r.OwnGrant i a e := by
      intro i
      simp only [Nat.lt_succ_iff_lt_or_eq, or_and_right, exists_or, exists_eq_left]
      exact or_comm
    simp only [hsucc]
    by_cases hgrant : r.GrantFor a c
    · obtain ⟨m, hg, ha⟩ := hgrant
      obtain ⟨j, k, l, -, hm⟩ := r.requester hg
      have hown : r.OwnGrant j a c := ⟨m, hg, ha, by rw [hm, ask_srcMid]⟩
      have hone : ∀ i, r.OwnGrant i a c ↔ i = j := by
        refine fun i => ⟨?_, fun h => h ▸ hown⟩
        rintro ⟨m', hg', -, hsrc⟩
        rw [← Option.some.inj (hg.symm.trans hg'), hm, ask_srcMid] at hsrc
        exact (L1id_injective hsrc).symm
      simp only [hone]
      rw [r.grantedLines_grant hown, List.count_append, List.count_singleton_self, ih, Finset.filter_or,
        Finset.filter_eq' , if_pos (Finset.mem_univ j), ← Finset.insert_eq, Finset.card_insert_of_notMem]
      rw [Finset.mem_filter, not_and]
      exact fun _ => r.asks_once hl hs hown
    · have hno : ∀ i, ¬ r.OwnGrant i a c := by
        rintro i ⟨m, hg, ha, -⟩
        exact hgrant ⟨m, hg, ha⟩
      simp only [hno, false_or]
      rw [r.grantedLines_rest hgrant, ih]

theorem Ends.count_grantedLines (h : r.Ends R) (a : Paddr) :
    (r.grantedLines R).count a = (x.users a).card := by
  classical
  rw [r.count_grantedLines hl hs, Input.users]
  simp only [h.ownGrant_iff r hl]

omit hs in
theorem upgrades_eq_zero (c : ℕ) : (r.state c).stats.silentUpgrades = 0 := by
  induction c with
  | zero => rw [r.start]; rfl
  | succ c ih =>
    rw [r.next, Simulator.next_stats]
    show (r.state c).stats.silentUpgrades + _ = 0
    rw [ih, Nat.zero_add, List.countP_eq_zero]
    intro i _ hup
    unfold Node.upgraded at hup
    split at hup
    · cases hup
    · next q hq =>
      rw [r.load_of_procRequest hl hq] at hup
      simp [upgrades] at hup

end

/-! ### The counters -/

/-- The counters where no trace has a store. -/
structure LoadCounters (x : Input n) (stats : Stats) : Prop where
  accesses : stats.cacheAccesses = ∑ i, (x.traces i).length
  upgrades : stats.silentUpgrades = 0
  misses : stats.cacheMisses = ∑ i, (linesOf (x.traces i)).card
  transfers : stats.cacheToCacheTransfers =
    match x.protocol with
    | .MI_PRO | .MSI_PRO | .MOSI_PRO => 0
    | .MESI_PRO | .MOESI_PRO => x.sharedLines.card
    | .MOESIF_PRO => stats.cacheMisses - x.lines.card

theorem Ends.loadCounters (h : r.Ends R) (hl : x.LoadsOnly) (hs : x.f.shared = true) :
    LoadCounters x (r.state R).stats := by
  have hlength : (r.grantedLines R).length = (r.state R).stats.cacheMisses := by
    rw [r.misses_eq, (h.bus r).2, List.length_nil, Nat.add_zero, grantedLines, List.length_map]
  have hlines : (r.grantedLines R).toFinset = x.lines := by
    ext a
    rw [Input.mem_lines, ← h.granted_iff r, List.mem_toFinset, grantedLines, List.mem_map]
  have hcount := fun a => h.count_grantedLines r hl hs a
  have hshared : repeated (r.grantedLines R) = x.sharedLines := by
    rw [repeated, hlines, Input.sharedLines]
    simp only [hcount]
  refine ⟨(h.quiescent r).accesses, r.upgrades_eq_zero hl R, ?_, ?_⟩
  · calc (r.state R).stats.cacheMisses
        = ∑ a ∈ x.lines, (x.users a).card := by
          rw [← hlength, ← List.sum_toFinset_count_eq_length, hlines]
          exact Finset.sum_congr rfl fun a _ => hcount a
      _ = ∑ a ∈ x.lines, ∑ i, if a ∈ linesOf (x.traces i) then 1 else 0 :=
          Finset.sum_congr rfl fun a _ => Finset.card_filter _ _
      _ = ∑ i, ∑ a ∈ x.lines, if a ∈ linesOf (x.traces i) then 1 else 0 := Finset.sum_comm
      _ = ∑ i, (linesOf (x.traces i)).card := by
          refine Finset.sum_congr rfl fun i _ => ?_
          rw [← Finset.card_filter, Finset.filter_mem_eq_inter, Finset.inter_eq_right.mpr]
          exact Finset.subset_biUnion_of_mem (fun i => linesOf (x.traces i)) (Finset.mem_univ i)
  · rw [r.transfers_eq_served hl hs, served, hlength, hlines, hshared]
    cases hp : x.protocol <;> rw [Input.f, hp] <;> rfl

/-- **Traces of loads only.** Under every protocol but MI a run of such traces ends with one
miss for every node and every line it uses, and no upgrade. Under MSI and MOSI the memory
answers them all; under MESI and MOESI one of every line that is used by two nodes is
answered by a cache, and under MOESIF all but the first of every line. -/
theorem loads_only (r : Run x) (hl : x.LoadsOnly) (hx : x.protocol ≠ .MI_PRO) : ∃ s,
    (∃ fuel, (Simulator.init x.traces).run x.settings fuel = .ok (some s)) ∧ LoadCounters x s.stats := by
  have hs : x.f.shared = true := by
    unfold Input.f
    revert hx
    cases x.protocol <;> decide
  obtain ⟨R, h⟩ := r.exists_ends
  exact ⟨r.state R, ⟨R, by rw [r.run_eq_of_ends h, if_pos (Nat.le_refl R)]⟩, h.loadCounters r hl hs⟩

end Run

/-- Three nodes under MOESIF that load one line, and one of them another. -/
def Input.threeReaders (hitTime : ℕ) (h : 1 ≤ hitTime) : Input 3 where
  protocol := .MOESIF_PRO
  hitTime := hitTime
  hitTime_pos := h
  traces := ![[('r', 0x40)], [('r', 0x44), ('r', 0x80)], [('r', 0x40)]]
  wellFormed := by decide

theorem Run.loads_only_three :
    let x := Input.threeReaders 1 (Nat.le_refl 1)
    ∃ s, (∃ fuel, (Simulator.init x.traces).run x.settings fuel = .ok (some s)) ∧ LoadCounters x s.stats :=
  (Input.threeReaders 1 (Nat.le_refl 1)).run.loads_only (by unfold Input.LoadsOnly; decide) (by decide)

end CoherenceSim
