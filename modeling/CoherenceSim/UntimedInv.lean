/-
# The invariant of the untimed system

`Sound`: what holds after any sequence of events. Every outstanding access has its line
waiting and one request in the queue or granted, and the copies of a line fit beside
each other and beside what the granted request is about to bring. `Sound.step_issue`,
`Sound.step_grant` and `Sound.step_deliver`: an event that can happen meets no error, and
keeps the invariant.
-/
import CoherenceSim.Untimed

namespace CoherenceSim

namespace Untimed

open Features

variable {n : ℕ} {p : Protocol} {s : Untimed n} {i : Fin n} {op : Message} {addr : Paddr} {m : Mreq}

/-- `m` is the request of cache `i` for its outstanding access. -/
def Asks (p : Protocol) (s : Untimed n) (m : Mreq) (i : Fin n) : Prop :=
  ∃ op addr, s.outstanding i = some (op, addr) ∧ m = getMsg (p.features.request op) (L1id i) addr

/-- The requests without their DATA. -/
def requests (s : Untimed n) : List Mreq := s.granted.toList ++ s.bus.pendingRequests

structure Sound (p : Protocol) (s : Untimed n) : Prop where
  valid : ∀ i a, p.features.valid (s.line i a) = true
  fits : ∀ a, Permission.Fits 3 fun i => (s.line i a).rank
  wait : ∀ i op addr, s.outstanding i = some (op, addr) →
    s.line i (lineOf addr) = pend (p.features.request op)
  pending : ∀ i a, (s.line i a).pending = true →
    ∃ op addr, s.outstanding i = some (op, addr) ∧ a = lineOf addr
  asked : ∀ m ∈ s.requests, ∃ i, s.Asks p m i
  distinct : (s.requests.map (·.srcMid)).Nodup
  idle : s.bus.requestInProgress = false → s.bus.dataReply = none
  reply : ∀ m d, s.granted = some m → s.bus.dataReply = some d →
    d.msg = .DATA ∧ d.addr = m.addr ∧ d.destMid = m.srcMid
  room : ∀ m i, s.granted = some m → m.srcMid = L1id i →
    Permission.Room 3 (fun j => (s.line j m.addr).rank) i (p.features.fill m.msg s.bus.sharedLine).rank

theorem sound_start (p : Protocol) : Sound p (start n) where
  valid i a := rfl
  fits a i j _ := Nat.zero_le 3
  wait i op addr h := by cases h
  pending i a h := by cases h
  asked m hm := by cases hm
  distinct := List.nodup_nil
  idle _ := rfl
  reply m d hm := by cases hm
  room m i hm := by cases hm

theorem Asks.srcMid (h : s.Asks p m i) : m.srcMid = L1id i := by
  obtain ⟨op, addr, -, rfl⟩ := h
  rfl

theorem Asks.kind (h : s.Asks p m i) : m.msg = .GETS ∨ m.msg = .GETM := by
  obtain ⟨op, addr, -, rfl⟩ := h
  exact request_cases _ _

theorem Asks.lineOf_addr (h : s.Asks p m i) : lineOf m.addr = m.addr := by
  obtain ⟨op, addr, -, rfl⟩ := h
  exact lineOf_lineOf addr

theorem Asks.outstanding (h : s.Asks p m i) : s.outstanding i ≠ none := by
  obtain ⟨op, addr, hout, -⟩ := h
  rw [hout]
  exact Option.some_ne_none _

/-- Its request is that of the access that is outstanding still. -/
theorem Asks.mono {t : Untimed n} (h : s.Asks p m i) (ho : t.outstanding i = s.outstanding i) :
    t.Asks p m i := by
  obtain ⟨op, addr, hout, hm⟩ := h
  exact ⟨op, addr, ho.trans hout, hm⟩

/-! ### The requests without their DATA -/

theorem requests_issued (f : Features) (s : Untimed n) (i : Fin n) (op : Message) (addr : Paddr) :
    (s.issued f i op addr).requests = s.requests ++
      (if hits (s.line i (lineOf addr)) op then [] else [getMsg (f.request op) (L1id i) addr]) :=
  (List.append_assoc _ _ _).symm

theorem requests_afterGrant (f : Features) {q : List Mreq} (hr : s.bus.requestInProgress = false)
    (hq : s.bus.pendingRequests = m :: q) : (s.afterGrant f m q).requests = s.requests := by
  simp [requests, granted, afterGrant, snooped, hr, hq]

theorem requests_afterDeliver (f : Features) (d : Mreq) (i : Fin n) (hg : s.granted = some m) :
    s.requests = m :: (s.afterDeliver f m d i).requests := by
  rw [requests, hg]
  rfl

namespace Sound

/-! ### An access is issued -/

theorem rank_issued_le (p : Protocol) (s : Untimed n) (i j : Fin n) (op : Message) (addr b : Paddr) :
    ((s.issued p.features i op addr).line j b).rank ≤ (s.line j b).rank := by
  simp only [issued]
  split
  · next hjb =>
    rw [hjb.1, hjb.2]
    split
    · next hh => exact Nat.le_of_eq (afterHit_rank hh)
    · simp
  · exact Nat.le_refl _

theorem issued (h : Sound p s) (ho : s.outstanding i = none) :
    Sound p (s.issued p.features i op addr) where
  valid j b := by
    simp only [Untimed.issued]
    split
    · split
      · exact valid_afterHit p op (h.valid _ _)
      · exact valid_pend p op
    · exact h.valid j b
  fits b := (h.fits b).mono fun j => rank_issued_le p s i j op addr b
  wait j op' addr' hj := by
    simp only [Untimed.issued] at hj ⊢
    by_cases hji : j = i
    · rw [if_pos hji] at hj
      split at hj
      · cases hj
      · next hh =>
        obtain ⟨rfl, rfl⟩ := Prod.mk.inj (Option.some.inj hj)
        rw [if_pos ⟨hji, rfl⟩, if_neg hh]
    · rw [if_neg hji] at hj
      rw [if_neg fun hjb => hji hjb.1]
      exact h.wait j op' addr' hj
  pending j b hj := by
    simp only [Untimed.issued] at hj ⊢
    by_cases hji : j = i
    · subst hji
      by_cases hb : b = lineOf addr
      · rw [if_pos ⟨rfl, hb⟩] at hj
        rw [if_pos rfl]
        split at hj
        · next hh => rw [afterHit_pending hh] at hj; cases hj
        · next hh => exact ⟨op, addr, if_neg hh, hb⟩
      · rw [if_neg fun hjb => hb hjb.2] at hj
        obtain ⟨_, _, hout, -⟩ := h.pending j b hj
        rw [ho] at hout
        cases hout
    · rw [if_neg fun hjb => hji hjb.1] at hj
      rw [if_neg hji]
      exact h.pending j b hj
  asked m hm := by
    rw [requests_issued, List.mem_append] at hm
    rcases hm with hm | hm
    · obtain ⟨k, hk⟩ := h.asked m hm
      have hki : k ≠ i := fun hki => hk.outstanding (hki ▸ ho)
      exact ⟨k, hk.mono (if_neg hki)⟩
    · split at hm
      · cases hm
      · next hh =>
        rw [List.mem_singleton.mp hm]
        exact ⟨i, op, addr, (if_pos rfl).trans (if_neg hh), rfl⟩
  distinct := by
    rw [requests_issued, List.map_append, List.nodup_append]
    refine ⟨h.distinct, ?_, ?_⟩
    · split
      · exact List.nodup_nil
      · exact List.nodup_singleton _
    · intro a ha b hb hab
      -- nothing of cache `i` was without its DATA
      obtain ⟨m, hm, rfl⟩ := List.mem_map.mp ha
      obtain ⟨k, hk⟩ := h.asked m hm
      split at hb
      · cases hb
      · rw [List.mem_singleton.mp hb, hk.srcMid] at hab
        exact hk.outstanding (L1id_injective hab ▸ ho)
  idle := h.idle
  reply := h.reply
  room m k hm hk := (h.room m k hm hk).mono fun j _ => rank_issued_le p s i j op addr m.addr

/-! ### A request is granted -/

theorem afterGrant {q : List Mreq} (h : Sound p s) (hr : s.bus.requestInProgress = false)
    (hq : s.bus.pendingRequests = m :: q) : Sound p (s.afterGrant p.features m q) := by
  have hreq := requests_afterGrant p.features hr hq
  have hmem : m ∈ s.requests := by simp [requests, hq]
  obtain ⟨i, hi⟩ := h.asked m hmem
  have hline := line_afterGrant p.features s m q
  have hrank : ∀ j b, ((s.afterGrant p.features m q).line j b).rank ≤ (s.line j b).rank := by
    intro j b
    rw [hline]
    split
    · exact yield_rank_le _ _ _
    · exact Nat.le_refl _
  refine { valid := fun j b => ?_, fits := fun b => (h.fits b).mono fun j => hrank j b,
           wait := fun j op addr hj => ?_, pending := fun j b hj => ?_, asked := fun m' hm' => ?_,
           distinct := by rw [hreq]; exact h.distinct, idle := fun hn => (nomatch hn),
           reply := fun m' d hm' hd => ?_, room := fun m' k hm' hk j _ => ?_ }
  · rw [hline]
    split
    · exact valid_yield p _ (h.valid j b)
    · exact h.valid j b
  · rw [hline, h.wait j op addr hj, yield_of_pending _ (pend_pending _), ite_self]
  · rw [hline] at hj
    apply h.pending j b
    split at hj
    · rwa [yield_pending] at hj
    · exact hj
  · rw [hreq] at hm'
    obtain ⟨k, hk⟩ := h.asked m' hm'
    exact ⟨k, hk.mono rfl⟩
  · obtain rfl : m = m' := Option.some.inj hm'
    have hd' : (List.finRange n).findSome? (s.answer m) = some d := by
      have hd' : ((List.finRange n).findSome? (s.answer m)).or s.bus.dataReply = some d := hd
      rwa [h.idle hr, Option.or_none] at hd'
    obtain ⟨j, -, hj⟩ := List.exists_of_findSome?_eq_some hd'
    unfold answer at hj
    split at hj
    · rw [← Option.some.inj hj]
      exact ⟨rfl, hi.lineOf_addr, rfl⟩
    · cases hj
  · obtain rfl : m = m' := Option.some.inj hm'
    show ((s.afterGrant p.features m q).line j m.addr).rank + _ ≤ 3
    rw [hline, if_pos rfl]
    refine p.features.yield_fill hi.kind fun hraise => ?_
    rw [sharedLine_afterGrant, List.any_eq_true]
    exact ⟨j, List.mem_finRange j, hraise⟩

/-! ### DATA is delivered -/

theorem afterDeliver {d : Mreq} (h : Sound p s) (hg : s.granted = some m) (hi : s.Asks p m i) :
    Sound p (s.afterDeliver p.features m d i) := by
  have hreq := requests_afterDeliver p.features d i hg
  obtain ⟨op, addr, hout, hm⟩ := hi
  have hmsg : m.msg = p.features.request op := by rw [hm]; rfl
  have haddr : m.addr = lineOf addr := by rw [hm]; rfl
  have hsrc : m.srcMid = L1id i := by rw [hm]; rfl
  refine { valid := fun j b => ?_, fits := fun b => ?_, wait := fun j op' addr' hj => ?_,
           pending := fun j b hj => ?_, asked := fun m' hm' => ?_, distinct := ?_, idle := fun _ => rfl,
           reply := fun m' d' hm' => (nomatch hm'), room := fun m' k hm' => (nomatch hm') }
  · simp only [Untimed.afterDeliver]
    split
    · rw [hmsg]
      exact valid_fill p op _
    · exact h.valid j b
  · by_cases hb : b = m.addr
    · subst hb
      refine (h.fits m.addr).raise (h.room m i hg hsrc) ?_ fun j hj => ?_
      · simp [Untimed.afterDeliver]
      · simp [Untimed.afterDeliver, hj]
    · refine (h.fits b).mono fun j => ?_
      simp [Untimed.afterDeliver, hb]
  · simp only [Untimed.afterDeliver] at hj ⊢
    split at hj
    · cases hj
    · next hji =>
      rw [if_neg fun hjb => hji hjb.1]
      exact h.wait j op' addr' hj
  · simp only [Untimed.afterDeliver] at hj ⊢
    split at hj
    · rw [fill_pending] at hj
      cases hj
    · next hjb =>
      obtain ⟨op', addr', hout', hb⟩ := h.pending j b hj
      have hji : j ≠ i := by
        rintro rfl
        obtain ⟨-, rfl⟩ := Prod.mk.inj (Option.some.inj (hout.symm.trans hout'))
        exact hjb ⟨rfl, hb.trans haddr.symm⟩
      exact ⟨op', addr', (if_neg hji).trans hout', hb⟩
  · obtain ⟨k, hk⟩ := h.asked m' (hreq ▸ List.mem_cons_of_mem m hm')
    have hki : k ≠ i := by
      rintro rfl
      have hd := h.distinct
      rw [hreq, List.map_cons, List.nodup_cons] at hd
      exact hd.1 (List.mem_map.mpr ⟨m', hm', hk.srcMid.trans hsrc.symm⟩)
    exact ⟨k, hk.mono (if_neg hki)⟩
  · have hd := h.distinct
    rw [hreq, List.map_cons, List.nodup_cons] at hd
    exact hd.2

/-! ### The events -/

theorem supplier_unique (h : Sound p s) {a : Paddr} {j k : Fin n} (hj : supplies (s.line j a) = true)
    (hk : supplies (s.line k a) = true) : j = k := by
  have hj2 : 2 ≤ (s.line j a).rank := by simpa [supplies] using hj
  have hk2 : 2 ≤ (s.line k a).rank := by simpa [supplies] using hk
  exact (h.fits a).unique (i := j) (j := k) (by omega) (by omega)

theorem step_issue (h : Sound p s) (hop : op = .LOAD ∨ op = .STORE) (ho : s.outstanding i = none) :
    s.step p (.issue i op addr) = .ok (s.issued p.features i op addr) := by
  have hpend : (s.line i (lineOf addr)).pending = false := by
    by_contra hp
    obtain ⟨_, _, hout, -⟩ := h.pending i _ (by simpa using hp)
    rw [ho] at hout
    cases hout
  rw [step, if_pos ⟨hop, ho⟩, issue_eq hop (h.valid i _) hpend]
  rfl

theorem step_grant {q : List Mreq} (h : Sound p s) (hr : s.bus.requestInProgress = false)
    (hq : s.bus.pendingRequests = m :: q) :
    s.step p .grant = .ok (s.afterGrant p.features m q) := by
  obtain ⟨i, hi⟩ := h.asked m (by simp [requests, hq])
  rw [step, if_pos ⟨hr, by rw [hq]; exact List.cons_ne_nil m q⟩,
    grant_eq hi.kind (fun j => h.valid j _) (fun _ _ => h.supplier_unique) (h.idle hr) hr hq]
  rfl

theorem step_deliver (h : Sound p s) (hg : s.granted = some m) :
    ∃ i d, s.Asks p m i ∧ s.step p .deliver = .ok (s.afterDeliver p.features m d i) := by
  obtain ⟨i, op, addr, hout, hm⟩ := h.asked m (by simp [requests, hg])
  have hline : s.line i m.addr = pend (p.features.request op) := by
    rw [hm]
    exact h.wait i op addr hout
  obtain ⟨d, hd⟩ := deliver_eq hg hm hline fun d => h.reply m d hg
  refine ⟨i, d, ⟨op, addr, hout, hm⟩, ?_⟩
  rw [step, hg]
  simp only [hd]
  rfl

end Sound

end Untimed

end CoherenceSim
