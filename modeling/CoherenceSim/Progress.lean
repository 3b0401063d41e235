/-
# The untimed system never gets stuck

`Happens`: what an event that has happened has done. `Live`: besides what `Sound` says,
every outstanding access has its request in the queue or granted. `completes`: after any
sequence of events, if no access is issued any more, what can happen is a sequence that
is known in advance, one grant and one DATA for each request, and at its end no access is
outstanding.
-/
import CoherenceSim.Exclusive

namespace CoherenceSim

/-- An event of a processor. -/
def Event.isIssue {n : ℕ} : Event n → Bool
  | .issue .. => true
  | _ => false

namespace Untimed

open Features

variable {n : ℕ} {p : Protocol} {s t : Untimed n} {i : Fin n} {op : Message} {addr : Paddr} {m : Mreq}

/-! ### What an event does -/

/-- The event has taken the system from `s` to `t`. -/
inductive Happens (p : Protocol) (s : Untimed n) : Event n → Untimed n → Prop
  | issue (i : Fin n) (op : Message) (addr : Paddr) (hop : op = .LOAD ∨ op = .STORE)
      (ho : s.outstanding i = none) : Happens p s (.issue i op addr) (s.issued p.features i op addr)
  | grant (m : Mreq) (q : List Mreq) (hr : s.bus.requestInProgress = false)
      (hq : s.bus.pendingRequests = m :: q) : Happens p s .grant (s.afterGrant p.features m q)
  | deliver (m d : Mreq) (i : Fin n) (hg : s.granted = some m) (hi : s.Asks p m i) :
      Happens p s .deliver (s.afterDeliver p.features m d i)

theorem Sound.happens (h : Sound p s) {e : Event n} (ht : s.step p e = .ok t) : Happens p s e t := by
  cases e with
  | issue i op addr =>
    by_cases hc : (op = .LOAD ∨ op = .STORE) ∧ s.outstanding i = none
    · rw [h.step_issue hc.1 hc.2] at ht
      rw [← Except.ok.inj ht]
      exact .issue i op addr hc.1 hc.2
    · rw [step, if_neg hc] at ht
      cases ht
  | grant =>
    by_cases hc : s.bus.requestInProgress = false ∧ s.bus.pendingRequests ≠ []
    · obtain ⟨m, q, hq⟩ := List.exists_cons_of_ne_nil hc.2
      rw [h.step_grant hc.1 hq] at ht
      rw [← Except.ok.inj ht]
      exact .grant m q hc.1 hq
    · rw [step, if_neg hc] at ht
      cases ht
  | deliver =>
    cases hg : s.granted with
    | none =>
      rw [step, hg] at ht
      cases ht
    | some m =>
      obtain ⟨i, d, hi, hs⟩ := h.step_deliver hg
      rw [hs] at ht
      rw [← Except.ok.inj ht]
      exact .deliver m d i hg hi

theorem Sound.next (h : Sound p s) {e : Event n} (ht : s.step p e = .ok t) : Sound p t := by
  cases h.happens ht with
  | issue i op addr hop ho => exact h.issued ho
  | grant m q hr hq => exact h.afterGrant hr hq
  | deliver m d i hg hi => exact h.afterDeliver hg hi

/-- An event that does not happen is one that cannot: there is no error. -/
theorem Sound.stops (h : Sound p s) {e : Event n} {stop : Stop} (hs : s.step p e = .error stop) :
    stop = .disabled := by
  cases e with
  | issue i op addr =>
    by_cases hc : (op = .LOAD ∨ op = .STORE) ∧ s.outstanding i = none
    · rw [h.step_issue hc.1 hc.2] at hs
      cases hs
    · rw [step, if_neg hc] at hs
      exact (Except.error.inj hs).symm
  | grant =>
    by_cases hc : s.bus.requestInProgress = false ∧ s.bus.pendingRequests ≠ []
    · obtain ⟨m, q, hq⟩ := List.exists_cons_of_ne_nil hc.2
      rw [h.step_grant hc.1 hq] at hs
      cases hs
    · rw [step, if_neg hc] at hs
      exact (Except.error.inj hs).symm
  | deliver =>
    cases hg : s.granted with
    | none =>
      rw [step, hg] at hs
      exact (Except.error.inj hs).symm
    | some m =>
      obtain ⟨i, d, -, hd⟩ := h.step_deliver hg
      rw [hd] at hs
      cases hs

theorem run_cons (e : Event n) (es : List (Event n)) :
    s.run p (e :: es) = s.step p e >>= fun u => u.run p es := List.foldlM_cons

/-! ### Every outstanding access is asked for -/

structure Live (p : Protocol) (s : Untimed n) : Prop extends Sound p s where
  sought : ∀ i op addr, s.outstanding i = some (op, addr) →
    getMsg (p.features.request op) (L1id i) addr ∈ s.requests
  busy : s.bus.requestInProgress = s.granted.isSome
  ops : ∀ i op addr, s.outstanding i = some (op, addr) → op = .LOAD ∨ op = .STORE

theorem live_start (p : Protocol) : Live p (start n) where
  toSound := sound_start p
  sought i op addr h := by cases h
  busy := rfl
  ops i op addr h := by cases h

theorem Live.next (h : Live p s) {e : Event n} (ht : s.step p e = .ok t) : Live p t := by
  refine { toSound := h.toSound.next ht, sought := fun j op' addr' hj => ?_, busy := ?_,
           ops := fun j op' addr' hj => ?_ }
  · cases h.happens ht with
    | issue i op addr hop ho =>
      rw [requests_issued, List.mem_append]
      by_cases hji : j = i
      · subst hji
        simp only [issued, if_true] at hj
        split at hj
        · cases hj
        · next hh =>
          obtain ⟨rfl, rfl⟩ := Prod.mk.inj (Option.some.inj hj)
          exact Or.inr (by rw [if_neg hh]; exact List.mem_singleton_self _)
      · simp only [issued, if_neg hji] at hj
        exact Or.inl (h.sought j op' addr' hj)
    | grant m q hr hq =>
      rw [requests_afterGrant p.features hr hq]
      exact h.sought j op' addr' hj
    | deliver m d i hg hi =>
      have hji : j ≠ i := by
        rintro rfl
        simp [afterDeliver] at hj
      simp only [afterDeliver, if_neg hji] at hj
      have hmem := h.sought j op' addr' hj
      rw [requests_afterDeliver p.features d i hg, List.mem_cons] at hmem
      refine hmem.resolve_left fun hm => hji (L1id_injective ?_)
      rw [← hi.srcMid, ← hm]
      rfl
  · cases h.happens ht with
    | issue => exact h.busy
    | grant | deliver => rfl
  · cases h.happens ht with
    | issue i op addr hop =>
      simp only [issued] at hj
      split_ifs at hj
      · obtain ⟨rfl, rfl⟩ := Prod.mk.inj (Option.some.inj hj)
        exact hop
      · exact h.ops j op' addr' hj
    | grant => exact h.ops j op' addr' hj
    | deliver =>
      simp only [afterDeliver] at hj
      split_ifs at hj
      exact h.ops j op' addr' hj

theorem Sound.quiet (h : Sound p s) (ho : ∀ i, s.outstanding i = none)
    (hr : s.bus.requestInProgress = false) : Quiet p s where
  toSound := h
  outstanding := ho
  queue := by
    refine List.eq_nil_iff_forall_not_mem.mpr fun m hm => ?_
    obtain ⟨i, hi⟩ := h.asked m (List.mem_append_right _ hm)
    exact hi.outstanding (ho i)
  free := hr

theorem Quiet.not_pending (h : Quiet p s) (i : Fin n) (a : Paddr) : (s.line i a).pending = false := by
  by_contra hp
  obtain ⟨op, addr, hout, -⟩ := h.pending i a (by simpa using hp)
  rw [h.outstanding i] at hout
  cases hout

theorem Live.quiet (h : Live p s) (hreq : s.requests = []) : Quiet p s := by
  refine h.toSound.quiet (fun i => ?_) ?_
  · cases ho : s.outstanding i with
    | none => rfl
    | some e =>
      have hmem := h.sought i e.1 e.2 ho
      rw [hreq] at hmem
      cases hmem
  · rw [h.busy]
    cases hg : s.granted with
    | none => rfl
    | some m => rw [requests, hg] at hreq; cases hreq

/-! ### What is left to happen -/

/-- What can happen when no access is issued any more: the DATA of the granted request, and
then a grant and DATA for each that waits. -/
def remaining (s : Untimed n) : List (Event n) :=
  s.granted.toList.map (fun _ => .deliver) ++ s.bus.pendingRequests.flatMap fun _ => [.grant, .deliver]

theorem Live.remaining_step (h : Live p s) {e : Event n} (hi : e.isIssue = false)
    (ht : s.step p e = .ok t) : s.remaining = e :: t.remaining := by
  cases h.happens ht with
  | issue => cases hi
  | grant m q hr hq =>
    have hgranted : s.granted = none := if_neg (by rw [hr]; decide)
    rw [remaining, hgranted, hq]
    rfl
  | deliver m d i hg =>
    rw [remaining, hg]
    rfl

/-- The first of these can happen. -/
theorem Live.can_happen (h : Live p s) {e : Event n} {es : List (Event n)} (hr : s.remaining = e :: es) :
    e.isIssue = false ∧ ∃ t, s.step p e = .ok t := by
  cases hg : s.granted with
  | some m =>
    rw [remaining, hg] at hr
    obtain ⟨rfl, -⟩ := List.cons.inj hr
    obtain ⟨i, d, -, hd⟩ := h.step_deliver hg
    exact ⟨rfl, _, hd⟩
  | none =>
    have hrip : s.bus.requestInProgress = false := by rw [h.busy, hg]; rfl
    cases hq : s.bus.pendingRequests with
    | nil => rw [remaining, hg, hq] at hr; cases hr
    | cons m q =>
      rw [remaining, hg, hq] at hr
      obtain ⟨rfl, -⟩ := List.cons.inj hr
      exact ⟨rfl, _, h.step_grant hrip hq⟩

theorem requests_eq_nil_of_remaining (hr : s.remaining = []) : s.requests = [] := by
  obtain ⟨hg, hq⟩ := List.append_eq_nil_iff.mp hr
  rw [requests, List.map_eq_nil_iff.mp hg]
  cases hp : s.bus.pendingRequests with
  | nil => rfl
  | cons m q => rw [hp] at hq; cases hq

/-- All of them can, in this order, and then nothing is outstanding. -/
theorem Live.run_remaining (h : Live p s) : ∃ t, s.run p s.remaining = .ok t ∧ Quiet p t := by
  induction hr : s.remaining generalizing s with
  | nil => exact ⟨s, rfl, h.quiet (requests_eq_nil_of_remaining hr)⟩
  | cons e es ih =>
    obtain ⟨hi, t, ht⟩ := h.can_happen hr
    have hrest : t.remaining = es := (List.cons.inj ((h.remaining_step hi ht).symm.trans hr)).2
    obtain ⟨u, hu, hquiet⟩ := ih (h.next ht) hrest
    refine ⟨u, ?_, hquiet⟩
    rw [run_cons, ht]
    exact hu

/-- And nothing else can. -/
theorem Live.run_iff (h : Live p s) {ws : List (Event n)} (hw : ∀ e ∈ ws, e.isIssue = false) :
    (∃ t, s.run p ws = .ok t) ↔ ws <+: s.remaining := by
  induction ws generalizing s with
  | nil => exact ⟨fun _ => List.nil_prefix, fun _ => ⟨s, rfl⟩⟩
  | cons e ws ih =>
    have hi := hw e (by simp)
    have hws : ∀ e' ∈ ws, e'.isIssue = false := fun e' he' => hw e' (List.mem_cons_of_mem e he')
    rw [run_cons]
    constructor
    · rintro ⟨u, hu⟩
      obtain ⟨t, ht, hrun⟩ := Loop.bind_eq_ok hu
      rw [h.remaining_step hi ht, List.prefix_cons_inj]
      exact (ih (h.next ht) hws).mp ⟨u, hrun⟩
    · rintro ⟨rest, hrest⟩
      obtain ⟨-, t, ht⟩ := h.can_happen hrest.symm
      have htail : t.remaining = ws ++ rest :=
        (List.cons.inj ((h.remaining_step hi ht).symm.trans hrest.symm)).2
      obtain ⟨u, hu⟩ := (ih (h.next ht) hws).mpr ⟨rest, htail.symm⟩
      exact ⟨u, by rw [ht]; exact hu⟩

theorem Live.not_fatal (h : Live p s) (es : List (Event n)) (f : Fatal) : s.run p es ≠ .error (.fatal f) := by
  induction es generalizing s with
  | nil => intro hrun; cases hrun
  | cons e es ih =>
    rw [run_cons]
    cases ht : s.step p e with
    | ok t => exact ih (h.next ht)
    | error stop =>
      rw [h.stops ht]
      intro hrun
      cases hrun

theorem Sound.length_requests_le (h : Sound p s) : s.requests.length ≤ n := by
  have hsub : s.requests.map (·.srcMid) ⊆ (List.finRange n).map L1id := by
    intro id hid
    obtain ⟨m, hm, rfl⟩ := List.mem_map.mp hid
    obtain ⟨i, hi⟩ := h.asked m hm
    exact List.mem_map.mpr ⟨i, List.mem_finRange i, hi.srcMid.symm⟩
  simpa using (h.distinct.subperm hsub).length_le

theorem Sound.length_remaining_le (h : Sound p s) : s.remaining.length ≤ 2 * n := by
  have hlen := h.length_requests_le
  rw [requests, List.length_append] at hlen
  simp only [remaining, List.length_append, List.length_flatMap, List.length_cons, List.length_nil,
    List.map_const', List.length_replicate, List.sum_replicate, smul_eq_mul]
  omega

theorem live_run {es : List (Event n)} (h : (start n).run p es = .ok s) : Live p s :=
  Loop.foldlM_preserves (P := Live p) (fun _ _ _ _ hs ht => hs.next ht) h (live_start p)

/-- **No interleaving gets stuck, and none goes on for ever.** After any sequence of events,
of any of the protocols, no further sequence meets an error; without another access what can
happen is a fixed sequence of at most `2 n` events and what it begins with, and nothing is
outstanding at its end. -/
theorem completes (es : List (Event n)) (h : (start n).run p es = .ok s) :
    (∀ ws f, s.run p ws ≠ .error (.fatal f)) ∧
    (∀ ws, (∀ e ∈ ws, e.isIssue = false) → ((∃ t, s.run p ws = .ok t) ↔ ws <+: s.remaining)) ∧
    s.remaining.length ≤ 2 * n ∧ ∃ t, s.run p s.remaining = .ok t ∧ Quiet p t := by
  have hlive := live_run h
  exact ⟨hlive.not_fatal, fun ws => hlive.run_iff, hlive.toSound.length_remaining_le, hlive.run_remaining⟩

/-- Two processors that store to one line at once. -/
theorem completes_stores : ∃ s : Untimed 2,
    (start 2).run .MESI_PRO [.issue 0 .STORE 0x40, .issue 1 .STORE 0x40] = .ok s ∧
    s.remaining.length ≤ 2 * 2 ∧ ∃ t, s.run .MESI_PRO s.remaining = .ok t ∧ Quiet .MESI_PRO t :=
  ⟨_, rfl, (completes [.issue 0 .STORE 0x40, .issue 1 .STORE 0x40] rfl).2.2⟩

end Untimed

end CoherenceSim
