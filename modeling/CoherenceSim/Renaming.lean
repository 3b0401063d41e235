/-
# Owner and forward states only change who supplies data

`owner_and_forward`: the same events are possible in the untimed system under MOESIF and
under MOESI, under MOESI and MESI, and under MOSI and MSI, and lead to states that
differ in the name of a state of a line and in who has answered only.

Two members of the family are compared by what a renaming of the states has to keep
(`Renaming`). The shared line differs after a GETM, which `F` and `O` answer and raise it
for where `S` does nothing; but only the DATA of a GETS reads it, and a grant clears it.
-/
import CoherenceSim.UntimedInv

namespace CoherenceSim

open Features

/-! ### Renamings -/

/-- Nothing but who answers is lost when the states of `f` are renamed to those of `g`. -/
structure Renaming (f g : Features) (ρ : CacheState → CacheState) : Prop where
  invalid : ρ .I = .I
  exclusive : g.exclusive = f.exclusive
  request : ∀ op, g.request op = f.request op
  pend : ∀ kind, ρ (pend kind) = pend kind
  hits : ∀ st op, hits (ρ st) op = hits st op
  afterHit : ∀ st op, ρ (afterHit st op) = afterHit (ρ st) op
  upgrades : ∀ st op, upgrades (ρ st) op = upgrades st op
  yield : ∀ kind st, ρ (f.yield kind st) = g.yield kind (ρ st)
  fill : ∀ kind sh, ρ (f.fill kind sh) = g.fill kind sh
  raises : f.exclusive = true → ∀ st, g.raises .GETS (ρ st) = f.raises .GETS st
  supplies : ∀ st, supplies (ρ st) = true → supplies st = true

/-- A richer protocol and a simpler one without one of its states. -/
inductive Pair
  | MOESIF_MOESI | MOESI_MESI | MOSI_MSI
deriving DecidableEq, Repr

namespace Pair

def richer : Pair → Protocol
  | MOESIF_MOESI => .MOESIF_PRO
  | MOESI_MESI => .MOESI_PRO
  | MOSI_MSI => .MOSI_PRO

def simpler : Pair → Protocol
  | MOESIF_MOESI => .MOESI_PRO
  | MOESI_MESI => .MESI_PRO
  | MOSI_MSI => .MSI_PRO

/-- The state the simpler protocol does without. -/
def extra : Pair → CacheState
  | MOESIF_MOESI => .F
  | MOESI_MESI | MOSI_MSI => .O

/-- It is an `S` there. -/
def rename (pr : Pair) (st : CacheState) : CacheState := if st = pr.extra then .S else st

theorem renames (pr : Pair) : Renaming pr.richer.features pr.simpler.features pr.rename where
  invalid := by cases pr <;> rfl
  exclusive := by cases pr <;> rfl
  request op := by cases pr <;> rfl
  pend kind := by cases pr <;> cases kind <;> rfl
  hits st op := by cases pr <;> cases st <;> cases op <;> rfl
  afterHit st op := by cases pr <;> cases st <;> cases op <;> rfl
  upgrades st op := by cases pr <;> cases st <;> cases op <;> rfl
  yield kind st := by cases pr <;> cases st <;> cases kind <;> rfl
  fill kind sh := by cases pr <;> cases kind <;> cases sh <;> rfl
  raises he st := by cases pr <;> cases st <;> first | rfl | cases he
  supplies st := by cases pr <;> cases st <;> decide

end Pair

/-! ### What the renaming keeps -/

namespace Untimed

variable {n : ℕ} {p q : Protocol} {ρ : CacheState → CacheState} {s t : Untimed n}

/-- The states are the same but for the names of the states of the lines and who has
answered. -/
structure SameBut (ρ : CacheState → CacheState) (s t : Untimed n) : Prop where
  line : ∀ i a, t.line i a = ρ (s.line i a)
  outstanding : t.outstanding = s.outstanding
  queue : t.bus.pendingRequests = s.bus.pendingRequests
  inProgress : t.bus.requestInProgress = s.bus.requestInProgress
  granted : t.granted = s.granted
  accesses : t.stats.cacheAccesses = s.stats.cacheAccesses
  misses : t.stats.cacheMisses = s.stats.cacheMisses
  upgrades : t.stats.silentUpgrades = s.stats.silentUpgrades
  transfers : t.stats.cacheToCacheTransfers ≤ s.stats.cacheToCacheTransfers

/-- Two runs in step: the shared line is the same where it will be read. -/
structure InStep (p q : Protocol) (ρ : CacheState → CacheState) (s t : Untimed n) : Prop
    extends SameBut ρ s t where
  left : Sound p s
  right : Sound q t
  shared : p.features.exclusive = true → ∀ m, s.granted = some m → m.msg = .GETS →
    t.bus.sharedLine = s.bus.sharedLine

theorem fill_congr (f : Features) {kind : Message} {sh sh' : Bool}
    (h : f.exclusive = true → kind = .GETS → sh = sh') : f.fill kind sh = f.fill kind sh' := by
  unfold fill
  by_cases hk : kind = .GETS
  · cases he : f.exclusive with
    | true => rw [h he hk]
    | false => simp
  · simp [hk]

namespace InStep

variable {i : Fin n} {op : Message} {addr : Paddr} {m : Mreq}

theorem issued (hr : Renaming p.features q.features ρ) (h : InStep p q ρ s t)
    (ho : s.outstanding i = none) : InStep p q ρ (s.issued p.features i op addr)
      (t.issued q.features i op addr) := by
  have hline := h.line i (lineOf addr)
  have hhits : hits (t.line i (lineOf addr)) op = hits (s.line i (lineOf addr)) op := by
    rw [hline, hr.hits]
  have hup : Features.upgrades (t.line i (lineOf addr)) op =
      Features.upgrades (s.line i (lineOf addr)) op := by
    rw [hline, hr.upgrades]
  refine { line := fun j b => ?_, outstanding := ?_, queue := ?_, inProgress := h.inProgress,
           granted := h.granted, accesses := ?_, misses := ?_, upgrades := ?_, transfers := h.transfers,
           left := h.left.issued ho, right := h.right.issued (by rw [h.outstanding, ho]),
           shared := h.shared }
  · simp only [Untimed.issued, hline, hr.hits, h.line j b, apply_ite ρ, hr.afterHit, hr.pend, hr.request]
  · simp only [Untimed.issued, hhits, h.outstanding]
  · simp only [Untimed.issued, hhits, h.queue, hr.request]
  · simp only [Untimed.issued, h.accesses]
  · simp only [Untimed.issued, hhits, h.misses]
  · simp only [Untimed.issued, hup, h.upgrades]

theorem afterGrant (hr : Renaming p.features q.features ρ) (h : InStep p q ρ s t) {rest : List Mreq}
    (hfree : s.bus.requestInProgress = false) (hq : s.bus.pendingRequests = m :: rest) :
    InStep p q ρ (s.afterGrant p.features m rest) (t.afterGrant q.features m rest) := by
  have hright := h.right.afterGrant (h.inProgress.trans hfree) (h.queue.trans hq)
  refine { line := fun j b => ?_, outstanding := h.outstanding, queue := rfl, inProgress := rfl,
           granted := rfl, accesses := h.accesses, misses := h.misses, upgrades := h.upgrades,
           transfers := ?_, left := h.left.afterGrant hfree hq, right := hright,
           shared := fun he m' hm' hk => ?_ }
  · rw [line_afterGrant, line_afterGrant, h.line, apply_ite ρ, hr.yield]
  · refine Nat.add_le_add h.transfers (List.countP_mono_left fun j _ hj => ?_)
    exact hr.supplies _ (h.line j m.addr ▸ hj)
  · obtain rfl : m = m' := Option.some.inj hm'
    rw [sharedLine_afterGrant, sharedLine_afterGrant, hk]
    refine List.any_congr rfl fun j => ?_
    rw [h.line, hr.raises he]

theorem afterDeliver (hr : Renaming p.features q.features ρ) (h : InStep p q ρ s t) {d d' : Mreq}
    (hg : s.granted = some m) (hi : s.Asks p m i) (hi' : t.Asks q m i) :
    InStep p q ρ (s.afterDeliver p.features m d i) (t.afterDeliver q.features m d' i) := by
  refine { line := fun j b => ?_, outstanding := ?_, queue := h.queue, inProgress := rfl,
           granted := rfl, accesses := h.accesses, misses := h.misses, upgrades := h.upgrades,
           transfers := h.transfers, left := h.left.afterDeliver hg hi,
           right := h.right.afterDeliver (h.granted.trans hg) hi',
           shared := fun _ m' hm' => (nomatch hm') }
  · simp only [Untimed.afterDeliver]
    split
    · rw [hr.fill]
      refine fill_congr _ fun he hk => h.shared (hr.exclusive ▸ he) m hg hk
    · exact h.line j b
  · simp only [Untimed.afterDeliver, h.outstanding]

/-- **An event is possible for both or for neither**, and keeps them in step. -/
theorem step (hr : Renaming p.features q.features ρ) (h : InStep p q ρ s t) (e : Event n) :
    (∃ s' t', s.step p e = .ok s' ∧ t.step q e = .ok t' ∧ InStep p q ρ s' t') ∨
      s.step p e = .error .disabled ∧ t.step q e = .error .disabled := by
  cases e with
  | issue i op addr =>
    by_cases hc : (op = .LOAD ∨ op = .STORE) ∧ s.outstanding i = none
    · obtain ⟨hop, ho⟩ := hc
      have ho' : t.outstanding i = none := by rw [h.outstanding, ho]
      exact Or.inl ⟨_, _, h.left.step_issue hop ho, h.right.step_issue hop ho', h.issued hr ho⟩
    · have hc' : ¬ ((op = .LOAD ∨ op = .STORE) ∧ t.outstanding i = none) := by rwa [h.outstanding]
      exact Or.inr ⟨if_neg hc, if_neg hc'⟩
  | grant =>
    by_cases hc : s.bus.requestInProgress = false ∧ s.bus.pendingRequests ≠ []
    · obtain ⟨hfree, hne⟩ := hc
      obtain ⟨m, rest, hq⟩ := List.exists_cons_of_ne_nil hne
      exact Or.inl ⟨_, _, h.left.step_grant hfree hq,
        h.right.step_grant (h.inProgress.trans hfree) (h.queue.trans hq), h.afterGrant hr hfree hq⟩
    · have hc' : ¬ (t.bus.requestInProgress = false ∧ t.bus.pendingRequests ≠ []) := by
        rwa [h.inProgress, h.queue]
      exact Or.inr ⟨if_neg hc, if_neg hc'⟩
  | deliver =>
    cases hg : s.granted with
    | none =>
      refine Or.inr ⟨?_, ?_⟩
      · rw [Untimed.step, hg]
      · rw [Untimed.step, h.granted, hg]
    | some m =>
      obtain ⟨i, d, hi, hs⟩ := h.left.step_deliver hg
      obtain ⟨j, d', hj, ht⟩ := h.right.step_deliver (h.granted.trans hg)
      obtain rfl : i = j := L1id_injective (hi.srcMid.symm.trans hj.srcMid)
      exact Or.inl ⟨_, _, hs, ht, h.afterDeliver hr hg hi hj⟩

end InStep

theorem inStep_start (hr : Renaming p.features q.features ρ) : InStep p q ρ (start n) (start n) where
  line i a := hr.invalid.symm
  outstanding := rfl
  queue := rfl
  inProgress := rfl
  granted := rfl
  accesses := rfl
  misses := rfl
  upgrades := rfl
  transfers := Nat.le_refl _
  left := sound_start p
  right := sound_start q
  shared _ m hm := by cases hm

/-- **Owner and forward states only change who supplies data.** A sequence of events is
possible under both protocols of a pair, without an error, and leads to the same state
but for the renaming and who has answered; or there is an event in it that is possible
under neither. -/
theorem owner_and_forward (pr : Pair) (es : List (Event n)) :
    (∃ s t, (start n).run pr.richer es = .ok s ∧ (start n).run pr.simpler es = .ok t ∧
      SameBut pr.rename s t) ∨
    (start n).run pr.richer es = .error .disabled ∧ (start n).run pr.simpler es = .error .disabled := by
  have hstep := fun (s t : Untimed n) e (h : InStep pr.richer pr.simpler pr.rename s t) =>
    h.step pr.renames e
  rcases Loop.foldlM_lockstep hstep es (inStep_start pr.renames) with ⟨s, t, hs, ht, h⟩ | hdis
  · exact Or.inl ⟨s, t, hs, ht, h.toSameBut⟩
  · exact Or.inr hdis

/-- The second load of a line that node 0 has written is answered by its `O`, which MESI
does not have. -/
example :
    let es : List (Event 3) := [.issue 0 .STORE 0x40, .grant, .deliver,
      .issue 1 .LOAD 0x40, .grant, .deliver, .issue 2 .LOAD 0x40, .grant, .deliver]
    let transfers := fun p => ((start 3).run p es).toOption.map (·.stats.cacheToCacheTransfers)
    transfers .MOESI_PRO = some 2 ∧ transfers .MESI_PRO = some 1 := by
  decide

end Untimed

end CoherenceSim
