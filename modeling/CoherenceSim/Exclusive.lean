/-
# What the exclusive state saves

Accesses that are made one at a time (`Untimed.access`, `Untimed.serial`), under MESI and
MSI or under MOESI and MOSI. `exclusive_saves`: the lines are in the same states but for
an `S` in the place of an `E`, and the misses the protocol without `E` has more are the
silent upgrades of the other.
-/
import CoherenceSim.UntimedInv

namespace CoherenceSim

open Features

/-- A protocol with `E` and the same one without. -/
inductive ExclusivePair
  | MESI_MSI | MOESI_MOSI
deriving DecidableEq, Repr

namespace ExclusivePair

def richer : ExclusivePair → Protocol
  | MESI_MSI => .MESI_PRO
  | MOESI_MOSI => .MOESI_PRO

def simpler : ExclusivePair → Protocol
  | MESI_MSI => .MSI_PRO
  | MOESI_MOSI => .MOSI_PRO

/-- An `E` is an `S` there. -/
def rename (st : CacheState) : CacheState := if st = .E then .S else st

variable (pr : ExclusivePair)

theorem request_eq (op : Message) : pr.simpler.features.request op = pr.richer.features.request op := by
  cases pr <;> rfl

theorem rename_yield (kind : Message) (st : CacheState) :
    rename (pr.richer.features.yield kind st) = pr.simpler.features.yield kind (rename st) := by
  cases pr <;> cases st <;> cases kind <;> rfl

/-- The DATA of a GETS brings an `E` or an `S`. -/
theorem rename_fill (kind : Message) (sh sh' : Bool) :
    rename (pr.richer.features.fill kind sh) = pr.simpler.features.fill kind sh' := by
  cases pr <;> cases kind <;> cases sh <;> rfl

/-- An access does the same with either line, unless it is a store to an `E`. -/
theorem hits_rename {st : CacheState} {op : Message} (h : upgrades st op = false) :
    hits (rename st) op = hits st op := by
  cases st <;> cases op <;> first | rfl | cases h

theorem rename_afterHit (st : CacheState) (op : Message) :
    rename (afterHit st op) = afterHit (rename st) op := by
  cases st <;> cases op <;> rfl

/-- A line without a copy has nothing to yield. -/
theorem yield_rename_of_rank_eq_zero (f : Features) (kind : Message) {st : CacheState} (h : st.rank = 0) :
    f.yield kind (rename st) = rename st := by
  cases st <;> first | rfl | simp [CacheState.rank] at h

end ExclusivePair

/-- An access of a processor. -/
structure Access (n : ℕ) where
  node : Fin n
  store : Bool
  addr : Paddr
deriving DecidableEq, Repr

def Access.op {n : ℕ} (acc : Access n) : Message := if acc.store then .STORE else .LOAD

namespace Untimed

variable {n : ℕ} {p : Protocol} {s t : Untimed n}

/-- A whole access: it is issued, and if it misses its request is granted and the DATA
delivered. -/
def access (p : Protocol) (s : Untimed n) (acc : Access n) : Except Stop (Untimed n) := do
  let s ← s.step p (.issue acc.node acc.op acc.addr)
  if (s.outstanding acc.node).isSome then
    let s ← s.step p .grant
    s.step p .deliver
  else return s

/-- Accesses one after the other. -/
def serial (p : Protocol) (accs : List (Access n)) (s : Untimed n) : Except Stop (Untimed n) :=
  accs.foldlM (access p) s

/-! ### What an access does -/

/-- Between two accesses nothing is outstanding. -/
structure Quiet (p : Protocol) (s : Untimed n) : Prop extends Sound p s where
  outstanding : ∀ i, s.outstanding i = none
  queue : s.bus.pendingRequests = []
  free : s.bus.requestInProgress = false

theorem quiet_start (p : Protocol) : Quiet p (start n) where
  toSound := sound_start p
  outstanding _ := rfl
  queue := rfl
  free := rfl

/-- What an access leaves: the line of its node has been hit, or filled, and the other
copies have yielded. -/
structure Accessed (f : Features) (acc : Access n) (s t : Untimed n) : Prop where
  misses : t.stats.cacheMisses =
    s.stats.cacheMisses + (!hits (s.line acc.node (lineOf acc.addr)) acc.op).toNat
  upgrades : t.stats.silentUpgrades =
    s.stats.silentUpgrades + (upgrades (s.line acc.node (lineOf acc.addr)) acc.op).toNat
  elsewhere : ∀ j b, b ≠ lineOf acc.addr → t.line j b = s.line j b
  own : ∃ sh, t.line acc.node (lineOf acc.addr) =
    if hits (s.line acc.node (lineOf acc.addr)) acc.op
    then afterHit (s.line acc.node (lineOf acc.addr)) acc.op else f.fill (f.request acc.op) sh
  others : ∀ j, j ≠ acc.node → t.line j (lineOf acc.addr) =
    if hits (s.line acc.node (lineOf acc.addr)) acc.op then s.line j (lineOf acc.addr)
    else f.yield (f.request acc.op) (s.line j (lineOf acc.addr))

theorem op_cases (acc : Access n) : acc.op = .LOAD ∨ acc.op = .STORE := by
  unfold Access.op; split
  · exact Or.inr rfl
  · exact Or.inl rfl

/-- An access that hits is over at once. -/
theorem Quiet.access_hit (h : Quiet p s) (acc : Access n)
    (hh : hits (s.line acc.node (lineOf acc.addr)) acc.op = true) :
    ∃ t, s.access p acc = .ok t ∧ Quiet p t ∧ Accessed p.features acc s t := by
  set t := s.issued p.features acc.node acc.op acc.addr with ht
  have hstep : s.step p (.issue acc.node acc.op acc.addr) = .ok t :=
    h.step_issue (op_cases acc) (h.outstanding acc.node)
  have hout : ∀ i, t.outstanding i = none := by
    intro i
    simp only [ht, Untimed.issued, hh, if_true, h.outstanding, ite_self]
  refine ⟨t, ?_, ?_, ?_⟩
  · unfold access
    rw [hstep]
    show (if (t.outstanding acc.node).isSome then _ else _) = _
    rw [hout]
    rfl
  · refine { toSound := h.toSound.issued (h.outstanding acc.node), outstanding := hout, queue := ?_,
             free := h.free }
    simp [ht, Untimed.issued, hh, h.queue]
  · refine { misses := rfl, upgrades := rfl, elsewhere := fun j b hb => ?_, own := ⟨false, ?_⟩,
             others := fun j hj => ?_ }
    · simp [ht, Untimed.issued, hb]
    · simp only [ht, Untimed.issued, and_self, if_true, hh]
    · simp [ht, Untimed.issued, hj, hh]

/-- The lines after a request has been issued, granted and answered. -/
theorem line_missed (s : Untimed n) (acc : Access n) (f : Features) (d : Mreq) (j : Fin n) (b : Paddr) :
    (((s.issued f acc.node acc.op acc.addr).afterGrant f
      (getMsg (f.request acc.op) (L1id acc.node) acc.addr) []).afterDeliver f
      (getMsg (f.request acc.op) (L1id acc.node) acc.addr) d acc.node).line j b =
      if j = acc.node ∧ b = lineOf acc.addr then
        f.fill (f.request acc.op) ((s.issued f acc.node acc.op acc.addr).afterGrant f
          (getMsg (f.request acc.op) (L1id acc.node) acc.addr) []).bus.sharedLine
      else if b = lineOf acc.addr then f.yield (f.request acc.op) (s.line j b) else s.line j b := by
  show (if j = acc.node ∧ b = lineOf acc.addr then _ else
    ((s.issued f acc.node acc.op acc.addr).afterGrant f _ []).line j b) = _
  split
  · rfl
  · next hjb =>
    rw [line_afterGrant]
    show (if b = lineOf acc.addr then
      f.yield (f.request acc.op) ((s.issued f acc.node acc.op acc.addr).line j b)
      else (s.issued f acc.node acc.op acc.addr).line j b) = _
    simp only [Untimed.issued, hjb, if_false]

/-- One that misses goes over the bus. -/
theorem Quiet.access_miss (h : Quiet p s) (acc : Access n)
    (hh : hits (s.line acc.node (lineOf acc.addr)) acc.op = false) :
    ∃ t, s.access p acc = .ok t ∧ Quiet p t ∧ Accessed p.features acc s t := by
  set f := p.features with hf
  set m := getMsg (f.request acc.op) (L1id acc.node) acc.addr with hm
  set s₁ := s.issued f acc.node acc.op acc.addr with hs₁
  set s₂ := s₁.afterGrant f m [] with hs₂
  have hsound₁ : Sound p s₁ := h.toSound.issued (h.outstanding acc.node)
  have hstep₁ : s.step p (.issue acc.node acc.op acc.addr) = .ok s₁ :=
    h.step_issue (op_cases acc) (h.outstanding acc.node)
  have hout₁ : s₁.outstanding acc.node = some (acc.op, acc.addr) := by
    simp [hs₁, Untimed.issued, hh]
  have hq₁ : s₁.bus.pendingRequests = [m] := by
    simp [hs₁, Untimed.issued, hh, h.queue, hm]
  have hsound₂ : Sound p s₂ := hsound₁.afterGrant h.free hq₁
  have hstep₂ : s₁.step p .grant = .ok s₂ := hsound₁.step_grant h.free hq₁
  have hg₂ : s₂.granted = some m := rfl
  obtain ⟨i, d, hi, hstep₃⟩ := hsound₂.step_deliver hg₂
  obtain rfl : acc.node = i := L1id_injective (show L1id acc.node = L1id i from hi.srcMid)
  set t := s₂.afterDeliver f m d acc.node with ht
  have hline : ∀ j b, t.line j b = if j = acc.node ∧ b = lineOf acc.addr
      then f.fill (f.request acc.op) s₂.bus.sharedLine
      else if b = lineOf acc.addr then f.yield (f.request acc.op) (s.line j b) else s.line j b :=
    line_missed s acc f d
  refine ⟨t, ?_, ?_, ?_⟩
  · unfold access
    rw [hstep₁]
    show (if (s₁.outstanding acc.node).isSome then _ else _) = _
    rw [hout₁]
    show (do
      let s ← s₁.step p .grant
      s.step p .deliver) = _
    rw [hstep₂]
    exact hstep₃
  · refine { toSound := hsound₂.afterDeliver hg₂ hi, outstanding := fun j => ?_, queue := rfl,
             free := rfl }
    show (if j = acc.node then none else (if j = acc.node then _ else s.outstanding j)) = none
    split
    · rfl
    · exact h.outstanding j
  · refine { misses := rfl, upgrades := rfl, elsewhere := fun j b hb => ?_,
             own := ⟨s₂.bus.sharedLine, ?_⟩, others := fun j hj => ?_ }
    · simp [hline, hb]
    · simp [hline, hh]
    · simp [hline, hj, hh]

theorem Quiet.access (h : Quiet p s) (acc : Access n) :
    ∃ t, s.access p acc = .ok t ∧ Quiet p t ∧ Accessed p.features acc s t := by
  cases hh : hits (s.line acc.node (lineOf acc.addr)) acc.op with
  | true => exact h.access_hit acc hh
  | false => exact h.access_miss acc hh

/-! ### With and without `E` -/

/-- The states with and without `E` between two accesses. -/
structure Saves (pr : ExclusivePair) (s t : Untimed n) : Prop where
  richer : Quiet pr.richer s
  simpler : Quiet pr.simpler t
  line : ∀ i a, t.line i a = ExclusivePair.rename (s.line i a)
  misses : t.stats.cacheMisses = s.stats.cacheMisses + s.stats.silentUpgrades

theorem saves_start (pr : ExclusivePair) : Saves pr (start n) (start n) where
  richer := quiet_start _
  simpler := quiet_start _
  line _ _ := rfl
  misses := rfl

/-- Beside an `E` there is no copy. -/
theorem Quiet.alone (h : Quiet p s) {i j : Fin n} {a : Paddr} (hi : s.line i a = .E) (hj : j ≠ i) :
    (s.line j a).rank = 0 := by
  have hfit : (s.line j a).rank + CacheState.E.rank ≤ 3 := hi ▸ h.fits a j i hj
  exact Nat.le_zero.mp (Nat.le_of_add_le_add_right hfit)

section
variable {pr : ExclusivePair} {acc : Access n} {s' t' : Untimed n} {st : CacheState}

/-- A store to an `E` is a silent upgrade, and a miss where the line is an `S`. -/
theorem Saves.upgrade (h : Saves pr s t) (hS : Accessed pr.richer.features acc s s')
    (hT : Accessed pr.simpler.features acc t t')
    (hup : upgrades (s.line acc.node (lineOf acc.addr)) acc.op = true) :
    (∀ j, t'.line j (lineOf acc.addr) = ExclusivePair.rename (s'.line j (lineOf acc.addr))) ∧
      t'.stats.cacheMisses = s'.stats.cacheMisses + s'.stats.silentUpgrades := by
  obtain ⟨hE, hop⟩ : s.line acc.node (lineOf acc.addr) = .E ∧ acc.op = .STORE := by
    simpa [Features.upgrades] using hup
  have hS' : t.line acc.node (lineOf acc.addr) = .S := by rw [h.line, hE]; rfl
  have hhit : hits (s.line acc.node (lineOf acc.addr)) acc.op = true := by rw [hE, hop]; rfl
  have hmiss : hits (t.line acc.node (lineOf acc.addr)) acc.op = false := by rw [hS', hop]; rfl
  refine ⟨fun j => ?_, ?_⟩
  · by_cases hj : j = acc.node
    · obtain ⟨sh, hown⟩ := hS.own
      obtain ⟨sh', hown'⟩ := hT.own
      rw [hj, hown, hown', hhit, hmiss, hop, hE, if_pos rfl, if_neg (by decide), fill_request_STORE]
      rfl
    · rw [hS.others j hj, hT.others j hj, hhit, hmiss, if_pos rfl, if_neg (by decide), h.line]
      exact ExclusivePair.yield_rename_of_rank_eq_zero _ _ (h.richer.alone hE hj)
  · rw [hS.misses, hS.upgrades, hT.misses, hhit, hmiss, hup, h.misses]
    simp only [Bool.not_true, Bool.not_false, Bool.toNat_true, Bool.toNat_false, Nat.add_zero]
    rw [Nat.add_assoc]

/-- Any other access does the same with and without `E`. -/
theorem Saves.same (h : Saves pr s t) (hS : Accessed pr.richer.features acc s s')
    (hT : Accessed pr.simpler.features acc t t')
    (hup : upgrades (s.line acc.node (lineOf acc.addr)) acc.op = false) :
    (∀ j, t'.line j (lineOf acc.addr) = ExclusivePair.rename (s'.line j (lineOf acc.addr))) ∧
      t'.stats.cacheMisses = s'.stats.cacheMisses + s'.stats.silentUpgrades := by
  have hhits : hits (t.line acc.node (lineOf acc.addr)) acc.op =
      hits (s.line acc.node (lineOf acc.addr)) acc.op := by
    rw [h.line, ExclusivePair.hits_rename hup]
  refine ⟨fun j => ?_, ?_⟩
  · by_cases hj : j = acc.node
    · obtain ⟨sh, hown⟩ := hS.own
      obtain ⟨sh', hown'⟩ := hT.own
      rw [hj, hown, hown', hhits, pr.request_eq]
      split
      · rw [h.line, ExclusivePair.rename_afterHit]
      · exact (pr.rename_fill _ sh sh').symm
    · rw [hS.others j hj, hT.others j hj, hhits, pr.request_eq, h.line]
      split
      · rfl
      · exact (pr.rename_yield _ _).symm
  · rw [hS.misses, hS.upgrades, hT.misses, hhits, hup, h.misses]
    simp only [Bool.toNat_false, Nat.add_zero]
    exact Nat.add_right_comm _ _ _

end

/-- **An access keeps the lines the same**, and where one protocol goes over the bus the
other upgrades silently. -/
theorem Saves.access {pr : ExclusivePair} (h : Saves pr s t) (acc : Access n) :
    ∃ s' t', s.access pr.richer acc = .ok s' ∧ t.access pr.simpler acc = .ok t' ∧ Saves pr s' t' := by
  obtain ⟨s', hs, hqs, hS⟩ := h.richer.access acc
  obtain ⟨t', ht, hqt, hT⟩ := h.simpler.access acc
  have hsame : (∀ j, t'.line j (lineOf acc.addr) = ExclusivePair.rename (s'.line j (lineOf acc.addr))) ∧
      t'.stats.cacheMisses = s'.stats.cacheMisses + s'.stats.silentUpgrades := by
    cases hup : upgrades (s.line acc.node (lineOf acc.addr)) acc.op with
    | true => exact h.upgrade hS hT hup
    | false => exact h.same hS hT hup
  refine ⟨s', t', hs, ht,
    { richer := hqs, simpler := hqt, line := fun j b => ?_, misses := hsame.2 }⟩
  by_cases hb : b = lineOf acc.addr
  · rw [hb]
    exact hsame.1 j
  · rw [hT.elsewhere j b hb, hS.elsewhere j b hb]
    exact h.line j b

theorem Saves.serial {pr : ExclusivePair} (h : Saves pr s t) (accs : List (Access n)) : ∃ s' t',
    s.serial pr.richer accs = .ok s' ∧ t.serial pr.simpler accs = .ok t' ∧ Saves pr s' t' := by
  induction accs generalizing s t with
  | nil => exact ⟨s, t, rfl, rfl, h⟩
  | cons acc accs ih =>
    obtain ⟨s₁, t₁, hs, ht, h₁⟩ := h.access acc
    obtain ⟨s', t', hs', ht', h'⟩ := ih h₁
    refine ⟨s', t', ?_, ?_, h'⟩
    · rw [serial, List.foldlM_cons, hs]
      exact hs'
    · rw [serial, List.foldlM_cons, ht]
      exact ht'

/-- **What the exclusive state saves.** After any accesses, made one at a time, the misses
under MSI are those and the silent upgrades under MESI, and the lines are in the same
states but for an `S` in the place of an `E`; and so for MOSI and MOESI. -/
theorem exclusive_saves (pr : ExclusivePair) (accs : List (Access n)) : ∃ s t,
    (start n).serial pr.richer accs = .ok s ∧ (start n).serial pr.simpler accs = .ok t ∧
      t.stats.cacheMisses = s.stats.cacheMisses + s.stats.silentUpgrades ∧
      ∀ i a, t.line i a = if s.line i a = .E then .S else s.line i a := by
  obtain ⟨s, t, hs, ht, h⟩ := (saves_start pr).serial accs
  exact ⟨s, t, hs, ht, h.misses, h.line⟩

end Untimed

end CoherenceSim
