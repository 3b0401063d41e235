/-
# The owner of a dirty line

In MOSI, MOESI and MOESIF a line that some cache has written has an owner, in `M`
or `O`, who answers every request for it. `owner_answers`: it does, but for the
requests granted after the owner has given the line up by a store of its own in
`O`, until the next GETM for the line is granted: such a store takes the line to
`IM`, which answers nothing, and the memory does instead
(`owner_upgrade_reads_memory`).
-/
import CoherenceSim.Lib.History
import CoherenceSim.Transaction

namespace CoherenceSim

open Features

variable {n : ℕ} {x : Input n}

namespace Run

variable (r : Run x) {c g : ℕ} {a : Paddr} {m : Mreq}

/-- Some cache has entered `M` for the line before cycle `c`, by a store of its
processor or by DATA. -/
def EnteredM (c : ℕ) (a : Paddr) : Prop :=
  ∃ e, e < c ∧ ∃ j, r.snooped e j a = .M ∨ ((r.state (e + 1)).Nd j).line a = .M

/-- A cache with the line in `O` gives it up in cycle `c` for a store of its processor. -/
def GivesUp (a : Paddr) (c : ℕ) : Prop :=
  ∃ j, ((r.state c).Nd j).line a = .O ∧ r.snooped c j a = .IM

/-- A GETM for the line is granted in cycle `c`. -/
def GrantsGETM (a : Paddr) (c : ℕ) : Prop :=
  ∃ m, r.grantAt c = some m ∧ m.addr = a ∧ m.msg = .GETM

/-- The owner has given the line up, in cycle `c` at the latest, and no GETM for the
line has been granted from then to before cycle `c`. -/
def GivenUp (c : ℕ) (a : Paddr) : Prop := History.Open (r.GivesUp a) (r.GrantsGETM a) c

/-- The request granted in cycle `g` is answered by a cache, and not by the memory. -/
def AnsweredByCache (g : ℕ) (m : Mreq) : Prop :=
  ∃ j : Fin n, r.OnlyData g (g + 1) ⟨.DATA, m.addr, L1id j, m.srcMid⟩ ∧
    ∀ c, g ≤ c → (∀ c', g < c' → c' ≤ c → r.grantAt c' = none) → ¬ r.memorySent c

theorem answeredByCache_of_supplies (hg : r.grantAt g = some m) {j : Fin n}
    (hs : supplies ((((r.state g).Nd j).procTick x.f j).line m.addr) = true) :
    r.AnsweredByCache g m := by
  have hr := r.replied_of_supplies hg hs
  refine ⟨j, r.onlyData (Nat.lt_succ_self g) ?_ fun c hc hc' => by omega, fun c => r.not_memorySent hg hr⟩
  obtain ⟨i, k, l, ha, rfl⟩ := r.requester hg
  rw [(r.dataAt_of_replied hg hr).2.1, replyTo, ask_addr, lineOf_lineOf]

/-! ### Ownership passes on -/

/-- A cache has the line in `M` or in `O`. -/
def Owned (s : Simulator n Trace) (a : Paddr) : Prop :=
  ∃ j, (s.Nd j).line a = .M ∨ (s.Nd j).line a = .O

/-- A GETM for the line waits for its DATA. -/
def Taking (c : ℕ) (a : Paddr) : Prop := ∃ m, r.granted c = some m ∧ m.addr = a ∧ m.msg = .GETM

theorem taking_of_grantsGETM (h : r.GrantsGETM a c) : r.Taking (c + 1) a := by
  obtain ⟨m, hg, ha, hm⟩ := h
  exact ⟨m, (r.granted_of_grantAt hg).2.2, ha, hm⟩

/-- An owner stays one through its own requests, or gives the line up. -/
theorem snooped_of_owner {j : Fin n}
    (h : ((r.state c).Nd j).line a = .M ∨ ((r.state c).Nd j).line a = .O) :
    r.snooped c j a = .M ∨ r.snooped c j a = .O ∨ r.GivesUp a c := by
  cases r.ownStep c j a with
  | other _ hs => rw [hs]; exact h.imp_right Or.inl
  | hit q _ _ hh hs =>
    rw [hs, afterHit]
    split
    · exact Or.inl rfl
    · exact h.imp_right Or.inl
  | miss q hq _ hh hs =>
    have hop : q.msg = .LOAD ∨ q.msg = .STORE := ((r.inv c).procReady j q hq).1
    rcases h with h | h
    · rw [h] at hh
      rcases hop with hop | hop <;> rw [hop] at hh <;> cases hh
    · rcases hop with hop | hop
      · rw [h, hop] at hh
        cases hh
      · refine Or.inr (Or.inr ⟨j, h, ?_⟩)
        rw [hs, hop]
        simp [request, pend]

/-- Through a snoop an owner stays one, or its line is being taken. -/
theorem owned_or_taking (hsh : x.f.shared = true) (how : x.f.owned = true) {j : Fin n}
    (h : r.snooped c j a = .M ∨ r.snooped c j a = .O) :
    Owned (r.state (c + 1)) a ∨ r.Taking (c + 1) a := by
  cases r.busStep c j a with
  | keep _ hl => exact Or.inl ⟨j, by rw [hl]; exact h⟩
  | fill m _ _ _ _ hs =>
    have hp : (r.snooped c j a).pending = true := by rw [hs, pend_pending]
    rcases h with h | h <;> rw [h] at hp <;> cases hp
  | yield m hg ha hl =>
    obtain ⟨i, k, l, -, rfl⟩ := r.requester hg
    rcases request_cases x.f (opOf l.1) with hk | hk
    · refine Or.inl ⟨j, Or.inr ?_⟩
      rw [hl, ask_msg, hk]
      rcases h with h | h <;> rw [h] <;> simp [yield, hsh, how]
    · exact Or.inr (r.taking_of_grantsGETM ⟨_, hg, ha, hk⟩)

/-- DATA makes who asked by a GETM the owner. -/
theorem owned_of_taking (h : r.Taking c a) : Owned (r.state (c + 1)) a ∨ r.Taking (c + 1) a := by
  obtain ⟨m, hg, rfl, hm⟩ := h
  cases r.turn c with
  | rest hgn | grant _ _ hgn => rw [hg] at hgn; cases hgn
  | hold m' hg' _ _ _ hgm => exact Or.inr ⟨m, hgm.trans (hg'.symm.trans hg), rfl, hm⟩
  | data m' d _ _ _ _ hd =>
    obtain ⟨i, k, l, -, -, -, -, hline⟩ := (r.inv c).line_data hg hd
    refine Or.inl ⟨i, Or.inl ?_⟩
    rw [r.next, line_next, hline, if_pos rfl, hm]
    simp [fill]

/-- **A line that has been written has an owner**, or a GETM takes it, or the owner
has given it up. -/
theorem owned_of_enteredM (hsh : x.f.shared = true) (how : x.f.owned = true) (h : r.EnteredM c a) :
    Owned (r.state c) a ∨ r.Taking c a ∨ r.GivenUp c a := by
  induction c with
  | zero =>
    obtain ⟨e, he, -⟩ := h
    omega
  | succ c ih =>
    have hgiven : r.GivenUp c a → Owned (r.state (c + 1)) a ∨ r.Taking (c + 1) a ∨ r.GivenUp (c + 1) a := by
      intro hup
      by_cases hm : r.GrantsGETM a c
      · exact Or.inr (Or.inl (r.taking_of_grantsGETM hm))
      · exact Or.inr (Or.inr (hup.succ hm))
    have hsnooped : ∀ j, r.snooped c j a = .M ∨ r.snooped c j a = .O →
        Owned (r.state (c + 1)) a ∨ r.Taking (c + 1) a ∨ r.GivenUp (c + 1) a :=
      fun j hj => (r.owned_or_taking hsh how hj).imp_right Or.inl
    obtain ⟨e, he, j, hj⟩ := h
    rcases Nat.lt_or_eq_of_le (Nat.lt_succ_iff.mp he) with hlt | rfl
    · rcases ih ⟨e, hlt, j, hj⟩ with ⟨i, hi⟩ | htake | hup
      · rcases r.snooped_of_owner hi with hM | hO | hup
        · exact hsnooped i (Or.inl hM)
        · exact hsnooped i (Or.inr hO)
        · exact hgiven (History.open_of_start hup)
      · exact (r.owned_of_taking htake).imp_right Or.inl
      · exact hgiven hup
    · rcases hj with hj | hj
      · exact hsnooped j (Or.inl hj)
      · exact Or.inl ⟨j, Or.inl hj⟩

/-- **A dirty line has an owner that answers.** Once a cache has entered `M` for the
line, every GETS and GETM granted for it is answered by a cache and not by the
memory, unless the owner has given the line up since the last GETM granted for it. -/
theorem owner_answers (hp : x.protocol ∈ [Protocol.MOSI_PRO, .MOESI_PRO, .MOESIF_PRO])
    (hg : r.grantAt g = some m) (he : r.EnteredM g m.addr) (hup : ¬ r.GivenUp g m.addr) :
    r.AnsweredByCache g m := by
  have hf : x.f.shared = true ∧ x.f.owned = true := by
    unfold Input.f
    revert hp
    cases x.protocol <;> decide
  rcases r.owned_of_enteredM hf.1 hf.2 he with ⟨j, hj⟩ | ⟨m', hm', -⟩ | hup'
  · apply r.answeredByCache_of_supplies hg (j := j)
    rw [← r.snooped_eq]
    rcases r.snooped_of_owner hj with h | h | h
    · rw [h]; rfl
    · rw [h]; rfl
    · exact absurd (History.open_of_start h) hup
  · rw [r.granted_eq_none_of_grantAt hg] at hm'
    cases hm'
  · exact absurd hup' hup

end Run

/-- The load, which node 0 answers: it has entered `M` by its first store. -/
theorem owner_answers_load :
    (Input.storeLoadStore 1 (Nat.le_refl 1)).run.AnsweredByCache 5
      ⟨.GETS, 0x40, ⟨1, .L1_M⟩, .invalid⟩ := by
  refine Run.owner_answers _ (by decide) (by decide +kernel) ⟨4, by decide, 0, Or.inr (by decide +kernel)⟩ ?_
  rintro ⟨w, hw, ⟨j, hj⟩, -⟩
  have hnone : ∀ w ≤ 5, ∀ j : Fin 2,
      (((Input.storeLoadStore 1 (Nat.le_refl 1)).run.state w).Nd j).line 0x40 ≠ .O := by
    decide +kernel
  exact hnone w hw j hj.1

/-- **The owner's own store reads memory.** Node 0 has entered `M` and then, by the
load of node 1, `O`. Its second store sends a GETM, and in `IM` it does not answer its
own request: the memory does, 101 cycles after the grant. -/
theorem owner_upgrade_reads_memory :
    let r := (Input.storeLoadStore 100 (by decide)).run
    let m : Mreq := ⟨.GETM, 0x40, ⟨0, .L1_M⟩, .invalid⟩
    r.EnteredM 106 m.addr ∧ r.grantAt 106 = some m ∧ ¬ r.AnsweredByCache 106 m ∧
      r.dataAt 207 = some ⟨.DATA, 0x40, MCid 2, ⟨0, .L1_M⟩⟩ := by
  refine ⟨⟨103, by decide, 0, Or.inr (by decide +kernel)⟩, by decide +kernel, ?_, by decide +kernel⟩
  rintro ⟨j, ⟨-, hdata, -, -⟩, -⟩
  have hnone : (Input.storeLoadStore 100 (by decide)).run.dataAt 107 = none := by decide +kernel
  rw [hnone] at hdata
  cases hdata

end CoherenceSim
