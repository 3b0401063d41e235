/-
# Where the last value of a line is

`Coherent`: what the values of a run satisfy at any point of a cycle. Every copy that
can be read has the last value stored; so has the DATA on the bus, unless the line has
been written since; so has the DATA that waits for the bus; and so has the memory,
unless a cache has the line in `M` or its DATA is on the way. One lemma for each thing
a cache does.
-/
import CoherenceSim.Ghost

namespace CoherenceSim

open Features SharedMemory

variable {n : ℕ}

structure Coherent (line : Fin n → Paddr → CacheState) (cur dr : Option Mreq) (g : Ghost n) : Prop where
  copy : ∀ i a, 1 ≤ (line i a).rank → g.copy i a = latest 0 a g.log
  wire : ∀ d, cur = some d → d.msg = .DATA →
    g.wire = latest 0 d.addr g.log ∨ ∃ i, line i d.addr = .M
  reply : ∀ d, dr = some d → g.reply = latest 0 d.addr g.log
  memory : ∀ a, g.memory a = latest 0 a g.log ∨ (∃ i, line i a = .M) ∨
    ∃ d, (dr = some d ∨ cur = some d ∧ d.msg = .DATA) ∧ d.addr = a ∧ d.srcMid ≠ MCid n
  legal : Legal 0 g.log

namespace Coherent

variable {line line' : Fin n → Paddr → CacheState} {cur dr : Option Mreq} {g : Ghost n}
variable {i : Fin n} {a : Paddr}

theorem start : Coherent (fun (_ : Fin n) _ => .I) none none (Ghost.start n) where
  copy i a h := by cases h
  wire d h := by cases h
  reply d h := by cases h
  memory a := Or.inl rfl
  legal := legal_nil

/-- Copies are given up, but none in `M`. -/
theorem lower (h : Coherent line cur dr g)
    (hrank : ∀ j b, 1 ≤ (line' j b).rank → 1 ≤ (line j b).rank)
    (hM : ∀ j b, line j b = .M → line' j b = .M) : Coherent line' cur dr g where
  copy j b hj := h.copy j b (hrank j b hj)
  wire d hd hmd := (h.wire d hd hmd).imp_right fun ⟨j, hj⟩ => ⟨j, hM j _ hj⟩
  reply := h.reply
  memory b := (h.memory b).imp_right (Or.imp_left fun ⟨j, hj⟩ => ⟨j, hM j b hj⟩)
  legal := h.legal

/-- The value of a copy that nobody reads is overwritten. -/
theorem setCopy (h : Coherent line cur dr g) (hi : (line i a).rank = 0) (v : ℕ) :
    Coherent line cur dr (g.setCopy i a v) where
  copy j b hj := by
    have hne : ¬ (j = i ∧ b = a) := by
      rintro ⟨rfl, rfl⟩
      omega
    simp only [Ghost.setCopy, hne, if_false]
    exact h.copy j b hj
  wire := h.wire
  reply := h.reply
  memory := h.memory
  legal := h.legal

/-- A load of the last value: the line keeps its `M`. -/
theorem load (h : Coherent line cur dr g) {op : Message} (hop : op ≠ .STORE)
    (hv : g.copy i a = latest 0 a g.log)
    (hrank : ∀ j b, ¬ (j = i ∧ b = a) → line' j b = line j b)
    (hM : line i a = .M → line' i a = .M) : Coherent line' cur dr (g.perform i op a) := by
  have hlog : ∀ b, latest 0 b (g.perform i op a).log = latest 0 b g.log := fun b =>
    latest_other (Or.inl (by simp [hop]))
  have hcopy : (g.perform i op a).copy = g.copy := by
    funext j b
    simp only [Ghost.perform, Ghost.setCopy, hop, if_false]
    split
    · next hjb => rw [hjb.1, hjb.2]
    · rfl
  have hkeep : ∀ b, (∃ j, line j b = .M) → ∃ j, line' j b = .M := by
    rintro b ⟨j, hj⟩
    refine ⟨j, ?_⟩
    by_cases hjb : j = i ∧ b = a
    · obtain ⟨rfl, rfl⟩ := hjb
      exact hM hj
    · rw [hrank j b hjb, hj]
  constructor
  · intro j b hj
    rw [hlog, hcopy]
    by_cases hjb : j = i ∧ b = a
    · rw [hjb.1, hjb.2, hv]
    · rw [hrank j b hjb] at hj
      exact h.copy j b hj
  · intro d hd hmd
    rw [hlog]
    exact (h.wire d hd hmd).imp_right (hkeep d.addr)
  · intro d hd
    rw [hlog]
    exact h.reply d hd
  · intro b
    rw [hlog]
    exact (h.memory b).imp_right (Or.imp_left (hkeep b))
  · exact h.legal.append fun _ => by simpa [hop] using hv

/-- A store to the only copy, which no DATA is on the way of. -/
theorem store (h : Coherent line cur dr g) (hline : line' i a = .M)
    (hrank : ∀ j b, ¬ (j = i ∧ b = a) → line' j b = line j b)
    (hone : ∀ j, j ≠ i → (line j a).rank = 0) (hreply : ∀ d, dr = some d → d.addr ≠ a) :
    Coherent line' cur dr (g.perform i .STORE a) := by
  have hlog : ∀ b, b ≠ a → latest 0 b (g.perform i .STORE a).log = latest 0 b g.log := fun b hb =>
    latest_other (Or.inr (Ne.symm hb))
  have hnew : latest 0 a (g.perform i .STORE a).log = g.log.length + 1 := latest_write rfl rfl
  have hkeep : ∀ b, b ≠ a → (∃ j, line j b = .M) → ∃ j, line' j b = .M := by
    rintro b hb ⟨j, hj⟩
    exact ⟨j, by rw [hrank j b (fun hjb => hb hjb.2), hj]⟩
  constructor
  · intro j b hj
    by_cases hb : b = a
    · subst hb
      by_cases hji : j = i
      · rw [hnew, hji]
        simp [Ghost.perform, Ghost.setCopy]
      · rw [hrank j b (fun hjb => hji hjb.1), hone j hji] at hj
        omega
    · rw [hlog b hb]
      have hcopy : (g.perform i .STORE a).copy j b = g.copy j b := by
        simp [Ghost.perform, Ghost.setCopy, hb]
      rw [hcopy]
      rw [hrank j b (fun hjb => hb hjb.2)] at hj
      exact h.copy j b hj
  · intro d hd hmd
    by_cases hb : d.addr = a
    · exact Or.inr ⟨i, by rw [hb, hline]⟩
    · rw [hlog _ hb]
      exact (h.wire d hd hmd).imp_right (hkeep _ hb)
  · intro d hd
    rw [hlog _ (hreply d hd)]
    exact h.reply d hd
  · intro b
    by_cases hb : b = a
    · exact Or.inr (Or.inl ⟨i, by rw [hb, hline]⟩)
    · rw [hlog b hb]
      exact (h.memory b).imp_right (Or.imp_left (hkeep b hb))
  · exact h.legal.append fun hw => by simp at hw

/-- A copy answers a request on the bus: its value is on the way, and its line may
leave `M`. -/
theorem supply (h : Coherent line cur none g) {d : Mreq} (hcur : ∀ m, cur = some m → m.msg ≠ .DATA)
    (hd : d.addr = a) (hsrc : d.srcMid ≠ MCid n) (hi : 1 ≤ (line i a).rank)
    (hrank : ∀ j b, ¬ (j = i ∧ b = a) → line' j b = line j b) :
    Coherent line' cur (some d) { g with reply := g.copy i a } where
  copy j b hj := by
    by_cases hjb : j = i ∧ b = a
    · rw [hjb.1, hjb.2]
      exact h.copy i a hi
    · rw [hrank j b hjb] at hj
      exact h.copy j b hj
  wire m hm hmd := absurd hmd (hcur m hm)
  reply d' hd' := by
    rw [← Option.some.inj hd', hd]
    exact h.copy i a hi
  memory b := by
    by_cases hb : b = a
    · exact Or.inr (Or.inr ⟨d, Or.inl rfl, hd.trans hb.symm, hsrc⟩)
    · refine (h.memory b).imp_right (Or.imp ?_ ?_)
      · rintro ⟨j, hj⟩
        exact ⟨j, by rw [hrank j b (fun hjb => hb hjb.2), hj]⟩
      · rintro ⟨d', hd' | ⟨hd', hmd⟩, -⟩
        · cases hd'
        · exact absurd hmd (hcur d' hd')
  legal := h.legal

/-- `Bus::tick`: what waits in `data_reply` is on the bus, or nothing waits. -/
theorem onBus (h : Coherent line none dr g) {cur' : Option Mreq} {g' : Ghost n}
    (hcur : ∀ d, cur' = some d → d.msg = .DATA → dr = some d ∧ g'.wire = g.reply)
    (hdr : ∀ d, dr = some d → cur' = some d ∧ d.msg = .DATA)
    (hg : g'.copy = g.copy ∧ g'.memory = g.memory ∧ g'.log = g.log) : Coherent line cur' none g' where
  copy := by rw [hg.1, hg.2.2]; exact h.copy
  wire d hd hmd := by
    obtain ⟨hd', hw⟩ := hcur d hd hmd
    rw [hw, hg.2.2]
    exact Or.inl (h.reply d hd')
  reply d hd := by cases hd
  memory a := by
    rw [hg.2.1, hg.2.2]
    refine (h.memory a).imp_right (Or.imp_right ?_)
    rintro ⟨d, hd | ⟨hd, -⟩, ha, hsrc⟩
    · exact ⟨d, Or.inr (hdr d hd), ha, hsrc⟩
    · cases hd
  legal := by rw [hg.2.2]; exact h.legal

/-- The memory takes over the DATA of a cache, and the bus is done with it. -/
theorem writeBack (h : Coherent line cur dr g) {s : Simulator n Trace}
    (hs : s.bus.currentRequest = cur) : Coherent line none dr (g.seeWriteBack s) := by
  obtain ⟨hcopy, hreply, hlog⟩ := g.seeWriteBack_same s
  constructor
  · rw [hcopy, hlog]; exact h.copy
  · intro d hd; cases hd
  · rw [hreply, hlog]; exact h.reply
  · intro a
    rw [hlog]
    by_cases hback : ∃ d, cur = some d ∧ d.msg = .DATA ∧ d.srcMid ≠ MCid n
    · obtain ⟨d, hd, hmd, hsrc⟩ := hback
      have hmem : (g.seeWriteBack s).memory a = if a = d.addr then g.wire else g.memory a := by
        simp [Ghost.seeWriteBack, Bus.busSnoop, hs, hd, hmd, hsrc]
      rw [hmem]
      split
      · next ha =>
        rw [ha]
        exact (h.wire d hd hmd).imp_right Or.inl
      · next ha =>
        refine (h.memory a).imp_right (Or.imp_right ?_)
        rintro ⟨d', hd' | ⟨hd', -⟩, ha', hsrc'⟩
        · exact ⟨d', Or.inl hd', ha', hsrc'⟩
        · rw [hd] at hd'
          rw [← Option.some.inj hd'] at ha'
          exact absurd ha'.symm ha
    · have hmem : (g.seeWriteBack s).memory = g.memory := by
        unfold Ghost.seeWriteBack Bus.busSnoop
        rw [hs]
        split
        · next d => rw [if_neg fun hcond => hback ⟨d, rfl, hcond⟩]
        · rfl
      rw [hmem]
      refine (h.memory a).imp_right (Or.imp_right ?_)
      rintro ⟨d', hd' | ⟨hd', hmd'⟩, ha', hsrc'⟩
      · exact ⟨d', Or.inl hd', ha', hsrc'⟩
      · exact absurd ⟨d', hd', hmd', hsrc'⟩ hback
  · rw [hlog]; exact h.legal

/-- The memory answers for a line that no cache has in `M`. -/
theorem fromMemory (h : Coherent line none none g) {d : Mreq} (hM : ∀ i, line i d.addr ≠ .M) :
    Coherent line none (some d) { g with reply := g.memory d.addr } where
  copy := h.copy
  wire d' hd' := by cases hd'
  reply d' hd' := by
    obtain rfl : d = d' := Option.some.inj hd'
    rcases h.memory d.addr with hm | ⟨i, hi⟩ | ⟨_, hd | ⟨hd, -⟩, -⟩
    · exact hm
    · exact absurd hi (hM i)
    · cases hd
    · cases hd
  memory a := by
    rcases h.memory a with hm | hi | ⟨_, hd | ⟨hd, -⟩, -⟩
    · exact Or.inl hm
    · exact Or.inr (Or.inl hi)
    · cases hd
    · cases hd
  legal := h.legal

end Coherent

end CoherenceSim
