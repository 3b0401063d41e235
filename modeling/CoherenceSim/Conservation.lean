/-
# The counters agree with the messages they count

`counter_conservation`: at the start of every cycle the misses are the requests granted
and those in the queue, and the requests granted are those answered by a cache, those
answered by the memory and the one that is awaited.
-/
import CoherenceSim.Log

namespace CoherenceSim

variable {n : ℕ} {x : Input n}

namespace Run

variable (r : Run x) {c : ℕ}

/-- A request is granted, and no DATA has been sent for it yet. -/
def awaitsData (c : ℕ) : Bool := (r.granted c).isSome && (r.state c).bus.dataReply.isNone

theorem cacheMisses_eq_joined (c : ℕ) : (r.state c).stats.cacheMisses = (r.queue.joined c).length := by
  induction c with
  | zero => rw [r.start]; rfl
  | succ c ih =>
    rw [r.cacheMisses_succ, Queue.joined_succ, List.length_append, ih, ← r.flatMap_appended]
    rfl

/-- **A miss is granted or in the queue.** -/
theorem misses_eq (c : ℕ) : (r.state c).stats.cacheMisses =
    (r.grants c).length + (r.state c).bus.pendingRequests.length := by
  rw [r.cacheMisses_eq_joined, r.queue.joined_eq, List.length_append, r.queue_left]
  rfl

/-- **A grant is answered by a cache or by the memory**, or awaited. -/
theorem grants_eq (c : ℕ) : (r.grants c).length = (r.state c).stats.cacheToCacheTransfers +
    (r.memoryReplies c).length + (r.awaitsData c).toNat := by
  induction c with
  | zero => rw [r.start]; rfl
  | succ c ih =>
    rw [r.grants_succ, r.memoryReplies_succ, List.length_append, List.length_append, ih,
      r.cacheToCacheTransfers_succ]
    unfold awaitsData
    cases r.turn c with
    | rest hg hb hr _ hg' =>
      simp [r.mcSent_of_free hg, grantAt, hb, hr, hg, hg']
    | grant m q hg hb hmd _ hg' _ hd' =>
      rw [r.grantAt_eq_some.mpr ⟨hb, hmd⟩, r.mcSent_of_free hg, hg, hg', hd']
      cases r.replied c with
      | none => simp
      | some d =>
        simp
        omega
    | hold m hg hb hr hd hg' _ hd' =>
      rw [r.mcSent_of_awaits hg hd, hr, hg, hg', hd, hd', grantAt, hb]
      split
      · simp
        omega
      · simp
    | data m d hg hb hr hmd hd hg' =>
      simp [r.mcSent_of_reply hd, grantAt, hb, hmd, hr, hg, hg', hd]

/-- **Counter conservation**, at the start of every cycle; and when the loop ends every
miss has been answered by a cache or by the memory. -/
theorem counter_conservation (r : Run x) :
    (∀ c, (r.state c).stats.cacheMisses =
        (r.grants c).length + (r.state c).bus.pendingRequests.length ∧
      (r.grants c).length = (r.state c).stats.cacheToCacheTransfers + (r.memoryReplies c).length +
        (if r.awaitsData c then 1 else 0)) ∧
    ∃ R, (∀ fuel, (Simulator.init x.traces).run x.settings fuel =
        .ok (if R ≤ fuel then some (r.state R) else none)) ∧
      (r.state R).stats.cacheMisses =
        (r.state R).stats.cacheToCacheTransfers + (r.memoryReplies R).length := by
  refine ⟨fun c => ⟨r.misses_eq c, ?_⟩, ?_⟩
  · rw [r.grants_eq c]
    cases r.awaitsData c <;> rfl
  · obtain ⟨R, h⟩ := r.exists_ends
    obtain ⟨hg, hq⟩ := h.bus r
    refine ⟨R, r.run_eq_of_ends h, ?_⟩
    rw [r.misses_eq, hq, r.grants_eq, awaitsData, hg]
    rfl

end Run

end CoherenceSim
