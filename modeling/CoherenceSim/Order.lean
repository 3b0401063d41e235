/-
# The order in which the caches tick does not matter

`tick_order`: from a state of a run right after `Bus::tick`, the ticks of the caches
lead to the same state in any order of the nodes, but for the order of the requests
they put in the queue of the bus.
-/
import CoherenceSim.Run

namespace CoherenceSim

variable {n : ℕ} {x : Input n}

/-- A search finds the same in any order if there is one thing to find at most. -/
theorem findSome?_perm {α β : Type} {f : α → Option β} {l l' : List α} (h : l.Perm l')
    (hone : ∀ a b, (f a).isSome → (f b).isSome → a = b) : l.findSome? f = l'.findSome? f := by
  have hfound : ∀ {k k' : List α} {b : β}, k.Perm k' → k.findSome? f = some b →
      k'.findSome? f = some b := by
    intro k k' b hk hb
    obtain ⟨a, ha, hfa⟩ := List.exists_of_findSome?_eq_some hb
    have hne : k'.findSome? f ≠ none := by
      rw [Ne, List.findSome?_eq_none_iff]
      intro hnone
      rw [hnone a (hk.mem_iff.mp ha)] at hfa
      cases hfa
    obtain ⟨b', hb'⟩ := Option.ne_none_iff_exists'.mp hne
    obtain ⟨a', -, hfa'⟩ := List.exists_of_findSome?_eq_some hb'
    obtain rfl := hone a a' (Option.isSome_of_eq_some hfa) (Option.isSome_of_eq_some hfa')
    rw [hb', ← hfa, hfa']
  cases hb : l.findSome? f with
  | some b => exact (hfound h hb).symm
  | none =>
    cases hb' : l'.findSome? f with
    | none => rfl
    | some b => rw [hfound h.symm hb'] at hb; cases hb

/-- The states are the same but for the order of what has joined the queue `base`. -/
structure SameButOrder (base : List Mreq) (s t : Simulator n Trace) : Prop where
  nodes : ∀ i, t.Nd i = s.Nd i
  sharedLine : t.bus.sharedLine = s.bus.sharedLine
  dataReply : t.bus.dataReply = s.bus.dataReply
  currentRequest : t.bus.currentRequest = s.bus.currentRequest
  requestInProgress : t.bus.requestInProgress = s.bus.requestInProgress
  memory : t.MC = s.MC
  clock : t.globalClock = s.globalClock
  stats : t.stats = s.stats
  queue : ∃ appended appended', s.bus.pendingRequests = base ++ appended ∧
    t.bus.pendingRequests = base ++ appended' ∧ appended'.Perm appended

/-- What the ticks of the caches of a list do together does not depend on its order. -/
theorem Simulator.sync_perm {S : Settings} {s : Simulator n Trace} (h : s.Ready S) {l l' : List (Fin n)}
    (hl : l'.Perm l) : SameButOrder s.bus.pendingRequests (s.sync S l) (s.sync S l') where
  nodes i := if_congr hl.mem_iff rfl rfl
  sharedLine := congrArg (s.bus.sharedLine || ·) hl.any_eq
  dataReply := congrArg (Option.or · s.bus.dataReply) (findSome?_perm hl h.one)
  currentRequest := rfl
  requestInProgress := rfl
  memory := rfl
  clock := rfl
  stats := by
    have hlen : (l'.flatMap fun i => (s.Nd i).queued S.protocol.features i).length =
        (l.flatMap fun i => (s.Nd i).queued S.protocol.features i).length :=
      (hl.flatMap_right _).length_eq
    simp only [Simulator.sync, hlen, hl.countP_eq]
  queue := ⟨_, _, rfl, rfl, hl.flatMap_right _⟩

/-- **The order in which the caches tick does not matter.** In any order `σ` of the nodes
the ticks of the caches of a cycle meet no error, and lead to the same nodes, bus and
counters as in the order of their indices, up to the order of the requests that are
put in the queue in that cycle. -/
theorem Run.tick_order (r : Run x) (c : ℕ) (σ : Equiv.Perm (Fin n)) : ∃ s t,
    (r.state c).tickBus.tickCaches x.settings (List.finRange n) = .ok s ∧
      (r.state c).tickBus.tickCaches x.settings ((List.finRange n).map σ) = .ok t ∧
      SameButOrder (r.state c).tickBus.bus.pendingRequests s t := by
  have hready := (r.inv c).ready
  have hnodup : ((List.finRange n).map σ).Nodup := (List.nodup_finRange n).map σ.injective
  have hperm : ((List.finRange n).map σ).Perm (List.finRange n) := by
    rw [List.perm_ext_iff_of_nodup hnodup (List.nodup_finRange n)]
    intro i
    exact iff_of_true (List.mem_map.mpr ⟨σ.symm i, List.mem_finRange _, σ.apply_symm_apply i⟩)
      (List.mem_finRange i)
  exact ⟨_, _, Simulator.tickCaches_eq_sync x.settings hready (List.nodup_finRange n),
    Simulator.tickCaches_eq_sync x.settings hready hnodup, Simulator.sync_perm hready hperm⟩

end CoherenceSim
