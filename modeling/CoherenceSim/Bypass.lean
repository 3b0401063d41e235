/-
# Bounded bypass on the bus

`bounded_bypass`: the queue of the bus holds one request of a node at most, requests are
granted in the order of the misses, by cycle and then by node, and between a miss and
the grant of its request at most one request of every other node is granted.
-/
import CoherenceSim.Log

namespace CoherenceSim

variable {n : ℕ} {x : Input n}

namespace Run

variable (r : Run x) {c e : ℕ} {i : Fin n} {m : Mreq}

/-! ### The queue holds one request of a node -/

theorem count_pending_le_one (c : ℕ) (id : ModuleID) :
    ((r.state c).bus.pendingRequests.map (·.srcMid)).count id ≤ 1 := by
  rw [List.count, List.countP_map, List.countP_eq_length_filter]
  by_cases hid : ∃ m ∈ (r.state c).bus.pendingRequests, m.srcMid = id
  · obtain ⟨m, hm, rfl⟩ := hid
    obtain ⟨i, hi⟩ := (r.inv c).queued m hm
    obtain ⟨st, k, l, ha⟩ := (r.inv c).node i
    have hq := ha.queue
    have hsame : (r.state c).bus.pendingRequests.filter ((· == m.srcMid) ∘ fun m => m.srcMid) =
        (r.state c).bus.pendingRequests.filter (·.srcMid = L1id i) := by
      rw [hi]
      apply List.filter_congr
      intro m' _
      rfl
    rw [hsame, hq]
    split <;> simp
  · rw [List.filter_eq_nil_iff.mpr]
    · exact Nat.zero_le 1
    · intro m hm hsrc
      exact hid ⟨m, hm, by simpa using hsrc⟩

theorem nodup_pending (c : ℕ) : ((r.state c).bus.pendingRequests.map (·.srcMid)).Nodup :=
  List.nodup_iff_count_le_one.mpr (r.count_pending_le_one c)

theorem length_pending_le (c : ℕ) : (r.state c).bus.pendingRequests.length ≤ n := by
  have hsub : (r.state c).bus.pendingRequests.map (·.srcMid) ⊆ (List.finRange n).map L1id := by
    intro id hid
    obtain ⟨m, hm, rfl⟩ := List.mem_map.mp hid
    obtain ⟨i, hi⟩ := (r.inv c).queued m hm
    exact List.mem_map.mpr ⟨i, List.mem_finRange i, hi.symm⟩
  have hle := ((r.nodup_pending c).subperm hsub).length_le
  simpa using hle

/-! ### The order of the misses -/

/-- A request that has joined the queue: the cycle, the node and the message. -/
structure Miss (n : ℕ) where
  cycle : ℕ
  node : Fin n
  request : Mreq

/-- By cycle and then by node. -/
def Miss.before (a b : Miss n) : Prop := a.cycle < b.cycle ∨ a.cycle = b.cycle ∧ a.node < b.node

/-- The misses of cycle `c`, as the caches tick. -/
def missesAt (c : ℕ) : List (Miss n) :=
  (List.finRange n).flatMap fun i => (r.appended c i).map fun m => ⟨c, i, m⟩

/-- The misses before cycle `c`. -/
def misses (c : ℕ) : List (Miss n) := (List.range c).flatMap r.missesAt

theorem misses_request (c : ℕ) : (r.misses c).map (·.request) = r.queue.joined c := by
  simp only [misses, missesAt, Queue.joined, queue, List.map_flatMap, List.map_map, Function.comp_def,
    List.map_id']

theorem appended_length_le (c : ℕ) (i : Fin n) : (r.appended c i).length ≤ 1 := by
  obtain ⟨st, k, l, ha⟩ := (r.inv c).node i
  rw [r.appended_at ha]
  split <;> simp

theorem pairwise_missesAt (c : ℕ) : (r.missesAt c).Pairwise Miss.before := by
  rw [missesAt, List.pairwise_flatMap]
  refine ⟨fun i _ => ?_, ?_⟩
  · -- a cache misses once at most
    have hlen := r.appended_length_le c i
    match happ : r.appended c i with
    | [] => simp
    | [m] => simp
    | _ :: _ :: _ => rw [happ] at hlen; simp at hlen
  · refine (List.pairwise_lt_finRange n).imp fun {i j} hij => ?_
    rintro a ha b hb
    obtain ⟨m, -, rfl⟩ := List.mem_map.mp ha
    obtain ⟨m', -, rfl⟩ := List.mem_map.mp hb
    exact Or.inr ⟨rfl, hij⟩

theorem pairwise_misses (c : ℕ) : (r.misses c).Pairwise Miss.before := by
  rw [misses, List.pairwise_flatMap]
  refine ⟨fun e _ => r.pairwise_missesAt e, List.pairwise_lt_range.imp fun {e e'} he => ?_⟩
  have hcycle : ∀ e, ∀ a ∈ r.missesAt e, a.cycle = e := by
    intro e a ha
    obtain ⟨i, -, hi⟩ := List.mem_flatMap.mp ha
    obtain ⟨m, -, rfl⟩ := List.mem_map.mp hi
    rfl
  intro a ha b hb
  rw [Miss.before, hcycle e a ha, hcycle e' b hb]
  exact Or.inl he

/-! ### Bypass -/

/-- The requests granted after cycle `e` and before cycle `g`. -/
def grantsBetween (e g : ℕ) : List Mreq := (List.range' (e + 1) (g - (e + 1))).filterMap r.grantAt

/-- A request that joins the queue in a cycle is not granted in it. -/
theorem waits_of_appended (hm : m ∈ r.appended e i) : m ∈ r.queue.waits (e + 1) := by
  have hstep := r.queue.step e
  have hjoins : m ∈ r.queue.joins e := List.mem_flatMap.mpr ⟨i, List.mem_finRange i, hm⟩
  have hmem : m ∈ (r.queue.leaves e).toList ++ r.queue.waits (e + 1) := by
    rw [← hstep]
    exact List.mem_append_right _ hjoins
  rcases List.mem_append.mp hmem with hl | hw
  · obtain ⟨k, l, ha, hml⟩ := r.appended_cases hm
    have hg : r.grantAt e = some m := Option.mem_toList.mp hl
    obtain ⟨j, k', l', hj, hask⟩ := r.requester hg
    obtain rfl : j = i := L1id_injective (by rw [hml] at hask; exact (congrArg Mreq.srcMid hask).symm)
    have hproc := ha.proc
    rw [hj.proc] at hproc
    simp at hproc
  · exact hw

/-- **A request is granted after those ahead of it in the queue**, and these are of
other nodes. -/
theorem granted_after (hm : m ∈ r.appended e i) : ∃ g, e < g ∧ r.grantAt g = some m ∧
    (∀ m' ∈ r.grantsBetween e g, m'.srcMid ≠ L1id i) ∧ (r.grantsBetween e g).length ≤ n - 1 := by
  have hsrc : m.srcMid = L1id i := by
    obtain ⟨k, l, -, rfl⟩ := r.appended_cases hm
    rfl
  obtain ⟨ahead, behind, hsplit⟩ := List.append_of_mem (r.waits_of_appended hm)
  obtain ⟨k, hdone⟩ := r.exists_done_after e
  obtain ⟨j, hleave, hleft⟩ := r.queue.exists_leaves hsplit (r.bus_of_done (by omega) hdone).2
  have hbetween : r.grantsBetween e (e + 1 + j) = ahead := by
    rw [← hleft, grantsBetween, Nat.add_sub_cancel_left]
    rfl
  have hlen := r.length_pending_le (e + 1)
  have hnodup := r.nodup_pending (e + 1)
  rw [show (r.state (e + 1)).bus.pendingRequests = ahead ++ m :: behind from hsplit] at hlen hnodup
  refine ⟨e + 1 + j, by omega, hleave, ?_, ?_⟩
  · rw [hbetween]
    intro m' hm' hsame
    rw [List.map_append, List.nodup_append] at hnodup
    apply hnodup.2.2 m'.srcMid (List.mem_map_of_mem hm') m.srcMid (by simp)
    rw [hsame, hsrc]
  · rw [hbetween]
    rw [List.length_append, List.length_cons] at hlen
    omega

/-- The order in which the bus serves the caches. -/
structure BoundedBypass (r : Run x) : Prop where
  length : ∀ c, (r.state c).bus.pendingRequests.length ≤ n
  distinct : ∀ c, ((r.state c).bus.pendingRequests.map (·.srcMid)).Nodup
  sorted : ∀ c, (r.misses c).Pairwise Miss.before
  order : ∀ c, (r.misses c).map (·.request) = r.grants c ++ (r.state c).bus.pendingRequests
  bypass : ∀ e i, ∀ m ∈ r.appended e i, ∃ g, e < g ∧ r.grantAt g = some m ∧
    (∀ m' ∈ r.grantsBetween e g, m'.srcMid ≠ L1id i) ∧ (r.grantsBetween e g).length ≤ n - 1

/-- **Bounded bypass.** The queue never holds more than `n` requests or two of one node;
the requests granted are those of the misses in the order of the cycles and in each by
node; and between a miss and the grant of its request at most `n - 1` others are
granted, none of them of that node. -/
theorem bounded_bypass (r : Run x) : r.BoundedBypass where
  length := r.length_pending_le
  distinct := r.nodup_pending
  sorted := r.pairwise_misses
  order c := by
    rw [r.misses_request, r.queue.joined_eq, r.queue_left]
    rfl
  bypass _ _ _ := r.granted_after

end Run

end CoherenceSim
