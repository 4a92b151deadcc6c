import PerformanceHelpers.PowerCache.Limits

/- Runs that keep the lists, under every policy.

   `NodesOk` is the condition on a call that keeps them: no node is taken out from under
   the eviction candidate of the one list, and none of Small or Ghost is unlinked from the
   wrong ends. What weighs too much does no harm to a list. -/
namespace PerformanceHelpers.PowerCache

variable {K V : Type} [DecidableEq K] {c : Cache K V} {i : ℕ} {k : K} {now : ℚ}

/-- The condition on a call of a cache of three queues: `RoutesOk`, and the same for the node
`getOrSet` takes out. -/
def QueueNodesOk (c : Cache K V) : Call K V → Prop
  | .event ev => RoutesOk c ev
  | .getOrSet key factory _ _ swr now _ =>
    ∀ i ∈ lookup c key, takesOut c factory swr now i → c.queue i ≠ .ghost → Detachable c i
  | .clear => True

instance (c : Cache K V) : ∀ cl, Decidable (QueueNodesOk c cl)
  | .event ev => inferInstanceAs (Decidable (RoutesOk c ev))
  | .getOrSet key factory _ _ swr now _ => inferInstanceAs (Decidable
      (∀ i ∈ lookup c key, takesOut c factory swr now i → c.queue i ≠ .ghost → Detachable c i))
  | .clear => inferInstanceAs (Decidable True)

/-- The condition on a call. -/
def NodesOk (c : Cache K V) (cl : Call K V) : Prop :=
  if c.policy = .s3fifo then QueueNodesOk c cl else CallOk c cl

instance (c : Cache K V) (cl : Call K V) : Decidable (NodesOk c cl) :=
  inferInstanceAs (Decidable (if c.policy = .s3fifo then QueueNodesOk c cl else CallOk c cl))

namespace Sound

protected theorem produce (factory : Factory V) (ttl : Option Ttl) (weight : Option Weight) (now : ℚ)
    (h : Sound c) :
    Sound (produce (countMiss c true) k factory ttl weight now).1 := by
  have hmiss : Sound (countMiss c true) := h.countMiss
  have hset : ∀ v, Sound (produce (countMiss c true) k (.value v) ttl weight
      now).1 := by
    intro v
    simp only [produce, set]
    cases expiresAtOf (ttl.getD (countMiss c true).defaultTTL) now with
    | error e => exact hmiss
    | ok x => exact hmiss.store
  cases factory with
  | value v | returns v => exact hset v
  | promises | throws e => exact hmiss

theorem getOrSet {factory : Factory V} {ttl : Option Ttl} {weight : Option Weight}
    {swr : Option Bool} {setNow : ℚ} (h : Sound c)
    (hok : QueueNodesOk c (.getOrSet k factory ttl weight swr now setNow)) :
    Sound (getOrSet c k factory ttl weight swr now setNow).1 := by
  apply h.getOrSet_rule
  · exact h.produce factory ttl weight setNow
  · intro qs i q hl hrep hi hq hnode htakes
    have hremoved : Sound (removeExpiredNode c i) := h.unlinked hrep hi (hok i hl htakes hnode)
    exact hremoved.produce factory ttl weight setNow
  · exact fun _ hused => hused.congr rfl rfl rfl rfl
  · exact fun _ hserved => hserved.refreshStaleEntry

protected theorem clear (h : Sound c) : Sound (clear c) := by
  obtain ⟨qs, hrep⟩ := h.rep
  obtain ⟨hconfig, -⟩ := clear_frame hrep.toLayout
  refine ⟨?_, _, hrep.toLayout.clear, rfl⟩
  rw [hconfig]
  exact h.plain

theorem call {cl : Call K V} (h : Sound c) (hok : QueueNodesOk c cl) : Sound (call c cl) := by
  cases cl with
  | event ev => exact h.step hok
  | getOrSet key factory ttl weight swr now setNow => exact h.getOrSet hok
  | clear => exact h.clear

end Sound

/-- What holds of a cache between two calls of such a run. -/
inductive Routed (c : Cache K V) : Prop where
  | list (xs : List ℕ) (held : Held c xs)
  | queues (sound : Sound c)

namespace Routed

omit [DecidableEq K] in
theorem layout (h : Routed c) :
    ∃ qs, Layout c qs ∧ (c.policy ≠ .s3fifo → qs = onlyMain (qs .main)) := by
  cases h with
  | list xs held => exact ⟨onlyMain xs, held.layout, fun _ => rfl⟩
  | queues sound =>
    obtain ⟨qs, hrep⟩ := sound.rep
    exact ⟨qs, hrep.toLayout, fun hpol => absurd sound.policy hpol⟩

theorem call {cl : Call K V} (h : Routed c) (hok : NodesOk c cl) : Routed (call c cl) := by
  unfold NodesOk at hok
  cases h with
  | list xs held =>
    rw [if_neg held.policy] at hok
    obtain ⟨xs', held'⟩ := held.call hok
    exact .list xs' held'
  | queues sound =>
    rw [if_pos sound.policy] at hok
    exact .queues (sound.call hok)

omit [DecidableEq K] in
theorem new {o : Options K V} (hnew : new o = .ok c) : Routed c := by
  cases Bounded.new hnew with
  | list xs held => exact .list xs held
  | queues held => exact .queues held.toSound

end Routed

end PerformanceHelpers.PowerCache
