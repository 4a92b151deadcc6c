import PerformanceHelpers.PowerCache.MainSpace

/- Runs of a cache with an admission window.

   Evictions, deletions and sweeps take nodes out of main space and out of the window and
   leave the rest in its order (`Shrunk`); a call that uses or writes an entry puts one node
   at the end of main space or of the window (`Leaves`). So it is in every run that takes no
   node out from under the eviction candidate. -/
namespace PerformanceHelpers.PowerCache
open Function (update)

variable {K V : Type} [DecidableEq K] {c c' : Cache K V} {main window l r xs : List ℕ} {i j : ℕ} {k : K}
  {v : V} {w x now : ℚ} {used : ℕ → Bool}

structure Admitting (c : Cache K V) (main window : List ℕ) : Prop where
  ready : Ready c (main ++ window)
  admits : Admits c main window
  fits : FitsWindow c.toConfig window.length

def Shrunk (main window : List ℕ) (c : Cache K V) : Prop :=
  ∃ main' window', Admitting c main' window' ∧ main'.Sublist main ∧ window'.Sublist window

def Leaves (used : ℕ → Bool) (main : List ℕ) (c : Cache K V) : Prop :=
  ∃ main' window', Admitting c main' window' ∧ Behind used main main'

section
omit [DecidableEq K]

theorem Shrunk.leaves (h : Shrunk main window c) (hused : ∀ i ∈ main, used i = false) :
    Leaves used main c := by
  obtain ⟨main', window', h', hmain, -⟩ := h
  exact ⟨main', window', h', .of_sublist hmain hused⟩

theorem Shrunk.trans (h : Shrunk main window c)
    (h' : ∀ main window, Admitting c main window → Shrunk main window c') : Shrunk main window c' := by
  obtain ⟨main₁, window₁, h₁, hmain₁, hwindow₁⟩ := h
  obtain ⟨main₂, window₂, h₂, hmain₂, hwindow₂⟩ := h' main₁ window₁ h₁
  exact ⟨main₂, window₂, h₂, hmain₂.trans hmain₁, hwindow₂.trans hwindow₁⟩

theorem Leaves.shrunk (h : Leaves used main c)
    (h' : ∀ main window, Admitting c main window → Shrunk main window c') : Leaves used main c' := by
  obtain ⟨main₁, window₁, h₁, hbehind⟩ := h
  obtain ⟨main₂, window₂, h₂, hmain, -⟩ := h' main₁ window₁ h₁
  exact ⟨main₂, window₂, h₂, hbehind.shrink hmain⟩

end

namespace Admitting

omit [DecidableEq K] in
theorem refl (h : Admitting c main window) : Shrunk main window c :=
  ⟨main, window, h, .refl main, .refl window⟩

section
variable (h : Admitting c main window)
include h

theorem congr (hconfig : c'.toConfig = c.toConfig)
    (hfields : c'.toFields = c.toFields) (hheap : c'.toHeap = c.toHeap)
    (hweight : c'.currentWeight = c.currentWeight) (hlog : c'.log = c.log) :
    Admitting c' main window := by
  have hgoes := h.ready.quiet hconfig hfields hheap hweight hlog
  refine ⟨hgoes.ready, h.admits.congr hconfig hfields hheap hweight, ?_⟩
  rw [hconfig]
  exact h.fits

theorem unlinked {advance : Bool} {cs : Counters} {cbs : List (Callback K V)}
    (hi : i ∈ main ++ window)
    (hready : ∃ xs, Ready (freeNode { unlinkNode c i advance with counters := cs, log := cbs } i) xs) :
    Shrunk main window (freeNode { unlinkNode c i advance with counters := cs, log := cbs } i) := by
  have hunlinked := h.admits.unlinked hi advance cs cbs
  obtain ⟨xs, hxs⟩ := hready
  refine ⟨_, _, ⟨hunlinked.ready hxs, hunlinked, ?_⟩, without_sublist, without_sublist⟩
  have hconfig : (unlinkNode c i advance).toConfig = c.toConfig := unlinkNode_toConfig
  show FitsWindow (unlinkNode c i advance).toConfig _
  rw [hconfig]
  exact h.fits.mono without_sublist.length_le

protected theorem abortInflight (key : Option K) :
    Admitting (abortInflight c key) main window :=
  h.congr abortInflight_toConfig abortInflight_toFields abortInflight_toHeap
    abortInflight_currentWeight abortInflight_log

protected theorem countMiss (count : Bool) :
    Admitting (countMiss c count) main window := by
  cases count with
  | false => exact h
  | true => exact h.congr rfl rfl rfl rfl rfl

protected theorem countHit : Admitting (countHit c) main window :=
  h.congr rfl rfl rfl rfl rfl

protected theorem countKey (key : K) : Admitting (countKey c key) main window := by
  unfold countKey
  split
  · exact h.congr rfl rfl rfl rfl rfl
  · exact h

protected theorem evictNode (hi : i ∈ main ++ window) :
    Shrunk main window (evictNode c i) := by
  obtain ⟨l, r, k, hxs, hk⟩ := h.ready.keyed_split hi
  have hready : Ready c (l ++ i :: r) := hxs ▸ h.ready
  have hevict := hready.evictNode hk fun hsteady => absurd hsteady (h.ready.not_steady h.admits.windowed)
  obtain ⟨cs, hdrop⟩ := dropNode_eq (abortInflight c (c.key i)) i true "evicted"
  rw [evictNode, hdrop] at hevict ⊢
  exact (h.abortInflight (c.key i)).unlinked hi ⟨_, hevict.ready⟩

theorem removeExpiredNode (hi : i ∈ main ++ window) (hok : Droppable c i) :
    Shrunk main window (removeExpiredNode c i) := by
  obtain ⟨l, r, k, hxs, hk⟩ := h.ready.keyed_split hi
  have hready : Ready c (l ++ i :: r) := hxs ▸ h.ready
  have hremove := hready.removeExpiredNode hk (hready.droppable hok)
  obtain ⟨cs, heq⟩ := removeExpiredNode_eq c i
  rw [heq] at hremove ⊢
  exact h.unlinked hi ⟨_, hremove.ready⟩

/-- The candidate is no part of what is said of the window. -/
theorem pointed (candidate : Option ℕ) {cursor : Option ℕ} {valid : Bool}
    (hready : ∃ xs, Ready { c with
      evictionCandidate := candidate, cleanupCursor := cursor, cleanupCursorValid := valid } xs) :
    Admitting { c with
      evictionCandidate := candidate, cleanupCursor := cursor, cleanupCursorValid := valid }
      main window := by
  obtain ⟨xs, hxs⟩ := hready
  have hnodes : xs = main ++ window := by
    rw [← hxs.nodes_eq, ← h.ready.nodes_eq]
    rfl
  subst hnodes
  exact ⟨hxs, ⟨hxs.toListed, h.admits.toMarked.congr rfl fun _ hm => hm, h.admits.windowed,
    h.admits.lru⟩, h.fits⟩

protected theorem settleCandidate : Admitting (settleCandidate c) main window := by
  have hsettled := h.ready.settleCandidate.ready
  unfold settleCandidate at hsettled ⊢
  split at hsettled
  · next hnone =>
    rw [if_pos hnone]
    exact h.pointed c.main.head ⟨_, hsettled⟩
  · next hsome =>
    rw [if_neg hsome]
    exact h

/-! ## Sweeps -/

protected theorem evictLoop (turns : ℕ) :
    Shrunk main window (evictLoop turns c) := by
  induction turns generalizing c main window with
  | zero => exact h.refl
  | succ turns ih =>
    rw [evictLoop]
    split
    · obtain ⟨n, o, hnext, hmem, -⟩ := nextVictim_spec h.ready
      rw [hnext]
      have hcalls : Admitting { c with missCostCalls := n } main window := h.congr rfl rfl rfl rfl rfl
      cases o with
      | none => exact hcalls.refl
      | some i => exact (hcalls.evictNode (hmem i rfl)).trans fun _ _ h' => ih h'
    · exact h.refl

protected theorem evictIfNeeded : Shrunk main window (evictIfNeeded c) := by
  have heq : evictIfNeeded c =
      settleCandidate (evictLoop c.nextNode c) := by
    simp only [evictIfNeeded, h.admits.lru]
  rw [heq]
  exact (h.evictLoop c.nextNode).trans fun _ _ h' => h'.settleCandidate.refl

protected theorem evictCount (n : ℕ) : Shrunk main window (evictCount n c).1 := by
  induction n generalizing c main window with
  | zero => exact h.refl
  | succ n ih =>
    rw [evictCount]
    cases hv : victim c with
    | none => exact h.refl
    | some i => exact (h.evictNode (h.ready.victim_mem hv)).trans fun _ _ h' => ih h'

end

protected theorem cleanupLoop {maxScan : Option ℚ} (turns scanned : ℕ) {node : Option ℕ}
    (h : Admitting c main window) (hnode : ∀ i ∈ node, i ∈ main ++ window)
    (hok : SweepKeeps now maxScan turns scanned node c) :
    Shrunk main window (cleanupLoop now maxScan turns scanned node c).1 := by
  induction turns generalizing c main window scanned node with
  | zero => exact h.refl
  | succ turns ih =>
    cases node with
    | none => exact h.refl
    | some i =>
      simp only [cleanupLoop, SweepKeeps] at hok ⊢
      split
      · next hscan =>
        rw [if_pos hscan] at hok
        obtain ⟨hdrop, hrest⟩ := hok
        have hi := hnode i rfl
        have hnext : ∀ j ∈ c.links.next i, j ∈ main ++ window ∧ j ≠ i := by
          intro j hj
          refine ⟨h.ready.linked.next_mem hi hj, ?_⟩
          rintro rfl
          exact h.ready.linked.next_ne hi hj
        cases hexp : expiredAt c i now with
        | true =>
          rw [hexp] at hrest
          have hshrunk := h.removeExpiredNode hi (hdrop hexp)
          obtain ⟨l, r, k, hxs, hk⟩ := h.ready.keyed_split hi
          have hready : Ready c (l ++ i :: r) := hxs ▸ h.ready
          have hremove := hready.removeExpiredNode hk (hready.droppable (hdrop hexp))
          refine hshrunk.trans fun main' window' h' => ih (scanned + 1) h' (fun j hj => ?_) hrest
          obtain ⟨hmem, hne⟩ := hnext j hj
          rw [← h'.ready.nodes_eq, hremove.ready.nodes_eq]
          rw [hxs] at hmem
          simpa [hne] using hmem
        | false =>
          rw [hexp] at hrest
          exact ih (scanned + 1) h (fun j hj => (hnext j hj).1) hrest
      · exact h.refl

/-! ## Single calls -/

omit [DecidableEq K] in
theorem key_ne (h : Admitting c main window) (hi : i ∈ main) : c.key i ≠ none := by
  obtain ⟨k, hk⟩ := h.ready.keyed (List.mem_append_left window hi)
  simp [hk]

/-- An entry of the list is told by its key. -/
theorem key_inj (h : Admitting c main window) (hi : i ∈ main ++ window) (hj : j ∈ main ++ window)
    (hk : c.key i = some k) (hk' : c.key j = some k) : j = i :=
  Option.some.inj ((h.ready.get_iff.mpr ⟨hj, hk'⟩).symm.trans (h.ready.get_iff.mpr ⟨hi, hk⟩))

theorem use (h : Admitting c main window) (hi : i ∈ main ++ window) (hk : c.key i = some k) :
    Leaves (fun j => decide (c.key j = some k)) main (moveToTail c i) := by
  obtain ⟨l, r, hxs⟩ := List.append_of_mem hi
  have hready : Ready c (l ++ i :: r) := hxs ▸ h.ready
  obtain ⟨xs', huse⟩ := hready.use hk
  have hconfig := huse.moves.config hready.toListed
  have hfits : ∀ {window' : List ℕ}, window'.length ≤ window.length →
      FitsWindow (moveToTail c i).toConfig window'.length := by
    intro window' hle
    rw [hconfig]
    exact h.fits.mono hle
  have hused : ∀ j ∈ main, (decide (c.key j = some k)) = true ↔ j = i := by
    intro j hj
    rw [decide_eq_true_eq]
    refine ⟨fun hkj => h.key_inj hi (List.mem_append_left window hj) hk hkj, ?_⟩
    rintro rfl
    exact hk
  have hdisjoint := (List.nodup_append.mp h.ready.linked.nodup).2.2
  rcases List.mem_append.mp hi with hmain | hwindow
  · obtain ⟨a, b, rfl⟩ := List.append_of_mem hmain
    have hnot : i ∉ a ++ b :=
      (List.nodup_middle.mp (List.nodup_append.mp h.ready.linked.nodup).1).notMem
    have hmoved := h.admits.useMain
    exact ⟨a ++ b ++ [i], window, ⟨hmoved.ready huse.ready, hmoved, hfits le_rfl⟩, .use hused hnot⟩
  · obtain ⟨a, b, rfl⟩ := List.append_of_mem hwindow
    have hmoved := h.admits.useWindow
    refine ⟨main, a ++ b ++ [i], ⟨hmoved.ready huse.ready, hmoved, hfits ?_⟩, ?_⟩
    · simp only [List.length_append, List.length_cons, List.length_nil]
      omega
    · refine .of_sublist (.refl main) fun j hj => ?_
      by_contra hne
      obtain rfl := (hused j hj).mp (by simpa using hne)
      exact hdisjoint j hj j (by simp) rfl

/-- A lookup finds an entry of the list, or leaves the others as they are. -/
protected theorem fetchValidNode {ign : Bool} (count : Bool) (h : Admitting c main window)
    (hok : LookupKeeps c k ign now) :
    (∃ c', fetchValidNode c k ign count now = (c', none) ∧ hits c k ign now = false ∧
      Shrunk main window c') ∨
    ∃ i, fetchValidNode c k ign count now = (c, some i) ∧ hits c k ign now = true ∧
      i ∈ main ++ window ∧ c.key i = some k := by
  cases hi : lookup c k with
  | none =>
    refine Or.inl ⟨_, ?_, ?_, (h.countMiss count).refl⟩
    · simp only [fetchValidNode, hi]
    · simp only [hits, hi, Option.any_none]
  | some i =>
    have hget := hi
    rw [lookup_list h.ready.policy] at hget
    obtain ⟨hmem, hk⟩ := h.ready.get_iff.mp hget
    simp only [fetchValidNode, hits, hi, h.ready.policy, false_and, if_false, Option.any_some]
    by_cases hexp : ign = false ∧ now ≠ 0 ∧ expiredAt c i now
    · rw [if_pos hexp]
      have hshrunk := h.removeExpiredNode hmem (hok i hi hexp.1 hexp.2.1 hexp.2.2)
      exact Or.inl ⟨_, rfl, by simp [hexp], hshrunk.trans fun _ _ h' => (h'.countMiss count).refl⟩
    · rw [if_neg hexp]
      exact Or.inr ⟨i, rfl, by simp [hexp], hmem, hk⟩

section
variable (h : Admitting c main window)
include h

/-- No entry of main space was accessed under no key. -/
theorem leaves_none (hshrunk : Shrunk main window c') :
    Leaves (fun i => decide (c.key i = none)) main c' :=
  hshrunk.leaves fun i hi => by simpa using h.key_ne hi

protected theorem get (hok : LookupKeeps c k false now) :
    Leaves (fun i => decide (c.key i = if hits c k false now then some k else none)) main
      (get c k now).1 := by
  rcases h.fetchValidNode true hok with ⟨c', hfetch, hhit, hshrunk⟩ | ⟨i, hfetch, hhit, hi, hk⟩
  · simp only [get, hfetch, hhit, Bool.false_eq_true, if_false]
    exact h.leaves_none hshrunk
  · simp only [get, hfetch, hhit, if_true]
    exact (h.use hi hk).shrunk fun _ _ h' => (h'.countHit.countKey k).refl

protected theorem delete (hok : ∀ i ∈ lookup c k, Droppable c i) :
    Shrunk main window (delete c k).1 := by
  have habort := h.abortInflight (some k)
  have hlookup : lookup (abortInflight c (some k)) k = lookup c k := by
    rw [lookup_list habort.ready.policy, lookup_list h.ready.policy, abortInflight_toHeap]
  obtain ⟨xs, hgoes⟩ := h.ready.delete hok
  simp only [delete, hlookup] at hgoes ⊢
  cases hi : lookup c k with
  | none => exact habort.refl
  | some i =>
    rw [hi] at hgoes
    rw [lookup_list h.ready.policy] at hi
    exact habort.unlinked (h.ready.get_iff.mp hi).1 ⟨xs, hgoes.ready⟩

protected theorem resize (n m : Option ℚ) :
    Shrunk main window (resize c n m) := by
  have hlimited : Admitting (limited c (.resize n m)) main window := by
    have hready := h.ready.limited (.resize n m)
    exact ⟨hready, ⟨hready.toListed, h.admits.toMarked.congr rfl fun _ hm => hm, h.admits.windowed,
      h.admits.lru⟩, h.fits⟩
  refine hlimited.evictIfNeeded.trans fun main' window' h' => ?_
  have hcursor := h'.ready.cursor none (by simp)
  exact (h'.pointed _ ⟨_, hcursor.ready.toSettled.head.ready⟩).refl

protected theorem evict (n : ℤ) : Shrunk main window
    (settleCall c (evict c n) (Outcome.count (K := K) (V := V))).1 := by
  unfold evict
  split
  · exact h.refl
  · exact (h.evictCount n.toNat).trans fun _ _ h' => h'.settleCandidate.refl

theorem cleanupExpiredUpTo {maxScan : Option ℚ}
    (hok : SweepKeeps now maxScan (c.nextNode + 1) 0 (sweepStart c) c) :
    Shrunk main window (cleanupExpiredUpTo c maxScan now).1 := by
  obtain ⟨xs, hgoes⟩ := h.ready.cleanupExpiredUpTo hok
  have hloop := h.cleanupLoop (c.nextNode + 1) 0 h.ready.sweepStart_mem hok
  refine hloop.trans fun main' window' h' => ?_
  exact (h'.pointed (cleanupLoop now maxScan (c.nextNode + 1) 0
    (sweepStart c) c).1.evictionCandidate ⟨xs, hgoes.ready⟩).refl

protected theorem touch {ttl : Option Ttl} (hok : LookupKeeps c k false now) :
    Leaves (fun i => decide (c.key i =
        match (settleCall c (touch c k ttl now) (Outcome.flag (K := K) (V := V))).2 with
        | .flag true => some k
        | _ => none)) main
      (settleCall c (touch c k ttl now) (Outcome.flag (K := K) (V := V))).1 := by
  rcases h.fetchValidNode false hok with ⟨c', hfetch, -, hshrunk⟩ | ⟨i, hfetch, -, hi, hk⟩
  · simp only [touch, hfetch, settleCall]
    exact h.leaves_none hshrunk
  · cases ttl with
    | none =>
      simp only [touch, hfetch, settleCall]
      exact h.use hi hk
    | some ttl =>
      cases hx : expiresAtOf ttl now with
      | error e =>
        simp only [touch, hfetch, hx, settleCall]
        exact h.leaves_none h.refl
      | ok e =>
        have hnote : Goes c (main ++ window) [] { c with
            expiresAt := update c.expiresAt i e } (main ++ window) :=
          h.ready.note [] rfl rfl rfl rfl rfl (List.append_nil _).symm rfl
        have hnoted : Admitting { c with expiresAt := update c.expiresAt i e } main window :=
          ⟨hnote.ready, ⟨hnote.ready.toListed, h.admits.toMarked.congr rfl fun _ hm => hm,
            h.admits.windowed, h.admits.lru⟩, h.fits⟩
        simp only [touch, hfetch, hx, settleCall]
        exact hnoted.use hi hk

protected theorem updateExisting (hi : i ∈ main ++ window) (hk : c.key i = some k)
    (hw : 0 ≤ w) : Leaves (fun j => decide (c.key j = some k)) main (updateExisting c i v w x) := by
  have hwrite := h.ready.write hi hk (update c.value i (some v)) w x hw
  have hwritten : Admitting { c with
      currentWeight := c.currentWeight - c.weight i + w
      value := update c.value i (some v)
      weight := update c.weight i w
      expiresAt := update c.expiresAt i x } main window :=
    ⟨hwrite.ready, ⟨hwrite.ready.toListed, h.admits.toMarked.congr rfl fun _ hm => hm,
      h.admits.windowed, h.admits.lru⟩, h.fits⟩
  exact hwritten.use hi hk

protected theorem insertNew {n : ℕ} (hw : 0 ≤ w) (hfresh : c.map.get k = none) :
    (insertNew c k v w x n).2 = true ∧
      Leaves (fun j => decide (c.key j = some k)) main (insertNew c k v w x n).1 := by
  obtain ⟨sketch, hsketch⟩ :=
    Option.ne_none_iff_exists'.mp (h.ready.setup.windowed h.admits.windowed)
  have hwindowed : (c.windowSize.all fun n => decide (0 < n)) = true := h.admits.windowed
  have hinsert : insertNew c k v w x n = (insertIntoWindow c sketch k v w x n, true) := by
    simp only [insertNew, hsketch, hwindowed, if_true]
  obtain ⟨ms, xs', hgoes, -⟩ : ∃ ms xs', Goes c (main ++ window) (.inserted k :: ms)
      (insertIntoWindow c sketch k v w x n) xs' ∧ _ :=
    h.ready.insertIntoWindow hw h.admits.windowed hfresh
  have hconfig := hgoes.moves.config h.ready.toListed
  obtain ⟨hnew, henter⟩ := h.admits.enterWindow (v := v) (w := w) (x := x) h.ready hfresh
  have hused : ∀ j ∈ main, decide (c.key j = some k) = false := by
    intro j hj
    rw [decide_eq_false_iff_not]
    intro hk
    have hget := h.ready.get_iff.mpr ⟨List.mem_append_left window hj, hk⟩
    rw [hfresh] at hget
    cases hget
  rw [hinsert]
  refine ⟨rfl, ?_⟩
  rw [insertIntoWindow_eq h.admits.lru] at hgoes hconfig ⊢
  obtain ⟨i, rest, hsplit⟩ : ∃ i rest, window ++ [(takeNode c).2] = i :: rest :=
    List.exists_cons_of_ne_nil (by simp)
  rw [hsplit] at henter
  have hlength : rest.length = window.length := by
    simpa using congrArg List.length hsplit.symm
  have hi : i ∉ main := by
    intro hmain
    have hdisjoint := (List.nodup_append.mp henter.toListed.linked.nodup).2.2
    exact hdisjoint i hmain i List.mem_cons_self rfl
  rcases henter.arbitrate sketch n with ⟨hfits, hsame⟩ | ⟨main', kept, hmoved, hkept, hcase⟩
  · rw [hsame] at hgoes ⊢
    refine ⟨main, i :: rest, ⟨henter.ready hgoes.ready, henter, hfits.mono ?_⟩, .of_sublist (.refl main) hused⟩
    simp
  · refine ⟨main', rest, ⟨hmoved.ready hgoes.ready, hmoved, ?_⟩, ?_⟩
    · rw [hconfig, hlength]
      exact h.fits
    · rcases hcase with rfl | rfl
      · exact .of_sublist hkept hused
      · exact .enter hkept hi hused

protected theorem countWeightError (v : V) (weight : Option Weight) :
    Admitting (countWeightError c v weight) main window := by
  unfold countWeightError
  split
  · exact h.congr rfl rfl rfl rfl rfl
  · exact h

protected theorem putValue (hw : 0 ≤ w) : (putValue c k v w x).2 = true ∧
    Leaves (fun j => decide (c.key j = some k)) main (putValue c k v w x).1 := by
  unfold putValue
  rw [lookup_list h.ready.policy]
  cases hi : c.map.get k with
  | none => exact h.insertNew hw hi
  | some i =>
    obtain ⟨hmem, hk⟩ := h.ready.get_iff.mp hi
    exact ⟨rfl, h.updateExisting hmem hk hw⟩

end

/-- What `set` and an entry of `setMany` do before they evict. -/
theorem putCounted (weight : Option Weight) (h : Admitting c main window) :
    (putValue (countWeightError c v weight) k v
      (computeWeight c.weightFn v weight) x).2 = true ∧
    Leaves (fun j => decide (c.key j = some k)) main (countKey
      (putValue (countWeightError c v weight) k v
        (computeWeight c.weightFn v weight) x).1 k) := by
  have hkey : (countWeightError c v weight).key = c.key := by
    unfold countWeightError
    split <;> rfl
  obtain ⟨hstored, hput⟩ := (h.countWeightError v weight).putValue (k := k) (v := v) (x := x)
    (computeWeight_nonneg c.weightFn v weight)
  rw [hkey] at hput
  exact ⟨hstored, hput.shrunk fun _ _ h' => (h'.countKey k).refl⟩

theorem reject (h : Admitting c main window) (k : K) (v : V) :
    Admitting (reject c k v) main window := by
  have hreject := h.ready.reject k v
  exact ⟨hreject.ready, ⟨hreject.ready.toListed, h.admits.toMarked.congr rfl fun _ hm => hm,
    h.admits.windowed, h.admits.lru⟩, h.fits⟩

theorem store (weight : Option Weight) (h : Admitting c main window) :
    Leaves (fun i => decide (c.key i = if (store c k v x weight).2 then some k else none)) main
      (PowerCache.store c k v x weight).1 := by
  rw [store_eq]
  split
  · simp only [Bool.false_eq_true, if_false]
    exact h.leaves_none ((h.countWeightError v weight).reject k v).refl
  · obtain ⟨hstored, hput⟩ := h.putCounted (k := k) (v := v) (x := x) weight
    simp only [hstored, if_true]
    exact hput.shrunk fun _ _ h' => h'.evictIfNeeded

protected theorem setManyOne (weight : Option Weight) (p : K × V) (h : Admitting c main window) :
    Leaves (fun i => decide (c.key i =
        if oversized c (computeWeight c.weightFn p.2 weight) then none else some p.1)) main
      (setManyOne x weight c p) := by
  rw [Aimed.setManyOne_eq h.ready.policy]
  split
  · exact h.leaves_none ((h.countWeightError p.2 weight).reject p.1 p.2).refl
  · obtain ⟨hstored, hput⟩ := h.putCounted (k := p.1) (v := p.2) (x := x) weight
    simp only [hstored, if_true]
    exact hput

end Admitting

/-! ## Runs -/

/-- The calls that use entries, write them and take them out. -/
def Basic : Call K V → Bool
  | .event (.set _ _ _ _ _) | .event (.setMany _ _ _ _) | .event (.get _ _) | .event (.touch _ _ _)
  | .event (.delete _) | .event (.evict _) | .event (.resize _ _)
  | .event (.cleanupExpiredUpTo _ _) => true
  | _ => false

def accessedKey (c : Cache K V) (ev : Event K V) : Option K :=
  match ev with
  | .set key _ _ _ _ | .touch key _ _ =>
    match (step c ev).2 with
    | .flag true => some key
    | _ => none
  | .get key now => if hits c key false now then some key else none
  | _ => none

/-- The key an entry of `setMany` writes. -/
def writtenKey (c : Cache K V) (weight : Option Weight) (p : K × V) : Option K :=
  if oversized c (computeWeight c.weightFn p.2 weight) then none else some p.1

/-- A call keeps the order of main space, `setMany` with each of its entries and its sweep. -/
def MainOrder (c : Cache K V) : Call K V → Prop
  | .event (.setMany entries ttl weight now) => ∀ x ∈ (expiresAtOf (ttl.getD .never) now).toOption,
    Meets (setManyOne x weight) (fun c p => OrderKept c (setManyOne x weight c p) (writtenKey c weight p))
        c entries ∧
      OrderKept (entries.foldl (setManyOne x weight) c)
        (evictIfNeeded (entries.foldl (setManyOne x weight) c)) none
  | .event ev => OrderKept c (step c ev).1 (accessedKey c ev)
  | .getOrSet _ _ _ _ _ _ _ | .clear => True

namespace Admitting

omit [DecidableEq K] in
theorem parts (h : Admitting c main window) :
    nodes c = main ++ window ∧ mainSpace c = main ∧ windowNodes c = window := by
  have hnodes : nodes c = main ++ window := h.ready.nodes_eq
  have hmain : ∀ i ∈ main, c.inWindow i = false := h.admits.outside
  have hwindow : ∀ i ∈ window, c.inWindow i = true := h.admits.inside
  have hout : main.filter c.inWindow = [] := by
    rw [List.filter_eq_nil_iff]
    intro i hi
    simp [hmain i hi]
  have hin : (window.filter fun i => !c.inWindow i) = [] := by
    rw [List.filter_eq_nil_iff]
    intro i hi
    simp [hwindow i hi]
  refine ⟨hnodes, ?_, ?_⟩
  · rw [mainSpace, hnodes, List.filter_append, hin, List.append_nil, List.filter_eq_self]
    intro i hi
    simp [hmain i hi]
  · rw [windowNodes, hnodes, List.filter_append, hout, List.nil_append, List.filter_eq_self]
    exact hwindow

theorem kept (h : Admitting c main window) : WindowKept c := by
  obtain ⟨hnodes, hmain, hwindow⟩ := h.parts
  refine ⟨?_, fun key i hi hin => ?_, ?_, ?_⟩
  · rw [hnodes, hmain, hwindow]
  · have hmem := (h.ready.get_iff.mp hi).1
    rw [windowNodes, List.mem_filter, hnodes]
    exact ⟨hmem, hin⟩
  · rw [hwindow]
    exact h.fits
  · rw [h.admits.windowOldest_eq, h.admits.freshOldest_eq h.ready.linked h.ready.length_le]

theorem orderKept {key : Option K} (h : Admitting c main window)
    (hleaves : Leaves (fun i => decide (c.key i = key)) main c') : OrderKept c c' key := by
  obtain ⟨main', window', h', hbehind⟩ := hleaves
  unfold OrderKept
  rw [h.parts.2.1, h'.parts.2.1]
  exact hbehind

omit [DecidableEq K] in
theorem of_leaves (hleaves : Leaves used main c) : ∃ main window, Admitting c main window := by
  obtain ⟨main', window', h', -⟩ := hleaves
  exact ⟨main', window', h'⟩

theorem setManyLoop (weight : Option Weight) (ps : List (K × V)) (h : Admitting c main window) :
    Meets (setManyOne x weight)
        (fun c p => OrderKept c (setManyOne x weight c p) (writtenKey c weight p)) c ps ∧
      ∃ main' window', Admitting (ps.foldl (setManyOne x weight) c) main' window' := by
  induction ps generalizing c main window with
  | nil => exact ⟨trivial, main, window, h⟩
  | cons p ps ih =>
    have hone := h.setManyOne (x := x) weight p
    obtain ⟨main', window', h'⟩ := of_leaves hone
    obtain ⟨hrest, hlast⟩ := ih h'
    exact ⟨⟨h.orderKept hone, hrest⟩, hlast⟩

protected theorem step {ev : Event K V} (h : Admitting c main window) (hbasic : Basic (.event ev) = true)
    (hok : CandidateOk c ev) :
    MainOrder c (.event ev) ∧ ∃ main' window', Admitting (step c ev).1 main' window' := by
  have hall : ∀ {key : Option K} {c' : Cache K V}, Leaves (fun i => decide (c.key i = key)) main c' →
      OrderKept c c' key ∧ ∃ main' window', Admitting c' main' window' :=
    fun hleaves => ⟨h.orderKept hleaves, of_leaves hleaves⟩
  have hshrunk : ∀ {c' : Cache K V}, Shrunk main window c' →
      OrderKept c c' none ∧ ∃ main' window', Admitting c' main' window' :=
    fun hs => hall (h.leaves_none hs)
  cases ev with
  | set key value ttl weight now =>
    show OrderKept c (step c (.set key value ttl weight now)).1
      (accessedKey c (.set key value ttl weight now)) ∧ _
    simp only [accessedKey, step, set]
    cases hx : expiresAtOf (ttl.getD c.defaultTTL) now with
    | error e =>
      simp only [settleCall]
      exact hshrunk h.refl
    | ok x =>
      have hstore := h.store (k := key) (v := value) (x := x) weight
      simp only [settleCall]
      cases hstored : (PowerCache.store c key value x weight).2 with
      | true | false =>
        rw [hstored] at hstore
        exact hall hstore
  | setMany entries ttl weight now =>
    simp only [MainOrder, step, setMany]
    cases hx : expiresAtOf (ttl.getD .never) now with
    | error e =>
      simp only [settleCall, Except.map]
      exact ⟨by simp [Except.toOption], main, window, h⟩
    | ok x =>
      obtain ⟨hmeets, main', window', h'⟩ := h.setManyLoop (x := x) weight entries
      have hevict := h'.leaves_none h'.evictIfNeeded
      simp only [settleCall, Except.map]
      refine ⟨fun x' hx' => ?_, of_leaves hevict⟩
      obtain rfl : x = x' := by simpa [Except.toOption] using hx'
      exact ⟨hmeets, h'.orderKept hevict⟩
  | get key now => exact hall (h.get hok)
  | touch key ttl now => exact hall (h.touch hok)
  | delete key => exact hshrunk (h.delete hok)
  | evict n => exact hshrunk (h.evict n)
  | resize n m => exact hshrunk (h.resize n m)
  | cleanupExpiredUpTo maxScan now => exact hshrunk (h.cleanupExpiredUpTo hok)
  | peek _ _ | has _ _ _ | getMany _ _ | invalidate _ | getOrSetAsync _ _ _ | finishFetch _ _
  | entries _ => cases hbasic

theorem call {cl : Call K V} (h : Admitting c main window) (hbasic : Basic cl = true)
    (hok : CallOk c cl) : MainOrder c cl ∧ ∃ main' window', Admitting (call c cl) main' window' := by
  cases cl with
  | event ev => exact h.step hbasic hok
  | getOrSet _ _ _ _ _ _ _ | clear => cases hbasic

omit [DecidableEq K] in
theorem new {o : Options K V} (hnew : new o = .ok c) (hpol : o.policy = .lru)
    (hwindow : Windowed c.toConfig) : Admitting c [] [] := by
  have hheld := Held.new hnew (by simp [hpol])
  refine ⟨hheld.toReady, ⟨hheld.toListed, ⟨by simp, by simp, ?_⟩, hwindow, hheld.toReady.lru hwindow⟩, ?_⟩
  · obtain ⟨maxEntries, inflight, maxWeight, pool, rfl, -⟩ := new_eq_initial hnew
    simp [initial]
  · exact hwindow.fits_one.mono (by simp)

end Admitting

/-- In every run that takes no node out from under the eviction candidate the window is the end
of the list, the memo is what a walk finds, and main space keeps its order. -/
theorem window_kept {o : Options K V} {c : Cache K V} (hnew : new o = .ok c) (hpol : o.policy = .lru)
    (hwindow : Windowed c.toConfig) (cs : List (Call K V))
    (hok : Meets call (fun c cl => Basic cl = true ∧ CallOk c cl) c cs) :
    Always call WindowKept c cs ∧ Meets call MainOrder c cs := by
  have hstart : ∃ main window, Admitting c main window := ⟨[], [], .new hnew hpol hwindow⟩
  have hcall : ∀ (c : Cache K V) (cl : Call K V), (∃ main window, Admitting c main window) →
      Basic cl = true ∧ CallOk c cl → ∃ main window, Admitting (call c cl) main window := by
    rintro c cl ⟨main, window, h⟩ ⟨hbasic, hok⟩
    exact (h.call hbasic hok).2
  have hall := always_of_meets hcall hstart hok
  refine ⟨hall.mono fun _ ⟨_, _, h⟩ => h.kept, hok.imp hcall ?_ hstart⟩
  rintro c cl ⟨main, window, h⟩ ⟨hbasic, hok⟩
  exact (h.call hbasic hok).1

/-- A window of two in front of which there is room for six: entries come in, are used in both
parts, move on, are refused and go. -/
theorem window_kept_used :
    let sketch : List ℕ → Option ℕ → ℕ := fun keys key => key.elim 0 keys.count
    let o : Options ℕ ℕ := { maxEntries := some 8, admission := some sketch, windowSize := .size (some 2) }
    let c : Cache ℕ ℕ := initial o (some 8) 8 none (some 1000)
    let cs : List (Call ℕ ℕ) := [.event (.setMany [(1, 10), (2, 20), (3, 30), (4, 40), (5, 50)] none none 1),
      .event (.get 2 2), .event (.touch 5 none 3), .event (.delete 4), .event (.set 6 60 none none 4),
      .event (.set 7 70 (some (.ms 5)) none 5), .event (.get 6 6), .event (.resize (some 4) none),
      .event (.set 8 80 none none 7), .event (.cleanupExpiredUpTo none 20), .event (.evict 1)]
    Always call WindowKept c cs ∧ Meets call MainOrder c cs := by
  intro sketch o c cs
  have hnew : new o = .ok c := rfl
  refine window_kept hnew rfl rfl cs ?_
  clear hnew
  subst sketch o c cs
  decide +kernel

/-- A full list of eight, and a key that was asked for no more often than the others: the oldest
node of the window is refused, and the candidate comes to the node behind it. That is deleted,
and `evict(1)` takes it for the head: the newest entry is in the window and in no list. -/
theorem deleted_candidate_loses_window :
    let sketch : List ℕ → Option ℕ → ℕ := fun keys key => key.elim 0 keys.count
    let o : Options ℕ ℕ := { maxEntries := some 8, admission := some sketch, windowSize := .size (some 2) }
    let c : Cache ℕ ℕ := initial o (some 8) 8 none (some 1000)
    let cs : List (Call ℕ ℕ) := [.event (.set 1 10 none none 1), .event (.set 2 20 none none 2),
      .event (.set 3 30 none none 3), .event (.set 4 40 none none 4), .event (.set 5 50 none none 5),
      .event (.set 6 60 none none 6), .event (.set 7 70 none none 7), .event (.set 8 80 none none 8),
      .event (.set 9 90 none none 9), .event (.delete 8), .event (.evict 1)]
    new o = .ok c ∧ (∀ cl ∈ cs, Basic cl = true) ∧
      ¬(Always call WindowKept c cs ∧ Meets call MainOrder c cs) := by
  intro sketch o c cs
  refine ⟨rfl, by decide, ?_⟩
  rintro ⟨h, -⟩
  have hfound := h.last.found 9
  have hget : (run call c cs).map.get 9 = some 8 := by
    clear hfound h
    subst sketch o c cs
    decide +kernel
  have hin : (run call c cs).inWindow 8 = true := by
    clear hfound h hget
    subst sketch o c cs
    decide +kernel
  have hmem := hfound 8 hget hin
  revert hmem
  clear hfound h hget hin
  subst sketch o c cs
  decide +kernel

end PerformanceHelpers.PowerCache
