import PerformanceHelpers.PowerCache.Removals

/- Incremental sweeps: `cleanupExpiredUpTo`.

   A sweep stands somewhere in the list (`SweepAt`): one call passes over as many nodes as
   it may, takes out those that have expired, and stands behind them, or in front of the
   list once it has come to the end. Two rounds of a list of `n` nodes, the first from
   where an earlier sweep stopped, take out whatever has expired. A call without a limit
   never comes to what is behind it. -/
namespace PerformanceHelpers.PowerCache

variable {K V : Type} {c c' : Cache K V} {xs l r : List ℕ} {i : ℕ} {now m : ℚ} {maxScan : Option ℚ}

def fresh (c : Cache K V) (now : ℚ) (i : ℕ) : Bool := !expiredAt c i now

theorem SameOn.filter_fresh (now : ℚ) {ys : List ℕ} (h : SameOn xs c.toFields c'.toFields) (hsub : ys ⊆ xs) :
    ys.filter (fresh c' now) = ys.filter (fresh c now) := by
  apply List.filter_congr
  intro i hi
  unfold fresh
  rw [h.expiredAt (hsub hi)]

/-- The next sweep starts from `r`, with `l` behind it. -/
structure SweepAt (c : Cache K V) (l r : List ℕ) : Prop where
  listed : Listed c (l ++ r)
  start : sweepStart c = r.head?
  wraps : r = [] → l = []

theorem Listed.sweepAt (h : Listed c xs) : ∃ l r, xs = l ++ r ∧ SweepAt c l r := by
  have hhead : SweepAt c [] xs ∨ ∃ i ∈ c.cleanupCursor, sweepStart c = some i := by
    cases hcursor : c.cleanupCursor with
    | none =>
      refine Or.inl ⟨h, ?_, fun _ => rfl⟩
      unfold sweepStart
      rw [hcursor, h.linked.head_eq]
      exact ite_self _
    | some i =>
      refine Or.inr ⟨i, rfl, ?_⟩
      unfold sweepStart
      rw [h.layout.shape.cursorValid, hcursor]
      rfl
  rcases hhead with hhead | ⟨i, hi, hstart⟩
  · exact ⟨[], xs, rfl, hhead⟩
  · obtain ⟨l, r, rfl⟩ := List.append_of_mem (h.layout.shape.cursor i hi)
    exact ⟨l, i :: r, rfl, h, hstart, by simp⟩

variable [DecidableEq K]

/-! ## One call -/

/-- The loop passes over `q`, and stops at the end of the list or at its limit. -/
protected theorem Listed.cleanupLoop (now : ℚ) (maxScan : Option ℚ) {turns : ℕ} (scanned : ℕ)
    (h : Listed c (l ++ r)) (hturns : r.length < turns) :
    ∃ q r', r = q ++ r' ∧
      Thinned c (l ++ r) (cleanupLoop now maxScan turns scanned r.head? c).1
        (l ++ q.filter (fresh c now) ++ r') ∧
      (cleanupLoop now maxScan turns scanned r.head? c).2.1 = r'.head? ∧
      (r' = [] ∨ ∃ m ∈ maxScan, m ≤ (scanned + q.length : ℕ)) := by
  induction r generalizing c l scanned turns with
  | nil =>
    cases turns with
    | zero => omega
    | succ turns =>
      refine ⟨[], [], rfl, ?_, rfl, Or.inl rfl⟩
      simpa [cleanupLoop] using Thinned.refl h
  | cons i r ih =>
    cases turns with
    | zero => omega
    | succ turns =>
      have hturns' : r.length < turns := by simpa using hturns
      simp only [List.head?_cons, cleanupLoop]
      split
      · have hnext : c.links.next i = r.head? := h.next_eq
        have hcount : ∀ q : List ℕ, scanned + 1 + q.length = scanned + (i :: q).length := by
          intro q
          rw [List.length_cons]
          omega
        rw [hnext]
        cases hexp : expiredAt c i now with
        | true =>
          have hgone := Thinned.removeExpiredNode h
          obtain ⟨q, r', rfl, hthin, hnode, hstop⟩ := ih (scanned + 1) hgone.listed hturns'
          have hfilter : q.filter (fresh (removeExpiredNode c i) now) =
              (i :: q).filter (fresh c now) := by
            rw [List.filter_cons_of_neg (by simp [fresh, hexp])]
            apply hgone.entries.filter_fresh
            intro j hj
            simp [hj]
          rw [hfilter] at hthin
          refine ⟨i :: q, r', rfl, hgone.trans hthin, hnode, ?_⟩
          rw [← hcount]
          exact hstop
        | false =>
          have h' : Listed c (l ++ [i] ++ r) := by simpa using h
          obtain ⟨q, r', rfl, hthin, hnode, hstop⟩ := ih (scanned + 1) h' hturns'
          refine ⟨i :: q, r', rfl, ?_, hnode, ?_⟩
          · rw [List.filter_cons_of_pos (by simp [fresh, hexp])]
            simpa using hthin
          · rw [← hcount]
            exact hstop
      · next hfull =>
        refine ⟨[], i :: r, rfl, by simpa using Thinned.refl h, rfl, Or.inr ?_⟩
        cases hmax : maxScan with
        | none => simp [hmax] at hfull
        | some m =>
          rw [hmax] at hfull
          exact ⟨m, rfl, by simpa using hfull⟩

/-- A call passes over `q`. -/
theorem SweepAt.cleanup (maxScan : Option ℚ) (now : ℚ) (h : SweepAt c l r) : ∃ q r', r = q ++ r' ∧
    Thinned c (l ++ r) (cleanupExpiredUpTo c maxScan now).1 (l ++ q.filter (fresh c now) ++ r') ∧
    (r' = [] → SweepAt (cleanupExpiredUpTo c maxScan now).1 [] (l ++ q.filter (fresh c now))) ∧
    (r' ≠ [] → SweepAt (cleanupExpiredUpTo c maxScan now).1 (l ++ q.filter (fresh c now)) r' ∧
      ∃ m ∈ maxScan, m ≤ q.length) := by
  have hturns : r.length < c.nextNode + 1 := by
    have hlen := h.listed.length_le
    rw [List.length_append] at hlen
    omega
  obtain ⟨q, r', rfl, hthin, hnode, hstop⟩ :=
    h.listed.cleanupLoop now maxScan 0 hturns
  rw [← h.start] at hthin hnode
  have hcall : (cleanupExpiredUpTo c maxScan now).1 =
      { (cleanupLoop now maxScan (c.nextNode + 1) 0 (sweepStart c) c).1 with
        cleanupCursor := (cleanupLoop now maxScan (c.nextNode + 1) 0 (sweepStart c) c).2.1 <|>
          (cleanupLoop now maxScan (c.nextNode + 1) 0 (sweepStart c) c).1.main.head
        cleanupCursorValid := ((cleanupLoop now maxScan (c.nextNode + 1) 0 (sweepStart c) c).2.1 <|>
          (cleanupLoop now maxScan (c.nextNode + 1) 0 (sweepStart c) c).1.main.head).isSome } := rfl
  have hcursor : ((cleanupLoop now maxScan (c.nextNode + 1) 0 (sweepStart c) c).2.1 <|>
      (cleanupLoop now maxScan (c.nextNode + 1) 0 (sweepStart c) c).1.main.head) =
      (r'.head? <|> (l ++ q.filter (fresh c now) ++ r').head?) := by
    rw [hnode, hthin.listed.linked.head_eq]
  rw [hcursor] at hcall
  generalize (cleanupLoop now maxScan (c.nextNode + 1) 0 (sweepStart c) c).1 = c₁ at hthin hcall
  have hlisted : Listed (cleanupExpiredUpTo c maxScan now).1 (l ++ q.filter (fresh c now) ++ r') := by
    rw [hcall]
    apply hthin.listed.setCursor
    intro i hi
    cases r' with
    | nil => exact List.mem_of_head? hi
    | cons j r' =>
      obtain rfl : j = i := Option.some.inj hi
      simp
  have hstart : sweepStart (cleanupExpiredUpTo c maxScan now).1 =
      (r'.head? <|> (l ++ q.filter (fresh c now) ++ r').head?) := by
    have hhead : (cleanupExpiredUpTo c maxScan now).1.main.head =
        (l ++ q.filter (fresh c now) ++ r').head? := hlisted.linked.head_eq
    unfold sweepStart
    rw [hhead]
    rw [hcall]
    cases r' with
    | nil => cases hhd : (l ++ q.filter (fresh c now) ++ []).head? <;> rfl
    | cons j r' => rfl
  refine ⟨q, r', rfl, ⟨hlisted, hthin.sublist, ?_, ?_⟩, ?_, ?_⟩
  · rw [hcall]
    exact hthin.config
  · rw [hcall]
    exact hthin.entries
  · rintro rfl
    rw [List.append_nil] at hlisted hstart
    exact ⟨hlisted, hstart, fun _ => rfl⟩
  · intro hr
    refine ⟨⟨hlisted, ?_, fun hnil => absurd hnil hr⟩, ?_⟩
    · rw [hstart]
      obtain ⟨j, r', rfl⟩ := List.exists_cons_of_ne_nil hr
      rfl
    · obtain ⟨m, hm, hle⟩ := hstop.resolve_left hr
      exact ⟨m, hm, by simpa using hle⟩

/-! ## Rounds -/

/-- `n` calls, at one reading. -/
def sweeps (maxScan : Option ℚ) (now : ℚ) (n : ℕ) (c : Cache K V) : Cache K V :=
  (fun c => (cleanupExpiredUpTo c maxScan now).1)^[n] c

theorem sweeps_succ (n : ℕ) : sweeps maxScan now (n + 1) c =
    sweeps maxScan now n (cleanupExpiredUpTo c maxScan now).1 := Function.iterate_succ_apply _ _ _

theorem sweeps_add (n n' : ℕ) :
    sweeps maxScan now (n + n') c = sweeps maxScan now n (sweeps maxScan now n' c) :=
  Function.iterate_add_apply _ _ _ _

namespace SweepAt

/-- What has not expired stays, however many calls there are. -/
protected theorem sweeps (maxScan : Option ℚ) (now : ℚ) (h : SweepAt c l r) (n : ℕ) : ∃ l' r', SweepAt (sweeps maxScan now n c) l' r' ∧
    Thinned c (l ++ r) (sweeps maxScan now n c) (l' ++ r') ∧
    (l' ++ r').filter (fresh c now) = (l ++ r).filter (fresh c now) := by
  induction n generalizing c l r with
  | zero => exact ⟨l, r, h, .refl h.listed, rfl⟩
  | succ n ih =>
    obtain ⟨q, r', rfl, hthin, hend, hrest⟩ := h.cleanup maxScan now
    obtain ⟨l₁, r₁, hat, hlist⟩ : ∃ l₁ r₁, SweepAt (cleanupExpiredUpTo c maxScan now).1 l₁ r₁ ∧
        l₁ ++ r₁ = l ++ q.filter (fresh c now) ++ r' := by
      by_cases hr : r' = []
      · exact ⟨[], _, hend hr, by simp [hr]⟩
      · exact ⟨_, r', (hrest hr).1, rfl⟩
    rw [← hlist] at hthin
    obtain ⟨l₂, r₂, hat', hthin', hkept⟩ := ih hat
    rw [sweeps_succ]
    refine ⟨l₂, r₂, hat', hthin.trans hthin', ?_⟩
    have hsame := hthin.entries.filter_fresh now hthin'.sublist.subset
    rw [← hsame, hkept, hthin.entries.filter_fresh now (List.Subset.refl _), hlist]
    simp

/-- Calls that pass over `k` nodes each come to the end of `r`. -/
theorem round (now : ℚ) {k : ℕ} (h : SweepAt c l r) (hk : ∀ q : ℕ, (∃ m ∈ maxScan, m ≤ q) → k ≤ q) (n : ℕ)
    (hlen : r.length ≤ n * k) :
    ∃ n' ≤ n, SweepAt (sweeps maxScan now n' c) [] (l ++ r.filter (fresh c now)) ∧
      Thinned c (l ++ r) (sweeps maxScan now n' c) (l ++ r.filter (fresh c now)) := by
  induction n generalizing c l r with
  | zero =>
    obtain rfl : r = [] := List.eq_nil_of_length_eq_zero (by omega)
    obtain rfl := h.wraps rfl
    exact ⟨0, le_rfl, h, .refl h.listed⟩
  | succ n ih =>
    obtain ⟨q, r', rfl, hthin, hend, hrest⟩ := h.cleanup maxScan now
    by_cases hr : r' = []
    · subst hr
      simp only [List.append_nil] at hthin ⊢
      exact ⟨1, by omega, hend rfl, hthin⟩
    · obtain ⟨hat, hle⟩ := hrest hr
      have hpassed : k ≤ q.length := hk q.length hle
      have hlen' : r'.length ≤ n * k := by
        rw [List.length_append, Nat.succ_mul] at hlen
        omega
      obtain ⟨n', hn, hat', hthin'⟩ := ih hat hlen'
      have hsame : r'.filter (fresh (cleanupExpiredUpTo c maxScan now).1 now) =
          r'.filter (fresh c now) :=
        hthin.entries.filter_fresh now (List.subset_append_right _ _)
      have hlist : l ++ q.filter (fresh c now) ++ r'.filter (fresh c now) =
          l ++ (q ++ r').filter (fresh c now) := by
        rw [List.filter_append, List.append_assoc]
      rw [hsame, hlist] at hat' hthin'
      refine ⟨n' + 1, by omega, ?_, ?_⟩
      · rw [sweeps_succ]
        exact hat'
      · rw [sweeps_succ]
        exact hthin.trans hthin'

/-- Two rounds take out whatever has expired. -/
theorem rounds (now : ℚ) {k : ℕ} (h : SweepAt c l r) (hk : ∀ q : ℕ, (∃ m ∈ maxScan, m ≤ q) → k ≤ q) (n : ℕ)
    (hlen : (l ++ r).length ≤ n * k) : ∃ n' ≤ 2 * n,
      SweepAt (sweeps maxScan now n' c) [] ((l ++ r).filter (fresh c now)) ∧
        Thinned c (l ++ r) (sweeps maxScan now n' c) ((l ++ r).filter (fresh c now)) := by
  have hright : r.length ≤ n * k := le_trans (by simp) hlen
  obtain ⟨n₁, hn₁, hat, hthin⟩ := h.round now hk n hright
  have hshort : (l ++ r.filter (fresh c now)).length ≤ n * k :=
    hthin.sublist.length_le.trans hlen
  obtain ⟨n₂, hn₂, hat', hthin'⟩ := hat.round now hk n hshort
  have hlist : (l ++ r.filter (fresh c now)).filter
      (fresh (sweeps maxScan now n₁ c) now) = (l ++ r).filter (fresh c now) := by
    rw [hthin.entries.filter_fresh now (List.Subset.refl _)]
    simp
  rw [List.nil_append, hlist] at hat' hthin'
  refine ⟨n₂ + n₁, by omega, ?_, ?_⟩
  · rw [sweeps_add]
    exact hat'
  · rw [sweeps_add]
    exact hthin.trans hthin'

end SweepAt

/-! ## Whole sweeps -/

/-- What had not expired in `c` is in `c'` as it was. -/
def Spares (c c' : Cache K V) (now : ℚ) : Prop :=
  ∀ k i, c.map.get k = some i → expiredAt c i now = false →
    c'.map.get k = some i ∧ SameOn [i] c.toFields c'.toFields

/-- The entries of `c'` are those of `c` that had not expired. -/
def Cleaned (c c' : Cache K V) (now : ℚ) : Prop :=
  ∀ k i, c'.map.get k = some i ↔ c.map.get k = some i ∧ expiredAt c i now = false

/-- The calls in which a sweep is complete: `2 * ceil(size / maxScan) + 1`. -/
def sweepCalls (c : Cache K V) (maxScan : Option ℚ) : ℕ :=
  maxScan.elim 1 fun m => 2 * ⌈(c.map.size : ℚ) / m⌉₊ + 1

/-- Calls with nothing in between take out what has expired, and nothing else. -/
structure SweepsComplete (c : Cache K V) (maxScan : Option ℚ) (now : ℚ) : Prop where
  spares : ∀ n, Spares c (sweeps maxScan now n c) now
  cleans : ∀ n, sweepCalls c maxScan ≤ n → Cleaned c (sweeps maxScan now n c) now

/-- What a call without a limit passes over is all there is to take out. -/
def SweepReaches (c : Cache K V) (maxScan : Option ℚ) (now : ℚ) : Prop :=
  maxScan = none →
    ∀ i ∈ (nodes c).takeWhile fun i => decide (sweepStart c ≠ some i), expiredAt c i now = false

namespace SweepAt

omit [DecidableEq K] in
theorem behind (h : SweepAt c l r) :
    (nodes c).takeWhile (fun i => decide (sweepStart c ≠ some i)) = l := by
  have hnodes : nodes c = l ++ r := h.listed.linked.walk_next h.listed.length_le
  rw [hnodes, h.start]
  cases r with
  | nil => rw [h.wraps rfl]; rfl
  | cons j r =>
    have hnot : j ∉ l := fun hj => h.listed.notMem (List.mem_append_left r hj)
    have hall : ∀ i ∈ l, decide ((j :: r).head? ≠ some i) = true := by
      intro i hi
      have hne : j ≠ i := by
        rintro rfl
        exact hnot hi
      simpa using hne
    rw [List.takeWhile_append_of_pos hall, List.takeWhile_cons_of_neg (by simp), List.append_nil]

theorem spares (h : SweepAt c l r) (n : ℕ) : Spares c (sweeps maxScan now n c) now := by
  intro k i hi hfresh
  obtain ⟨l', r', -, hthin, hkept⟩ := h.sweeps maxScan now n
  have hmem : i ∈ (l' ++ r').filter (fresh c now) := by
    rw [hkept]
    exact List.mem_filter.mpr ⟨(h.listed.get_iff.mp hi).1, by simp [fresh, hfresh]⟩
  have hleft := (List.mem_filter.mp hmem).1
  exact ⟨(hthin.get_iff h.listed).mpr ⟨hi, hleft⟩, hthin.entries.mono (by simpa using hleft)⟩

/-- Once only fresh entries are left, further calls change nothing. -/
theorem cleaned {n' : ℕ} (h : SweepAt c l r) (hn : n' ≤ sweepCalls c maxScan)
    (hat : SweepAt (sweeps maxScan now n' c) [] ((l ++ r).filter (fresh c now)))
    (hthin : Thinned c (l ++ r) (sweeps maxScan now n' c) ((l ++ r).filter (fresh c now)))
    (n : ℕ) (hle : sweepCalls c maxScan ≤ n) : Cleaned c (sweeps maxScan now n c) now := by
  obtain ⟨d, rfl⟩ := Nat.exists_eq_add_of_le' (hn.trans hle)
  obtain ⟨l', r', -, hthin', hkept⟩ := hat.sweeps maxScan now d
  rw [List.nil_append] at hthin' hkept
  -- nothing is left to take out, so the rest is the same list
  have hall : (l ++ r).filter (fresh c now) = l' ++ r' := by
    apply List.Sublist.antisymm
    · have hsame := hthin.entries.filter_fresh now (List.Subset.refl _)
      rw [hsame, hthin.entries.filter_fresh now hthin'.sublist.subset, List.filter_filter] at hkept
      simp only [Bool.and_self] at hkept
      rw [← hkept]
      exact List.filter_sublist
    · exact hthin'.sublist
  have hall' : Thinned c (l ++ r) (sweeps maxScan now (d + n') c)
      ((l ++ r).filter (fresh c now)) := by
    rw [sweeps_add]
    rw [← hall] at hthin'
    exact hthin.trans hthin'
  intro k i
  rw [hall'.get_iff h.listed, List.mem_filter]
  constructor
  · rintro ⟨hi, -, hfresh⟩
    exact ⟨hi, by simpa [fresh] using hfresh⟩
  · rintro ⟨hi, hexp⟩
    exact ⟨hi, (h.listed.get_iff.mp hi).1, by simp [fresh, hexp]⟩

/-- With a limit a sweep is always complete, and without one when nothing behind it has
expired. -/
theorem complete_iff (h : SweepAt c l r) (hmax : ∀ m ∈ maxScan, 1 ≤ m) :
    SweepsComplete c maxScan now ↔ SweepReaches c maxScan now := by
  unfold SweepReaches
  rw [h.behind]
  cases maxScan with
  | none =>
    constructor
    · rintro hall - i hi
      obtain ⟨k, hk⟩ := h.listed.indexes.keyed i (by simp [hi])
      have hget : c.map.get k = some i := h.listed.get_iff.mpr ⟨by simp [hi], hk⟩
      obtain ⟨q, r', rfl, hthin, -⟩ := h.cleanup none now
      have hleft : i ∈ l ++ q.filter (fresh c now) ++ r' := by simp [hi]
      have hfound : (sweeps none now 1 c).map.get k = some i :=
        (hthin.get_iff h.listed).mpr ⟨hget, hleft⟩
      exact ((hall.cleans 1 le_rfl k i).mp hfound).2
    · intro hbehind
      refine ⟨h.spares, ?_⟩
      have hpassed : ∀ q : ℕ, (∃ m ∈ (none : Option ℚ), m ≤ (q : ℚ)) → r.length ≤ q := by simp
      obtain ⟨n', hn, hat, hthin⟩ := h.round now hpassed 1 (by simp)
      have hlist : l ++ r.filter (fresh c now) = (l ++ r).filter (fresh c now) := by
        have hl : l.filter (fresh c now) = l := by
          apply List.filter_eq_self.mpr
          intro i hi
          simp [fresh, hbehind rfl i hi]
        rw [List.filter_append, hl]
      rw [hlist] at hat hthin
      exact h.cleaned hn hat hthin
  | some m =>
    refine ⟨fun _ hnone => by simp at hnone, fun _ => ⟨h.spares, ?_⟩⟩
    have hm : 1 ≤ m := hmax m rfl
    have hlen : (l ++ r).length ≤ ⌈(c.map.size : ℚ) / m⌉₊ * ⌈m⌉₊ := by
      have hsize : ((l ++ r).length : ℚ) = (c.map.size : ℚ) / m * m := by
        rw [div_mul_cancel₀ _ (by linarith), h.listed.size_eq]
      have hle : (c.map.size : ℚ) / m * m ≤ ⌈(c.map.size : ℚ) / m⌉₊ * ⌈m⌉₊ := by
        apply mul_le_mul (Nat.le_ceil _) (Nat.le_ceil _) (by linarith) (Nat.cast_nonneg _)
      rw [← hsize] at hle
      exact_mod_cast hle
    have hpassed : ∀ q : ℕ, (∃ m' ∈ some m, m' ≤ (q : ℚ)) → ⌈m⌉₊ ≤ q := by
      rintro q ⟨m', hm', hle⟩
      obtain rfl : m = m' := Option.some.inj hm'
      exact Nat.ceil_le.mpr hle
    obtain ⟨n', hn, hat, hthin⟩ := h.rounds now hpassed _ hlen
    have hcalls : n' ≤ sweepCalls c (some m) := by
      simp only [sweepCalls, Option.elim_some]
      omega
    exact h.cleaned hcalls hat hthin

end SweepAt

/-- In a run that takes no node out from under the eviction candidate, a sweep is complete
in every state, whatever its calls may pass over; but a single call without a limit passes
over nothing that is behind it. -/
theorem sweeps_complete {o : Options K V} {c : Cache K V} (hnew : new o = .ok c)
    (hpol : o.policy ≠ .s3fifo) (cs : List (Call K V)) (hok : Meets call CallOk c cs) :
    Always call (fun c => ∀ maxScan now, (∀ m ∈ maxScan, 1 ≤ m) →
      (SweepsComplete c maxScan now ↔ SweepReaches c maxScan now)) c cs := by
  have hstart : ∃ xs, Held c xs := ⟨[], Held.new hnew hpol⟩
  have hall : Always call (fun c => ∃ xs, Held c xs) c cs :=
    always_of_meets (fun _ _ ⟨_, h⟩ hok => h.call hok) hstart hok
  refine hall.mono fun c ⟨xs, h⟩ maxScan now hmax => ?_
  obtain ⟨l, r, rfl, hat⟩ := h.toListed.sweepAt
  exact hat.complete_iff hmax

/-- Values cost what they are, and two entries are left half way through a sweep. -/
theorem sweeps_complete_costs :
    let hook : ℕ → Option ℕ → Option ℕ → Cost := fun _ _ v =>
      v.map fun n => (((n : ℚ) : WithTop ℚ) : WithBot (WithTop ℚ))
    let o : Options ℕ ℕ := { maxEntries := some 3, missCost := some hook }
    let c : Cache ℕ ℕ := initial o (some 3) 3 none (some 1000)
    Always call (fun c => ∀ maxScan now, (∀ m ∈ maxScan, 1 ≤ m) →
      (SweepsComplete c maxScan now ↔ SweepReaches c maxScan now)) c
      [.event (.set 1 10 none none 1), .event (.set 2 5 (some (.ms 9)) none 2),
      .event (.set 3 30 none none 3), .event (.set 4 40 none none 4), .event (.get 3 5),
      .event (.cleanupExpiredUpTo (some 1) 9), .event (.set 5 1 (some (.ms 2)) none 6)] := by
  intro hook o c
  have hnew : new o = .ok c := rfl
  refine sweeps_complete hnew (by simp [o]) _ ?_
  clear hnew
  subst hook o c
  decide +kernel

/-- The candidate is on the node of a deleted entry, and the next eviction takes that for
the whole list: the two entries that are left have expired, and no sweep finds them. -/
theorem lost_list_is_not_swept :
    let hook : ℕ → Option ℕ → Option ℕ → Cost := fun _ _ v =>
      v.map fun n => (((n : ℚ) : WithTop ℚ) : WithBot (WithTop ℚ))
    let o : Options ℕ ℕ := { maxEntries := some 3, missCost := some hook }
    let c : Cache ℕ ℕ := initial o (some 3) 3 none (some 1000)
    new o = .ok c ∧ ¬Always call (fun c => ∀ maxScan now, (∀ m ∈ maxScan, 1 ≤ m) →
      SweepsComplete c maxScan now) c
      [.event (.set 1 10 (some (.ms 9)) none 1), .event (.set 2 5 none none 2),
      .event (.set 3 30 none none 3), .event (.set 4 40 (some (.ms 9)) none 4),
      .event (.delete 3), .event (.evict 1)] := by
  refine ⟨rfl, fun h => ?_⟩
  have hcleaned := (h.last (some 1) 20 (by simp)).cleans 5 (by decide +kernel) 1 0
  have hexpired := (hcleaned.mp (by decide +kernel)).2
  revert hexpired
  decide +kernel

end PerformanceHelpers.PowerCache
