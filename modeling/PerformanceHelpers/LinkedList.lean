import Mathlib.Data.List.Nodup

/- Doubly linked lists in a heap whose fields are functions.

   `Links` are the `prev` and `next` fields of every node there is, and `Ends` the
   head and tail one list keeps. `Linked L e xs` says that the list between the
   ends `e` is `xs`. Several lists share one heap (`Chains`): what is done to one
   leaves the lists disjoint from it alone. -/
namespace PerformanceHelpers
open Function (update update_of_ne update_idem update_self)

variable {α β : Type*} [DecidableEq α]

/-- `if (p) p.field = v`. -/
def assign (field : α → β) (p : Option α) (v : β) : α → β :=
  match p with
  | none => field
  | some p => Function.update field p v

@[simp] theorem assign_none (field : α → β) (v : β) : assign field none v = field := rfl

@[simp] theorem assign_some (field : α → β) (p : α) (v : β) :
    assign field (some p) v = update field p v := rfl

theorem assign_of_ne {field : α → β} {p : Option α} {v : β} {i : α} (h : p ≠ some i) :
    assign field p v i = field i := by
  cases p with
  | none => rfl
  | some p => exact update_of_ne (fun heq => h (congrArg some heq.symm)) _ _

structure Links (α : Type*) where
  prev : α → Option α
  next : α → Option α

@[ext]
structure Ends (α : Type*) where
  head : Option α
  tail : Option α
  deriving DecidableEq

def attach (L : Links α) (e : Ends α) (i : α) : Links α × Ends α :=
  match e.tail with
  | none => (⟨L.prev, Function.update L.next i none⟩, ⟨some i, some i⟩)
  | some t =>
    (⟨Function.update L.prev i (some t),
      Function.update (Function.update L.next t (some i)) i none⟩, ⟨e.head, some i⟩)

def insertBetween (L : Links α) (p n : Option α) (i : α) : Links α :=
  ⟨assign (Function.update L.prev i p) n (some i), assign (Function.update L.next i n) p (some i)⟩

def detach (L : Links α) (e : Ends α) (i : α) : Links α × Ends α :=
  (⟨assign L.prev (L.next i) (L.prev i), assign L.next (L.prev i) (L.next i)⟩,
    ⟨if L.prev i = none then L.next i else e.head, if L.next i = none then L.prev i else e.tail⟩)

/-- `node.prev = node.next = null`. -/
def clearLinks (L : Links α) (i : α) : Links α :=
  ⟨Function.update L.prev i none, Function.update L.next i none⟩

/-- Detaching twice, from two pairs of ends, does to the links what the second does. -/
theorem detach_detach {L : Links α} {e e' : Ends α} {i : α} (hp : L.prev i ≠ some i)
    (hn : L.next i ≠ some i) :
    detach (detach L e i).1 e' i = detach L e' i := by
  have hprev : assign L.prev (L.next i) (L.prev i) i = L.prev i := assign_of_ne hn
  have hnext : assign L.next (L.prev i) (L.next i) i = L.next i := assign_of_ne hp
  simp only [detach, hprev, hnext, Prod.mk.injEq, Links.mk.injEq, and_true]
  constructor
  · cases L.next i with
    | none => rfl
    | some n => exact update_idem _ _ _
  · cases L.prev i with
    | none => rfl
    | some p => exact update_idem _ _ _

/-- The nodes from one on along a link: at most `turns` of them. -/
def walk (link : α → Option α) : ℕ → Option α → List α
  | 0, _ => []
  | _ + 1, none => []
  | turns + 1, some i => i :: walk link turns (link i)

/-- The nodes from `e.head` to `e.tail` are `xs`, linked both ways. -/
structure Linked (L : Links α) (e : Ends α) (xs : List α) : Prop where
  head_eq : e.head = xs.head?
  tail_eq : e.tail = xs.getLast?
  nodup : xs.Nodup
  links : ∀ l i r, xs = l ++ i :: r → L.prev i = l.getLast? ∧ L.next i = r.head?

namespace Linked

variable {L L' : Links α} {e e' : Ends α} {xs ys l r : List α} {i j : α}

section
omit [DecidableEq α]

theorem nil (L : Links α) : Linked L ⟨none, none⟩ [] :=
  ⟨rfl, rfl, List.nodup_nil, fun l i r h => by simp at h⟩

section
variable (h : Linked L e xs)
include h

/-- Only the links of its own nodes matter to a list. -/
theorem congr (hlinks : ∀ i ∈ xs, L'.prev i = L.prev i ∧ L'.next i = L.next i) :
    Linked L' e xs := by
  refine ⟨h.head_eq, h.tail_eq, h.nodup, fun l i r hxs => ?_⟩
  obtain ⟨hp, hn⟩ := hlinks i (by simp [hxs])
  rw [hp, hn]
  exact h.links l i r hxs

theorem head_none_iff : e.head = none ↔ xs = [] := by
  rw [h.head_eq, List.head?_eq_none_iff]

theorem tail_none_iff : e.tail = none ↔ xs = [] := by
  rw [h.tail_eq, List.getLast?_eq_none_iff]

theorem next_none_iff (hi : i ∈ xs) :
    L.next i = none ↔ e.tail = some i := by
  obtain ⟨l, r, rfl⟩ := List.append_of_mem hi
  rw [(h.links l i r rfl).2, List.head?_eq_none_iff, h.tail_eq]
  constructor
  · rintro rfl
    simp
  · intro htail
    rcases List.eq_nil_or_concat' r with rfl | ⟨r, x, rfl⟩
    · rfl
    · rw [← List.cons_append, ← List.append_assoc, List.getLast?_concat] at htail
      cases htail
      have hnd := h.nodup
      rw [List.nodup_append, List.nodup_cons] at hnd
      exact absurd (List.mem_append_right r List.mem_cons_self) hnd.2.1.1

theorem next_mem (hi : i ∈ xs) (hn : L.next i = some j) : j ∈ xs := by
  obtain ⟨l, r, rfl⟩ := List.append_of_mem hi
  rw [(h.links l i r rfl).2] at hn
  exact List.mem_append_right _ (List.mem_cons_of_mem _ (List.mem_of_head? hn))

theorem next_ne (hi : i ∈ xs) : L.next i ≠ some i := by
  obtain ⟨l, r, rfl⟩ := List.append_of_mem hi
  rw [(h.links l i r rfl).2]
  intro hn
  have hnd := (List.nodup_middle.mp h.nodup).notMem
  exact hnd (List.mem_append_right l (List.mem_of_head? hn))

theorem prev_ne (hi : i ∈ xs) : L.prev i ≠ some i := by
  obtain ⟨l, r, rfl⟩ := List.append_of_mem hi
  rw [(h.links l i r rfl).1]
  intro hp
  have hnd := (List.nodup_middle.mp h.nodup).notMem
  exact hnd (List.mem_append_left r (List.mem_of_getLast? hp))

theorem prev_mem (hi : i ∈ xs) (hp : L.prev i = some j) : j ∈ xs := by
  obtain ⟨l, r, rfl⟩ := List.append_of_mem hi
  rw [(h.links l i r rfl).1] at hp
  exact List.mem_append_left _ (List.mem_of_getLast? hp)

theorem reverse : Linked ⟨L.next, L.prev⟩ ⟨e.tail, e.head⟩ xs.reverse := by
  refine ⟨?_, ?_, List.nodup_reverse.mpr h.nodup, fun l i r hxs => ?_⟩
  · rw [h.tail_eq, List.head?_reverse]
  · rw [h.head_eq, List.getLast?_reverse]
  · have hxs' : xs = r.reverse ++ i :: l.reverse := by
      rw [← List.reverse_reverse xs, hxs]
      simp
    obtain ⟨hp, hn⟩ := h.links r.reverse i l.reverse hxs'
    refine ⟨hn.trans ?_, hp.trans ?_⟩ <;> simp

/-- From one of the nodes on a walk passes over the rest of the list. -/
theorem walk_suffix {n : ℕ} (hxs : xs = l ++ r) (hn : r.length ≤ n) :
    walk L.next n r.head? = r := by
  induction r generalizing l n with
  | nil => cases n <;> rfl
  | cons i r ih =>
    cases n with
    | zero => simp at hn
    | succ n =>
      have hnext := (h.links l i r hxs).2
      have hrest := ih (l := l ++ [i]) (by simp [hxs]) (Nat.le_of_succ_le_succ hn)
      rw [List.head?_cons, walk, hnext, hrest]

theorem walk_next {n : ℕ} (hn : xs.length ≤ n) : walk L.next n e.head = xs := by
  rw [h.head_eq]
  exact h.walk_suffix (l := []) rfl hn

theorem walk_prev {n : ℕ} (hn : xs.length ≤ n) :
    walk L.prev n e.tail = xs.reverse :=
  h.reverse.walk_next (by simpa using hn)

end

end

theorem attach (h : Linked L e xs) (hi : i ∉ xs) (hp : L.prev i = none) :
    Linked (attach L e i).1 (attach L e i).2 (xs ++ [i]) := by
  have hnd : (xs ++ [i]).Nodup := List.Nodup.append h.nodup (by simp) (by simpa using hi)
  unfold PerformanceHelpers.attach
  cases ht : e.tail with
  | none =>
    obtain rfl := h.tail_none_iff.mp ht
    refine ⟨by simp, by simp, hnd, fun l j r hxs => ?_⟩
    obtain ⟨rfl, rfl, rfl⟩ : l = [] ∧ i = j ∧ r = [] := by
      cases l <;> simp_all
    simp [hp]
  | some t =>
    refine ⟨?_, by simp, hnd, fun l j r hxs => ?_⟩
    · rw [h.head_eq]
      cases xs with
      | nil => simp [h.tail_none_iff.mpr rfl] at ht
      | cons x xs => simp
    rcases List.eq_nil_or_concat' r with rfl | ⟨r, x, rfl⟩
    · -- the new node
      obtain ⟨rfl, hj⟩ := List.append_inj' hxs rfl
      cases hj
      simp [← h.tail_eq, ht]
    · rw [← List.cons_append, ← List.append_assoc] at hxs
      obtain ⟨hold, hx⟩ := List.append_inj' hxs rfl
      cases hx
      clear hxs
      have hji : j ≠ i := fun heq => hi (by simp [hold, heq])
      obtain ⟨hpj, hnj⟩ := h.links l j r hold
      simp only [update_of_ne hji]
      refine ⟨hpj, ?_⟩
      cases r with
      | nil =>
        -- the old tail
        obtain rfl : t = j := by
          rw [h.tail_eq, hold] at ht
          simpa using ht.symm
        simp
      | cons y r =>
        have hne : j ≠ t := by
          rintro rfl
          rw [h.tail_eq, hold] at ht
          have hmem : j ∈ y :: r := List.mem_of_getLast? (by simpa using ht)
          have hnd := h.nodup
          rw [hold, List.nodup_append] at hnd
          exact (List.nodup_cons.mp hnd.2.1).1 hmem
        rw [update_of_ne hne, hnj]
        simp

theorem insertBetween (h : Linked L e (l ++ r)) (hi : i ∉ l ++ r)
    (hhead : e'.head = (l ++ i :: r).head?) (htail : e'.tail = (l ++ i :: r).getLast?) :
    Linked (insertBetween L l.getLast? r.head? i) e' (l ++ i :: r) := by
  have hnd := h.nodup
  have hil : i ∉ l := fun hmem => hi (List.mem_append_left r hmem)
  have hir : i ∉ r := fun hmem => hi (List.mem_append_right l hmem)
  refine ⟨hhead, htail, List.nodup_middle.mpr (List.nodup_cons.mpr ⟨hi, hnd⟩), fun l' j r' hxs => ?_⟩
  show assign (update L.prev i l.getLast?) r.head? (some i) j = l'.getLast? ∧
    assign (update L.next i r.head?) l.getLast? (some i) j = r'.head?
  have hhd : ∀ j, r.head? = some j → j ∈ r := fun j hj => List.mem_of_head? hj
  have hlast : ∀ j, l.getLast? = some j → j ∈ l := fun j hj => List.mem_of_getLast? hj
  rcases List.append_eq_append_iff.mp hxs with ⟨m, rfl, hm⟩ | ⟨m, rfl, hm⟩
  · cases m with
    | nil =>
      -- the new node
      obtain ⟨rfl, rfl⟩ := List.cons.inj hm
      rw [assign_of_ne fun heq => hir (hhd i heq), assign_of_ne fun heq => hil (hlast i heq)]
      simp
    | cons y m =>
      -- `j` is behind it
      rw [List.cons_append] at hm
      obtain ⟨rfl, rfl⟩ := List.cons.inj hm
      obtain ⟨hpj, hnj⟩ := h.links (l ++ m) j r' (by simp)
      have hji : j ≠ i := fun heq => hir (by simp [heq])
      have hjl : l.getLast? ≠ some j := fun heq =>
        List.disjoint_of_nodup_append hnd (hlast j heq) (by simp)
      rw [assign_of_ne hjl, update_of_ne hji, hnj]
      refine ⟨?_, rfl⟩
      cases m with
      | nil => simp
      | cons z m =>
        have hjz : z ≠ j := by
          rintro rfl
          exact absurd hnd (by simp [List.nodup_append])
        have hhead' : (z :: m ++ j :: r').head? ≠ some j := by simpa using hjz
        rw [assign_of_ne hhead', update_of_ne hji, hpj]
        simp
  · cases m with
    | nil =>
      obtain ⟨rfl, rfl⟩ := List.cons.inj hm
      rw [assign_of_ne fun heq => hir (hhd j heq), assign_of_ne fun heq => hil (by
        simpa using hlast j heq)]
      simp
    | cons y m =>
      -- `j` is before it
      rw [List.cons_append] at hm
      obtain ⟨rfl, rfl⟩ := List.cons.inj hm
      obtain ⟨hpj, hnj⟩ := h.links l' j (m ++ r) (by simp)
      have hji : j ≠ i := fun heq => hil (by simp [heq])
      have hjr : r.head? ≠ some j := fun heq =>
        List.disjoint_of_nodup_append hnd (by simp : j ∈ l' ++ j :: m) (hhd j heq)
      rw [assign_of_ne hjr, update_of_ne hji, hpj]
      refine ⟨rfl, ?_⟩
      rcases List.eq_nil_or_concat' m with rfl | ⟨m, z, rfl⟩
      · simp
      · have hjz : (l' ++ j :: (m ++ [z])).getLast? ≠ some j := by
          rw [← List.cons_append, ← List.append_assoc, List.getLast?_concat]
          intro heq
          cases heq
          exact absurd hnd (by simp [List.nodup_append])
        rw [assign_of_ne hjz, update_of_ne hji, hnj]
        cases m <;> simp

theorem attach_other (h : Linked L e xs) (h' : Linked L e' ys) (hi : i ∉ ys)
    (hd : ∀ j ∈ ys, j ∉ xs) : Linked (PerformanceHelpers.attach L e i).1 e' ys := by
  refine h'.congr fun j hj => ?_
  have hji : j ≠ i := fun heq => hi (heq ▸ hj)
  unfold PerformanceHelpers.attach
  cases ht : e.tail with
  | none => exact ⟨rfl, update_of_ne hji _ _⟩
  | some t =>
    have hjt : j ≠ t := by
      rintro rfl
      rw [h.tail_eq] at ht
      exact hd j hj (List.mem_of_getLast? ht)
    simp [update_of_ne hji, update_of_ne hjt]

theorem detach (h : Linked L e (l ++ i :: r)) :
    Linked (detach L e i).1 (detach L e i).2 (l ++ r) := by
  obtain ⟨hp, hn⟩ := h.links l i r rfl
  have hnd := h.nodup
  rw [List.nodup_append, List.nodup_cons] at hnd
  obtain ⟨hl, ⟨hir, hr⟩, hlr⟩ := hnd
  have hdisj : ∀ x ∈ l, x ∉ r := fun x hx hx' => hlr x hx x (List.mem_cons_of_mem _ hx') rfl
  simp only [PerformanceHelpers.detach]
  refine ⟨?_, ?_, ?_, fun l' j r' hxs => ?_⟩
  · rw [hp, hn, h.head_eq]
    cases l <;> simp
  · rw [hp, hn, h.tail_eq]
    cases r with
    | nil | cons y r => simp
  · exact List.nodup_append.mpr ⟨hl, hr, fun a ha b hb => hlr a ha b (List.mem_cons_of_mem _ hb)⟩
  · show assign L.prev (L.next i) (L.prev i) j = l'.getLast? ∧
      assign L.next (L.prev i) (L.next i) j = r'.head?
    rcases List.append_eq_append_iff.mp hxs with ⟨m, rfl, rfl⟩ | ⟨m, rfl, hm⟩
    · -- `j` is behind the removed node
      obtain ⟨hpj, hnj⟩ := h.links (l ++ i :: m) j r' (by simp)
      have hjl : L.prev i ≠ some j := by
        rw [hp]
        exact fun heq => hdisj j (List.mem_of_getLast? heq) (by simp)
      rw [assign_of_ne hjl]
      refine ⟨?_, hnj⟩
      cases m with
      | nil => simp [hn, hp]
      | cons y m =>
        have hjn : L.next i ≠ some j := by
          rw [hn]
          intro heq
          obtain rfl : y = j := by simpa using heq
          simp at hr
        rw [assign_of_ne hjn, hpj]
        simp
    · cases m with
      | nil =>
        -- `j` is the next node
        obtain rfl : r = j :: r' := by simpa using hm.symm
        obtain ⟨hpj, hnj⟩ := h.links (l' ++ [i]) j r' (by simp)
        have hjl : L.prev i ≠ some j := by
          rw [hp]
          exact fun heq => hdisj j (by simpa using List.mem_of_getLast? heq) (by simp)
        rw [assign_of_ne hjl]
        simp [hn, hp, hnj]
      | cons y m =>
        -- `j` is before it
        obtain ⟨rfl, hr'⟩ := List.cons.inj hm
        obtain ⟨hpj, hnj⟩ := h.links l' j (m ++ i :: r) (by simp)
        have hjn : L.next i ≠ some j := by
          rw [hn]
          exact fun heq => hdisj j (by simp) (List.mem_of_head? heq)
        rw [assign_of_ne hjn]
        refine ⟨hpj, ?_⟩
        rw [hr']
        rcases List.eq_nil_or_concat' m with rfl | ⟨m, x, rfl⟩
        · simp [hp, hn]
        · have hjl : L.prev i ≠ some j := by
            rw [hp]
            intro heq
            rw [← List.cons_append, ← List.append_assoc, List.getLast?_concat] at heq
            cases heq
            rw [List.nodup_append, List.nodup_cons] at hl
            exact hl.2.1.1 (by simp)
          rw [assign_of_ne hjl, hnj]
          cases m <;> simp

theorem insertBetween_other (hl : ∀ p ∈ l.getLast?, p ∈ xs)
    (hr : ∀ n ∈ r.head?, n ∈ xs) (h' : Linked L e' ys) (hi : i ∉ ys) (hd : ∀ j ∈ ys, j ∉ xs) :
    Linked (PerformanceHelpers.insertBetween L l.getLast? r.head? i) e' ys := by
  refine h'.congr fun j hj => ?_
  have hji : j ≠ i := fun heq => hi (heq ▸ hj)
  have hp : l.getLast? ≠ some j := fun heq => hd j hj (hl j heq)
  have hn : r.head? ≠ some j := fun heq => hd j hj (hr j heq)
  exact ⟨(assign_of_ne hn).trans (update_of_ne hji _ _),
    (assign_of_ne hp).trans (update_of_ne hji _ _)⟩

theorem detach_other (h : Linked L e xs) (hi : i ∈ xs) (h' : Linked L e' ys)
    (hd : ∀ j ∈ ys, j ∉ xs) : Linked (PerformanceHelpers.detach L e i).1 e' ys := by
  refine h'.congr fun j hj => ⟨assign_of_ne fun heq => ?_, assign_of_ne fun heq => ?_⟩
  · exact hd j hj (h.next_mem hi heq)
  · exact hd j hj (h.prev_mem hi heq)

theorem clearLinks (h : Linked L e xs) (hi : i ∉ xs) : Linked (clearLinks L i) e xs := by
  refine h.congr fun j hj => ?_
  have hji : j ≠ i := fun heq => hi (heq ▸ hj)
  exact ⟨update_of_ne hji _ _, update_of_ne hji _ _⟩

end Linked

/-- Disjoint lists in one heap, named by `κ`. -/
structure Chains {κ : Type*} (L : Links α) (e : κ → Ends α) (xs : κ → List α) : Prop where
  linked : ∀ k, Linked L (e k) (xs k)
  apart : ∀ k k' i, i ∈ xs k → i ∈ xs k' → k = k'

namespace Chains

variable {κ : Type*} [DecidableEq κ] {L : Links α} {e : κ → Ends α} {xs : κ → List α}
  {l r : List α} {i : α}

omit [DecidableEq κ] in
theorem clearLinks (h : Chains L e xs) (hi : ∀ k, i ∉ xs k) : Chains (clearLinks L i) e xs :=
  ⟨fun k => (h.linked k).clearLinks (hi k), h.apart⟩

theorem attach (h : Chains L e xs) (hi : ∀ k, i ∉ xs k) (hp : L.prev i = none) (k : κ) :
    Chains (attach L (e k) i).1 (update e k (attach L (e k) i).2)
      (update xs k (xs k ++ [i])) := by
  refine ⟨fun k' => ?_, fun k₁ k₂ j h₁ h₂ => ?_⟩
  · by_cases hk : k' = k
    · subst hk
      simpa using (h.linked k').attach (hi k') hp
    · simp only [update_of_ne hk]
      exact (h.linked k).attach_other (h.linked k') (hi k')
        fun j hj hj' => hk (h.apart k' k j hj hj')
  · have mem_iff : ∀ k' j, j ∈ update xs k (xs k ++ [i]) k' →
        j ∈ xs k' ∨ (k' = k ∧ j = i) := by
      intro k' j hj
      by_cases hk : k' = k
      · subst hk
        simpa using hj
      · exact Or.inl (by simpa [update_of_ne hk] using hj)
    rcases mem_iff k₁ j h₁ with hm₁ | ⟨he₁, hj₁⟩ <;> rcases mem_iff k₂ j h₂ with hm₂ | ⟨he₂, hj₂⟩
    · exact h.apart k₁ k₂ j hm₁ hm₂
    · exact absurd (hj₂ ▸ hm₁) (hi k₁)
    · exact absurd (hj₁ ▸ hm₂) (hi k₂)
    · exact he₁.trans he₂.symm

theorem insertBetween {k : κ} (h : Chains L e xs) (e' : Ends α) (hi : ∀ k, i ∉ xs k)
    (hk : xs k = l ++ r) (hhead : e'.head = (l ++ i :: r).head?)
    (htail : e'.tail = (l ++ i :: r).getLast?) :
    Chains (insertBetween L l.getLast? r.head? i) (update e k e')
      (update xs k (l ++ i :: r)) := by
  have hlinked := h.linked k
  rw [hk] at hlinked
  have hmem : ∀ k' j, j ∈ update xs k (l ++ i :: r) k' → j ∈ xs k' ∨ k' = k ∧ j = i := by
    intro k' j hj
    by_cases hk' : k' = k
    · subst hk'
      rw [update_self, List.mem_append, List.mem_cons] at hj
      rw [hk, List.mem_append]
      tauto
    · exact Or.inl (by simpa [update_of_ne hk'] using hj)
  refine ⟨fun k' => ?_, fun k₁ k₂ j h₁ h₂ => ?_⟩
  · by_cases hk' : k' = k
    · subst hk'
      simpa using hlinked.insertBetween (hk ▸ hi k') hhead htail
    · simp only [update_of_ne hk']
      have hl : ∀ p ∈ l.getLast?, p ∈ l ++ r := fun p hp =>
        List.mem_append_left r (List.mem_of_getLast? hp)
      have hr : ∀ n ∈ r.head?, n ∈ l ++ r := fun n hn =>
        List.mem_append_right l (List.mem_of_head? hn)
      exact Linked.insertBetween_other hl hr (h.linked k') (hi k')
        fun j hj hj' => hk' (h.apart k' k j hj (hk ▸ hj'))
  · rcases hmem k₁ j h₁ with hm₁ | ⟨he₁, hj₁⟩ <;> rcases hmem k₂ j h₂ with hm₂ | ⟨he₂, hj₂⟩
    · exact h.apart k₁ k₂ j hm₁ hm₂
    · exact absurd (hj₂ ▸ hm₁) (hi k₁)
    · exact absurd (hj₁ ▸ hm₂) (hi k₂)
    · exact he₁.trans he₂.symm

theorem detach (h : Chains L e xs) {k : κ} (hk : xs k = l ++ i :: r) :
    Chains (detach L (e k) i).1 (update e k (detach L (e k) i).2)
      (update xs k (l ++ r)) := by
  have hlinked := h.linked k
  rw [hk] at hlinked
  have hmem : ∀ k' j, j ∈ update xs k (l ++ r) k' → j ∈ xs k' := by
    intro k' j hj
    by_cases hk' : k' = k
    · subst hk'
      rw [hk]
      simp only [update_self, List.mem_append] at hj
      rcases hj with hj | hj <;> simp [hj]
    · simpa [update_of_ne hk'] using hj
  refine ⟨fun k' => ?_, fun k₁ k₂ j h₁ h₂ => h.apart k₁ k₂ j (hmem k₁ j h₁) (hmem k₂ j h₂)⟩
  by_cases hk' : k' = k
  · subst hk'
    simpa using hlinked.detach
  · simp only [update_of_ne hk']
    refine hlinked.detach_other (by simp) (h.linked k') fun j hj hj' => hk' (h.apart k' k j hj ?_)
    rwa [hk]

end Chains

end PerformanceHelpers
