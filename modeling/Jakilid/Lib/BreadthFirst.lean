import Mathlib

/-!
# First-in first-out search for a nearest goal

A queue of nodes with their depths is worked off from its front; the successors of a node go to
its end, one step deeper. Nodes may be visited many times, there is a limit on the depth, and a
node is `Done` when it has been looked at in vain.

Two invariants carry every such search. The queue `Covers` what is still to be looked at, and
its depths are `Layered`. When a node is taken from the front, all nodes nearer to the starts
are done (`Covers.done_of_lt`), so that the path to a first goal is a shortest one and passes
no node twice (`nodup_of_shortest`). How long the queue gets before it reaches a depth is bounded
by its `forecast`.
-/

namespace BreadthFirst

variable {N : Type} {Step : N → N → Prop} {Done starts : N → Prop} {limit : ℕ}

/-! ## Walks -/

/-- There is a walk of `n` steps from one node to another. -/
inductive Walk (Step : N → N → Prop) : ℕ → N → N → Prop
  | refl (a : N) : Walk Step 0 a a
  | head {a b c : N} {n : ℕ} (hab : Step a b) (hbc : Walk Step n b c) : Walk Step (n + 1) a c

/-- A list of nodes along the steps is a walk to its last node. -/
lemma walk_of_isChain {a : N} {l : List N} (h : List.IsChain Step (a :: l)) :
    Walk Step l.length a ((a :: l).getLast (List.cons_ne_nil a l)) := by
  induction l generalizing a with
  | nil => exact .refl a
  | cons b l ih =>
    rw [List.isChain_cons_cons] at h
    rw [List.getLast_cons_cons]
    exact .head h.1 (ih h.2)

/-- If every node nearer than the last one is done and the last one is not, the walk passes no
node twice. -/
lemma nodup_of_shortest {a : N} {l : List N} (h : List.IsChain Step (a :: l))
    (hdone : ∀ k < l.length, ∀ b, Walk Step k a b → Done b)
    (hlast : ¬ Done ((a :: l).getLast (List.cons_ne_nil a l))) : (a :: l).Nodup := by
  induction l generalizing a with
  | nil => exact List.nodup_singleton a
  | cons b l ih =>
    rw [List.isChain_cons_cons] at h
    rw [List.getLast_cons_cons] at hlast
    refine List.nodup_cons.mpr ⟨fun hmem => ?_, ?_⟩
    · -- from a second occurrence of `a` the last node is nearer
      obtain ⟨l₁, l₂, hsplit⟩ := List.append_of_mem hmem
      have hchain : List.IsChain Step (a :: l₂) := by
        have := h.2
        rw [hsplit] at this
        exact this.right_of_append
      have hwalk := walk_of_isChain hchain
      have hlen : l₂.length < (b :: l).length := by
        rw [hsplit, List.length_append, List.length_cons]
        omega
      apply hlast
      have hsame : (b :: l).getLast (List.cons_ne_nil b l)
          = (a :: l₂).getLast (List.cons_ne_nil a l₂) := by
        simp only [hsplit, List.getLast_append_of_ne_nil _ (List.cons_ne_nil a l₂)]
      rw [hsame]
      exact hdone _ hlen _ hwalk
    · refine ih h.2 (fun k hk c hc => ?_) hlast
      exact hdone (k + 1) (by rw [List.length_cons]; omega) c (.head h.1 hc)

/-! ## The queue -/

/-- Every node within the limit is done or lies behind an item of the queue. -/
def Covers (Step : N → N → Prop) (Done starts : N → Prop) (limit : ℕ) (q : List (N × ℕ)) :
    Prop :=
  ∀ s b d, starts s → d ≤ limit → Walk Step d s b →
    Done b ∨ ∃ y ∈ q, y.2 ≤ d ∧ Walk Step (d - y.2) y.1 b

/-- The depths ascend along the queue, and span two layers at most. -/
def Layered (q : List (N × ℕ)) : Prop := q.Pairwise fun x y => x.2 ≤ y.2 ∧ y.2 ≤ x.2 + 1

/-- The queue a search starts with. -/
lemma covers_starts {q : List (N × ℕ)} (h : ∀ s, starts s → (s, 0) ∈ q) :
    Covers Step Done starts limit q :=
  fun s _ d hs _ hw => .inr ⟨(s, 0), h s hs, Nat.zero_le d, hw⟩

/-- The front node is done with, and its successors are appended. -/
lemma Covers.visit {x : N × ℕ} {q ys : List (N × ℕ)}
    (h : Covers Step Done starts limit (x :: q)) (hx : Done x.1)
    (hys : x.2 < limit → ∀ b, Step x.1 b → (b, x.2 + 1) ∈ ys) :
    Covers Step Done starts limit (q ++ ys) := by
  intro s b d hs hd hw
  rcases h s b d hs hd hw with hb | ⟨y, hy, hle, hwy⟩
  · exact .inl hb
  rcases List.mem_cons.mp hy with rfl | hy
  · generalize hn : d - y.2 = n at hwy
    cases hwy with
    | refl => exact .inl hx
    | @head _ c _ m hc hcb =>
      refine .inr ⟨(c, y.2 + 1), List.mem_append_right q (hys (by omega) c hc), ?_, ?_⟩
      · show y.2 + 1 ≤ d
        omega
      · have hm : d - (y.2 + 1) = m := by omega
        rw [hm]
        exact hcb
  · exact .inr ⟨y, List.mem_append_left ys hy, hle, hwy⟩

lemma Layered.visit {x : N × ℕ} {q ys : List (N × ℕ)} (h : Layered (x :: q))
    (hys : ∀ y ∈ ys, y.2 = x.2 + 1) : Layered (q ++ ys) := by
  obtain ⟨hx, hq⟩ := List.pairwise_cons.mp h
  refine List.pairwise_append.mpr ⟨hq, ?_, fun y hy z hz => ?_⟩
  · refine List.pairwise_of_forall_mem_list fun y hy z hz => ?_
    rw [hys y hy, hys z hz]
    omega
  · have := hx y hy
    rw [hys z hz]
    omega

/-- All nodes nearer than the front of the queue are done. -/
lemma Covers.done_of_lt {x : N × ℕ} {q : List (N × ℕ)}
    (h : Covers Step Done starts limit (x :: q)) (hq : Layered (x :: q)) {s b : N} {d : ℕ}
    (hs : starts s) (hd : d < x.2) (hlimit : d ≤ limit) (hw : Walk Step d s b) : Done b := by
  rcases h s b d hs hlimit hw with hb | ⟨y, hy, hle, -⟩
  · exact hb
  · have hxy : x.2 ≤ y.2 := by
      rcases List.mem_cons.mp hy with rfl | hy
      · exact le_rfl
      · exact ((List.pairwise_cons.mp hq).1 y hy).1
    omega

/-! ## How long the queue gets -/

/-- How many items of depth `k` there can still be in the queue, if an item leads to `m` others at
most. -/
def forecast (m k : ℕ) (q : List (N × ℕ)) : ℕ :=
  (q.map fun x => if x.2 ≤ k then m ^ (k - x.2) else 0).sum

/-- Working off an item keeps within the forecast. -/
lemma forecast_visit {m k : ℕ} {x : N × ℕ} {q ys : List (N × ℕ)} (hys : ∀ y ∈ ys, y.2 = x.2 + 1)
    (hlen : ys.length ≤ m) : forecast m k (q ++ ys) ≤ forecast m k (x :: q) := by
  have hnew : forecast m k ys ≤ if x.2 ≤ k then m ^ (k - x.2) else 0 := by
    by_cases hlt : x.2 < k
    · have hsame : ∀ n ∈ ys.map fun y => if y.2 ≤ k then m ^ (k - y.2) else 0,
          n ≤ m ^ (k - (x.2 + 1)) := by
        intro n hn
        obtain ⟨y, hy, rfl⟩ := List.mem_map.mp hn
        rw [hys y hy, if_pos (Nat.succ_le_of_lt hlt)]
      have hpow : m ^ (k - x.2) = m * m ^ (k - (x.2 + 1)) := by
        rw [← pow_succ', show k - (x.2 + 1) + 1 = k - x.2 by omega]
      rw [if_pos hlt.le, hpow]
      calc forecast m k ys
        _ ≤ (ys.map fun y => if y.2 ≤ k then m ^ (k - y.2) else 0).length
            • m ^ (k - (x.2 + 1)) := List.sum_le_card_nsmul _ _ hsame
        _ = ys.length * m ^ (k - (x.2 + 1)) := by rw [List.length_map, smul_eq_mul]
        _ ≤ m * m ^ (k - (x.2 + 1)) := Nat.mul_le_mul_right _ hlen
    · -- the new items are too deep to count
      have hzero : forecast m k ys = 0 := by
        refine List.sum_eq_zero fun n hn => ?_
        obtain ⟨y, hy, rfl⟩ := List.mem_map.mp hn
        rw [hys y hy, if_neg (by omega)]
      rw [hzero]
      exact Nat.zero_le _
  simp only [forecast, List.map_append, List.sum_append, List.map_cons, List.sum_cons] at hnew ⊢
  omega

/-- A queue that is longer than the forecast reaches deeper. -/
lemma exists_deeper {m k : ℕ} (hm : 0 < m) {q : List (N × ℕ)} (hq : forecast m k q < q.length) :
    ∃ y ∈ q, k < y.2 := by
  by_contra hnone
  push Not at hnone
  have hone : ∀ n ∈ q.map fun x => if x.2 ≤ k then m ^ (k - x.2) else 0, 1 ≤ n := by
    intro n hn
    obtain ⟨y, hy, rfl⟩ := List.mem_map.mp hn
    rw [if_pos (hnone y hy)]
    exact Nat.one_le_pow _ _ hm
  have hsum := List.card_nsmul_le_sum _ _ hone
  rw [List.length_map, smul_eq_mul, mul_one] at hsum
  exact absurd hq (not_lt_of_ge hsum)

end BreadthFirst
