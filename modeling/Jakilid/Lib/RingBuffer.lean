import Mathlib

/-!
# Ring buffers

A first-in first-out queue in an array of `n` places. The items lie from `first` up to `last`, which
both go round the array, and one place always stays free, so that equal indices mean that the queue
is empty. `Represents` says which queue a ring stands for; it determines what the tests of the
indices say and is kept by `push` and `pop`.
-/

structure RingBuffer (α : Type*) where
  slots : ℕ → α
  first : ℕ
  last : ℕ

namespace RingBuffer

variable {α : Type*} {n : ℕ} {r : RingBuffer α} {q : List α} {x : α}

/-- The place after the place `i`. -/
def next (n i : ℕ) : ℕ := (i + 1) % n

def push (n : ℕ) (r : RingBuffer α) (x : α) : RingBuffer α :=
  { r with slots := Function.update r.slots r.last x, last := next n r.last }

def front (r : RingBuffer α) : α := r.slots r.first

def pop (n : ℕ) (r : RingBuffer α) : RingBuffer α := { r with first := next n r.first }

/-- The ring stands for the queue, front first. -/
structure Represents (n : ℕ) (r : RingBuffer α) (q : List α) : Prop where
  first_lt : r.first < n
  last_eq : r.last = (r.first + q.length) % n
  length_lt : q.length < n
  item : ∀ i < q.length, q[i]? = some (r.slots ((r.first + i) % n))

/-- Less than `n` places on, no place comes twice. -/
lemma place_inj {f i j : ℕ} (hi : i < n) (hj : j < n) (h : (f + i) % n = (f + j) % n) : i = j := by
  have hmod : i % n = j % n := Nat.ModEq.add_left_cancel' f h
  rwa [Nat.mod_eq_of_lt hi, Nat.mod_eq_of_lt hj] at hmod

lemma next_place (f i : ℕ) : next n ((f + i) % n) = (f + (i + 1)) % n := by
  rw [next, Nat.mod_add_mod, Nat.add_assoc]

lemma represents_nil (hfirst : r.first < n) (hlast : r.last = r.first) : Represents n r [] where
  first_lt := hfirst
  last_eq := by rw [hlast, List.length_nil, Nat.add_zero, Nat.mod_eq_of_lt hfirst]
  length_lt := by
    rw [List.length_nil]
    omega
  item i hi := absurd hi (Nat.not_lt_zero i)

namespace Represents

lemma first_eq_last_iff (h : Represents n r q) : r.first = r.last ↔ q = [] := by
  have hfirst : r.first = (r.first + 0) % n := (Nat.mod_eq_of_lt h.first_lt).symm
  rw [h.last_eq, ← List.length_eq_zero_iff]
  constructor
  · intro heq
    rw [hfirst, Nat.mod_add_mod] at heq
    exact (place_inj (by have := h.first_lt; omega) h.length_lt heq).symm
  · intro hzero
    rw [hzero]
    exact hfirst

/-- The ring is full when one more item would fill all places. -/
lemma next_last_eq_first_iff (h : Represents n r q) :
    next n r.last = r.first ↔ n ≤ q.length + 1 := by
  have hfirst : r.first = (r.first + 0) % n := (Nat.mod_eq_of_lt h.first_lt).symm
  rw [h.last_eq, next_place]
  constructor
  · intro heq
    by_contra hlt
    rw [hfirst, Nat.mod_add_mod] at heq
    have := place_inj (Nat.lt_of_not_le hlt) (by have := h.first_lt; omega) heq
    omega
  · intro hle
    have hn : q.length + 1 = n := by
      have := h.length_lt
      omega
    rw [hn, Nat.add_mod_right, Nat.mod_eq_of_lt h.first_lt]

lemma push (h : Represents n r q) (x : α) (hroom : q.length + 1 < n) :
    Represents n (r.push n x) (q ++ [x]) where
  first_lt := h.first_lt
  last_eq := by
    show next n r.last = _
    rw [h.last_eq, next_place, List.length_append, List.length_singleton]
    rfl
  length_lt := by rwa [List.length_append, List.length_singleton]
  item i hi := by
    rw [List.length_append, List.length_singleton] at hi
    show _ = some (Function.update r.slots r.last x ((r.first + i) % n))
    by_cases hlast : i = q.length
    · rw [hlast, ← h.last_eq, Function.update_self, List.getElem?_concat_length]
    · have hlt : i < q.length := by omega
      have hne : (r.first + i) % n ≠ r.last := by
        rw [h.last_eq]
        exact fun heq => hlast (place_inj (hlt.trans h.length_lt) h.length_lt heq)
      rw [Function.update_of_ne hne, List.getElem?_append_left hlt]
      exact h.item i hlt

lemma front_eq (h : Represents n r (x :: q)) : r.front = x := by
  have hitem := h.item 0 (Nat.succ_pos _)
  rw [List.getElem?_cons_zero, Nat.add_zero, Nat.mod_eq_of_lt h.first_lt] at hitem
  exact (Option.some.inj hitem).symm

lemma pop (h : Represents n r (x :: q)) : Represents n (r.pop n) q where
  first_lt := Nat.mod_lt _ (by have := h.first_lt; omega)
  last_eq := by
    show r.last = ((r.first + 1) % n + q.length) % n
    rw [h.last_eq, List.length_cons, Nat.mod_add_mod]
    congr 1
    omega
  length_lt := (Nat.lt_succ_self _).trans h.length_lt
  item i hi := by
    have hitem := h.item (i + 1) (Nat.succ_lt_succ hi)
    rw [List.getElem?_cons_succ] at hitem
    show _ = some (r.slots (((r.first + 1) % n + i) % n))
    rw [hitem, Nat.mod_add_mod, Nat.add_assoc, Nat.add_comm 1 i]

end Represents

end RingBuffer
