import Mathlib

/-!
# Stores of items in numbered cells

A store is a function `P → Option E` from places to items: the view of a hash table, a slab or
a page that forgets how places are found. This file has the facts about such stores that do
not depend on how they are addressed:

* `Holds` and `Distinct`: which items a store holds, and that no two of them share a key;
* `Function.update` with an item or with `none` as the two elementary changes, and their effect
  on both;
* `count g c l`, the number of items in the cells of class `l`, for a classification `g` of the
  places (the part of the table one lock guards, say), and `card`, the number of all items;
* `Rearranges g`: a change that only permutes places inside their classes. Moving an item into
  a free cell is one, rearrangements compose, and everything above is invariant under them.
-/

namespace CellStore

variable {P E K L : Type}

/-- The store holds `e` in some cell. -/
def Holds (c : P → Option E) (e : E) : Prop := ∃ p, c p = some e

/-- No two cells hold items with the same key. -/
def Distinct (key : E → K) (c : P → Option E) : Prop :=
  ∀ p q e f, c p = some e → c q = some f → key e = key f → p = q

/-- The cells in use. -/
def occupied (c : P → Option E) : Set P := {p | c p ≠ none}

/-- The number of items in the cells of class `l`. -/
noncomputable def count (g : P → L) (c : P → Option E) (l : L) : ℕ :=
  {p | c p ≠ none ∧ g p = l}.ncard

/-- The number of items. -/
noncomputable def card (c : P → Option E) : ℕ := count (fun _ => ()) c ()

lemma holds_of_eq {c : P → Option E} {p : P} {e : E} (h : c p = some e) : Holds c e := ⟨p, h⟩

/-- With distinct keys, items with one key are one item. -/
lemma Distinct.eq_of_holds {key : E → K} {c : P → Option E} (hd : Distinct key c) {e f : E}
    (he : Holds c e) (hf : Holds c f) (hk : key e = key f) : e = f := by
  obtain ⟨p, hp⟩ := he
  obtain ⟨q, hq⟩ := hf
  obtain rfl := hd p q e f hp hq hk
  exact Option.some.inj (hp.symm.trans hq)

/-! ## Filling a cell -/

section Update

variable [DecidableEq P] {c : P → Option E} {p : P} {e : E}

/-- Filling a free cell adds one item. -/
lemma holds_update_some (hp : c p = none) (f : E) :
    Holds (Function.update c p (some e)) f ↔ f = e ∨ Holds c f := by
  constructor
  · rintro ⟨q, hq⟩
    by_cases h : q = p
    · rw [h, Function.update_self] at hq
      exact Or.inl (Option.some.inj hq).symm
    · rw [Function.update_of_ne h] at hq
      exact Or.inr ⟨q, hq⟩
  · rintro (rfl | ⟨q, hq⟩)
    · exact ⟨p, Function.update_self ..⟩
    · have hne : q ≠ p := by
        rintro rfl
        rw [hp] at hq
        cases hq
      exact ⟨q, by rw [Function.update_of_ne hne]; exact hq⟩

/-- A key that is not in the store may be put anywhere. -/
lemma Distinct.update_some {key : E → K} (hd : Distinct key c)
    (hfresh : ∀ q f, q ≠ p → c q = some f → key f ≠ key e) :
    Distinct key (Function.update c p (some e)) := by
  intro q r f f' hq hr hk
  by_cases hqp : q = p <;> by_cases hrp : r = p
  · rw [hqp, hrp]
  · rw [hqp, Function.update_self] at hq
    rw [Function.update_of_ne hrp] at hr
    rw [← Option.some.inj hq] at hk
    exact absurd hk.symm (hfresh r f' hrp hr)
  · rw [Function.update_of_ne hqp] at hq
    rw [hrp, Function.update_self] at hr
    rw [← Option.some.inj hr] at hk
    exact absurd hk (hfresh q f hqp hq)
  · rw [Function.update_of_ne hqp] at hq
    rw [Function.update_of_ne hrp] at hr
    exact hd q r f f' hq hr hk

lemma finite_occupied_update_some (hfin : (occupied c).Finite) :
    (occupied (Function.update c p (some e))).Finite := by
  refine (hfin.insert p).subset fun q hq => ?_
  by_cases h : q = p
  · exact Or.inl h
  · exact Or.inr (by simpa [occupied, Function.update_of_ne h] using hq)

lemma count_update_some [DecidableEq L] (g : P → L) (hfin : (occupied c).Finite)
    (hp : c p = none) (l : L) :
    count g (Function.update c p (some e)) l = count g c l + if g p = l then 1 else 0 := by
  rw [count, count]
  by_cases hl : g p = l
  · have hset : {q | Function.update c p (some e) q ≠ none ∧ g q = l}
        = insert p {q | c q ≠ none ∧ g q = l} := by
      ext q
      by_cases h : q = p
      · subst h; simp [hl]
      · simp [h]
    have hnot : p ∉ {q | c q ≠ none ∧ g q = l} := fun h => h.1 hp
    rw [hset, Set.ncard_insert_of_notMem hnot (hfin.subset fun q hq => hq.1), if_pos hl]
  · have hset : {q | Function.update c p (some e) q ≠ none ∧ g q = l}
        = {q | c q ≠ none ∧ g q = l} := by
      ext q
      by_cases h : q = p
      · subst h; simp [hl]
      · simp [h]
    rw [hset, if_neg hl, Nat.add_zero]

/-! ## Replacing an item by one with the same key -/

lemma holds_replace {key : E → K} {e' : E} (hd : Distinct key c) (hp : c p = some e)
    (hk : key e' = key e) (f : E) :
    Holds (Function.update c p (some e')) f ↔ f = e' ∨ Holds c f ∧ key f ≠ key e := by
  constructor
  · rintro ⟨q, hq⟩
    by_cases h : q = p
    · rw [h, Function.update_self] at hq
      exact Or.inl (Option.some.inj hq).symm
    · rw [Function.update_of_ne h] at hq
      exact Or.inr ⟨⟨q, hq⟩, fun hkey => h (hd q p f e hq hp hkey)⟩
  · rintro (rfl | ⟨⟨q, hq⟩, hne⟩)
    · exact ⟨p, Function.update_self ..⟩
    · have hqp : q ≠ p := by
        rintro rfl
        rw [hp] at hq
        exact hne (congrArg key (Option.some.inj hq).symm)
      exact ⟨q, by rw [Function.update_of_ne hqp]; exact hq⟩

lemma occupied_replace (hp : c p = some e) (e' : E) :
    occupied (Function.update c p (some e')) = occupied c := by
  ext q
  by_cases h : q = p
  · subst h; simp [occupied, hp]
  · simp [occupied, h]

lemma count_replace (g : P → L) {e' : E} (hp : c p = some e) (l : L) :
    count g (Function.update c p (some e')) l = count g c l := by
  have hocc := occupied_replace hp e'
  rw [count, count]
  congr 1
  ext q
  exact and_congr_left fun _ => Set.ext_iff.mp hocc q

/-! ## Clearing a cell -/

/-- Clearing a cell removes the item with its key. -/
lemma holds_update_none {key : E → K} (hd : Distinct key c) (hp : c p = some e) (f : E) :
    Holds (Function.update c p none) f ↔ Holds c f ∧ key f ≠ key e := by
  constructor
  · rintro ⟨q, hq⟩
    by_cases h : q = p
    · rw [h, Function.update_self] at hq
      cases hq
    · rw [Function.update_of_ne h] at hq
      exact ⟨⟨q, hq⟩, fun hkey => h (hd q p f e hq hp hkey)⟩
  · rintro ⟨⟨q, hq⟩, hne⟩
    have hqp : q ≠ p := by
      rintro rfl
      rw [hp] at hq
      exact hne (congrArg key (Option.some.inj hq).symm)
    exact ⟨q, by rw [Function.update_of_ne hqp]; exact hq⟩

lemma Distinct.update_none {key : E → K} (hd : Distinct key c) :
    Distinct key (Function.update c p none) := by
  intro q r f f' hq hr hk
  have hqp : q ≠ p := by rintro rfl; rw [Function.update_self] at hq; cases hq
  have hrp : r ≠ p := by rintro rfl; rw [Function.update_self] at hr; cases hr
  rw [Function.update_of_ne hqp] at hq
  rw [Function.update_of_ne hrp] at hr
  exact hd q r f f' hq hr hk

lemma count_update_none [DecidableEq L] (g : P → L) (hfin : (occupied c).Finite)
    (hp : c p ≠ none) (l : L) :
    count g (Function.update c p none) l + (if g p = l then 1 else 0) = count g c l := by
  obtain ⟨e, he⟩ := Option.ne_none_iff_exists'.mp hp
  have hfin' : (occupied (Function.update c p none)).Finite :=
    hfin.subset fun q hq => by
      by_cases h : q = p
      · exact absurd (by rw [h, Function.update_self]) hq
      · simpa [occupied, Function.update_of_ne h] using hq
  have hfill := count_update_some (e := e) g hfin' (Function.update_self p none c) l
  rw [Function.update_idem, ← he, Function.update_eq_self] at hfill
  exact hfill.symm

/-! ## Moving an item -/

/-- Moving an item into a free cell moves one count from class to class. -/
lemma count_move [DecidableEq L] (g : P → L) (hfin : (occupied c).Finite) {q : P}
    (hp : c p = some e) (hq : c q = none) (l : L) :
    count g (Function.update (Function.update c q (c p)) p none) l
        + (if g p = l then 1 else 0)
      = count g c l + if g q = l then 1 else 0 := by
  have hpq : p ≠ q := by
    rintro rfl
    rw [hp] at hq
    cases hq
  have hfilled : Function.update c q (some e) p ≠ none := by
    rw [Function.update_of_ne hpq, hp]
    exact Option.some_ne_none e
  rw [hp, count_update_none g (finite_occupied_update_some hfin) hfilled l,
    count_update_some g hfin hq]

end Update

/-! ## Counting by class -/

/-- The items are the items of all classes together. -/
lemma card_eq_sum_count [DecidableEq L] (g : P → L) {c : P → Option E}
    (hfin : (occupied c).Finite) {s : Finset L} (hs : ∀ p, c p ≠ none → g p ∈ s) :
    card c = ∑ l ∈ s, count g c l := by
  classical
  have hcard : card c = hfin.toFinset.card := by
    rw [card, count, ← Set.ncard_coe_finset, hfin.coe_toFinset]
    simp [occupied]
  have hcount : ∀ l, count g c l = (hfin.toFinset.filter fun p => g p = l).card := by
    intro l
    rw [count, ← Set.ncard_coe_finset]
    congr 1
    ext p
    simp [occupied]
  rw [hcard, Finset.card_eq_sum_card_fiberwise (f := g) (t := s)
    fun p hp => hs p (by simpa [occupied] using hp)]
  exact Finset.sum_congr rfl fun l _ => (hcount l).symm

lemma card_eq_zero_iff {c : P → Option E} (hfin : (occupied c).Finite) :
    card c = 0 ↔ ∀ p, c p = none := by
  have hset : {p | c p ≠ none ∧ () = ()} = occupied c := by simp [occupied]
  rw [card, count, hset, Set.ncard_eq_zero hfin, Set.eq_empty_iff_forall_notMem]
  exact forall_congr' fun p => not_not

/-! ## Rearrangements -/

/-- `c'` holds the items of `c`, each in a cell of the class it was in. -/
def Rearranges (g : P → L) (c c' : P → Option E) : Prop :=
  ∃ σ : Equiv.Perm P, (∀ p, g (σ p) = g p) ∧ ∀ p, c' p = c (σ p)

namespace Rearranges

variable {g : P → L} {c c' c'' : P → Option E}

lemma refl (g : P → L) (c : P → Option E) : Rearranges g c c :=
  ⟨Equiv.refl P, fun _ => rfl, fun _ => rfl⟩

lemma trans (h : Rearranges g c c') (h' : Rearranges g c' c'') : Rearranges g c c'' := by
  obtain ⟨σ, hσ, hc⟩ := h
  obtain ⟨τ, hτ, hc'⟩ := h'
  exact ⟨τ.trans σ, fun p => (hσ (τ p)).trans (hτ p), fun p => (hc' p).trans (hc (τ p))⟩

/-- A rearrangement within classes is one within coarser classes. -/
lemma coarsen {M : Type} (f : L → M) (h : Rearranges g c c') :
    Rearranges (fun p => f (g p)) c c' := by
  obtain ⟨σ, hσ, hc⟩ := h
  exact ⟨σ, fun p => congrArg f (hσ p), hc⟩

lemma holds_iff (h : Rearranges g c c') (e : E) : Holds c' e ↔ Holds c e := by
  obtain ⟨σ, -, hc⟩ := h
  constructor
  · rintro ⟨p, hp⟩
    exact ⟨σ p, (hc p).symm.trans hp⟩
  · rintro ⟨p, hp⟩
    exact ⟨σ.symm p, by rw [hc, Equiv.apply_symm_apply]; exact hp⟩

lemma distinct {key : E → K} (h : Rearranges g c c') (hd : Distinct key c) :
    Distinct key c' := by
  obtain ⟨σ, -, hc⟩ := h
  intro p q e f hp hq hk
  exact σ.injective (hd _ _ e f ((hc p).symm.trans hp) ((hc q).symm.trans hq) hk)

lemma count_eq (h : Rearranges g c c') (l : L) : count g c' l = count g c l := by
  obtain ⟨σ, hσ, hc⟩ := h
  have himage : {p | c p ≠ none ∧ g p = l} = σ '' {p | c' p ≠ none ∧ g p = l} := by
    ext p
    rw [Equiv.image_eq_preimage_symm]
    have hp : c' (σ.symm p) = c p := by rw [hc, Equiv.apply_symm_apply]
    have hg : g (σ.symm p) = g p := by rw [← hσ, Equiv.apply_symm_apply]
    simp [hp, hg]
  rw [count, count, himage, Set.ncard_image_of_injective _ σ.injective]

end Rearranges

lemma card_eq_of_rearranges {g : P → L} {c c' : P → Option E} (h : Rearranges g c c') :
    card c' = card c :=
  (h.coarsen fun _ => ()).count_eq ()

/-- Moving an item into a free cell of its class. -/
lemma rearranges_move [DecidableEq P] {g : P → L} {c : P → Option E} {p q : P}
    (hq : c q = none) (hg : g p = g q) :
    Rearranges g c (Function.update (Function.update c q (c p)) p none) := by
  refine ⟨Equiv.swap p q, fun r => ?_, fun r => ?_⟩
  · by_cases hrp : r = p
    · rw [hrp, Equiv.swap_apply_left, hg]
    · by_cases hrq : r = q
      · rw [hrq, Equiv.swap_apply_right, hg]
      · rw [Equiv.swap_apply_of_ne_of_ne hrp hrq]
  · by_cases hrp : r = p
    · rw [hrp, Function.update_self, Equiv.swap_apply_left, hq]
    · rw [Function.update_of_ne hrp]
      by_cases hrq : r = q
      · rw [hrq, Function.update_self, Equiv.swap_apply_right]
      · rw [Function.update_of_ne hrq, Equiv.swap_apply_of_ne_of_ne hrp hrq]

end CellStore
