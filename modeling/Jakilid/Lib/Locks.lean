import Mathlib

/-!
# Locks and their owners

`owner l` is the thread that holds the lock `l`, `held T` the set of locks of a thread, and `Owns`
says that the two agree. Taking and giving back a lock keep that (`Owns.take`, `Owns.give`), and
from it follows mutual exclusion (`Owns.disjoint`).

Locks that are taken in ascending order cause no deadlock (`exists_not_stuck`): among the threads
that hold a lock there is always one that waits for none that is taken.
-/

namespace Locks

variable {L Th : Type*}

/-- A lock is owned by the thread that holds it, and by no other. -/
def Owns (owner : L → Option Th) (held : Th → Set L) : Prop :=
  ∀ l T, owner l = some T ↔ l ∈ held T

namespace Owns

variable {owner : L → Option Th} {held : Th → Set L}

/-- **Mutual exclusion.** -/
lemma disjoint (h : Owns owner held) {T T' : Th} (hne : T ≠ T') : Disjoint (held T) (held T') := by
  rw [Set.disjoint_left]
  intro l hl hl'
  have hT := (h l T).mpr hl
  rw [(h l T').mpr hl'] at hT
  exact hne (Option.some.inj hT).symm

/-- At the start nobody holds a lock. -/
lemma none : Owns (fun _ : L => Option.none) fun _ : Th => (∅ : Set L) :=
  fun _ _ => ⟨nofun, nofun⟩

variable [DecidableEq Th]

/-- A thread goes on with the locks it has. -/
lemma keep (h : Owns owner held) {T : Th} {s : Set L} (hs : s = held T) :
    Owns owner (Function.update held T s) := by
  rwa [hs, Function.update_eq_self]

variable [DecidableEq L]

/-- A thread takes a free lock. -/
lemma take (h : Owns owner held) {T : Th} {l : L} (hl : owner l = Option.none) {s : Set L}
    (hs : s = insert l (held T)) :
    Owns (Function.update owner l (some T)) (Function.update held T s) := by
  subst hs
  intro l' T'
  by_cases hT : T' = T
  · subst hT
    rw [Function.update_self, Set.mem_insert_iff, ← h l' T']
    by_cases hl' : l' = l
    · subst hl'
      simp
    · rw [Function.update_of_ne hl']
      simp [hl']
  · rw [Function.update_of_ne hT, ← h l' T']
    by_cases hl' : l' = l
    · subst hl'
      rw [Function.update_self, hl]
      simp [Ne.symm hT]
    · rw [Function.update_of_ne hl']

/-- A thread gives back a lock it has. -/
lemma give (h : Owns owner held) {T : Th} {l : L} (hl : l ∈ held T) {s : Set L}
    (hs : s = held T \ {l}) :
    Owns (Function.update owner l Option.none) (Function.update held T s) := by
  subst hs
  intro l' T'
  by_cases hT : T' = T
  · subst hT
    rw [Function.update_self, Set.mem_sdiff, ← h l' T', Set.mem_singleton_iff]
    by_cases hl' : l' = l
    · subst hl'
      simp
    · rw [Function.update_of_ne hl']
      simp [hl']
  · rw [Function.update_of_ne hT, ← h l' T']
    by_cases hl' : l' = l
    · subst hl'
      rw [Function.update_self, (h l' T).mpr hl]
      simp [Ne.symm hT]
    · rw [Function.update_of_ne hl']

end Owns

section Order

variable [PartialOrder L]

/-- A thread only waits for locks above all those it holds. -/
def Ascending (held : Th → Set L) (waits : Th → Option L) : Prop :=
  ∀ T l, waits T = some l → ∀ l' ∈ held T, l' < l

/-- The thread waits for a lock that is taken. -/
def Stuck (owner : L → Option Th) (waits : Th → Option L) (T : Th) : Prop :=
  ∃ l, waits T = some l ∧ owner l ≠ none

/-- **No deadlock.** If a thread waits for a lock that is taken, then some thread that holds a
lock does not. -/
theorem exists_not_stuck {owner : L → Option Th} {held : Th → Set L} {waits : Th → Option L}
    (hown : Owns owner held) (hasc : Ascending held waits)
    (hfin : {l | owner l ≠ none}.Finite) {T : Th} (hT : Stuck owner waits T) :
    ∃ T' l, l ∈ held T' ∧ ¬ Stuck owner waits T' := by
  obtain ⟨l, hwaits, hl⟩ := hT
  -- a maximal one of the locks that are both taken and waited for
  have hsub : {l | owner l ≠ none ∧ ∃ T, waits T = some l} ⊆ {l | owner l ≠ none} :=
    fun l hl => hl.1
  obtain ⟨m, hm⟩ := (hfin.subset hsub).exists_maximal ⟨l, hl, T, hwaits⟩
  obtain ⟨hmtaken, -⟩ := hm.prop
  obtain ⟨T', hT'⟩ := Option.ne_none_iff_exists'.mp hmtaken
  have hmheld : m ∈ held T' := (hown m T').mp hT'
  refine ⟨T', m, hmheld, ?_⟩
  rintro ⟨l', hwaits', hl'⟩
  have hlt : m < l' := hasc T' l' hwaits' m hmheld
  exact (hm.le_of_ge ⟨hl', T', hwaits'⟩ hlt.le).not_gt hlt

end Order

end Locks
