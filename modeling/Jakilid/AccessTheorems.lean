import Jakilid.World
import Jakilid.Cuckoo.LinearizabilityTheorems

/-!
# The map operations of the calls, as operations of the table

`World` takes the operation of a call on its map for one step. That is what the table provides:
each such operation is an operation of the table with a functor (`Call.tableOp`), and what
`World` makes of the map is what the atomic object makes of its contents (`operation_apply`).
Together with `linearizable` this says that nothing is lost by taking it for one step.
-/

namespace Jakilid

open CellStore Cuckoo Cuckoo.Concurrent

/-- The operation of the table a call makes, with its functor. -/
def Call.tableOp (c : Call) (callback : Draw) (copyGranted : Bool) :
    Option (TableOp SharedString SharedString) :=
  match c.op, c.progress with
  | .insert _ value, .valued k v =>
    some (.upsert k (fun _ => internalSerialize value callback) v)
  | .find _, .keyed k =>
    some (.findFn k fun v => if copyGranted then .ok v else .error .badAlloc)
  | .contains _, .keyed k => some (.findFn k .ok)
  | .erase _, .keyed k => some (.eraseFn k fun v => .ok (v, true))
  | _, _ => none

/-- What a call makes of the response of the table. -/
def Op.result (op : Op) : Response SharedString → Result
  | .bool b => .bool b
  | .value v =>
    match op with
    | .contains _ => .bool v.isSome
    | _ => .raw v

/-! ## How an `upsert` fails -/

namespace Cuckoo.Table

variable {Key T : Type} [DecidableEq Key] {hash : Key → UInt64} {alloc : Allocator} {key : Key}

lemma cuckooInsertLoop_eq_error {fuel : ℕ} {t t' : Table Key T} {x : Exn}
    (h : cuckooInsertLoop hash alloc key fuel t = (t', .error x)) :
    x = .diverges ∨ x = .badAlloc ∨ x = .loadFactorTooLow := by
  induction fuel generalizing t with
  | zero => exact .inl (Except.error.inj (Prod.mk.inj h).2).symm
  | succ fuel ih =>
    rw [cuckooInsertLoop] at h
    split at h
    · cases h
    · cases h
    · exact .inl (Except.error.inj (Prod.mk.inj h).2).symm
    · next t₁ _ =>
      cases hdouble : t₁.cuckooFastDouble hash alloc with
      | ok t₂ =>
        rw [hdouble] at h
        exact ih h
      | error y =>
        rw [hdouble] at h
        obtain rfl := Except.error.inj (Prod.mk.inj h).2
        exact .inr (cuckooFastDouble_eq_error hdouble).symm

/-- An `upsert` of a new key fails for want of memory, or because the table is not full enough. -/
lemma WellFormed.upsert_eq_error {t : Table Key T} (h : t.WellFormed hash)
    {fn : T → Except Exn T} {val : T} {x : Exn} (hnone : t.find hash key = none)
    (hx : (t.upsert hash alloc key fn val).2 = .error x) :
    x = .badAlloc ∨ x = .loadFactorTooLow := by
  have hplaced := h.cuckooInsertLoop_spec alloc key doublingFuel t
    (Nat.le_add_right_of_le (by decide))
  rw [upsert] at hx
  cases hr : cuckooInsertLoop hash alloc key doublingFuel t with
  | mk t' r =>
    rw [hr] at hplaced hx
    cases hplaced with
    | free => cases hx
    | @found _ p e hrec hp hk =>
      have hsome : t.find hash key = some e.val :=
        (h.find_eq_some_iff _ _).mpr ⟨e, (hrec.holds_iff e).mp (holds_of_eq hp), hk, rfl⟩
      rw [hnone] at hsome
      cases hsome
    | failed hrec habs hne =>
      obtain rfl := Except.error.inj hx
      exact (cuckooInsertLoop_eq_error hr).resolve_left hne

end Cuckoo.Table

/-! ## The operations -/

variable {hash : SharedString → UInt64}

namespace HashMap

variable (m : HashMap hash) (k : SharedString)

lemma upsert_apply (alloc : Allocator) (fn : SharedString → Except Exn SharedString)
    (v : SharedString) (op : Op) :
    ∃ r, mapObject.apply m.find (.upsert k fn v) r (m.upsert alloc k fn v).1.find ∧
      (m.upsert alloc k fn v).2.map .bool = r.map op.result := by
  have hspec := m.upsert_spec alloc k fn v
  have herror : ∀ x, m.find k = none → (m.upsert alloc k fn v).2 = .error x →
      x = .badAlloc ∨ x = .loadFactorTooLow :=
    fun x hnone hx => m.wellFormed.upsert_eq_error hnone hx
  generalize (m.upsert alloc k fn v).1.find = m' at hspec ⊢
  generalize (m.upsert alloc k fn v).2 = r at hspec herror ⊢
  cases hspec with
  | inserted hnone =>
    refine ⟨.ok (.bool true), .inl ?_, rfl⟩
    simp only [TableOp.onMap, TableOp.key, hnone]
    rfl
  | updated hsome hfn =>
    refine ⟨.ok (.bool false), .inl ?_, rfl⟩
    simp only [TableOp.onMap, TableOp.key, hsome, TableOp.found, hfn]
  | @thrown w x hsome hfn =>
    refine ⟨.error x, .inl ?_, rfl⟩
    simp only [TableOp.onMap, TableOp.key, hsome, TableOp.found, hfn]
    rw [← hsome, Function.update_eq_self]
  | @failed x hnone hx =>
    refine ⟨.error x, .inr ⟨Option.some_ne_none v, rfl, ?_⟩, rfl⟩
    rcases herror x hnone rfl with rfl | rfl
    · exact .inl rfl
    · exact .inr rfl

/-- A functor that reads changes nothing. -/
lemma find_apply (fn : SharedString → Except Exn SharedString) :
    mapObject.apply m.find (.findFn k fn)
      (match m.find k with
      | some v => (fn v).map fun copy => .value (some copy)
      | none => .ok (.value none)) m.find := by
  refine .inl ?_
  simp only [TableOp.onMap, TableOp.key]
  cases hfind : m.find k with
  | none =>
    have hsame : Function.update m.find k none = m.find :=
      Function.update_eq_self_iff.mpr hfind.symm
    simp only [TableOp.missing, hsame]
  | some v =>
    have hsame : Function.update m.find k (some v) = m.find :=
      Function.update_eq_self_iff.mpr hfind.symm
    simp only [TableOp.found, hsame]

lemma erase_apply :
    mapObject.apply m.find (.eraseFn k fun v => .ok (v, true)) (.ok (.bool (m.erase k).2))
      (m.erase k).1.find := by
  refine .inl ?_
  rw [m.find_erase, m.erase_snd]
  simp only [TableOp.onMap, TableOp.key]
  cases m.find k <;> rfl

end HashMap

/-- **The access of a call is one step of the atomic object.** -/
theorem operation_apply {c : Call} {callback : Draw} {copyGranted : Bool} {alloc : Allocator}
    {f : HashMap hash → HashMap hash × Except Exn Result}
    (hf : c.operation callback copyGranted alloc = some f)
    {op : TableOp SharedString SharedString} (hop : c.tableOp callback copyGranted = some op)
    (m : HashMap hash) :
    ∃ r, mapObject.apply m.find op r (f m).1.find ∧ (f m).2 = r.map c.op.result := by
  unfold Call.operation at hf
  unfold Call.tableOp at hop
  split at hf <;> rename_i hcop hprogress
  · -- insert
    rw [hcop, hprogress] at hop
    obtain rfl := Option.some.inj hf
    obtain rfl := Option.some.inj hop
    exact m.upsert_apply _ alloc _ _ _
  · -- find
    rw [hcop, hprogress] at hop
    obtain rfl := Option.some.inj hf
    obtain rfl := Option.some.inj hop
    refine ⟨_, m.find_apply _ _, ?_⟩
    simp only [HashMap.copyOut, hcop]
    cases m.find _ with
    | none => rfl
    | some v => cases copyGranted <;> rfl
  · -- contains
    rw [hcop, hprogress] at hop
    obtain rfl := Option.some.inj hf
    obtain rfl := Option.some.inj hop
    refine ⟨_, m.find_apply _ _, ?_⟩
    simp only [m.contains_eq, hcop]
    cases m.find _ <;> rfl
  · -- erase
    rw [hcop, hprogress] at hop
    obtain rfl := Option.some.inj hf
    obtain rfl := Option.some.inj hop
    exact ⟨_, m.erase_apply _, rfl⟩
  · rw [hcop] at hop
    cases hop
  · rw [hcop] at hop
    cases hop
  · cases hf

/-- An `Erase` in the map of the constructor. -/
theorem operation_apply_create :
    ∃ r, mapObject.apply (HashMap.create : HashMap fun _ => 0).find
        (.eraseFn [1] fun v => .ok (v, true)) r
        ((HashMap.create : HashMap fun _ => 0).erase [1]).1.find ∧
      (.ok (.bool ((HashMap.create : HashMap fun _ => 0).erase [1]).2) : Except Exn Result)
        = r.map (Op.erase (.user [1])).result :=
  operation_apply
    (show (⟨0, [65], .erase (.user [1]), ⟨0, 0⟩, .keyed [1]⟩ : Call).operation ⟨true, 0⟩ true
      Supply.granting.alloc = some _ from rfl) rfl HashMap.create

end Jakilid
