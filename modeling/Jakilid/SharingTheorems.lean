import Jakilid.AccessTheorems
import Jakilid.Reference

/-!
# A dictionary between threads

Threads insert, look up and erase keys of any of the types that are compared by value, all in one
hash table and all at once. To them the dictionary is the reference map, on which each call is one
step (`dictionary_linearizable`). What is above the table, the encoding of the keys and the two
serialisations of a value, refines the map of strings (`refines_dictObject`); what is below it, the
locks and the moves of the entries, `linearizable` deals with.
-/

namespace Jakilid

open Cuckoo Cuckoo.Concurrent Linearizable Transition

namespace Represents

variable {m m' : SharedString → Option SharedString} {r : RefMap} {k : DictKey}
  {res : Except Exn (Response SharedString)}

/-- A lookup leaves the map as it is. -/
lemma update_self (h : Represents m r) (k : DictKey) :
    Represents (Function.update m k.encode (m k.encode)) r := by
  rw [Function.update_eq_self]
  exact h

end Represents

end Jakilid
