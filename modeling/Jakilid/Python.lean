import Jakilid.SharedDictTheorems

/-!
# The Python module

`py.cpp`: the overloads of `insert` and `find` and how one is chosen, and the dispatch of `find`
on the header of the stored value.

A Python `str` without surrogates is a `String`, which Lean keeps as its UTF-8 bytes too. What
pybind11 does with floating-point numbers is a parameter (`Pybind`): nothing below depends on it.
-/

namespace Jakilid

open Cuckoo

/-! ## Objects and converters -/

/-- The Python objects the module takes and returns. A `float` is the bits of a `double`. -/
inductive PyObject
  | none
  | int (n : ℤ)
  | float (x : BitVec 64)
  | str (s : String)

/-- How a Python call ends when it raises. -/
inductive PyError
  | typeError
  | unicodeDecodeError
  | exn (e : Exn)
  | decode (e : DecodeError)

/-- The conversions of floating-point numbers. -/
structure Pybind where
  /-- `py::float_(float)` -/
  ofFloat : BitVec 32 → BitVec 64
  /-- the converter of a Python `float` to a `float` -/
  toFloat : BitVec 64 → BitVec 32
  /-- the converter of a Python `int` to a `float`, which refuses an `int` that no `double` is
  near to -/
  intToFloat : ℤ → Option (BitVec 32)

/-- `python_types` -/
inductive PyType
  | int
  | float
  | string
deriving DecidableEq, Repr

@[reducible] def PyType.readable : PyType → Readable
  | .int => .signedInteger .int
  | .float => .real .float
  | .string => .stdString

def pythonTypes : List PyType := [.int, .float, .string]

/-- The UTF-8 bytes of a `str`. -/
def utf8 (s : String) : List UInt8 := s.toByteArray.data.toList

/-- `py::str(std::string)` -/
def pyStr (bytes : List UInt8) : Except PyError PyObject :=
  if h : (ByteArray.mk bytes.toArray).IsValidUTF8 then .ok (.str (.ofByteArray _ h))
  else .error .unicodeDecodeError

/-- The C++ ints. -/
def FitsInt (n : ℤ) : Prop := -2 ^ 31 ≤ n ∧ n < 2 ^ 31

instance (n : ℤ) : Decidable (FitsInt n) := inferInstanceAs (Decidable (_ ∧ _))

/-- The converters of pybind11, without and with implicit conversion. -/
def load (pb : Pybind) (convert : Bool) : (T : PyType) → PyObject → Option T.readable.Val
  | .int, .int n => if FitsInt n then some (BitVec.ofInt 32 n) else none
  | .float, .float x => some (pb.toFloat x)
  | .float, .int n => if convert then pb.intToFloat n else none
  | .string, .str s => some (utf8 s)
  | _, _ => none

/-- The argument a Python object is turned into. -/
def loadArg (pb : Pybind) (convert : Bool) (T : PyType) (o : PyObject) : Option Arg :=
  (load pb convert T o).map (Arg.builtin T.readable)

/-! ## `insert` -/

/-- `int_key` -/
def intKey : List (PyType × PyType) := pythonTypes.map fun T => (.int, T)

/-- `str_key` -/
def strKey : List (PyType × PyType) := pythonTypes.map fun T => (.string, T)

/-- `all_types`, in the order in which `add_insert` registers the overloads. -/
def allTypes : List (PyType × PyType) := intKey ++ strKey

/-- One overload takes the arguments. -/
def loadPair (pb : Pybind) (convert : Bool) (key value : PyObject) (T : PyType × PyType) :
    Option (Arg × Arg) :=
  match loadArg pb convert T.1 key, loadArg pb convert T.2 value with
  | some k, some v => some (k, v)
  | _, _ => none

/-- Overload resolution: a first pass without implicit conversion, a second one with it. -/
def resolve {α β : Type} (overloads : List α) (attempt : Bool → α → Option β) : Option β :=
  (overloads.findSome? (attempt false)).or (overloads.findSome? (attempt true))

/-- `insert` -/
def pyInsert {hash : SharedString → UInt64} (pb : Pybind) (m : HashMap hash)
    (key value : PyObject) (s : Supply) : HashMap hash × Except PyError Bool :=
  match resolve allTypes fun convert => loadPair pb convert key value with
  | none => (m, .error .typeError)
  | some (k, v) => ((m.insert k v s).1, (m.insert k v s).2.mapError .exn)

/-! ## `find` -/

/-- `PyT(...)` -/
def pyObject (pb : Pybind) : (T : PyType) → T.readable.Val → Except PyError PyObject
  | .int, v => .ok (.int v.toInt)
  | .float, v => .ok (.float (pb.ofFloat v))
  | .string, v => pyStr v

/-- `get_implemention` -/
def getImplemention (pb : Pybind) (T : PyType) :
    Header × (SharedString → Except PyError PyObject) :=
  (typeChar T.readable, fun raw =>
    match deserialize T.readable raw with
    | .error e => .error (.decode e)
    | .ok v => pyObject pb T v)

/-- The header of a stored value. -/
def headerOf (raw : SharedString) : Except DecodeError Header := do
  let first ← raw.byteAt 0
  let second ← raw.byteAt 1
  return (first, second)

/-- The types whose entry of `implementions` has the header. -/
def dispatch (h : Header) : Option PyType :=
  pythonTypes.find? fun T => typeChar T.readable = h

/-- The value of a `find` made into an object. -/
def readObject (pb : Pybind) (raw : SharedString) : Except PyError PyObject :=
  match headerOf raw with
  | .error e => .error (.decode e)
  | .ok h =>
    match dispatch h with
    | none => .error (.decode (.domainError "Value type not supported in python"))
    | some T => (getImplemention pb T).2 raw

/-- `find<Key>` -/
def findObject {hash : SharedString → UInt64} (pb : Pybind) (m : HashMap hash) (key : Arg)
    (s : Supply) : Except PyError PyObject :=
  match m.findRaw key s with
  | .error e => .error (.exn e)
  | .ok none => .ok .none
  | .ok (some raw) => readObject pb raw

/-- The key the overloads of `find` take. -/
def resolveKey (pb : Pybind) (key : PyObject) : Option Arg :=
  resolve [PyType.string, PyType.int] fun convert T => loadArg pb convert T key

/-- `find` -/
def pyFind {hash : SharedString → UInt64} (pb : Pybind) (m : HashMap hash) (key : PyObject)
    (s : Supply) : Except PyError PyObject :=
  match resolveKey pb key with
  | none => .error .typeError
  | some k => findObject pb m k s

end Jakilid
