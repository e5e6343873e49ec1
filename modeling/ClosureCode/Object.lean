import ClosureCode.Builtin
import ClosureCode.Fingerprint
import ClosureCode.Program

/-! Run-time values. Integers, booleans and strings have a hash key; a hash keeps its
entries in the order in which their keys first came. -/
namespace ClosureCode

inductive Kind where
  | null
  | error
  | integer
  | boolean
  | returned
  | function
  | string
  | builtin
  | array
  | hash
  | compiled
  deriving DecidableEq, Repr

def Kind.name : Kind → String
  | .null => "NULL"
  | .error => "ERROR"
  | .integer => "INTEGER"
  | .boolean => "BOOLEAN"
  | .returned => "RETURN_VALUE"
  | .function => "FUNCTION"
  | .string => "STRING"
  | .builtin => "BUILTIN"
  | .array => "ARRAY"
  | .hash => "HASH"
  | .compiled => "COMPILED_FUNCTION_OBJ"

/- The kind is part of the key, so `1` and `true` differ. -/
structure HashKey where
  kind : Kind
  value : UInt64
  deriving DecidableEq, Repr

structure CompiledFunction where
  code : Code
  locals : Nat
  parameters : Nat
  deriving DecidableEq, Repr

/- A function with the frame it was made in. Two functions are the same only if
they were made together: `identity` tells them apart. -/
structure Function where
  identity : Nat
  parameters : List Binder
  body : Block
  frame : Nat

mutual

inductive Object where
  | null
  | error (message : String)
  | integer (value : Int64)
  | boolean (value : Bool)
  | returned (value : Object)
  | function (value : Function)
  | string (value : String)
  | builtin (value : Builtin)
  | array (elements : List Object)
  | hash (entries : List Entry)
  | compiled (value : CompiledFunction)

structure Entry where
  hashKey : HashKey
  key : Object
  value : Object

end

instance : Inhabited Object := ⟨.null⟩

def integerKey (n : Int64) : HashKey := ⟨.integer, n.toUInt64⟩

def booleanKey (b : Bool) : HashKey := ⟨.boolean, b.toUInt64⟩

def stringKey (s : String) : HashKey := ⟨.string, fingerprint (utf8 s)⟩

namespace Object

def kind : Object → Kind
  | null => .null
  | error _ => .error
  | integer _ => .integer
  | boolean _ => .boolean
  | returned _ => .returned
  | function _ => .function
  | string _ => .string
  | builtin _ => .builtin
  | array _ => .array
  | hash _ => .hash
  | compiled _ => .compiled

/- Only `false` and `null` are not. -/
def isTruthy : Object → Bool
  | boolean b => b
  | null => false
  | _ => true

def isError : Object → Bool
  | error _ => true
  | _ => false

def hashKey? : Object → Option HashKey
  | integer n => some (integerKey n)
  | boolean b => some (booleanKey b)
  | string s => some (stringKey s)
  | _ => none

theorem hashKeyKind {o : Object} {k : HashKey} (h : o.hashKey? = some k) : k.kind = o.kind := by
  cases o <;> simp [hashKey?] at h <;> subst h <;> rfl

theorem hashKeyNone (o : Object) :
    o.hashKey? = none ↔ o.kind ≠ .integer ∧ o.kind ≠ .boolean ∧ o.kind ≠ .string := by
  cases o <;> simp [hashKey?, kind]

end Object

/- Takes the place of the entry with the same hash key, else goes to the end. -/
def putEntry (entry : Entry) : List Entry → List Entry
  | [] => [entry]
  | e :: rest => if e.hashKey = entry.hashKey then entry :: rest else e :: putEntry entry rest

def findEntry? (key : HashKey) (entries : List Entry) : Option Entry :=
  entries.find? (·.hashKey = key)

/- Puts the pairs in one after the other; fails with the kind of the first key that has
no hash key. -/
def putPairs (entries : List Entry) : List (Object × Object) → Except Kind (List Entry)
  | [] => .ok entries
  | (key, value) :: rest =>
    match key.hashKey? with
    | none => .error key.kind
    | some hashKey => putPairs (putEntry ⟨hashKey, key, value⟩ entries) rest

def Object.hashOfPairs (pairs : List (Object × Object)) : Except Kind Object :=
  (putPairs [] pairs).map .hash

theorem findEntryPutEntry (entry : Entry) (key : HashKey) (entries : List Entry) :
    findEntry? key (putEntry entry entries) =
      if entry.hashKey = key then some entry else findEntry? key entries := by
  induction entries with
  | nil => by_cases h : entry.hashKey = key <;> simp [putEntry, findEntry?, h]
  | cons e rest ih =>
      by_cases same : e.hashKey = entry.hashKey
      · by_cases h : entry.hashKey = key <;> simp [putEntry, findEntry?, same, h]
      · by_cases h : e.hashKey = key
        · have other : key ≠ entry.hashKey := fun g => same (h.trans g)
          simp [putEntry, findEntry?, h, other, other.symm]
        · simpa [putEntry, findEntry?, same, h] using ih

end ClosureCode
