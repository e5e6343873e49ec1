import ClosureCode.Object

/-! Equality of values as programs see it: by content, but functions by identity, and
hashes whatever the order of their entries. -/
namespace ClosureCode

mutual

def Object.equal : Object → Object → Bool
  | .null, .null => true
  | .error a, .error b => a == b
  | .integer a, .integer b => a == b
  | .boolean a, .boolean b => a == b
  | .returned a, .returned b => a.equal b
  | .function f, .function g => f.identity == g.identity
  | .string a, .string b => a == b
  | .builtin a, .builtin b => a == b
  | .array as, .array bs => equalLists as bs
  | .hash as, .hash bs => as.length == bs.length && entriesWithin bs as
  | .compiled f, .compiled g => f == g
  | _, _ => false

def equalLists : List Object → List Object → Bool
  | [], [] => true
  | a :: as, b :: bs => a.equal b && equalLists as bs
  | _, _ => false

/- Every entry has an equal one in `others` under its hash key. -/
def entriesWithin (others : List Entry) : List Entry → Bool
  | [] => true
  | e :: rest => e.foundIn others && entriesWithin others rest

def Entry.foundIn (others : List Entry) : Entry → Bool
  | ⟨hashKey, key, value⟩ =>
    match findEntry? hashKey others with
    | none => false
    | some other => key.equal other.key && value.equal other.value

end

end ClosureCode
