import Std.Data.TreeMap
import Std.Data.TreeMap.Lemmas

/-! Names at compile time. There is one scope for each function that encloses the code
being compiled, the innermost first, and the root scope last. A local of an enclosing
function that is asked for from inside is captured by every scope on the way. -/
namespace ClosureCode

/- Where the value of a name is found at run time. -/
inductive Storage where
  | global
  | local
  | builtin
  | free
  | function
  deriving DecidableEq, Repr

def Storage.name : Storage → String
  | .global => "Global"
  | .local => "Local"
  | .builtin => "Builtin"
  | .free => "Free"
  | .function => "Function"

/- Globals and builtins can be reached from every function without a capture. -/
def Storage.everywhere : Storage → Bool
  | .global | .builtin => true
  | .local | .free | .function => false

structure Symbol where
  name : String
  storage : Storage
  index : Nat
  deriving DecidableEq, Repr

/- The names of one function: what each stands for, how many slots are taken, and the
symbols of the enclosing scope captured so far, in order. -/
structure Scope where
  symbols : Std.TreeMap String Symbol := ∅
  definitions : Nat := 0
  captured : Array Symbol := #[]

namespace Scope

def empty : Scope := {}

def find? (scope : Scope) (name : String) : Option Symbol := scope.symbols[name]?

def put (scope : Scope) (symbol : Symbol) : Scope :=
  { scope with symbols := scope.symbols.insert symbol.name symbol }

def define (scope : Scope) (storage : Storage) (name : String) : Symbol × Scope :=
  let symbol := ⟨name, storage, scope.definitions⟩
  (symbol, { scope.put symbol with definitions := scope.definitions + 1 })

/- Takes a symbol of the enclosing scope in as a free variable. -/
def capture (scope : Scope) (enclosing : Symbol) : Symbol × Scope :=
  let symbol := ⟨enclosing.name, .free, scope.captured.size⟩
  (symbol, { scope.put symbol with captured := scope.captured.push enclosing })

theorem findEmpty (name : String) : empty.find? name = none := by
  simp [empty, find?]

theorem findPut (scope : Scope) (symbol : Symbol) (name : String) :
    (scope.put symbol).find? name = if symbol.name = name then some symbol else scope.find? name := by
  simp [put, find?, Std.TreeMap.getElem?_insert]

theorem findDefine (scope : Scope) (storage : Storage) (name other : String) :
    (scope.define storage name).2.find? other =
      if name = other then some ⟨name, storage, scope.definitions⟩ else scope.find? other :=
  findPut scope ⟨name, storage, scope.definitions⟩ other

theorem findCapture (scope : Scope) (enclosing : Symbol) (name : String) :
    (scope.capture enclosing).2.find? name =
      if enclosing.name = name then some ⟨enclosing.name, .free, scope.captured.size⟩
      else scope.find? name :=
  findPut scope ⟨enclosing.name, .free, scope.captured.size⟩ name

theorem capturedCapture (scope : Scope) (enclosing : Symbol) :
    (scope.capture enclosing).2.captured.toList = scope.captured.toList ++ [enclosing] := by
  simp [capture]

end Scope

structure SymbolTable where
  inner : Scope
  outer : List Scope

namespace SymbolTable

def empty : SymbolTable := ⟨.empty, []⟩

instance : Inhabited SymbolTable := ⟨empty⟩

/- A fresh scope inside those of `table`. -/
def enclose (table : SymbolTable) : SymbolTable := ⟨.empty, table.inner :: table.outer⟩

/- The scopes around the innermost, which is left alone. -/
def takeOuter (table : SymbolTable) : Option SymbolTable × SymbolTable :=
  match table.outer with
  | [] => (none, table)
  | next :: rest => (some ⟨next, rest⟩, ⟨table.inner, []⟩)

theorem takeOuterEnclose (table : SymbolTable) : table.enclose.takeOuter = (some table, ⟨.empty, []⟩) := rfl

def isGlobal (table : SymbolTable) : Bool := table.outer.isEmpty

def definitions (table : SymbolTable) : Nat := table.inner.definitions

def captured (table : SymbolTable) : List Symbol := table.inner.captured.toList

/- Binds `name` to the next slot: a global in the root scope, else a local. -/
def define (table : SymbolTable) (name : String) : Symbol × SymbolTable :=
  let (symbol, inner) := table.inner.define (if table.isGlobal then .global else .local) name
  (symbol, { table with inner })

def put (table : SymbolTable) (symbol : Symbol) : Symbol × SymbolTable :=
  (symbol, { table with inner := table.inner.put symbol })

def defineBuiltin (table : SymbolTable) (index : Nat) (name : String) : Symbol × SymbolTable :=
  table.put ⟨name, .builtin, index⟩

/- Binds the name by which the function of this scope calls itself. -/
def defineFunctionName (table : SymbolTable) (name : String) : Symbol × SymbolTable :=
  table.put ⟨name, .function, 0⟩

/- Looks for `name` from the innermost scope outward, with the scopes as the captures
leave them. -/
def resolveIn (name : String) (scope : Scope) : List Scope → Option Symbol × Scope × List Scope
  | [] => (scope.find? name, scope, [])
  | next :: rest =>
    match scope.find? name with
    | some symbol => (some symbol, scope, next :: rest)
    | none =>
      match resolveIn name next rest with
      | (none, next, rest) => (none, scope, next :: rest)
      | (some symbol, next, rest) =>
        if symbol.storage.everywhere then (some symbol, scope, next :: rest)
        else
          let (free, scope) := scope.capture symbol
          (some free, scope, next :: rest)

def resolve (table : SymbolTable) (name : String) : Option Symbol × SymbolTable :=
  let (symbol, inner, outer) := resolveIn name table.inner table.outer
  (symbol, ⟨inner, outer⟩)

/- All that one look for a name can do, from the scopes before it to the result and the scopes after it. -/
inductive Resolves (name : String) : Scope → List Scope → Option Symbol → Scope → List Scope → Prop where
  | here {scope outer symbol} (found : scope.find? name = some symbol) :
      Resolves name scope outer (some symbol) scope outer
  | nowhere {scope} (absent : scope.find? name = none) : Resolves name scope [] none scope []
  | pass {scope next rest result next' rest'} (absent : scope.find? name = none)
      (further : Resolves name next rest result next' rest')
      (passes : ∀ symbol, result = some symbol → symbol.storage.everywhere) :
      Resolves name scope (next :: rest) result scope (next' :: rest')
  | capture {scope next rest symbol next' rest'} (absent : scope.find? name = none)
      (further : Resolves name next rest (some symbol) next' rest') (inside : symbol.storage.everywhere = false) :
      Resolves name scope (next :: rest) (some (scope.capture symbol).1) (scope.capture symbol).2 (next' :: rest')

theorem resolveInResolves (name : String) (scope : Scope) (outer : List Scope) :
    Resolves name scope outer (resolveIn name scope outer).1 (resolveIn name scope outer).2.1
      (resolveIn name scope outer).2.2 := by
  induction outer generalizing scope with
  | nil =>
      unfold resolveIn
      cases found : scope.find? name with
      | some symbol => exact .here found
      | none => exact .nowhere found
  | cons next rest ih =>
      have further := ih next
      unfold resolveIn
      cases found : scope.find? name with
      | some symbol => exact .here found
      | none =>
          cases left : resolveIn name next rest with
          | mk result scopes =>
              rw [left] at further
              cases result with
              | none => exact .pass found further fun _ same => by cases same
              | some symbol =>
                  cases reach : symbol.storage.everywhere with
                  | true =>
                      simp only [reach, if_true]
                      exact .pass found further fun _ same => by cases same; exact reach
                  | false =>
                      simp only [reach, Bool.false_eq_true, if_false]
                      exact .capture found further reach

end SymbolTable
end ClosureCode
