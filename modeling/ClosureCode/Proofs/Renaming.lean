import ClosureCode.Proofs.Refinement
import Mathlib.Data.List.Forall2
import Mathlib.Logic.Equiv.Basic

/-! Names and spans. A program and another that differs from it by the names alone, each replaced by
one of its own, have the same code; and where one fails, the other fails at the same place. -/
namespace ClosureCode

/- New names for those of a program. The builtins keep theirs. -/
structure Renaming where
  map : String → String
  injective : Function.Injective map
  builtins : ∀ b : Builtin, map b.name = b.name

instance : CoeFun Renaming fun _ => String → String := ⟨Renaming.map⟩

section Texts
variable (ρ : Renaming)

mutual

/- The second tree is the first with other names, `ρ` of those it had, and with any spans. -/
inductive RenamedExpr : Expr → Expr → Prop where
  | name {name s s'} : RenamedExpr (.name name s) (.name (ρ name) s')
  | integer {value s s'} : RenamedExpr (.integer value s) (.integer value s')
  | string {value s s'} : RenamedExpr (.string value s) (.string value s')
  | boolean {value s s'} : RenamedExpr (.boolean value s) (.boolean value s')
  | unary {op e e' s s'} (operand : RenamedExpr e e') : RenamedExpr (.unary op e s) (.unary op e' s')
  | binary {op e e' f f' s s'} (left : RenamedExpr e e') (right : RenamedExpr f f') :
      RenamedExpr (.binary op e f s) (.binary op e' f' s')
  | conditional {e e' b b' o o' s s'} (condition : RenamedExpr e e') (consequence : RenamedBlock b b')
      (alternative : RenamedAlternative o o') : RenamedExpr (.conditional e b o s) (.conditional e' b' o' s')
  | function {name ps ps' b b' s s'} (parameters : ps'.map Binder.name = ps.map fun p => ρ p.name)
      (body : RenamedBlock b b') : RenamedExpr (.function name ps b s) (.function (name.map ρ.map) ps' b' s')
  | call {e e' es es' s s'} (callee : RenamedExpr e e') (arguments : RenamedExprs es es') :
      RenamedExpr (.call e es s) (.call e' es' s')
  | array {es es' s s'} (elements : RenamedExprs es es') : RenamedExpr (.array es s) (.array es' s')
  | hash {ps ps' s s'} (pairs : RenamedPairs ps ps') : RenamedExpr (.hash ps s) (.hash ps' s')
  | index {e e' f f' s s'} (collection : RenamedExpr e e') (position : RenamedExpr f f') :
      RenamedExpr (.index e f s) (.index e' f' s')

inductive RenamedAlternative : Option Block → Option Block → Prop where
  | none : RenamedAlternative none none
  | some {b b'} (alternative : RenamedBlock b b') : RenamedAlternative (some b) (some b')

inductive RenamedExprs : List Expr → List Expr → Prop where
  | nil : RenamedExprs [] []
  | cons {e e' es es'} (first : RenamedExpr e e') (rest : RenamedExprs es es') : RenamedExprs (e :: es) (e' :: es')

inductive RenamedPairs : List (Expr × Expr) → List (Expr × Expr) → Prop where
  | nil : RenamedPairs [] []
  | cons {k k' v v' ps ps'} (key : RenamedExpr k k') (value : RenamedExpr v v') (rest : RenamedPairs ps ps') :
      RenamedPairs ((k, v) :: ps) ((k', v') :: ps')

inductive RenamedStmt : Stmt → Stmt → Prop where
  | binding {target target' e e' s s'} (name : target'.name = ρ target.name) (value : RenamedExpr e e') :
      RenamedStmt (.binding target e s) (.binding target' e' s')
  | returning {e e' s s'} (value : RenamedExpr e e') : RenamedStmt (.returning e s) (.returning e' s')
  | expression {e e' s s'} (value : RenamedExpr e e') : RenamedStmt (.expression e s) (.expression e' s')

inductive RenamedBlock : Block → Block → Prop where
  | block {ss ss' s s'} (statements : RenamedStmts ss ss') : RenamedBlock ⟨ss, s⟩ ⟨ss', s'⟩

inductive RenamedStmts : List Stmt → List Stmt → Prop where
  | nil : RenamedStmts [] []
  | cons {s s' ss ss'} (first : RenamedStmt s s') (rest : RenamedStmts ss ss') : RenamedStmts (s :: ss) (s' :: ss')

end

end Texts

def pairNodes : List (Expr × Expr) → List Node
  | [] => []
  | (key, value) :: rest => .expression key :: .expression value :: pairNodes rest

/- The nodes directly below a node, in the order of the text. -/
def Node.children : Node → List Node
  | .program p => p.map .statement
  | .block ⟨statements, _⟩ => statements.map .statement
  | .statement (.binding _ value _) | .statement (.returning value _) | .statement (.expression value _) =>
      [.expression value]
  | .expression e =>
    match e with
    | .name .. | .integer .. | .string .. | .boolean .. => []
    | .unary _ operand _ => [.expression operand]
    | .binary _ left right _ => [.expression left, .expression right]
    | .conditional condition consequence alternative _ =>
        .expression condition :: .block consequence :: alternative.toList.map .block
    | .function _ _ body _ => [.block body]
    | .call callee arguments _ => .expression callee :: arguments.map .expression
    | .array elements _ => elements.map .expression
    | .hash pairs _ => pairNodes pairs
    | .index collection position _ => [.expression collection, .expression position]

/- The last two nodes are at the same place below the first two. -/
inductive Corresponding (top top' : Node) : Node → Node → Prop where
  | top : Corresponding top top' top top'
  | child {n n' m m'} (above : Corresponding top top' n n') (place : (m, m') ∈ n.children.zip n'.children) :
      Corresponding top top' m m'

/- Both errors are of the same kind and for the same cause, and name nodes that correspond. -/
inductive SameFailure (ρ : Renaming) (top top' : Node) : CompileError → CompileError → Prop where
  | undefinedVariable {name span span'}
      (place : Corresponding top top' (.expression (.name name span)) (.expression (.name (ρ name) span'))) :
      SameFailure ρ top top' (.undefinedVariable name span) (.undefinedVariable (ρ name) span')
  | instruction {n n' cause} (place : Corresponding top top' n n') :
      SameFailure ρ top top' (.instruction n.render n.span cause) (.instruction n'.render n'.span cause)

inductive SameOutcome (ρ : Renaming) (p p' : Program) :
    Except CompileError Bytecode → Except CompileError Bytecode → Prop where
  | compiled (b : Bytecode) : SameOutcome ρ p p' (.ok b) (.ok b)
  | failed {e e'} (failure : SameFailure ρ (.program p) (.program p') e e') : SameOutcome ρ p p' (.error e) (.error e')

/- The nodes of two lists correspond one by one. -/
def AllCorresponding (top top' : Node) (ns ns' : List Node) : Prop :=
  ∀ m m', (m, m') ∈ ns.zip ns' → Corresponding top top' m m'

namespace AllCorresponding
variable {top top' n n' : Node} {ns ns' : List Node}

theorem children (h : Corresponding top top' n n') : AllCorresponding top top' n.children n'.children :=
  fun _ _ place => .child h place

theorem first (h : AllCorresponding top top' (n :: ns) (n' :: ns')) : Corresponding top top' n n' :=
  h n n' (by simp)

theorem rest (h : AllCorresponding top top' (n :: ns) (n' :: ns')) : AllCorresponding top top' ns ns' :=
  fun m m' place => h m m' (by simp [place])

end AllCorresponding

def Symbol.rename (ρ : Renaming) (symbol : Symbol) : Symbol := { symbol with name := ρ symbol.name }

/- The second scope has under `ρ` of a name what the first has under the name. It may have more
under names that are not of this form, which a renamed program does not use. -/
structure RenamedScope (ρ : Renaming) (scope scope' : Scope) : Prop where
  definitions : scope'.definitions = scope.definitions
  captured : scope'.captured = scope.captured.map (Symbol.rename ρ)
  symbols : ∀ name, scope'.find? (ρ name) = (scope.find? name).map (Symbol.rename ρ)

structure RenamedTable (ρ : Renaming) (table table' : SymbolTable) : Prop where
  inner : RenamedScope ρ table.inner table'.inner
  outer : List.Forall₂ (RenamedScope ρ) table.outer table'.outer

section Tables
variable {ρ : Renaming} {scope scope' : Scope} {table table' : SymbolTable}

theorem RenamedScope.empty : RenamedScope ρ .empty .empty :=
  ⟨rfl, by simp [Scope.empty], fun name => by simp [Scope.findEmpty]⟩

theorem RenamedTable.empty : RenamedTable ρ .empty .empty := ⟨.empty, .nil⟩

theorem RenamedTable.enclose (h : RenamedTable ρ table table') : RenamedTable ρ table.enclose table'.enclose :=
  ⟨.empty, .cons h.inner h.outer⟩

theorem RenamedScope.put (h : RenamedScope ρ scope scope') (symbol : Symbol) :
    RenamedScope ρ (scope.put symbol) (scope'.put (symbol.rename ρ)) := by
  refine ⟨h.definitions, h.captured, fun name => ?_⟩
  rw [Scope.findPut, Scope.findPut, h.symbols]
  by_cases same : symbol.name = name
  · simp [Symbol.rename, same]
  · have other : ρ symbol.name ≠ ρ name := fun equal => same (ρ.injective equal)
    simp [Symbol.rename, same, other]

theorem RenamedScope.define (h : RenamedScope ρ scope scope') (storage : Storage) (name : String) :
    (scope'.define storage (ρ name)).1 = (scope.define storage name).1.rename ρ ∧
      RenamedScope ρ (scope.define storage name).2 (scope'.define storage (ρ name)).2 := by
  have symbol : (scope'.define storage (ρ name)).1 = (scope.define storage name).1.rename ρ := by
    simp [Scope.define, Symbol.rename, h.definitions]
  have filed := h.put (scope.define storage name).1
  rw [← symbol] at filed
  exact ⟨symbol, congrArg (· + 1) h.definitions, filed.captured, filed.symbols⟩

theorem RenamedScope.capture (h : RenamedScope ρ scope scope') (symbol : Symbol) :
    (scope'.capture (symbol.rename ρ)).1 = (scope.capture symbol).1.rename ρ ∧
      RenamedScope ρ (scope.capture symbol).2 (scope'.capture (symbol.rename ρ)).2 := by
  have free : (scope'.capture (symbol.rename ρ)).1 = (scope.capture symbol).1.rename ρ := by
    simp [Scope.capture, Symbol.rename, h.captured]
  have filed := h.put (scope.capture symbol).1
  rw [← free] at filed
  exact ⟨free, filed.definitions, by simp [Scope.capture, h.captured], filed.symbols⟩

theorem RenamedTable.put (h : RenamedTable ρ table table') (symbol : Symbol) :
    RenamedTable ρ (table.put symbol).2 (table'.put (symbol.rename ρ)).2 :=
  ⟨h.inner.put symbol, h.outer⟩

theorem RenamedTable.define (h : RenamedTable ρ table table') (name : String) :
    (table'.define (ρ name)).1 = (table.define name).1.rename ρ ∧
      RenamedTable ρ (table.define name).2 (table'.define (ρ name)).2 := by
  have level : table'.isGlobal = table.isGlobal := by
    obtain ⟨inner, outer⟩ := table
    obtain ⟨inner', outer'⟩ := table'
    cases h.outer <;> rfl
  unfold SymbolTable.define
  rw [level]
  obtain ⟨symbol, filed⟩ := h.inner.define (if table.isGlobal then .global else .local) name
  exact ⟨symbol, filed, h.outer⟩

theorem renamedResolveIn {outer outer' : List Scope} (around : List.Forall₂ (RenamedScope ρ) outer outer')
    (h : RenamedScope ρ scope scope') (name : String) :
    let found := SymbolTable.resolveIn name scope outer
    let found' := SymbolTable.resolveIn (ρ name) scope' outer'
    found'.1 = found.1.map (Symbol.rename ρ) ∧ RenamedScope ρ found.2.1 found'.2.1 ∧
      List.Forall₂ (RenamedScope ρ) found.2.2 found'.2.2 := by
  induction around generalizing scope scope' with
  | nil => exact ⟨h.symbols name, h, .nil⟩
  | @cons next next' rest rest' first others ih =>
      have here := h.symbols name
      unfold SymbolTable.resolveIn
      cases known : scope.find? name with
      | some symbol =>
          rw [known] at here
          rw [here]
          exact ⟨rfl, h, .cons first others⟩
      | none =>
          rw [known] at here
          rw [here]
          have further := ih first
          cases found : SymbolTable.resolveIn name next rest with
          | mk result scopes =>
              cases found' : SymbolTable.resolveIn (ρ name) next' rest' with
              | mk result' scopes' =>
                  rw [found, found'] at further
                  obtain ⟨same, near, far⟩ := further
                  dsimp only at same near far
                  subst same
                  cases result with
                  | none => exact ⟨rfl, h, .cons near far⟩
                  | some symbol =>
                      cases everywhere : symbol.storage.everywhere with
                      | true => simpa [Symbol.rename, everywhere] using ⟨h, near, far⟩
                      | false =>
                          obtain ⟨free, captured⟩ := h.capture symbol
                          simpa [Symbol.rename, everywhere] using ⟨free, captured, near, far⟩

theorem RenamedTable.resolve (h : RenamedTable ρ table table') (name : String) :
    (table'.resolve (ρ name)).1 = (table.resolve name).1.map (Symbol.rename ρ) ∧
      RenamedTable ρ (table.resolve name).2 (table'.resolve (ρ name)).2 := by
  obtain ⟨symbol, inner, outer⟩ := renamedResolveIn h.outer h.inner name
  exact ⟨symbol, inner, outer⟩

end Tables

/- Two runs in step: what they emitted is the same, and only their names differ. -/
structure RenamedState (ρ : Renaming) (c c' : Compiler) : Prop where
  constants : c'.constants = c.constants
  table : RenamedTable ρ c.table c'.table
  current : c'.current = c.current
  enclosing : c'.enclosing = c.enclosing

/- Two results of runs in step. -/
inductive Mirrored {α : Type} (ρ : Renaming) (top top' : Node) (same : α → α → Prop) :
    EStateM.Result CompileError Compiler α → EStateM.Result CompileError Compiler α → Prop where
  | ok {a a' c c'} (value : same a a') (state : RenamedState ρ c c') : Mirrored ρ top top' same (.ok a c) (.ok a' c')
  | error {e e' c c'} (failure : SameFailure ρ top top' e e') : Mirrored ρ top top' same (.error e c) (.error e' c')

theorem Mirrored.split {α : Type} {ρ : Renaming} {top top' : Node} {same : α → α → Prop}
    {r r' : EStateM.Result CompileError Compiler α} (h : Mirrored ρ top top' same r r') :
    (∃ a a' c c', r = .ok a c ∧ r' = .ok a' c' ∧ same a a' ∧ RenamedState ρ c c') ∨
      ∃ e e' c c', r = .error e c ∧ r' = .error e' c' ∧ SameFailure ρ top top' e e' := by
  cases h with
  | ok value state => exact .inl ⟨_, _, _, _, rfl, rfl, value, state⟩
  | error failure => exact .inr ⟨_, _, _, _, rfl, rfl, failure⟩

/- Started in step, both runs end in step, or both fail at the same place of the texts `top` and `top'`. -/
def Mirrors {α : Type} (ρ : Renaming) (top top' : Node) (x x' : Compile α) (same : α → α → Prop) : Prop :=
  ∀ c c', RenamedState ρ c c' → Mirrored ρ top top' same (x c) (x' c')

namespace Mirrors
variable {α β : Type} {ρ : Renaming} {top top' n n' : Node} {same : α → α → Prop} {same' : β → β → Prop}

theorem bind {x x' : Compile α} {f f' : α → Compile β} (first : Mirrors ρ top top' x x' same)
    (next : ∀ a a', same a a' → Mirrors ρ top top' (f a) (f' a') same') :
    Mirrors ρ top top' (x >>= f) (x' >>= f') same' := by
  intro c c' start
  rcases (first c c' start).split with ⟨a, a', d, d', ran, ran', value, state⟩ | ⟨e, e', d, d', ran, ran', failure⟩
  · rw [Compile.bindOk ran, Compile.bindOk ran']
    exact next a a' value d d' state
  · rw [Compile.bindError ran, Compile.bindError ran']
    exact .error failure

theorem bindSame {x x' : Compile α} {f f' : α → Compile β} (first : Mirrors ρ top top' x x' Eq)
    (next : ∀ a, Mirrors ρ top top' (f a) (f' a) same') : Mirrors ρ top top' (x >>= f) (x' >>= f') same' :=
  first.bind fun a _ equal => equal ▸ next a

theorem andThen {x x' : Compile α} {y y' : Compile β} (first : Mirrors ρ top top' x x' same)
    (next : Mirrors ρ top top' y y' same') :
    Mirrors ρ top top' (x >>= fun _ => y) (x' >>= fun _ => y') same' :=
  first.bind fun _ _ _ => next

theorem value (a : α) : Mirrors ρ top top' (pure a) (pure a) Eq := fun _ _ start => .ok rfl start

theorem emit (place : Corresponding top top' n n') (op : Opcode) (operands : List Nat) :
    Mirrors ρ top top' (Compile.emit n op operands) (Compile.emit n' op operands) Eq := by
  intro c c' start
  unfold Compile.emit
  cases Instruction.encode op operands with
  | ok bytes => exact .ok rfl ⟨start.constants, start.table, by rw [start.current], start.enclosing⟩
  | error cause => exact .error (.instruction place)

theorem emitJump (place : Corresponding top top' n n') (op : Opcode) :
    Mirrors ρ top top' (Compile.emitJump n op) (Compile.emitJump n' op) Eq := by
  have position : Mirrors ρ top top' Compile.position Compile.position Eq := by
    intro c c' start
    exact .ok (by rw [start.current]) start
  exact position.bindSame fun start => (emit place op _).andThen (value start)

theorem patchJump (place : Corresponding top top' n n') (op : Opcode) (position : Nat) :
    Mirrors ρ top top' (Compile.patchJump n op position) (Compile.patchJump n' op position) Eq := by
  intro c c' start
  unfold Compile.patchJump
  rw [start.current]
  cases Instruction.encode op [c.current.position] with
  | ok bytes => exact .ok rfl ⟨start.constants, start.table, rfl, start.enclosing⟩
  | error cause => exact .error (.instruction place)

theorem addConstant (value : Object) :
    Mirrors ρ top top' (Compile.addConstant value) (Compile.addConstant value) Eq := by
  intro c c' start
  unfold Compile.addConstant
  rw [start.constants]
  exact .ok rfl ⟨rfl, start.table, start.current, start.enclosing⟩

theorem literal (place : Corresponding top top' n n') (value : Object) :
    Mirrors ρ top top' (Compile.addConstant value >>= fun slot => Compile.emit n .constant [slot])
      (Compile.addConstant value >>= fun slot => Compile.emit n' .constant [slot]) Eq :=
  (addConstant value).bindSame fun slot => emit place .constant [slot]

theorem loadSymbol (place : Corresponding top top' n n') (symbol : Symbol) :
    Mirrors ρ top top' (Compile.loadSymbol n symbol) (Compile.loadSymbol n' (symbol.rename ρ)) Eq := by
  unfold Compile.loadSymbol Symbol.rename
  cases symbol.storage <;> exact emit place _ _

theorem loadSymbols (place : Corresponding top top' n n') : (symbols : List Symbol) →
    Mirrors ρ top top' (Compile.loadSymbols n symbols) (Compile.loadSymbols n' (symbols.map (Symbol.rename ρ))) Eq
  | [] => value ()
  | symbol :: rest => (loadSymbol place symbol).andThen (loadSymbols place rest)

theorem finishBranch (place : Corresponding top top' n n') :
    Mirrors ρ top top' (Compile.finishBranch n) (Compile.finishBranch n') Eq := by
  intro c c' start
  unfold Compile.finishBranch
  rw [start.current]
  split
  · exact .ok rfl ⟨start.constants, start.table, rfl, start.enclosing⟩
  · exact emit place .pushNull [] c c' start

theorem finishBody (place : Corresponding top top' n n') :
    Mirrors ρ top top' (Compile.finishBody n) (Compile.finishBody n') Eq := by
  intro c c' start
  have ends : ∀ d d', RenamedState ρ d d' → Mirrored ρ top top' Eq
      (if d.current.lastIs .returnValue then .ok () d else Compile.emit n .returnNothing [] d)
      (if d'.current.lastIs .returnValue then .ok () d' else Compile.emit n' .returnNothing [] d') := by
    intro d d' state
    rw [state.current]
    split
    · exact .ok rfl state
    · exact emit place .returnNothing [] d d' state
  unfold Compile.finishBody
  rw [start.current]
  refine ends _ _ ?_
  split
  · exact ⟨start.constants, start.table, rfl, start.enclosing⟩
  · exact start

section Names
theorem define (name : String) : Mirrors ρ top top' (Compile.define name) (Compile.define (ρ name))
    (fun symbol symbol' => symbol' = symbol.rename ρ) := by
  intro c c' start
  obtain ⟨symbol, table⟩ := start.table.define name
  exact .ok symbol ⟨start.constants, table, start.current, start.enclosing⟩

theorem resolve (name : String) : Mirrors ρ top top' (Compile.resolve name) (Compile.resolve (ρ name))
    (fun symbol symbol' => symbol' = symbol.map (Symbol.rename ρ)) := by
  intro c c' start
  obtain ⟨symbol, table⟩ := start.table.resolve name
  exact .ok symbol ⟨start.constants, table, start.current, start.enclosing⟩

theorem load {name : String} {span span' : Span}
    (place : Corresponding top top' (.expression (.name name span)) (.expression (.name (ρ name) span'))) :
    Mirrors ρ top top' (Compile.expr (.name name span)) (Compile.expr (.name (ρ name) span')) Eq := by
  unfold Compile.expr
  refine (resolve name).bind fun symbol _ equal => ?_
  subst equal
  cases symbol with
  | none => exact fun _ _ _ => .error (.undefinedVariable place)
  | some symbol => exact loadSymbol place symbol

theorem store (place : Corresponding top top' n n') (name : String) :
    Mirrors ρ top top'
      (Compile.define name >>= fun symbol =>
        Compile.emit n (if symbol.storage = .global then .setGlobal else .setLocal) [symbol.index])
      (Compile.define (ρ name) >>= fun symbol =>
        Compile.emit n' (if symbol.storage = .global then .setGlobal else .setLocal) [symbol.index]) Eq := by
  refine (define name).bind fun symbol _ equal => ?_
  subst equal
  exact emit place _ _

theorem enter {c c' : Compiler} (start : RenamedState ρ c c') (name : Option String) {ps ps' : List Binder}
    (parameters : ps'.map Binder.name = ps.map fun p => ρ p.name) :
    RenamedState ρ (c.enterFunction name ps) (c'.enterFunction (name.map ρ.map) ps') := by
  have bound : ∀ {table table'}, RenamedTable ρ table table' →
      RenamedTable ρ (ps.foldl (fun table p => (table.define p.name).2) table)
        (ps'.foldl (fun table p => (table.define p.name).2) table') := by
    induction ps generalizing ps' with
    | nil =>
        obtain rfl := List.map_eq_nil_iff.mp parameters
        exact fun h => h
    | cons p rest ih =>
        obtain ⟨p', rest', rfl, here, later⟩ := List.map_eq_cons_iff.mp parameters
        intro table table' h
        have next := (h.define p.name).2
        rw [show ρ p.name = p'.name from here.symm] at next
        exact ih later next
  refine ⟨start.constants, bound ?_, rfl, by simp [Compiler.enterFunction, start.current, start.enclosing]⟩
  cases name with
  | none => exact start.table.enclose
  | some name => exact start.table.enclose.put ⟨name, .function, 0⟩

theorem leave {c c' : Compiler} (state : RenamedState ρ c c') :
    let left := c.leaveFunction
    let left' := c'.leaveFunction
    left'.1.1 = left.1.1 ∧ RenamedScope ρ left.1.2.inner left'.1.2.inner ∧ RenamedState ρ left.2 left'.2 := by
  obtain ⟨constants, ⟨inner, outer⟩, current, enclosing⟩ := state
  obtain ⟨pool, ⟨own, around⟩, stream, streams⟩ := c
  obtain ⟨pool', ⟨own', around'⟩, stream', streams'⟩ := c'
  dsimp only at constants inner outer current enclosing
  subst constants current enclosing
  unfold Compiler.leaveFunction SymbolTable.takeOuter
  cases outer with
  | nil => exact ⟨rfl, inner, rfl, .empty, rfl, rfl⟩
  | cons next rest => exact ⟨rfl, inner, rfl, ⟨next, rest⟩, rfl, rfl⟩

end Names

theorem makeClosure (place : Corresponding top top' n n') (inner : Emission) {table table' : SymbolTable}
    (same : RenamedScope ρ table.inner table'.inner) (parameters : Nat) :
    Mirrors ρ top top' (Compile.makeClosure n inner table parameters) (Compile.makeClosure n' inner table' parameters)
      Eq := by
  have captured : table'.captured = table.captured.map (Symbol.rename ρ) := by
    simp [SymbolTable.captured, same.captured]
  have definitions : table'.definitions = table.definitions := same.definitions
  unfold Compile.makeClosure
  rw [captured, definitions, List.length_map]
  exact (loadSymbols place table.captured).andThen ((addConstant _).bindSame fun slot => emit place .closure _)

theorem function (place : Corresponding top top' n n') (name : Option String)
    {ps ps' : List Binder} (parameters : ps'.map Binder.name = ps.map fun p => ρ p.name) {body body' : Compile Unit}
    (inside : Mirrors ρ top top' body body' Eq) :
    Mirrors ρ top top' (Compile.function n name ps body) (Compile.function n' (name.map ρ.map) ps' body') Eq := by
  intro c c' start
  have count : ps'.length = ps.length := by simpa using congrArg List.length parameters
  have results := inside _ _ (enter start name parameters)
  unfold Compile.function
  rcases results.split with ⟨_, _, d, d', ran, ran', -, state⟩ | ⟨e, e', d, d', ran, ran', failure⟩
  · obtain ⟨stream, table, around⟩ := leave state
    simp only [ran, ran', stream, count]
    exact makeClosure place _ table _ _ _ around
  · simp only [ran, ran']
    exact .error failure

end Mirrors

section Runs
open Mirrors
variable {ρ : Renaming} {top top' : Node}

theorem RenamedExprs.count : {es es' : List Expr} → RenamedExprs ρ es es' → es'.length = es.length
  | _, _, .nil => rfl
  | _, _, .cons _ rest => congrArg (· + 1) rest.count

theorem RenamedPairs.count : {ps ps' : List (Expr × Expr)} → RenamedPairs ρ ps ps' → ps'.length = ps.length
  | _, _, .nil => rfl
  | _, _, .cons _ _ rest => congrArg (· + 1) rest.count

mutual

theorem Expr.mirrors : (e e' : Expr) → RenamedExpr ρ e e' → Corresponding top top' (.expression e) (.expression e') →
    Mirrors ρ top top' (Compile.expr e) (Compile.expr e') Eq
  | .name name s, _, .name, place => load place
  | .integer value s, _, .integer, place => by
      unfold Compile.expr
      exact literal place _
  | .string value s, _, .string, place => by
      unfold Compile.expr
      exact literal place _
  | .boolean value s, _, .boolean, place => by
      unfold Compile.expr
      exact emit place _ []
  | .unary op e s, .unary _ e' _, .unary operand, place => by
      unfold Compile.expr
      exact (e.mirrors e' operand (AllCorresponding.children place).first).andThen (emit place _ [])
  | .binary op e f s, .binary _ e' f' _, .binary left right, place => by
      unfold Compile.expr
      have below := AllCorresponding.children place
      exact (e.mirrors e' left below.first).andThen ((f.mirrors f' right below.rest.first).andThen (emit place _ []))
  | .conditional e b o s, .conditional e' b' o' s', .conditional condition consequence alternative, place => by
      unfold Compile.expr
      have below := AllCorresponding.children place
      have first := blockMirrors b b' consequence below.rest.first
      have other := otherwiseMirrors place o o' alternative below.rest.rest
      refine (e.mirrors e' condition below.first).andThen ((emitJump place _).bindSame fun toAlternative => ?_)
      refine first.andThen ((finishBranch place).andThen ((emitJump place _).bindSame fun toEnd => ?_))
      exact (patchJump place _ _).andThen (other.andThen (patchJump place _ _))
  | .function name ps b s, .function _ ps' b' s', .function parameters body, place => by
      unfold Compile.expr
      exact function place name parameters
        ((blockMirrors b b' body (AllCorresponding.children place).first).andThen (finishBody place))
  | .call e es s, .call e' es' s', .call callee arguments, place => by
      unfold Compile.expr
      have below := AllCorresponding.children place
      rw [arguments.count]
      exact (e.mirrors e' callee below.first).andThen
        ((exprsMirror es es' arguments below.rest).andThen (emit place _ _))
  | .array es s, .array es' s', .array elements, place => by
      unfold Compile.expr
      rw [elements.count]
      exact (exprsMirror es es' elements (.children place)).andThen (emit place _ _)
  | .hash ps s, .hash ps' s', .hash pairs, place => by
      unfold Compile.expr
      rw [pairs.count]
      exact (pairsMirror ps ps' pairs (.children place)).andThen (emit place _ _)
  | .index e f s, .index e' f' s', .index collection position, place => by
      unfold Compile.expr
      have below := AllCorresponding.children place
      exact (e.mirrors e' collection below.first).andThen
        ((f.mirrors f' position below.rest.first).andThen (emit place _ []))
termination_by structural e => e

theorem otherwiseMirrors {n n' : Node} (place : Corresponding top top' n n') : (o o' : Option Block) →
    RenamedAlternative ρ o o' → AllCorresponding top top' (o.toList.map .block) (o'.toList.map .block) →
    Mirrors ρ top top' (Compile.otherwise n o) (Compile.otherwise n' o') Eq
  | none, none, .none, _ => by
      unfold Compile.otherwise
      exact emit place .pushNull []
  | some b, some b', .some alternative, below => by
      unfold Compile.otherwise
      exact (blockMirrors b b' alternative below.first).andThen (finishBranch place)
termination_by structural o => o

theorem exprsMirror : (es es' : List Expr) → RenamedExprs ρ es es' →
    AllCorresponding top top' (es.map .expression) (es'.map .expression) →
    Mirrors ρ top top' (Compile.exprs es) (Compile.exprs es') Eq
  | [], [], .nil, _ => by
      unfold Compile.exprs
      exact value ()
  | e :: es, e' :: es', .cons first rest, below => by
      unfold Compile.exprs
      exact (e.mirrors e' first below.first).andThen (exprsMirror es es' rest below.rest)
termination_by structural es => es

theorem pairsMirror : (ps ps' : List (Expr × Expr)) → RenamedPairs ρ ps ps' →
    AllCorresponding top top' (pairNodes ps) (pairNodes ps') →
    Mirrors ρ top top' (Compile.keysAndValues ps) (Compile.keysAndValues ps') Eq
  | [], [], .nil, _ => by
      unfold Compile.keysAndValues
      exact value ()
  | (k, v) :: ps, (k', v') :: ps', .cons key value rest, below => by
      unfold Compile.keysAndValues
      exact (k.mirrors k' key below.first).andThen
        ((v.mirrors v' value below.rest.first).andThen (pairsMirror ps ps' rest below.rest.rest))
termination_by structural ps => ps

theorem Stmt.mirrors : (s s' : Stmt) → RenamedStmt ρ s s' → Corresponding top top' (.statement s) (.statement s') →
    Mirrors ρ top top' (Compile.stmt s) (Compile.stmt s') Eq
  | .binding target e s, .binding target' e' s', .binding name value, place => by
      unfold Compile.stmt
      rw [name]
      exact (e.mirrors e' value (AllCorresponding.children place).first).andThen (store place target.name)
  | .returning e s, .returning e' s', .returning value, place => by
      unfold Compile.stmt
      exact (e.mirrors e' value (AllCorresponding.children place).first).andThen (emit place _ [])
  | .expression e s, .expression e' s', .expression value, place => by
      unfold Compile.stmt
      exact (e.mirrors e' value (AllCorresponding.children place).first).andThen (emit place _ [])
termination_by structural s => s

theorem blockMirrors : (b b' : Block) → RenamedBlock ρ b b' → Corresponding top top' (.block b) (.block b') →
    Mirrors ρ top top' (Compile.block b) (Compile.block b') Eq
  | ⟨ss, s⟩, ⟨ss', s'⟩, .block statements, place => by
      unfold Compile.block
      exact stmtsMirror ss ss' statements (.children place)
termination_by structural b => b

theorem stmtsMirror : (ss ss' : List Stmt) → RenamedStmts ρ ss ss' →
    AllCorresponding top top' (ss.map .statement) (ss'.map .statement) →
    Mirrors ρ top top' (Compile.stmts ss) (Compile.stmts ss') Eq
  | [], [], .nil, _ => by
      unfold Compile.stmts
      exact value ()
  | s :: ss, s' :: ss', .cons first rest, below => by
      unfold Compile.stmts
      exact (s.mirrors s' first below.first).andThen (stmtsMirror ss ss' rest below.rest)
termination_by structural ss => ss

end

end Runs

/- The builtins keep their names, so the first scopes of both runs have the same. -/
theorem freshRenamed (ρ : Renaming) : RenamedState ρ .fresh .fresh := by
  have filed : ∀ (bs : List Builtin) (index : Nat) {table table' : SymbolTable}, RenamedTable ρ table table' →
      RenamedTable ρ (defineBuiltins table index bs) (defineBuiltins table' index bs) := by
    intro bs
    induction bs with
    | nil => exact fun _ _ _ h => h
    | cons b rest ih =>
        intro index table table' h
        have next := h.put ⟨b.name, .builtin, index⟩
        rw [Symbol.rename, ρ.builtins b] at next
        exact ih (index + 1) next
  exact ⟨rfl, filed Builtin.all 0 .empty, rfl, rfl⟩

theorem renamedOutcome (ρ : Renaming) {p p' : Program} (renamed : RenamedStmts ρ p p') :
    SameOutcome ρ p p' p.compile p'.compile := by
  have place := @Corresponding.top (.program p) (.program p')
  have results := stmtsMirror p p' renamed (.children place) _ _ (freshRenamed ρ)
  unfold Program.compile Compiler.compile Compile.node
  rcases results.split with ⟨_, _, c, c', ran, ran', -, state⟩ | ⟨e, e', c, c', ran, ran', failure⟩
  · have same : c'.bytecode = c.bytecode := by simp [Compiler.bytecode, state.current, state.constants]
    simp only [ran, ran', same]
    exact .compiled c.bytecode
  · simp only [ran, ran']
    exact .failed failure

/- `let f = fn f(a) { fn() { f(a); len } }`: both names are captured, by a function without a name. -/
def Program.curried (f a : String) (span : Span) : Program :=
  let inner := Block.mk [.expression (.call (.name f span) [.name a span] span) span,
    .expression (.name "len" span) span] span
  let outer := Block.mk [.expression (.function none [] inner span) span] span
  [.binding ⟨f, span⟩ (.function (some f) [⟨a, span⟩] outer span) span]

theorem curriedRenamed (ρ : Renaming) (f a : String) (s s' : Span) :
    RenamedStmts ρ (Program.curried f a s) (Program.curried (ρ f) (ρ a) s') := by
  have builtin : RenamedExpr ρ (.name "len" s) (.name "len" s') := by
    have named : RenamedExpr ρ (.name "len" s) (.name (ρ "len") s') := .name
    rwa [show ρ "len" = "len" from ρ.builtins .len] at named
  have inner : RenamedStmts ρ
      [.expression (.call (.name f s) [.name a s] s) s, .expression (.name "len" s) s]
      [.expression (.call (.name (ρ f) s') [.name (ρ a) s'] s') s', .expression (.name "len" s') s'] :=
    .cons (.expression (.call .name (.cons .name .nil))) (.cons (.expression builtin) .nil)
  exact .cons (.binding rfl (.function rfl (.block (.cons (.expression (.function rfl (.block inner))) .nil)))) .nil

/- Two names for each other. -/
def Renaming.exchange : Renaming where
  map := Equiv.swap "f" "a"
  injective := (Equiv.swap "f" "a").injective
  builtins b := by cases b <;> decide

theorem renamedOutcomeExchanged :
    let p := Program.curried "f" "a" .unknown
    let p' := Program.curried "a" "f" ⟨3, 4, 1, 2⟩
    RenamedStmts .exchange p p' ∧ p.compile.isOk ∧ SameOutcome .exchange p p' p.compile p'.compile := by
  have renamed : RenamedStmts .exchange (Program.curried "f" "a" .unknown) (Program.curried "a" "f" ⟨3, 4, 1, 2⟩) :=
    curriedRenamed .exchange "f" "a" _ _
  exact ⟨renamed, by decide +kernel, renamedOutcome .exchange renamed⟩

end ClosureCode
