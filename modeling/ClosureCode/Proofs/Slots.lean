import ClosureCode.Proofs.References

/-! Slots. No two `let`s share one: at the top level the `let`s outside of function literals take the globals one
after the other, and in a function they take the locals behind its parameters. -/
namespace ClosureCode

/- The parameters of a function literal, and the targets of the `let`s of its body outside of nested literals. -/
structure FunctionLiteral where
  parameters : List Binder
  lets : List Binder

/- The targets of the `let`s of some part of a program outside of function literals, and its function literals,
each after those inside it. Both are in the order in which they are compiled. -/
structure Declarations where
  lets : List Binder
  functions : List FunctionLiteral

def Declarations.none : Declarations := ⟨[], []⟩

instance : Append Declarations := ⟨fun a b => ⟨a.lets ++ b.lets, a.functions ++ b.functions⟩⟩

mutual

def Expr.declarations : Expr → Declarations
  | .name _ _ | .integer _ _ | .string _ _ | .boolean _ _ => .none
  | .unary _ operand _ => operand.declarations
  | .binary _ left right _ => left.declarations ++ right.declarations
  | .conditional condition ⟨consequence, _⟩ alternative _ =>
      condition.declarations ++ (stmtsDeclarations consequence ++ alternativeDeclarations alternative)
  | .function _ parameters ⟨body, _⟩ _ =>
      let inside := stmtsDeclarations body
      ⟨[], inside.functions ++ [⟨parameters, inside.lets⟩]⟩
  | .call callee arguments _ => callee.declarations ++ exprsDeclarations arguments
  | .array elements _ => exprsDeclarations elements
  | .hash pairs _ => pairsDeclarations pairs
  | .index collection position _ => collection.declarations ++ position.declarations

def alternativeDeclarations : Option Block → Declarations
  | none => .none
  | some ⟨statements, _⟩ => stmtsDeclarations statements

def exprsDeclarations : List Expr → Declarations
  | [] => .none
  | e :: rest => e.declarations ++ exprsDeclarations rest

def pairsDeclarations : List (Expr × Expr) → Declarations
  | [] => .none
  | (key, value) :: rest => (key.declarations ++ value.declarations) ++ pairsDeclarations rest

def Stmt.declarations : Stmt → Declarations
  | .binding target value _ => value.declarations ++ ⟨[target], []⟩
  | .returning value _ | .expression value _ => value.declarations

def stmtsDeclarations : List Stmt → Declarations
  | [] => .none
  | s :: rest => s.declarations ++ stmtsDeclarations rest

end

def Program.declarations (program : Program) : Declarations := stmtsDeclarations program

/- The parameters and the `let`s of each function, each function after those inside it. -/
mutual

def Event.shapes : Event → List (List String × List String)
  | .use _ | .bind _ => []
  | .function _ parameters body => ClosureCode.shapes body ++ [(parameters, lets body)]

def shapes : List Event → List (List String × List String)
  | [] => []
  | e :: rest => e.shapes ++ shapes rest

end

theorem shapesAppend (a b : List Event) : shapes (a ++ b) = shapes a ++ shapes b := by
  induction a with
  | nil => rfl
  | cons e rest ih => simp [shapes, ih]

theorem letsAppend (a b : List Event) : lets (a ++ b) = lets a ++ lets b := List.filterMap_append

def FunctionLiteral.shape (l : FunctionLiteral) : List String × List String :=
  (l.parameters.map (·.name), l.lets.map (·.name))

/- The events bind what is declared. -/
structure Declares (events : List Event) (d : Declarations) : Prop where
  targets : lets events = d.lets.map (·.name)
  literals : shapes events = d.functions.map FunctionLiteral.shape

namespace Declares

theorem none : Declares [] .none := ⟨rfl, rfl⟩

theorem append {a b : List Event} {d d' : Declarations} (first : Declares a d) (second : Declares b d') :
    Declares (a ++ b) (d ++ d') := by
  have names : lets (a ++ b) = (d ++ d').lets.map (·.name) := by
    rw [letsAppend, first.targets, second.targets]
    exact List.map_append.symm
  have literals : shapes (a ++ b) = (d ++ d').functions.map FunctionLiteral.shape := by
    rw [shapesAppend, first.literals, second.literals]
    exact List.map_append.symm
  exact ⟨names, literals⟩

theorem function {events : List Event} {d : Declarations} (inside : Declares events d) (name : Option String)
    (parameters : List Binder) :
    Declares [.function name (parameters.map (·.name)) events] ⟨[], d.functions ++ [⟨parameters, d.lets⟩]⟩ := by
  constructor
  · rfl
  simp [ClosureCode.shapes, Event.shapes, inside.literals, inside.targets, FunctionLiteral.shape]

end Declares

mutual

theorem Expr.declares : (e : Expr) → Declares e.events e.declarations
  | .name _ _ => by
      unfold Expr.events Expr.declarations
      exact ⟨rfl, rfl⟩
  | .integer _ _ | .string _ _ | .boolean _ _ => by
      unfold Expr.events Expr.declarations
      exact .none
  | .unary _ operand _ => by
      unfold Expr.events Expr.declarations
      exact operand.declares
  | .binary _ left right _ => by
      unfold Expr.events Expr.declarations
      exact left.declares.append right.declares
  | .conditional condition ⟨consequence, _⟩ alternative _ => by
      unfold Expr.events Expr.declarations
      exact condition.declares.append ((stmtsDeclare consequence).append (alternativeDeclares alternative))
  | .function name parameters ⟨body, _⟩ _ => by
      unfold Expr.events Expr.declarations
      exact (stmtsDeclare body).function name parameters
  | .call callee arguments _ => by
      unfold Expr.events Expr.declarations
      exact callee.declares.append (exprsDeclare arguments)
  | .array elements _ => by
      unfold Expr.events Expr.declarations
      exact exprsDeclare elements
  | .hash pairs _ => by
      unfold Expr.events Expr.declarations
      exact pairsDeclare pairs
  | .index collection position _ => by
      unfold Expr.events Expr.declarations
      exact collection.declares.append position.declares

theorem alternativeDeclares : (alternative : Option Block) →
    Declares (alternativeEvents alternative) (alternativeDeclarations alternative)
  | none => by
      unfold alternativeEvents alternativeDeclarations
      exact .none
  | some ⟨statements, _⟩ => by
      unfold alternativeEvents alternativeDeclarations
      exact stmtsDeclare statements

theorem exprsDeclare : (es : List Expr) → Declares (exprsEvents es) (exprsDeclarations es)
  | [] => by
      unfold exprsEvents exprsDeclarations
      exact .none
  | e :: rest => by
      unfold exprsEvents exprsDeclarations
      exact e.declares.append (exprsDeclare rest)

theorem pairsDeclare : (pairs : List (Expr × Expr)) → Declares (pairsEvents pairs) (pairsDeclarations pairs)
  | [] => by
      unfold pairsEvents pairsDeclarations
      exact .none
  | (key, value) :: rest => by
      unfold pairsEvents pairsDeclarations
      exact (key.declares.append value.declares).append (pairsDeclare rest)

theorem Stmt.declares : (s : Stmt) → Declares s.events s.declarations
  | .binding target value _ => by
      unfold Stmt.events Stmt.declarations
      exact value.declares.append ⟨rfl, rfl⟩
  | .returning value _ | .expression value _ => by
      unfold Stmt.events Stmt.declarations
      exact value.declares

theorem stmtsDeclare : (statements : List Stmt) → Declares (stmtsEvents statements) (stmtsDeclarations statements)
  | s :: rest => by
      unfold stmtsEvents stmtsDeclarations
      exact s.declares.append (stmtsDeclare rest)
  | [] => by
      unfold stmtsEvents stmtsDeclarations
      exact .none

end

/- The operands of the instructions with some opcode, in the order of the stream. -/
def operandsOf (op : Opcode) (is : List Instruction) : List (List Nat) :=
  (is.filter (·.opcode = op)).map (·.operands)

section Stores
variable {pool : List Object} {frames : List LexicalFrame} {outer : List (List Instruction)} {slot slot' : Nat}
  {events : List Event} {is : List Instruction}

theorem operandsOfStores {op : Opcode} (store : op.isStore) (is : List Instruction) :
    operandsOf op is = operandsOf op (is.filter (·.opcode.isStore)) := by
  have same : ∀ i : Instruction, decide (i.opcode = op) = (decide (i.opcode = op) && i.opcode.isStore) := by
    intro i
    by_cases here : i.opcode = op
    · simp [here, store]
    · simp [here]
  rw [operandsOf, operandsOf, List.filter_filter]
  simp only [← same]

theorem operandsOfGlobals (slots : List Nat) : operandsOf .setGlobal (slots.map (storeOf [])) = slots.map ([·]) := by
  simp [operandsOf, List.filter_map, storeOf, Function.comp_def]

theorem operandsOfLocals (loads : List Instruction) (outer : List (List Instruction)) (slots : List Nat) :
    operandsOf .setLocal (slots.map (storeOf (loads :: outer))) = slots.map ([·]) ∧
      operandsOf .setGlobal (slots.map (storeOf (loads :: outer))) = [] := by
  simp [operandsOf, List.filter_map, storeOf, Function.comp_def]

/- The function has so many parameters, and behind them a local for each `let`. -/
structure HoldsLocals (parameters lets : Nat) (f : CompiledFunction) : Prop where
  count : f.parameters = parameters ∧ f.locals = parameters + lets
  stores : ∃ is, Instruction.decodeAll f.code.toList = .ok is ∧
    operandsOf .setLocal is = (List.range' parameters lets).map ([·]) ∧ operandsOf .setGlobal is = []

theorem Realizes.holdsLocals {name : Option String} {parameters : List String} {body : List Event}
    {code loads : List Instruction} {own : Nat} {f : CompiledFunction}
    (inside : Realizes pool (functionFrame name parameters :: frames) (loads :: outer) slot body code own)
    (decoded : Instruction.decodeAll f.code.toList = .ok code)
    (count : f.parameters = parameters.length ∧ f.locals = parameters.length + (lets body).length) :
    HoldsLocals parameters.length (lets body).length f := by
  have stores := inside.stores
  have first : ((functionFrame name parameters :: frames).headD topFrame).bound.length = parameters.length := by
    simp [functionFrame]
  rw [first] at stores
  have slots := operandsOfLocals loads outer (List.range' parameters.length (lets body).length)
  rw [← stores, ← operandsOfStores rfl, ← operandsOfStores rfl] at slots
  exact ⟨count, code, decoded, slots⟩

theorem Realizes.locals (h : Realizes pool frames outer slot events is slot') :
    List.Forall₂ (fun literal g => HoldsLocals literal.1.length literal.2.length g.2) (shapes events)
      ((between slot slot').filterMap (functionAt pool)) := by
  induction h with
  | done => simp [shapes, betweenSelf]
  | silent silent rest ih => exact ih
  | @constant frames outer slot events is slot' object constant literal rest ih =>
      rw [betweenSplit (Nat.le_add_right slot 1) rest.slots, betweenOne, List.filterMap_append]
      simpa [functionAtLiteral constant literal] using ih
  | use means reaches rest ih => exact ih
  | bind rest ih => exact ih
  | @function frames outer slot events is slot' name parameters body code loads own f captures inside constant decoded count
      rest ihInside ih =>
      have here : [own].filterMap (functionAt pool) = [(own, f)] := by simp [functionAtCompiled constant]
      have holds : List.Forall₂ (fun literal g => HoldsLocals literal.1.length literal.2.length g.2)
          [(parameters, lets body)] [(own, f)] := .cons (inside.holdsLocals decoded count) .nil
      rw [betweenSplit inside.slots (Nat.le_trans (Nat.le_add_right own 1) rest.slots),
        betweenSplit (Nat.le_add_right own 1) rest.slots, betweenOne, List.filterMap_append, List.filterMap_append,
        here, shapes, Event.shapes, List.append_assoc]
      exact List.rel_append ihInside (List.rel_append holds ih)

end Stores

/- The `let`s outside of function literals take the globals from the first on, and those of a function the locals
behind its parameters, each one slot after that before. -/
structure SlotsInOrder (program : Program) (b : Bytecode) : Prop where
  globals : ∃ is, Instruction.decodeAll b.code.toList = .ok is ∧
    operandsOf .setGlobal is = (List.range program.declarations.lets.length).map ([·])
  locals : List.Forall₂ (fun literal g => HoldsLocals literal.parameters.length literal.lets.length g.2)
    program.declarations.functions b.functions

theorem slotsInOrder {program : Program} {b : Bytecode} (compiled : program.compile = .ok b) :
    SlotsInOrder program b := by
  obtain ⟨l, lower, assembled⟩ := lowered compiled
  obtain ⟨s, fragment⟩ := program.fragment lower
  obtain ⟨is, decoded, realizes⟩ := assembledRealizes fragment assembled
  have declares : Declares program.events program.declarations := stmtsDeclare program
  have globals : operandsOf .setGlobal is = (List.range program.declarations.lets.length).map ([·]) := by
    have count : (lets program.events).length = program.declarations.lets.length := by simp [declares.targets]
    rw [operandsOfStores rfl, realizes.stores, operandsOfGlobals, count, List.range_eq_range']
    rfl
  have locals := realizes.locals
  have slots : between 0 b.constants.size = List.range b.constants.size := List.range_eq_range'.symm
  rw [slots, declares.literals, List.forall₂_map_left_iff] at locals
  simp only [FunctionLiteral.shape, List.length_map] at locals
  exact ⟨⟨is, decoded, globals⟩, locals⟩

theorem slotsInOrderNested : ∃ b, Program.nested.compile = .ok b ∧ SlotsInOrder Program.nested b := by
  obtain ⟨b, compiled⟩ := nestedCompiles
  exact ⟨b, compiled, slotsInOrder compiled⟩

end ClosureCode
