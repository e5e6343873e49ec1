import ClosureCode.CompileError
import ClosureCode.Emission
import ClosureCode.Object
import ClosureCode.Program.Rendering
import ClosureCode.SymbolTable

/-! The compiler. Code is emitted in one pass over the tree; a forward jump is emitted
with a placeholder and patched when its target is reached. A failure leaves what was
emitted, added and defined before it, with every function scope left. -/
namespace ClosureCode

structure Bytecode where
  code : Code
  constants : Array Object

structure Compiler where
  constants : Array Object
  table : SymbolTable
  /- The function being compiled, or the top level. -/
  current : Emission
  /- The functions around it, innermost first. -/
  enclosing : List Emission

/- The operand of a jump whose target is not known yet. -/
def jumpPlaceholder : Nat := 9999

def defineBuiltins (table : SymbolTable) (index : Nat) : List Builtin → SymbolTable
  | [] => table
  | b :: rest => defineBuiltins (table.defineBuiltin index b.name).2 (index + 1) rest

namespace Compiler

/-- Goes on from the names and constants of another run, with an empty stream. -/
def resume (table : SymbolTable) (constants : Array Object) : Compiler :=
  ⟨constants, table, .empty, []⟩

def fresh : Compiler := resume (defineBuiltins .empty 0 Builtin.all) #[]

instance : Inhabited Compiler := ⟨fresh⟩

def bytecode (c : Compiler) : Bytecode := ⟨c.current.code, c.constants⟩

/-- Starts the function's own stream and scope, in which its name and its parameters are known. -/
def enterFunction (name : Option String) (parameters : List Binder) (c : Compiler) : Compiler :=
  let table := c.table.enclose
  let table := match name with
    | some name => (table.defineFunctionName name).2
    | none => table
  let table := parameters.foldl (fun table p => (table.define p.name).2) table
  { c with table, current := .empty, enclosing := c.current :: c.enclosing }

/-- Goes back to the surrounding stream and scope; yields those of the function. -/
def leaveFunction (c : Compiler) : (Emission × SymbolTable) × Compiler :=
  let (current, enclosing) := match c.enclosing with
    | [] => (.empty, [])
    | e :: rest => (e, rest)
  let (outer, inner) := c.table.takeOuter
  ((c.current, inner), { c with table := outer.getD .empty, current, enclosing })

end Compiler

/- A step of the compiler. The state survives a failure, so it is part of both results. -/
abbrev Compile := EStateM CompileError Compiler

namespace Compile

/- Emits an instruction on behalf of `node`; nothing is emitted if it cannot be encoded. -/
def emit (node : Node) (opcode : Opcode) (operands : List Nat) : Compile Unit := fun c =>
  match Instruction.encode opcode operands with
  | .ok bytes => .ok () { c with current := c.current.append opcode bytes }
  | .error cause => .error (.instruction node.render node.span cause) c

def position : Compile Nat := fun c => .ok c.current.position c

/- Emits a jump with a placeholder and answers where it stands. -/
def emitJump (node : Node) (opcode : Opcode) : Compile Nat := do
  let start ← position
  emit node opcode [jumpPlaceholder]
  return start

/- Points the jump at `start` to the next instruction. -/
def patchJump (node : Node) (opcode : Opcode) (start : Nat) : Compile Unit := fun c =>
  match Instruction.encode opcode [c.current.position] with
  | .ok bytes => .ok () { c with current := c.current.patch start bytes }
  | .error cause => .error (.instruction node.render node.span cause) c

/- Every constant gets a slot of its own. -/
def addConstant (value : Object) : Compile Nat := fun c =>
  let slot := c.constants.size
  .ok slot { c with constants := c.constants.push value }

def define (name : String) : Compile Symbol := fun c =>
  let (symbol, table) := c.table.define name
  .ok symbol { c with table }

def resolve (name : String) : Compile (Option Symbol) := fun c =>
  let (symbol, table) := c.table.resolve name
  .ok symbol { c with table }

def loadSymbol (node : Node) (symbol : Symbol) : Compile Unit :=
  match symbol.storage with
  | .global => emit node .getGlobal [symbol.index]
  | .local => emit node .getLocal [symbol.index]
  | .builtin => emit node .getBuiltin [symbol.index]
  | .free => emit node .getFree [symbol.index]
  | .function => emit node .currentClosure []

def loadSymbols (node : Node) : List Symbol → Compile Unit
  | [] => pure ()
  | symbol :: rest => do
      loadSymbol node symbol
      loadSymbols node rest

/-- Ends an arm of a conditional, which leaves exactly one value: that of its last statement if
this is an expression, else null. -/
def finishBranch (node : Node) : Compile Unit := fun c =>
  if c.current.lastIs .pop then .ok () { c with current := c.current.dropLast }
  else emit node .pushNull [] c

/-- Ends a function, which returns the value of a last expression statement. -/
def finishBody (node : Node) : Compile Unit := fun c =>
  let c := if c.current.lastIs .pop then { c with current := c.current.returnLast } else c
  if c.current.lastIs .returnValue then .ok () c else emit node .returnNothing [] c

/-- Makes the closure in the surrounding code: the captured values, then the function. -/
def makeClosure (node : Node) (inner : Emission) (table : SymbolTable) (parameters : Nat) : Compile Unit := do
  loadSymbols node table.captured
  let slot ← addConstant (.compiled ⟨inner.code, table.definitions, parameters⟩)
  emit node .closure [slot, table.captured.length]

/-- Compiles `body` in a scope of its own, which is left even if `body` fails. -/
def function (node : Node) (name : Option String) (parameters : List Binder) (body : Compile Unit) :
    Compile Unit := fun c =>
  match body (c.enterFunction name parameters) with
  | .error e c => .error e c.leaveFunction.2
  | .ok _ c =>
      let ((inner, table), c) := c.leaveFunction
      makeClosure node inner table parameters.length c

def unaryOpcode : UnaryOp → Opcode
  | .negate => .negate
  | .not => .not

def binaryOpcode : BinaryOp → Opcode
  | .add => .add
  | .subtract => .subtract
  | .multiply => .multiply
  | .divide => .divide
  | .equal => .equal
  | .notEqual => .notEqual
  | .less => .less
  | .greater => .greater

mutual

def expr : Expr → Compile Unit
  | e@(.name name span) => do
      match ← resolve name with
      | none => throw (.undefinedVariable name span)
      | some symbol => loadSymbol (.expression e) symbol
  | e@(.integer value _) => do
      let slot ← addConstant (.integer value)
      emit (.expression e) .constant [slot]
  | e@(.string value _) => do
      let slot ← addConstant (.string value)
      emit (.expression e) .constant [slot]
  | e@(.boolean value _) => emit (.expression e) (if value then .pushTrue else .pushFalse) []
  | e@(.unary op operand _) => do
      expr operand
      emit (.expression e) (unaryOpcode op) []
  | e@(.binary op left right _) => do
      expr left
      expr right
      emit (.expression e) (binaryOpcode op) []
  | e@(.conditional condition consequence alternative _) => do
      let node := Node.expression e
      expr condition
      let toAlternative ← emitJump node .jumpUnlessTruthy
      block consequence
      finishBranch node
      let toEnd ← emitJump node .jump
      patchJump node .jumpUnlessTruthy toAlternative
      otherwise node alternative
      patchJump node .jump toEnd
  | e@(.function name parameters body _) =>
      let node := Node.expression e
      function node name parameters do
        block body
        finishBody node
  | e@(.call callee arguments _) => do
      expr callee
      exprs arguments
      emit (.expression e) .call [arguments.length]
  | e@(.array elements _) => do
      exprs elements
      emit (.expression e) .array [elements.length]
  | e@(.hash pairs _) => do
      keysAndValues pairs
      emit (.expression e) .hash [pairs.length * 2]
  | e@(.index collection position _) => do
      expr collection
      expr position
      emit (.expression e) .index []

/- The value of a conditional without an alternative is null. -/
def otherwise (node : Node) : Option Block → Compile Unit
  | none => emit node .pushNull []
  | some alternative => do
      block alternative
      finishBranch node

def exprs : List Expr → Compile Unit
  | [] => pure ()
  | e :: rest => do
      expr e
      exprs rest

def keysAndValues : List (Expr × Expr) → Compile Unit
  | [] => pure ()
  | (key, value) :: rest => do
      expr key
      expr value
      keysAndValues rest

def stmt : Stmt → Compile Unit
  | s@(.binding target value _) => do
      expr value
      let symbol ← define target.name
      let opcode := if symbol.storage = .global then .setGlobal else .setLocal
      emit (.statement s) opcode [symbol.index]
  | s@(.returning value _) => do
      expr value
      emit (.statement s) .returnValue []
  | s@(.expression value _) => do
      expr value
      emit (.statement s) .pop []

def block : Block → Compile Unit
  | ⟨statements, _⟩ => stmts statements

def stmts : List Stmt → Compile Unit
  | [] => pure ()
  | s :: rest => do
      stmt s
      stmts rest

end

def node : Node → Compile Unit
  | .program p => stmts p
  | .statement s => stmt s
  | .block b => block b
  | .expression e => expr e

end Compile

def Compiler.compile (c : Compiler) (node : Node) : Option CompileError × Compiler :=
  match Compile.node node c with
  | .ok _ c => (none, c)
  | .error e c => (some e, c)

def Program.compile (program : Program) : Except CompileError Bytecode :=
  match Compiler.fresh.compile (.program program) with
  | (none, c) => .ok c.bytecode
  | (some e, _) => .error e

end ClosureCode
