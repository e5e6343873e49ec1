import ClosureCode.Span

/-! Programs as trees. Every node carries the span of its text; equality of nodes
includes the spans, their meaning does not. -/
namespace ClosureCode

/- A name at the place where it is bound: a parameter or the target of a `let`. -/
structure Binder where
  name : String
  span : Span
  deriving DecidableEq, Repr

inductive UnaryOp where
  | negate
  | not
  deriving DecidableEq, Repr

inductive BinaryOp where
  | add
  | subtract
  | multiply
  | divide
  | equal
  | notEqual
  | less
  | greater
  deriving DecidableEq, Repr

def UnaryOp.symbol : UnaryOp → String
  | .negate => "-"
  | .not => "!"

def BinaryOp.symbol : BinaryOp → String
  | .add => "+"
  | .subtract => "-"
  | .multiply => "*"
  | .divide => "/"
  | .equal => "=="
  | .notEqual => "!="
  | .less => "<"
  | .greater => ">"

mutual

inductive Expr where
  | name (name : String) (span : Span)
  | integer (value : Int64) (span : Span)
  | string (value : String) (span : Span)
  | boolean (value : Bool) (span : Span)
  | unary (op : UnaryOp) (operand : Expr) (span : Span)
  | binary (op : BinaryOp) (left right : Expr) (span : Span)
  | conditional (condition : Expr) (consequence : Block) (alternative : Option Block) (span : Span)
  | function (name : Option String) (parameters : List Binder) (body : Block) (span : Span)
  | call (callee : Expr) (arguments : List Expr) (span : Span)
  | array (elements : List Expr) (span : Span)
  | hash (pairs : List (Expr × Expr)) (span : Span)
  | index (collection position : Expr) (span : Span)

inductive Stmt where
  | binding (target : Binder) (value : Expr) (span : Span)
  | returning (value : Expr) (span : Span)
  | expression (value : Expr) (span : Span)

structure Block where
  statements : List Stmt
  span : Span

end

abbrev Program := List Stmt

/- Anything that can be compiled or shown on its own. -/
inductive Node where
  | program (program : Program)
  | statement (statement : Stmt)
  | block (block : Block)
  | expression (expression : Expr)

def Expr.span : Expr → Span
  | .name _ s | .integer _ s | .string _ s | .boolean _ s => s
  | .unary _ _ s | .binary _ _ _ s => s
  | .conditional _ _ _ s | .function _ _ _ s | .call _ _ s => s
  | .array _ s | .hash _ s | .index _ _ s => s

def Stmt.span : Stmt → Span
  | .binding _ _ s | .returning _ s | .expression _ s => s

def Program.span (program : Program) : Span :=
  match program.head?, program.getLast? with
  | some first, some last => first.span.merge last.span
  | _, _ => .unknown

def Node.span : Node → Span
  | .program p => Program.span p
  | .statement s => s.span
  | .block b => b.span
  | .expression e => e.span

instance : Inhabited Expr := ⟨.boolean false .unknown⟩
instance : Inhabited Stmt := ⟨.expression default .unknown⟩
instance : Inhabited Block := ⟨⟨[], .unknown⟩⟩

end ClosureCode
