import ClosureCode.Proofs.Captures
import ClosureCode.Proofs.Session
import ClosureCode.Proofs.Visits

/-! Function literals in their surroundings, wherever a run of the compiler comes to one. The scope and the
stream around are put away while the body is compiled, and come back whatever becomes of it. -/
namespace ClosureCode

namespace Compile

/- The compiler as a run leaves it, whether it succeeds or fails. -/
def left {α : Type} (x : Compile α) (c : Compiler) : Compiler :=
  match x c with
  | .ok _ c' => c'
  | .error _ c' => c'

section Left
variable {α β : Type} {x : Compile α} {f : α → Compile β} {c c' : Compiler}

theorem leftOk {a : α} (ran : x c = .ok a c') : left x c = c' := by
  unfold left
  rw [ran]

theorem leftError {e : CompileError} (failed : x c = .error e c') : left x c = c' := by
  unfold left
  rw [failed]

theorem leftBindOk {a : α} (ran : x c = .ok a c') : left (x >>= f) c = left (f a) c' := by
  unfold left
  rw [bindOk ran]

end Left

/- The end of a block or of a body has at most one instruction to emit. -/
theorem finishBranchRun (n : Node) (c : Compiler) : ∃ c' : Compiler, c'.table = c.table ∧
    (finishBranch n c = .ok () c' ∨ finishBranch n c = emit n .pushNull [] c') := by
  unfold finishBranch
  cases c.current.lastIs .pop with
  | true => exact ⟨{ c with current := c.current.dropLast }, rfl, .inl rfl⟩
  | false => exact ⟨c, rfl, .inr rfl⟩

theorem finishBodyRun (n : Node) (c : Compiler) : ∃ c' : Compiler, c'.table = c.table ∧
    (finishBody n c = .ok () c' ∨ finishBody n c = emit n .returnNothing [] c') := by
  unfold finishBody
  dsimp only
  generalize returned : (if c.current.lastIs .pop then { c with current := c.current.returnLast } else c) = c'
  have same : c'.table = c.table := by
    rw [← returned]
    split <;> rfl
  cases c'.current.lastIs .returnValue with
  | true => exact ⟨c', same, .inl rfl⟩
  | false => exact ⟨c', same, .inr rfl⟩

end Compile

/- What a run leaves of the scopes: those around the innermost have at most captured more. -/
structure SymbolTable.Retained (table table' : SymbolTable) : Prop where
  sound : table'.Sound
  around : CapturedMore table.outer table'.outer

/- A run retains the scopes around, whether it succeeds or fails. -/
def Retains {α : Type} (x : Compile α) : Prop :=
  ∀ c : Compiler, c.table.Sound → c.table.Retained (Compile.left x c).table

namespace SymbolTable
variable {table table' table'' : SymbolTable}

theorem Sound.retained (h : table.Sound) : table.Retained table := ⟨h, .refl _⟩

theorem Retained.trans (first : table.Retained table') (second : table'.Retained table'') : table.Retained table'' :=
  ⟨second.sound, first.around.trans second.around⟩

theorem Sound.retainedResolve (h : table.Sound) (name : String) : table.Retained (table.resolve name).2 := by
  have enlarged := h.enlarged name
  cases enlarged.levels with
  | cons inner around => exact ⟨enlarged.sound, around⟩

/- A function is left with the scopes around it as they are by then. -/
theorem Retained.leave {inside inside' : SymbolTable} (h : inside.Retained inside')
    (around : inside.outer = table.scopes) :
    (inside'.takeOuter.1.getD .empty).Sound ∧
      CapturedMore table.scopes (inside'.takeOuter.1.getD .empty).scopes := by
  obtain ⟨own, outer⟩ := inside'
  have grown := h.around
  rw [around] at grown
  cases grown with
  | cons inner rest => exact ⟨(soundInside.mp h.sound).2, .cons inner rest⟩

end SymbolTable

/- The scope of a function, with its own names, inside those around it. -/
theorem Compiler.enterSound {c : Compiler} (h : c.table.Sound) (name : Option String) (parameters : List Binder) :
    (c.enterFunction name parameters).table.Sound := by
  have bound : ∀ {table : SymbolTable}, table.Sound →
      (parameters.foldl (fun table p => (table.define p.name).2) table).Sound := by
    induction parameters with
    | nil => exact fun sound => sound
    | cons p rest ih => exact fun sound => ih (sound.define p.name)
  unfold Compiler.enterFunction
  cases name with
  | none => exact bound h.enclose
  | some own => exact bound (h.enclose.defineFunctionName own)

/- Most steps have nothing to do with the names. -/
def Steady {α : Type} (x : Compile α) : Prop := ∀ c : Compiler, (Compile.left x c).table = c.table

namespace Steady
variable {α β : Type}

theorem andThen {x : Compile α} {f : α → Compile β} (first : Steady x) (second : ∀ a, Steady (f a)) :
    Steady (x >>= f) := by
  intro c
  have one := first c
  cases ran : x c with
  | error e c₁ =>
      rw [Compile.leftError ran] at one
      rw [Compile.leftError (Compile.bindError ran)]
      exact one
  | ok a c₁ =>
      rw [Compile.leftOk ran] at one
      rw [Compile.leftBindOk ran]
      exact (second a c₁).trans one

theorem nothing {a : α} : Steady (pure a) := fun _ => rfl

theorem addConstant (value : Object) : Steady (Compile.addConstant value) := fun _ => rfl

theorem emit (node : Node) (op : Opcode) (operands : List Nat) : Steady (Compile.emit node op operands) := by
  intro c
  unfold Compile.left Compile.emit
  cases Instruction.encode op operands <;> rfl

theorem emitJump (node : Node) (op : Opcode) : Steady (Compile.emitJump node op) := by
  have position : Steady Compile.position := fun _ => rfl
  exact position.andThen fun _ => (emit node op _).andThen fun _ => nothing

theorem patchJump (node : Node) (op : Opcode) (start : Nat) : Steady (Compile.patchJump node op start) := by
  intro c
  unfold Compile.left Compile.patchJump
  cases Instruction.encode op [c.current.position] <;> rfl

theorem ending {x : Compile Unit} {node : Node} {op : Opcode}
    (run : ∀ c, ∃ c' : Compiler, c'.table = c.table ∧ (x c = .ok () c' ∨ x c = Compile.emit node op [] c')) :
    Steady x := by
  intro c
  obtain ⟨c', same, run⟩ := run c
  cases run with
  | inl done =>
      rw [Compile.leftOk done]
      exact same
  | inr emits =>
      have steady := emit node op [] c'
      unfold Compile.left at steady ⊢
      rw [emits]
      exact steady.trans same

theorem finishBranch (node : Node) : Steady (Compile.finishBranch node) := ending (Compile.finishBranchRun node)

theorem finishBody (node : Node) : Steady (Compile.finishBody node) := ending (Compile.finishBodyRun node)

theorem loadSymbol (node : Node) (symbol : Symbol) : Steady (Compile.loadSymbol node symbol) := by
  unfold Compile.loadSymbol
  cases symbol.storage <;> exact emit node _ _

theorem loadSymbols (node : Node) : (symbols : List Symbol) → Steady (Compile.loadSymbols node symbols)
  | [] => nothing
  | symbol :: rest => (loadSymbol node symbol).andThen fun _ => loadSymbols node rest

theorem makeClosure (node : Node) (inner : Emission) (own : SymbolTable) (parameters : Nat) :
    Steady (Compile.makeClosure node inner own parameters) :=
  (loadSymbols node own.captured).andThen fun _ => (addConstant _).andThen fun _ => emit node _ _

theorem retains {x : Compile α} (h : Steady x) : Retains x := by
  intro c sound
  rw [h c]
  exact sound.retained

end Steady

namespace Retains
variable {α β : Type}

theorem andThen {x : Compile α} {f : α → Compile β} (first : Retains x) (second : ∀ a, Retains (f a)) :
    Retains (x >>= f) := by
  intro c sound
  have one := first c sound
  cases ran : x c with
  | error e c₁ =>
      rw [Compile.leftError ran] at one
      rw [Compile.leftError (Compile.bindError ran)]
      exact one
  | ok a c₁ =>
      rw [Compile.leftOk ran] at one
      rw [Compile.leftBindOk ran]
      exact one.trans (second a c₁ one.sound)

theorem load (node : Node) (name : String) (span : Span) :
    Retains (Compile.resolve name >>= fun
      | none => throw (.undefinedVariable name span)
      | some symbol => Compile.loadSymbol node symbol) := by
  have resolves : Retains (Compile.resolve name) := fun _ sound => sound.retainedResolve name
  refine resolves.andThen fun symbol => ?_
  cases symbol with
  | none => exact fun _ sound => sound.retained
  | some symbol => exact (Steady.loadSymbol node symbol).retains

theorem binding (node : Node) (name : String) :
    Retains (Compile.define name >>= fun symbol =>
      Compile.emit node (if symbol.storage = .global then .setGlobal else .setLocal) [symbol.index]) := by
  have defines : Retains (Compile.define name) := fun _ sound => ⟨sound.define name, .refl _⟩
  exact defines.andThen fun symbol => (Steady.emit node _ _).retains

theorem literal (node : Node) (value : Object) :
    Retains (Compile.addConstant value >>= fun slot => Compile.emit node .constant [slot]) :=
  ((Steady.addConstant value).andThen fun _ => Steady.emit node _ _).retains

/- The surroundings of a function, whatever becomes of its body: they are as if nothing but captures had been. -/
theorem functionScopes (node : Node) (name : Option String) (parameters : List Binder) {body : Compile Unit}
    (inside : Retains body) {c : Compiler} (sound : c.table.Sound) :
    (Compile.left (Compile.function node name parameters body) c).table.Sound ∧
      CapturedMore c.table.scopes (Compile.left (Compile.function node name parameters body) c).table.scopes := by
  have entered := inside _ (Compiler.enterSound sound name parameters)
  have around := TableKept.enterScopes c name parameters
  cases ran : body (c.enterFunction name parameters) with
  | error e c₁ =>
      have failed : Compile.function node name parameters body c = .error e c₁.leaveFunction.2 := by
        simp only [Compile.function, ran]
      rw [Compile.leftError ran] at entered
      rw [Compile.leftError failed]
      exact entered.leave around
  | ok u c₁ =>
      rw [Compile.leftOk ran] at entered
      obtain ⟨sound₁, grown⟩ := entered.leave around
      have closes : Compile.function node name parameters body c =
          Compile.makeClosure node c₁.leaveFunction.1.1 c₁.leaveFunction.1.2 parameters.length c₁.leaveFunction.2 := by
        simp only [Compile.function, ran]
      have steady := Steady.makeClosure node c₁.leaveFunction.1.1 c₁.leaveFunction.1.2 parameters.length
        c₁.leaveFunction.2
      unfold Compile.left at steady ⊢
      rw [closes, steady]
      exact ⟨sound₁, grown⟩

theorem function (node : Node) (name : Option String) (parameters : List Binder) {body : Compile Unit}
    (inside : Retains body) : Retains (Compile.function node name parameters body) := by
  intro c sound
  obtain ⟨sound', grown⟩ := functionScopes node name parameters inside sound
  cases grown with
  | cons inner around => exact ⟨sound', around⟩

end Retains

open Retains

mutual

theorem Expr.retains : (e : Expr) → Retains (Compile.expr e)
  | .name name span => by
      unfold Compile.expr
      exact load _ name span
  | .integer value span => by
      unfold Compile.expr
      exact literal _ _
  | .string value span => by
      unfold Compile.expr
      exact literal _ _
  | .boolean value span => by
      unfold Compile.expr
      exact (Steady.emit _ _ []).retains
  | .unary op operand span => by
      unfold Compile.expr
      exact operand.retains.andThen fun _ => (Steady.emit _ _ []).retains
  | .binary op left right span => by
      unfold Compile.expr
      exact left.retains.andThen fun _ => right.retains.andThen fun _ => (Steady.emit _ _ []).retains
  | .conditional condition ⟨consequence, place⟩ alternative span => by
      unfold Compile.expr Compile.block
      have jump (node : Node) (op : Opcode) := (Steady.emitJump node op).retains
      have patch (node : Node) (op : Opcode) (start : Nat) := (Steady.patchJump node op start).retains
      exact condition.retains.andThen fun _ => (jump _ _).andThen fun _ => (stmtsRetain consequence).andThen fun _ =>
        (Steady.finishBranch _).retains.andThen fun _ => (jump _ _).andThen fun _ => (patch _ _ _).andThen fun _ =>
          (alternativeRetains _ alternative).andThen fun _ => patch _ _ _
  | .function name parameters ⟨body, place⟩ span => by
      unfold Compile.expr Compile.block
      exact function _ name parameters ((stmtsRetain body).andThen fun _ => (Steady.finishBody _).retains)
  | .call callee arguments span => by
      unfold Compile.expr
      exact callee.retains.andThen fun _ => (exprsRetain arguments).andThen fun _ => (Steady.emit _ _ _).retains
  | .array elements span => by
      unfold Compile.expr
      exact (exprsRetain elements).andThen fun _ => (Steady.emit _ _ _).retains
  | .hash pairs span => by
      unfold Compile.expr
      exact (pairsRetain pairs).andThen fun _ => (Steady.emit _ _ _).retains
  | .index collection position span => by
      unfold Compile.expr
      exact collection.retains.andThen fun _ => position.retains.andThen fun _ => (Steady.emit _ _ []).retains

theorem alternativeRetains (node : Node) : (alternative : Option Block) → Retains (Compile.otherwise node alternative)
  | none => by
      unfold Compile.otherwise
      exact (Steady.emit _ _ []).retains
  | some ⟨statements, span⟩ => by
      unfold Compile.otherwise Compile.block
      exact (stmtsRetain statements).andThen fun _ => (Steady.finishBranch node).retains

theorem exprsRetain : (es : List Expr) → Retains (Compile.exprs es)
  | [] => by
      unfold Compile.exprs
      exact Steady.nothing.retains
  | e :: rest => by
      unfold Compile.exprs
      exact e.retains.andThen fun _ => exprsRetain rest

theorem pairsRetain : (pairs : List (Expr × Expr)) → Retains (Compile.keysAndValues pairs)
  | [] => by
      unfold Compile.keysAndValues
      exact Steady.nothing.retains
  | (key, value) :: rest => by
      unfold Compile.keysAndValues
      exact key.retains.andThen fun _ => value.retains.andThen fun _ => pairsRetain rest

theorem Stmt.retains : (s : Stmt) → Retains (Compile.stmt s)
  | .binding target value span => by
      unfold Compile.stmt
      exact value.retains.andThen fun _ => binding _ target.name
  | .returning value span => by
      unfold Compile.stmt
      exact value.retains.andThen fun _ => (Steady.emit _ _ []).retains
  | .expression value span => by
      unfold Compile.stmt
      exact value.retains.andThen fun _ => (Steady.emit _ _ []).retains

theorem stmtsRetain : (statements : List Stmt) → Retains (Compile.stmts statements)
  | [] => by
      unfold Compile.stmts
      exact Steady.nothing.retains
  | s :: rest => by
      unfold Compile.stmts
      exact s.retains.andThen fun _ => stmtsRetain rest

end

theorem Node.retains : (n : Node) → Retains (Compile.node n)
  | .program p => stmtsRetain p
  | .statement s => s.retains
  | .block ⟨statements, _⟩ => by
      unfold Compile.node Compile.block
      exact stmtsRetain statements
  | .expression e => e.retains

/- What comes before a part leaves a table as sound as it was. -/
theorem inTurnSound {ns : List Node} {stage : Compile Unit × Node} (member : stage ∈ inTurn ns) : Retains stage.1 := by
  induction ns generalizing stage with
  | nil => cases member
  | cons n rest ih =>
      cases List.mem_cons.mp member with
      | inl here =>
          cases here
          exact Steady.nothing.retains
      | inr later =>
          obtain ⟨next, place, same⟩ := List.mem_map.mp later
          cases same
          exact n.retains.andThen fun _ => ih place

theorem Retains.sound {α : Type} {x : Compile α} {a : α} {c c' : Compiler} (h : Retains x) (ran : x c = .ok a c')
    (sound : c.table.Sound) : c'.table.Sound := by
  have retained := h c sound
  rw [Compile.leftOk ran] at retained
  exact retained.sound

theorem Node.stageSound {n m : Node} {before : Compile Unit} {c c' : Compiler} (stage : (before, m) ∈ n.stages)
    (done : before c = .ok () c') (sound : c.table.Sound) : c'.table.Sound := by
  cases n with
  | program p => exact (inTurnSound stage).sound done sound
  | statement s => exact (inTurnSound stage).sound done sound
  | block b => exact (inTurnSound stage).sound done sound
  | expression x =>
      cases x with
      | conditional condition consequence alternative span =>
          have jump (n : Node) (op : Opcode) := (Steady.emitJump n op).retains
          have arm (n : Node) : Retains (Compile.block consequence >>= fun _ => Compile.finishBranch n) :=
            (Node.block consequence).retains.andThen fun _ => (Steady.finishBranch n).retains
          have first (n : Node) : Retains (Compile.firstArm n do
              Compile.block consequence
              Compile.finishBranch n) :=
            (jump n _).andThen fun _ => (arm n).andThen fun _ => (jump n _).andThen fun _ =>
              (Steady.patchJump n _ _).retains.andThen fun _ => Steady.nothing.retains
          have all : ∀ stage ∈ (Node.expression (.conditional condition consequence alternative span)).stages,
              Retains stage.1 := by
            intro stage member
            simp only [Node.stages, List.mem_cons, List.mem_map] at member
            obtain rfl | rfl | ⟨other, -, rfl⟩ := member
            · exact Steady.nothing.retains
            · exact condition.retains.andThen fun _ => (jump _ _).andThen fun _ => Steady.nothing.retains
            · exact condition.retains.andThen fun _ => (first _).andThen fun _ => Steady.nothing.retains
          exact (all _ stage).sound done sound
      | function name parameters body span =>
          cases List.mem_singleton.mp stage
          cases done
          exact Compiler.enterSound sound name parameters
      | name _ _ | integer _ _ | string _ _ | boolean _ _ => cases stage
      | unary _ _ _ | binary _ _ _ _ | call _ _ _ | array _ _ | hash _ _ | index _ _ _ =>
          exact (inTurnSound stage).sound done sound

theorem Visits.sound {top n : Node} {start c : Compiler} (visits : Visits top start n c)
    (sound : start.table.Sound) : c.table.Sound := by
  induction visits with
  | top => exact sound
  | part above stage done ih => exact Node.stageSound stage done ih

theorem builtinsSound {table : SymbolTable} (h : table.Sound) (builtins : List Builtin) (index : Nat) :
    (defineBuiltins table index builtins).Sound := by
  induction builtins generalizing table index with
  | nil => exact h
  | cons b rest ih => exact ih (h.defineBuiltin index b.name) (index + 1)

theorem compileLeft (c : Compiler) (n : Node) : (c.compile n).2 = Compile.left (Compile.node n) c := by
  cases ran : Compile.node n c with
  | ok u c' => rw [Compiler.compileOk ran, Compile.leftOk ran]
  | error e c' => rw [Compiler.compileError ran, Compile.leftError ran]

theorem Session.Reached.tableSound {s : Session} (reached : s.Reached) : s.compiler.table.Sound := by
  induction reached with
  | start => exact builtinsSound SymbolTable.emptySound Builtin.all 0
  | @call s before n ih =>
      change (s.compiler.compile n).2.table.Sound
      rw [compileLeft]
      exact (n.retains s.compiler ih).sound
  | resume before ih => exact ih

namespace Compile
variable {c c' : Compiler}

/- The body of a function, in a stream and a scope of its own. -/
def inside (name : Option String) (parameters : List Binder) (body : Block) (span : Span) : Compile Unit :=
  enter name parameters >>= fun _ => block body >>= fun _ =>
    finishBody (.expression (.function name parameters body span))

theorem emitOk {n : Node} {op : Opcode} {operands : List Nat} (ran : emit n op operands c = .ok () c') :
    ∃ bytes, Instruction.encode op operands = .ok bytes ∧ c' = { c with current := c.current.append op bytes } := by
  unfold emit at ran
  cases encoded : Instruction.encode op operands with
  | error e =>
      simp only [encoded] at ran
      cases ran
  | ok bytes =>
      simp only [encoded] at ran
      cases ran
      exact ⟨bytes, rfl, rfl⟩

theorem loadEmits (n : Node) (symbol : Symbol) :
    loadSymbol n symbol = emit n symbol.load.opcode symbol.load.operands := by
  unfold loadSymbol Symbol.load
  cases symbol.storage <;> rfl

/- One load for each symbol, and nothing else. -/
theorem loadsOk {n : Node} {symbols : List Symbol} (ran : loadSymbols n symbols c = .ok () c') :
    ∃ bytes, Instruction.encodeAll (symbols.map Symbol.load) = .ok bytes ∧
      c'.current.code.toList = c.current.code.toList ++ bytes ∧ c'.constants = c.constants := by
  induction symbols generalizing c with
  | nil =>
      cases ran
      exact ⟨[], rfl, (List.append_nil _).symm, rfl⟩
  | cons symbol rest ih =>
      obtain ⟨u, c₁, loaded, ran⟩ := bindRan ran
      rw [loadEmits] at loaded
      obtain ⟨first, encoded, rfl⟩ := emitOk loaded
      obtain ⟨more, others, code, pool⟩ := ih ran
      refine ⟨first ++ more, Instruction.encodeAllCons.mpr ⟨first, more, encoded, others, rfl⟩, ?_, pool⟩
      rw [code, Emission.appendCode, List.append_assoc]

theorem closureOk {n : Node} {inner : Emission} {own : SymbolTable} {parameters : Nat}
    (ran : makeClosure n inner own parameters c = .ok () c') :
    ∃ bytes, Instruction.encodeAll (own.captured.map Symbol.load ++
        [⟨.closure, [c.constants.size, own.captured.length]⟩]) = .ok bytes ∧
      c'.current.code.toList = c.current.code.toList ++ bytes := by
  obtain ⟨u, c₁, loaded, ran⟩ := bindRan ran
  obtain ⟨slot, c₂, added, ran⟩ := bindRan ran
  cases added
  obtain ⟨first, encoded, code, pool⟩ := loadsOk loaded
  obtain ⟨last, encoded', rfl⟩ := emitOk ran
  rw [pool] at encoded'
  have closes : Instruction.encodeAll [⟨.closure, [c.constants.size, own.captured.length]⟩] = .ok last :=
    Instruction.encodeAllOne.mpr encoded'
  refine ⟨first ++ last, Instruction.encodeAllAppend.mpr ⟨first, last, encoded, closes, rfl⟩, ?_⟩
  rw [Emission.appendCode, code, List.append_assoc]

end Compile

section Bodies
variable {name : Option String} {parameters : List Binder} {body : Block} {span : Span} {c c' : Compiler}

/- The stream around waits behind that of the body. -/
theorem insideEnclosing (ran : Compile.left (Compile.inside name parameters body span) c = c') :
    c'.enclosing = c.current :: c.enclosing := by
  obtain ⟨statements, place⟩ := body
  have kept := endingKeeps .body (.expression (.function name parameters ⟨statements, place⟩ span)) statements
    (c.enterFunction name parameters) fun _ => ⟨rfl, rfl⟩
  rw [← ran]
  unfold Compile.left
  split
  · rename_i ran
    change (Compile.stmts statements >>= _) (c.enterFunction name parameters) = _ at ran
    rw [Ending.finish, ran] at kept
    exact kept.1.enclosing
  · rename_i failed
    change (Compile.stmts statements >>= _) (c.enterFunction name parameters) = _ at failed
    rw [Ending.finish, failed] at kept
    exact kept.enclosing

theorem SymbolTable.takeOuterCaptured (table : SymbolTable) : table.takeOuter.2.captured = table.captured := by
  obtain ⟨inner, outer⟩ := table
  cases outer <;> rfl

/- The surroundings that a function is left for. -/
def Compiler.around (c inside : Compiler) : Compiler :=
  { inside with table := inside.table.takeOuter.1.getD .empty, current := c.current, enclosing := c.enclosing }

theorem leaveInside (ran : Compile.left (Compile.inside name parameters body span) c = c') :
    c'.leaveFunction = ((c'.current, c'.table.takeOuter.2), c.around c') := by
  unfold Compiler.leaveFunction
  rw [insideEnclosing ran]
  rfl

theorem functionFails {e : CompileError} (failed : Compile.inside name parameters body span c = .error e c') :
    Compile.expr (.function name parameters body span) c = .error e (c.around c') := by
  have left := leaveInside (Compile.leftError failed)
  unfold Compile.inside Compile.enter at failed
  change (Compile.block body >>= _) (c.enterFunction name parameters) = _ at failed
  unfold Compile.expr Compile.function
  simp only [failed, left]

theorem functionCompiles (ran : Compile.expr (.function name parameters body span) c = .ok () c') :
    ∃ c₁, Compile.inside name parameters body span c = .ok () c₁ ∧
      Compile.makeClosure (.expression (.function name parameters body span)) c₁.current c₁.table.takeOuter.2
        parameters.length (c.around c₁) = .ok () c' := by
  cases shut : Compile.inside name parameters body span c with
  | error e c₁ =>
      rw [functionFails shut] at ran
      cases ran
  | ok u c₁ =>
      have left := leaveInside (Compile.leftOk shut)
      refine ⟨c₁, rfl, ?_⟩
      unfold Compile.inside Compile.enter at shut
      change (Compile.block body >>= _) (c.enterFunction name parameters) = _ at shut
      unfold Compile.expr Compile.function at ran
      simpa only [shut, left] using ran

/- The end of a body keeps its names, whether it was compiled or not. -/
theorem bodyRetains (n : Node) (body : Block) : Retains (Compile.block body >>= fun _ => Compile.finishBody n) :=
  (Node.block body).retains.andThen fun _ => (Steady.finishBody n).retains

/- A literal that compiles adds the loads of what its body has captured, and the instruction for its closure. -/
theorem functionCloses (sound : c.table.Sound)
    (ran : Compile.expr (.function name parameters body span) c = .ok () c') :
    ∃ c₁ bytes, Compile.inside name parameters body span c = .ok () c₁ ∧
      Instruction.encodeAll (c₁.table.captured.map Symbol.load ++
        [⟨.closure, [c₁.constants.size, c₁.table.captured.length]⟩]) = .ok bytes ∧
      (c₁.table.captured.map (·.name)).Nodup ∧ c'.current.code.toList = c.current.code.toList ++ bytes := by
  obtain ⟨c₁, inside, closed⟩ := functionCompiles ran
  obtain ⟨bytes, encoded, code⟩ := Compile.closureOk closed
  rw [SymbolTable.takeOuterCaptured] at encoded
  have entered : (c.enterFunction name parameters).table.Sound := Compiler.enterSound sound name parameters
  have own : c₁.table.Sound := (bodyRetains _ body).sound inside entered
  exact ⟨c₁, bytes, inside, encoded, own.own.takes.distinct, code⟩

end Bodies

/- What is around a function literal when it was compiled, or has failed. -/
structure Compiler.Literal (c : Compiler) (name : Option String) (parameters : List Binder) (body : Block)
    (span : Span) (failure : Option CompileError) (after : Compiler) : Prop where
  fails : ∀ e c', Compile.inside name parameters body span c = .error e c' →
    failure = some e ∧ after.current = c.current
  compiles : failure = none → ∃ c' bytes, Compile.inside name parameters body span c = .ok () c' ∧
    Instruction.encodeAll (c'.table.captured.map Symbol.load ++
      [⟨.closure, [c'.constants.size, c'.table.captured.length]⟩]) = .ok bytes ∧
    (c'.table.captured.map (·.name)).Nodup ∧ after.current.code.toList = c.current.code.toList ++ bytes
  enclosing : after.enclosing = c.enclosing
  scopes : CapturedMore c.table.scopes after.table.scopes
  root : after.table.scopes.getLast? = c.table.scopes.getLast?

/- Wherever a run comes to, in any session, a function literal touches its surroundings only by captures and by what
makes its closure. -/
theorem literalAround {s : Session} (reached : s.Reached) {top n : Node} {c : Compiler}
    (visits : Visits top s.compiler n c) (name : Option String) (parameters : List Binder) (body : Block)
    (span : Span) :
    let literal := Node.expression (.function name parameters body span)
    c.Literal name parameters body span (c.compile literal).1 (c.compile literal).2 := by
  intro literal
  have sound := visits.sound reached.tableSound
  have left : Leaves c (c.compile literal).2 [] := compileLeaves c literal
  constructor
  case enclosing => exact left.enclosing
  case root =>
    by_cases top : c.table.outer = []
    · have same := left.table.lets top
      generalize (c.compile literal).2.table = table at same
      cases same
      rfl
    · exact left.table.root top
  case scopes =>
    have same : Compile.node literal = Compile.function literal name parameters
        (Compile.block body >>= fun _ => Compile.finishBody literal) := by
      rw [Compile.node, Compile.expr]
    rw [compileLeft, same]
    exact (functionScopes literal name parameters (bodyRetains literal body) sound).2
  case fails =>
    intro e c' failed
    have failed : Compile.node literal c = .error e (c.around c') := functionFails failed
    rw [Compiler.compileError failed]
    exact ⟨rfl, rfl⟩
  case compiles =>
    intro fine
    obtain ⟨c', ran⟩ := Compiler.compiled fine
    rw [Compiler.compileOk ran]
    exact functionCloses sound ran

def Block.using (names : List String) : Block :=
  ⟨names.map fun name => .expression (.name name .unknown) .unknown, .unknown⟩

/- In `fn(x) { x }`, where its body is come to: `fn() { x }` captures and `fn() { x; y }` fails. -/
theorem literalAroundCaptures :
    let c := Compiler.fresh.enterFunction none [⟨"x", .unknown⟩]
    let literal := fun names => Node.expression (.function none [] (.using names) .unknown)
    (c.compile (literal ["x"])).1 = none ∧
      c.Literal none [] (.using ["x"]) .unknown (c.compile (literal ["x"])).1 (c.compile (literal ["x"])).2 ∧
      (c.compile (literal ["x", "y"])).1 = some (.undefinedVariable "y" .unknown) ∧
      c.Literal none [] (.using ["x", "y"]) .unknown (c.compile (literal ["x", "y"])).1
        (c.compile (literal ["x", "y"])).2 := by
  intro c literal
  have visits : Visits (.expression (.function none [⟨"x", .unknown⟩] (.using ["x"]) .unknown)) Session.start.compiler
      (.block (.using ["x"])) c := .part .top (List.mem_singleton_self _) rfl
  exact ⟨by decide +kernel, literalAround .start visits none [] (.using ["x"]) .unknown, by decide +kernel,
    literalAround .start visits none [] (.using ["x", "y"]) .unknown⟩

end ClosureCode
