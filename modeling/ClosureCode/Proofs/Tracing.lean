import ClosureCode.Proofs.Accounts
import ClosureCode.Proofs.Surroundings

/-! The compiler with a journal of what it does to the streams. It does what the compiler does, whether this succeeds
or fails, and everything in its journal was due. -/
namespace ClosureCode
open Instruction (encode extent)

/- A compiler, and what was done to its streams, latest act first. -/
structure Log where
  compiler : Compiler
  acts : List Act

abbrev Traced := EStateM CompileError Log

namespace Traced
variable {α : Type}

/- A step that touches no stream. -/
def quiet (x : Compile α) : Traced α := fun l =>
  match x l.compiler with
  | .ok a c => .ok a { l with compiler := c }
  | .error e c => .error e { l with compiler := c }

/- A step on a stream, which is written down unless it fails. -/
def perform (act : Act) (x : Compile Unit) : Traced Unit := fun l =>
  match x l.compiler with
  | .ok u c => .ok u ⟨c, act :: l.acts⟩
  | .error e c => .error e { l with compiler := c }

def emit (node : Node) (opcode : Opcode) (operands : List Nat) : Traced Unit :=
  perform (.emit node opcode operands) (Compile.emit node opcode operands)

def emitJump (node : Node) (opcode : Opcode) : Traced Nat := do
  let start ← quiet Compile.position
  emit node opcode [jumpPlaceholder]
  return start

def patchJump (node : Node) (opcode : Opcode) (start : Nat) : Traced Unit :=
  perform (.patch node opcode start) (Compile.patchJump node opcode start)

def loadSymbol (node : Node) (symbol : Symbol) : Traced Unit := emit node symbol.load.opcode symbol.load.operands

def loadSymbols (node : Node) : List Symbol → Traced Unit
  | [] => pure ()
  | symbol :: rest => do
      loadSymbol node symbol
      loadSymbols node rest

/- Ends an arm, whose block was compiled just before. -/
def finishBranch (node : Node) (arm : Block) : Traced Unit := fun l =>
  if l.compiler.current.lastIs .pop then perform (.takeBack arm) (Compile.finishBranch node) l
  else emit node .pushNull [] l

/- Ends a function, whose body was compiled just before. -/
def finishBody (node : Node) (body : Block) : Traced Unit := fun l =>
  if l.compiler.current.lastIs .pop then perform (.returnLast body) (Compile.finishBody node) l
  else if l.compiler.current.lastIs .returnValue then .ok () l
  else emit node .returnNothing [] l

def makeClosure (node : Node) (inner : Emission) (table : SymbolTable) (parameters : Nat) : Traced Unit := do
  loadSymbols node table.captured
  let slot ← quiet (Compile.addConstant (.compiled ⟨inner.code, table.definitions, parameters⟩))
  emit node .closure [slot, table.captured.length]

def function (node : Node) (name : Option String) (parameters : List Binder) (body : Traced Unit) : Traced Unit :=
  fun l =>
    match body ⟨l.compiler.enterFunction name parameters, .enter :: l.acts⟩ with
    | .error e l => .error e ⟨l.compiler.leaveFunction.2, .leave :: l.acts⟩
    | .ok _ l =>
        let ((inner, table), c) := l.compiler.leaveFunction
        makeClosure node inner table parameters.length ⟨c, .leave :: l.acts⟩

mutual

def expr : Expr → Traced Unit
  | e@(.name name span) => do
      match ← quiet (Compile.resolve name) with
      | none => throw (.undefinedVariable name span)
      | some symbol => loadSymbol (.expression e) symbol
  | e@(.integer value _) => do
      let slot ← quiet (Compile.addConstant (.integer value))
      emit (.expression e) .constant [slot]
  | e@(.string value _) => do
      let slot ← quiet (Compile.addConstant (.string value))
      emit (.expression e) .constant [slot]
  | e@(.boolean value _) => emit (.expression e) (if value then .pushTrue else .pushFalse) []
  | e@(.unary op operand _) => do
      expr operand
      emit (.expression e) (Compile.unaryOpcode op) []
  | e@(.binary op left right _) => do
      expr left
      expr right
      emit (.expression e) (Compile.binaryOpcode op) []
  | e@(.conditional condition consequence alternative _) => do
      let node := Node.expression e
      expr condition
      let toAlternative ← emitJump node .jumpUnlessTruthy
      block consequence
      finishBranch node consequence
      let toEnd ← emitJump node .jump
      patchJump node .jumpUnlessTruthy toAlternative
      otherwise node alternative
      patchJump node .jump toEnd
  | e@(.function name parameters body _) =>
      let node := Node.expression e
      function node name parameters do
        block body
        finishBody node body
  | e@(.call callee arguments _) => do
      expr callee
      exprs arguments
      emit (.expression e) .call [arguments.length]
  | e@(.array elements _) => do
      exprs elements
      emit (.expression e) .array [elements.length]
  | e@(.hash pairs _) => do
      keysAndValues pairs
      emit (.expression e) .hash [pairs.length * 2]
  | e@(.index collection position _) => do
      expr collection
      expr position
      emit (.expression e) .index []

def otherwise (node : Node) : Option Block → Traced Unit
  | none => emit node .pushNull []
  | some alternative => do
      block alternative
      finishBranch node alternative

def exprs : List Expr → Traced Unit
  | [] => pure ()
  | e :: rest => do
      expr e
      exprs rest

def keysAndValues : List (Expr × Expr) → Traced Unit
  | [] => pure ()
  | (key, value) :: rest => do
      expr key
      expr value
      keysAndValues rest

def stmt : Stmt → Traced Unit
  | s@(.binding target value _) => do
      expr value
      let symbol ← quiet (Compile.define target.name)
      let opcode := if symbol.storage = .global then .setGlobal else .setLocal
      emit (.statement s) opcode [symbol.index]
  | s@(.returning value _) => do
      expr value
      emit (.statement s) .returnValue []
  | s@(.expression value _) => do
      expr value
      emit (.statement s) .pop []

def block : Block → Traced Unit
  | ⟨statements, _⟩ => stmts statements

def stmts : List Stmt → Traced Unit
  | [] => pure ()
  | s :: rest => do
      stmt s
      stmts rest

end

def node : Node → Traced Unit
  | .program p => stmts p
  | .statement s => stmt s
  | .block b => block b
  | .expression e => expr e

end Traced

/- The traced step does what the step does; then `done` holds of it, or `failed`. -/
def Follows {α : Type} (x : Compile α) (y : Traced α) (l : Log) (done : α → Log → Prop) (failed : Log → Prop) : Prop :=
  match y l with
  | .ok a l' => x l.compiler = .ok a l'.compiler ∧ done a l'
  | .error e l' => x l.compiler = .error e l'.compiler ∧ failed l'

namespace Follows
variable {α β : Type} {x : Compile α} {y : Traced α} {l : Log} {done done' : α → Log → Prop}
  {failed failed' : Log → Prop}

theorem weaken (h : Follows x y l done failed) (good : ∀ a l', done a l' → done' a l')
    (bad : ∀ l', failed l' → failed' l') : Follows x y l done' failed' := by
  unfold Follows at h ⊢
  split at h
  · exact ⟨h.1, good _ _ h.2⟩
  · exact ⟨h.1, bad _ h.2⟩

theorem whenDone (h : Follows x y l done failed) (good : ∀ a l', done a l' → done' a l') : Follows x y l done' failed :=
  h.weaken good fun _ bad => bad

theorem whenFailed (h : Follows x y l done failed) (bad : ∀ l', failed l' → failed' l') : Follows x y l done failed' :=
  h.weaken (fun _ _ good => good) bad

theorem bind {f : α → Compile β} {g : α → Traced β} {after : β → Log → Prop} (first : Follows x y l done failed)
    (next : ∀ a l', done a l' → Follows (f a) (g a) l' after failed) :
    Follows (x >>= f) (y >>= g) l after failed := by
  unfold Follows at first
  cases ran : y l with
  | ok a l' =>
      simp only [ran] at first
      have bound : (y >>= g) l = g a l' := by
        change EStateM.bind y g l = _
        rw [EStateM.bind, ran]
      have rest := next a l' first.2
      unfold Follows at rest ⊢
      rw [bound, Compile.bindOk first.1]
      exact rest
  | error e l' =>
      simp only [ran] at first
      have bound : (y >>= g) l = .error e l' := by
        change EStateM.bind y g l = _
        rw [EStateM.bind, ran]
      unfold Follows
      rw [bound, Compile.bindError first.1]
      exact ⟨rfl, first.2⟩

end Follows

/- The journal is in order and tells what the streams are: the innermost holds what was `written`. -/
structure Log.Has (l : Log) (written : List Written) (around : List Account) : Prop where
  journal : Journal l.acts
  accounts : replay l.acts = ⟨l.compiler.current, written⟩ :: around
  enclosing : l.compiler.enclosing = around.map Account.emission

/- The stream has grown, and those around it are as before. -/
def Log.Grown (written : List Written) (around : List Account) (l : Log) : Prop :=
  ∃ more, l.Has (written ++ more) around

/- Started with a log that is `ready`, a traced run writes down what it does, and a successful one gives `more` after
which `after` holds. -/
def Records {α : Type} (ready : Log → Prop) (x : Compile α) (y : Traced α) (after : List Written → Log → Prop) : Prop :=
  ∀ l written around, l.Has written around → ready l →
    Follows x y l (fun _ l' => ∃ more, l'.Has (written ++ more) around ∧ after more l') (Log.Grown written around)

/- Any log. -/
def anyLog (_ : Log) : Prop := True

def anyEnd (_ : List Written) (_ : Log) : Prop := True

def adding (more : List Written) (_ : Log) : Prop := more ≠ []

def Log.Open (l : Log) : Prop := l.compiler.current.lastIs .pop = false

namespace Log.Has
variable {l : Log} {written : List Written} {around : List Account}

theorem grown (h : l.Has written around) : Log.Grown written around l := ⟨[], by rwa [List.append_nil]⟩

theorem exact (h : l.Has written around) : Account.Exact ⟨l.compiler.current, written⟩ :=
  h.journal.exact (List.suffix_refl _) _ (h.accounts ▸ List.mem_cons_self)

/- An act that is due goes into the journal. -/
theorem act (h : l.Has written around) (act : Act) (due : act.Due l.acts) {current : Emission} {now : List Written}
    (does : act.apply (⟨l.compiler.current, written⟩ :: around) = ⟨current, now⟩ :: around) :
    Log.Has ⟨{ l.compiler with current }, act :: l.acts⟩ now around :=
  ⟨h.journal.act due, by rw [replay, h.accounts, does], h.enclosing⟩

end Log.Has

theorem Log.Grown.further {written more : List Written} {around : List Account} {l : Log}
    (h : Log.Grown (written ++ more) around l) : Log.Grown written around l := by
  obtain ⟨rest, has⟩ := h
  exact ⟨more ++ rest, by rwa [← List.append_assoc]⟩

namespace Records
variable {α β : Type} {ready ready' : Log → Prop} {middle last after after' : List Written → Log → Prop}

theorem weaken {x : Compile α} {y : Traced α} (h : Records ready x y after) (before : ∀ l, ready' l → ready l)
    (next : ∀ more l, after more l → after' more l) : Records ready' x y after' := by
  intro l written around has isReady
  refine (h l written around has (before l isReady)).whenDone fun a l' ⟨more, has', done⟩ => ?_
  exact ⟨more, has', next more l' done⟩

theorem andThen {x : Compile α} {y : Traced α} {f : α → Compile β} {g : α → Traced β}
    (first : Records ready x y middle) (next : ∀ a, Records ready' (f a) (g a) last)
    (start : ∀ {more l}, middle more l → ready' l)
    (whole : ∀ {more more' l l'}, middle more l → last more' l' → after (more ++ more') l') :
    Records ready (x >>= f) (y >>= g) after := by
  intro l written around has isReady
  refine (first l written around has isReady).bind fun a l' ⟨more, has', done⟩ => ?_
  refine (next a l' _ _ has' (start done)).weaken (fun b l'' ⟨more', has'', done'⟩ => ?_) fun _ bad => bad.further
  exact ⟨more ++ more', by rwa [← List.append_assoc], whole done done'⟩

theorem inTurn {x y : Compile Unit} {x' y' : Traced Unit} (first : Records ready x x' middle)
    (second : Records anyLog y y' last) : Records ready (x >>= fun _ => y) (x' >>= fun _ => y') anyEnd :=
  first.andThen (fun _ => second) (fun _ => trivial) fun _ _ => trivial

theorem thenAdds {x : Compile α} {y : Traced α} {f : α → Compile β} {g : α → Traced β}
    (first : Records ready x y middle) (second : ∀ a, Records anyLog (f a) (g a) adding) :
    Records ready (x >>= f) (y >>= g) adding :=
  first.andThen second (fun _ => trivial) fun _ some => List.append_ne_nil_of_right_ne_nil _ some

theorem nothing : Records ready (pure () : Compile Unit) (pure ()) (fun more l => more = [] ∧ ready l) :=
  fun _ _ _ has isReady => ⟨rfl, [], by rwa [List.append_nil], rfl, isReady⟩

theorem fails (e : CompileError) : Records ready (throw e : Compile α) (throw e) after :=
  fun _ _ _ has _ => ⟨rfl, has.grown⟩

/- A step on names or constants. -/
theorem quiet {x : Compile α}
    (still : ∀ c, (Compile.left x c).current = c.current ∧ (Compile.left x c).enclosing = c.enclosing) :
    Records anyLog x (Traced.quiet x) (fun more _ => more = []) := by
  intro l written around has _
  have same := still l.compiler
  have moved : ∀ c : Compiler, c.current = l.compiler.current ∧ c.enclosing = l.compiler.enclosing →
      Log.Has ⟨c, l.acts⟩ written around := by
    intro c same
    exact ⟨has.journal, by rw [same.1]; exact has.accounts, same.2.trans has.enclosing⟩
  unfold Follows Traced.quiet
  cases ran : x l.compiler with
  | ok a c =>
      rw [Compile.leftOk ran] at same
      exact ⟨rfl, [], by rw [List.append_nil]; exact moved c same, rfl⟩
  | error e c =>
      rw [Compile.leftError ran] at same
      exact ⟨rfl, (moved c same).grown⟩

/- What is known of an emission that was just made. -/
structure Emits (node : Node) (op : Opcode) (operands : List Nat) (more : List Written) (l : Log) : Prop where
  more : more = [⟨⟨op, operands⟩, node, false⟩]
  acts : ∃ earlier, l.acts = .emit node op operands :: earlier
  last : ∀ other, l.compiler.current.lastIs other = (op == other)

theorem emit (node : Node) {op : Opcode} {operands : List Nat} (waits : op.isJump → operands = [jumpPlaceholder]) :
    Records anyLog (Compile.emit node op operands) (Traced.emit node op operands) (Emits node op operands) := by
  intro l written around has _
  unfold Follows Traced.emit Traced.perform Compile.emit
  cases encoded : encode op operands with
  | error e => exact ⟨rfl, has.grown⟩
  | ok bytes =>
      have does : (Act.emit node op operands).apply (⟨l.compiler.current, written⟩ :: around) =
          ⟨l.compiler.current.append op bytes, written ++ [⟨⟨op, operands⟩, node, false⟩]⟩ :: around := by
        rw [Act.apply, Account.emit, encoded]
      have now := has.act (.emit node op operands) ⟨⟨_, around, has.accounts⟩, waits⟩ does
      exact ⟨rfl, _, now, rfl, ⟨_, rfl⟩, fun _ => rfl⟩

/- An instruction without a target. -/
theorem emitPlain (node : Node) {op : Opcode} (operands : List Nat) (plain : op.isJump = false) :
    Records anyLog (Compile.emit node op operands) (Traced.emit node op operands) (Emits node op operands) :=
  emit node fun jump => by rw [plain] at jump; cases jump

theorem emitAdds (node : Node) {op : Opcode} (operands : List Nat) (plain : op.isJump = false) :
    Records anyLog (Compile.emit node op operands) (Traced.emit node op operands) adding := by
  refine (emitPlain node _ plain).weaken (fun _ h => h) fun more l emits => ?_
  rw [emits.more]
  exact List.cons_ne_nil _ _

theorem ending {x : Compile α} {y : Traced α} (first : Records ready x y middle) (node : Node) (op : α → Opcode)
    (operands : α → List Nat) (plain : ∀ a, (op a).isJump = false) :
    Records ready (x >>= fun a => Compile.emit node (op a) (operands a))
      (y >>= fun a => Traced.emit node (op a) (operands a)) adding :=
  first.thenAdds fun a => emitAdds node (operands a) (plain a)

end Records

section Jumps
variable {l : Log} {written before after : List Written} {around : List Account} {node : Node} {op : Opcode}

/- The placeholder of a jump stands where the stream ended. -/
theorem emitJumpFollows (has : l.Has written around) (other : op ≠ .pop) :
    Follows (Compile.emitJump node op) (Traced.emitJump node op) l
      (fun start l' => start = offsetBehind written ∧
        l'.Has (written ++ [.placeholder node op]) around ∧ l'.Open)
      (Log.Grown written around) := by
  have asks : Follows Compile.position (Traced.quiet Compile.position) l
      (fun start l' => start = offsetBehind written ∧ l' = l) (Log.Grown written around) :=
    ⟨rfl, has.exact.position, rfl⟩
  refine asks.bind fun start l' ⟨place, same⟩ => ?_
  rw [same]
  refine (Records.emit node (fun _ => rfl) l written around has trivial).bind fun u l'' ⟨more, has', emits⟩ => ?_
  rw [emits.more] at has'
  refine ⟨rfl, place, has', ?_⟩
  rw [Log.Open, emits.last]
  exact beq_false_of_ne other

theorem patchJumpFollows (has : l.Has (before ++ .placeholder node op :: after) around) :
    Follows (Compile.patchJump node op (offsetBehind before))
      (Traced.patchJump node op (offsetBehind before)) l
      (fun _ l' => (∃ w, w.instruction.opcode = op ∧ l'.Has (before ++ w :: after) around) ∧ (l.Open → l'.Open))
      (fun l' => l'.Has (before ++ .placeholder node op :: after) around) := by
  unfold Follows Traced.patchJump Traced.perform Compile.patchJump
  cases encoded : encode op [l.compiler.current.position] with
  | error e => exact ⟨rfl, has⟩
  | ok bytes =>
      have does : (Act.patch node op (offsetBehind before)).apply
          (⟨l.compiler.current, before ++ .placeholder node op :: after⟩ :: around) =
          ⟨l.compiler.current.patch (offsetBehind before) bytes,
            before ++ (Written.placeholder node op).aimed l.compiler.current.position :: after⟩ :: around := by
        rw [Act.apply, Account.patchFound rfl encoded]
      have due : (Act.patch node op (offsetBehind before)).Due l.acts :=
        ⟨_, around, before, after, bytes, has.accounts, rfl, rfl, encoded⟩
      exact ⟨rfl, ⟨_, rfl, has.act _ due does⟩, fun isOpen => isOpen⟩

end Jumps

/- The last statement ends in a pop, or what ends the stream is none. -/
def Ends (statements : List Stmt) (more : List Written) (l : Log) : Prop :=
  l.Open ∨ ∃ s before, statements.getLast? = some s ∧ l.acts = .emit (.statement s) .pop [] :: before ∧ 2 ≤ more.length

/- An empty block is begun behind an instruction other than a pop. -/
def Begins (statements : List Stmt) (l : Log) : Prop := statements = [] → l.Open

section Endings
variable {l : Log} {written more : List Written} {around : List Account}

theorem Ends.shorter (s t : Stmt) (rest : List Stmt) : Ends (s :: t :: rest) = Ends (t :: rest) := by
  funext more l
  rw [Ends, List.getLast?_cons_cons, Ends]

theorem Ends.behind {statements : List Stmt} {earlier : List Written} (h : Ends statements more l) :
    Ends statements (earlier ++ more) l := by
  obtain isOpen | ⟨s, before, last, acts, long⟩ := h
  · exact .inl isOpen
  · exact .inr ⟨s, before, last, acts, by rw [List.length_append]; omega⟩

theorem Ends.popped {block : Block} (has : l.Has (written ++ more) around) (ends : Ends block.statements more l)
    (pop : ¬ l.Open) :
    Popped block l.acts ∧ more ≠ [] := by
  obtain isOpen | ⟨s, before, last, acts, long⟩ := ends
  · exact absurd isOpen pop
  have some : more ≠ [] := fun none => by rw [none] at long; cases long
  have accounts := has.accounts
  rw [acts, replay] at accounts
  cases older : replay before with
  | nil =>
      rw [older] at accounts
      cases accounts
  | cons a rest =>
      rw [older] at accounts
      have written' : a.written ++ [.pop s] = written ++ more := congrArg Account.written (List.cons.inj accounts).1
      refine ⟨⟨s, before, a, rest, last, acts, older, fun none => ?_⟩, some⟩
      have lengths := congrArg List.length written'
      rw [none, List.length_append, List.length_append, List.length_nil, List.length_singleton] at lengths
      omega

theorem emitFollows (has : l.Has (written ++ more) around) (node : Node) (op : Opcode) (plain : op.isJump = false) :
    Follows (Compile.emit node op []) (Traced.emit node op []) l (fun _ l' => Log.Grown written around l')
      (Log.Grown written around) := by
  have emits := Records.emitPlain node [] plain l _ around has trivial
  exact emits.weaken (fun _ _ ⟨new, has', _⟩ => Log.Grown.further ⟨new, has'⟩) fun _ bad => bad.further

theorem finishBranchFollows (node : Node) (block : Block) (has : l.Has (written ++ more) around)
    (ends : Ends block.statements more l) :
    Follows (Compile.finishBranch node) (Traced.finishBranch node block) l (fun _ l' => Log.Grown written around l')
      (Log.Grown written around) := by
  cases pop : l.compiler.current.lastIs .pop with
  | false =>
      have emits := emitFollows has node .pushNull rfl
      unfold Follows Traced.finishBranch Compile.finishBranch
      rw [pop]
      exact emits
  | true =>
      obtain ⟨popped, some⟩ := ends.popped has fun isOpen => by rw [Log.Open, pop] at isOpen; cases isOpen
      have does : (Act.takeBack block).apply (⟨l.compiler.current, written ++ more⟩ :: around) =
          ⟨l.compiler.current.dropLast, written ++ more.dropLast⟩ :: around := by
        rw [Act.apply, Account.takeBack, List.dropLast_append_of_ne_nil some]
      unfold Follows Traced.finishBranch Traced.perform Compile.finishBranch
      simp only [pop, if_true]
      exact ⟨trivial, more.dropLast, has.act (.takeBack block) popped does⟩

theorem Emission.returnLastIs {e : Emission} (pop : e.lastIs .pop) : e.returnLast.lastIs .returnValue := by
  unfold lastIs at pop
  unfold returnLast lastIs
  cases last : e.last with
  | none =>
      rw [last] at pop
      cases pop
  | some record => rfl

theorem finishBodyFollows (node : Node) (block : Block) (has : l.Has (written ++ more) around)
    (ends : Ends block.statements more l) :
    Follows (Compile.finishBody node) (Traced.finishBody node block) l (fun _ l' => Log.Grown written around l')
      (Log.Grown written around) := by
  cases pop : l.compiler.current.lastIs .pop with
  | false =>
      have emits := emitFollows has node .returnNothing rfl
      unfold Follows Traced.finishBody Compile.finishBody
      rw [pop]
      cases returned : l.compiler.current.lastIs .returnValue with
      | true =>
          simp only [Bool.false_eq_true, if_false, returned, if_true]
          exact ⟨trivial, has.grown.further⟩
      | false =>
          simp only [Bool.false_eq_true, if_false, returned]
          exact emits
  | true =>
      obtain ⟨popped, some⟩ := ends.popped has fun isOpen => by rw [Log.Open, pop] at isOpen; cases isOpen
      have does : (Act.returnLast block).apply (⟨l.compiler.current, written ++ more⟩ :: around) =
          ⟨l.compiler.current.returnLast,
            written ++ (more.dropLast ++ (written ++ more).getLast?.toList.map Written.returned)⟩ :: around := by
        rw [Act.apply, Account.returnLast, List.dropLast_append_of_ne_nil some, List.append_assoc]
      have returned := Emission.returnLastIs pop
      unfold Follows Traced.finishBody Traced.perform Compile.finishBody
      simp only [pop, if_true, returned]
      exact ⟨trivial, _, has.act (.returnLast block) popped does⟩

end Endings

namespace Records
variable {middle : List Written → Log → Prop}

/- A block, and what is done at its end. -/
theorem ended {statements : List Stmt}
    (inside : Records (Begins statements) (Compile.stmts statements) (Traced.stmts statements) (Ends statements))
    {finish : Compile Unit} {finish' : Traced Unit}
    (finishes : ∀ {l : Log} {written more : List Written} {around : List Account}, l.Has (written ++ more) around →
      Ends statements more l →
        Follows finish finish' l (fun _ l' => Log.Grown written around l') (Log.Grown written around)) :
    Records Log.Open (Compile.stmts statements >>= fun _ => finish) (Traced.stmts statements >>= fun _ => finish')
      anyEnd := by
  intro l written around has isOpen
  refine (inside l written around has fun _ => isOpen).bind fun u l' ⟨more, has', ends⟩ => ?_
  exact (finishes has' ends).whenDone fun u l'' ⟨more, has''⟩ => ⟨more, has'', trivial⟩

theorem arm {statements : List Stmt}
    (inside : Records (Begins statements) (Compile.stmts statements) (Traced.stmts statements) (Ends statements))
    (node : Node) (span : Span) :
    Records Log.Open (Compile.stmts statements >>= fun _ => Compile.finishBranch node)
      (Traced.stmts statements >>= fun _ => Traced.finishBranch node ⟨statements, span⟩) anyEnd :=
  inside.ended (finishBranchFollows node ⟨statements, span⟩)

theorem body {statements : List Stmt}
    (inside : Records (Begins statements) (Compile.stmts statements) (Traced.stmts statements) (Ends statements))
    (node : Node) (span : Span) :
    Records Log.Open (Compile.stmts statements >>= fun _ => Compile.finishBody node)
      (Traced.stmts statements >>= fun _ => Traced.finishBody node ⟨statements, span⟩) anyEnd :=
  inside.ended (finishBodyFollows node ⟨statements, span⟩)

/- Two jumps wait while the first of them is patched; what the arms write stands behind them. -/
theorem conditional (node : Node) {test arm other : Compile Unit} {test' arm' other' : Traced Unit}
    {ready : Log → Prop} (condition : Records ready test test' middle) (first : Records Log.Open arm arm' anyEnd)
    (second : Records Log.Open other other' anyEnd) :
    Records ready
      (test >>= fun _ => Compile.emitJump node .jumpUnlessTruthy >>= fun toAlternative => arm >>= fun _ =>
        Compile.emitJump node .jump >>= fun toEnd => Compile.patchJump node .jumpUnlessTruthy toAlternative >>= fun _ =>
          other >>= fun _ => Compile.patchJump node .jump toEnd)
      (test' >>= fun _ => Traced.emitJump node .jumpUnlessTruthy >>= fun toAlternative => arm' >>= fun _ =>
        Traced.emitJump node .jump >>= fun toEnd => Traced.patchJump node .jumpUnlessTruthy toAlternative >>= fun _ =>
          other' >>= fun _ => Traced.patchJump node .jump toEnd) adding := by
  intro l written around has isReady
  refine (condition l written around has isReady).bind fun u l₁ ⟨tested, has₁, _⟩ => ?_
  refine ((emitJumpFollows has₁ (by decide)).whenFailed fun _ bad => bad.further).bind
    fun start l₂ ⟨place, has₂, open₂⟩ => ?_
  rw [place]
  refine ((first l₂ _ around has₂ open₂).whenFailed fun _ bad => bad.further.further).bind
    fun u l₃ ⟨armed, has₃, _⟩ => ?_
  refine ((emitJumpFollows has₃ (by decide)).whenFailed fun _ bad => bad.further.further.further).bind
    fun start' l₄ ⟨place', has₄, open₄⟩ => ?_
  -- The first jump is patched in front of the arm, while the second waits behind it.
  have split : written ++ tested ++ [.placeholder node .jumpUnlessTruthy] ++ armed ++ [.placeholder node .jump] =
      written ++ tested ++ .placeholder node .jumpUnlessTruthy :: (armed ++ [.placeholder node .jump]) := by simp
  refine ((patchJumpFollows (split ▸ has₄)).whenFailed fun _ bad => Log.Grown.further ⟨_, bad⟩).bind
    fun u l₅ ⟨⟨w, same, has₅⟩, open₅⟩ => ?_
  refine ((second l₅ _ around has₅ (open₅ open₄)).whenFailed fun _ bad => bad.further.further).bind
    fun u l₆ ⟨others, has₆, _⟩ => ?_
  have split' : written ++ tested ++ w :: (armed ++ [.placeholder node .jump]) ++ others =
      written ++ (tested ++ w :: armed) ++ .placeholder node .jump :: others := by simp
  -- With its target the first jump is as long as before, so the second is where it was.
  have size : offsetBehind (written ++ tested ++ [Written.placeholder node .jumpUnlessTruthy] ++ armed) =
      offsetBehind (written ++ (tested ++ w :: armed)) := by
    simp [same, Written.placeholder]
  rw [place', size]
  refine (patchJumpFollows (split' ▸ has₆)).weaken ?_ fun _ bad => Log.Grown.further ⟨_, bad⟩
  rintro u l₇ ⟨⟨w', -, has₇⟩, -⟩
  rw [List.append_assoc written] at has₇
  exact ⟨_, has₇, List.append_ne_nil_of_right_ne_nil _ (List.cons_ne_nil _ _)⟩

theorem loadSymbol (node : Node) (symbol : Symbol) :
    Records anyLog (Compile.loadSymbol node symbol) (Traced.loadSymbol node symbol) adding := by
  rw [Compile.loadEmits]
  have plain : symbol.load.opcode.isJump = false := by
    unfold Symbol.load
    cases symbol.storage <;> rfl
  exact emitAdds node _ plain

theorem loadSymbols (node : Node) : (symbols : List Symbol) →
    Records anyLog (Compile.loadSymbols node symbols) (Traced.loadSymbols node symbols) anyEnd
  | [] => nothing.weaken (fun _ h => h) fun _ _ _ => trivial
  | symbol :: rest => (loadSymbol node symbol).inTurn (loadSymbols node rest)

theorem addConstant (value : Object) :
    Records anyLog (Compile.addConstant value) (Traced.quiet (Compile.addConstant value)) fun more _ => more = [] :=
  quiet fun _ => ⟨rfl, rfl⟩

theorem makeClosure (node : Node) (inner : Emission) (own : SymbolTable) (parameters : Nat) :
    Records anyLog (Compile.makeClosure node inner own parameters) (Traced.makeClosure node inner own parameters)
      adding :=
  (loadSymbols node own.captured).thenAdds fun _ => (addConstant _).ending node _ _ fun _ => rfl

/- The stream of a function is blank at first; when it is left, the surrounding one is as it was. -/
theorem function (node : Node) (name : Option String) (parameters : List Binder) {body : Compile Unit}
    {body' : Traced Unit} (inside : Records Log.Open body body' anyEnd) :
    Records anyLog (Compile.function node name parameters body) (Traced.function node name parameters body')
      adding := by
  intro l written around has _
  have entered : Log.Has ⟨l.compiler.enterFunction name parameters, .enter :: l.acts⟩ []
      (⟨l.compiler.current, written⟩ :: around) := by
    refine ⟨has.journal.act trivial, ?_, congrArg (_ :: ·) has.enclosing⟩
    rw [replay, has.accounts]
    rfl
  have left : ∀ {l' : Log}, Log.Grown [] (⟨l.compiler.current, written⟩ :: around) l' →
      Log.Has ⟨l'.compiler.leaveFunction.2, .leave :: l'.acts⟩ written around := by
    rintro l' ⟨more, has'⟩
    have now : replay (.leave :: l'.acts) = ⟨l.compiler.current, written⟩ :: around := by
      rw [replay, has'.accounts]
      rfl
    have enclosing := has'.enclosing
    rw [List.map_cons] at enclosing
    refine ⟨has'.journal.act ⟨_, _, around, has'.accounts⟩, ?_, ?_⟩ <;> unfold Compiler.leaveFunction <;> rw [enclosing]
    exact now
  have ran := inside _ [] _ entered rfl
  unfold Follows at ran ⊢
  unfold Traced.function Compile.function
  cases run : body' ⟨l.compiler.enterFunction name parameters, .enter :: l.acts⟩ with
  | error e l' =>
      simp only [run] at ran ⊢
      simp only [ran.1]
      exact ⟨trivial, (left ran.2).grown⟩
  | ok u l' =>
      simp only [run] at ran ⊢
      simp only [ran.1]
      obtain ⟨-, more, has', -⟩ := ran
      exact makeClosure node _ _ _ _ _ _ (left ⟨more, has'⟩) trivial

theorem literal (node : Node) (value : Object) :
    Records anyLog (Compile.addConstant value >>= fun slot => Compile.emit node .constant [slot])
      (Traced.quiet (Compile.addConstant value) >>= fun slot => Traced.emit node .constant [slot]) adding :=
  (addConstant value).ending node _ _ fun _ => rfl

theorem load (node : Node) (name : String) (span : Span) :
    Records anyLog
      (Compile.resolve name >>= fun
        | none => throw (.undefinedVariable name span)
        | some symbol => Compile.loadSymbol node symbol)
      (Traced.quiet (Compile.resolve name) >>= fun
        | none => throw (.undefinedVariable name span)
        | some symbol => Traced.loadSymbol node symbol)
      adding := by
  have resolves : Records anyLog (Compile.resolve name) (Traced.quiet (Compile.resolve name)) fun more _ => more = [] :=
    quiet fun _ => ⟨rfl, rfl⟩
  have loads : ∀ symbol : Option Symbol, Records anyLog
      (match symbol with
        | none => throw (.undefinedVariable name span)
        | some symbol => Compile.loadSymbol node symbol)
      (match symbol with
        | none => throw (.undefinedVariable name span)
        | some symbol => Traced.loadSymbol node symbol) adding := by
    rintro (none | symbol)
    · exact fails _
    · exact loadSymbol node symbol
  exact resolves.thenAdds loads

/- A statement that ends in an emission: of a pop, if its value is not used. -/
theorem statement {α : Type} {x : Compile α} {y : Traced α} (first : Records anyLog x y middle) (s : Stmt)
    (op : α → Opcode) (operands : α → List Nat) (plain : ∀ a, (op a).isJump = false) (other : ∀ a, op a ≠ .pop) :
    Records anyLog (x >>= fun a => Compile.emit (.statement s) (op a) (operands a))
      (y >>= fun a => Traced.emit (.statement s) (op a) (operands a)) (Ends [s]) := by
  have last : ∀ a, Records anyLog (Compile.emit (.statement s) (op a) (operands a))
      (Traced.emit (.statement s) (op a) (operands a)) fun _ l => l.Open :=
    fun a => (emitPlain _ _ (plain a)).weaken (fun _ h => h) fun more l emits => by
      rw [Log.Open, emits.last]
      exact beq_false_of_ne (other a)
  exact first.andThen last (fun _ => trivial) fun _ isOpen => .inl isOpen

end Records

open Records

mutual

theorem Expr.records : (e : Expr) → Records anyLog (Compile.expr e) (Traced.expr e) adding
  | .name name span => by
      unfold Compile.expr Traced.expr
      exact load _ name span
  | .integer value span => by
      unfold Compile.expr Traced.expr
      exact literal _ _
  | .string value span => by
      unfold Compile.expr Traced.expr
      exact literal _ _
  | .boolean value span => by
      unfold Compile.expr Traced.expr
      exact emitAdds _ [] (by cases value <;> rfl)
  | .unary op operand span => by
      unfold Compile.expr Traced.expr
      exact operand.records.ending _ _ _ fun _ => by cases op <;> rfl
  | .binary op left right span => by
      unfold Compile.expr Traced.expr
      exact left.records.thenAdds fun _ => right.records.ending _ _ _ fun _ => by cases op <;> rfl
  | .conditional condition ⟨consequence, place⟩ alternative span => by
      have both (node : Node) := conditional node condition.records ((stmtsRecord consequence).arm node place)
        (alternativeRecords node alternative)
      simp only [bind_assoc] at both
      unfold Compile.expr Compile.block Traced.expr Traced.block
      exact both _
  | .function name parameters ⟨body, place⟩ span => by
      unfold Compile.expr Compile.block Traced.expr Traced.block
      exact function _ name parameters ((stmtsRecord body).body _ place)
  | .call callee arguments span => by
      unfold Compile.expr Traced.expr
      exact callee.records.thenAdds fun _ => (exprsRecord arguments).ending _ _ _ fun _ => rfl
  | .array elements span => by
      unfold Compile.expr Traced.expr
      exact (exprsRecord elements).ending _ _ _ fun _ => rfl
  | .hash pairs span => by
      unfold Compile.expr Traced.expr
      exact (pairsRecord pairs).ending _ _ _ fun _ => rfl
  | .index collection position span => by
      unfold Compile.expr Traced.expr
      exact collection.records.thenAdds fun _ => position.records.ending _ _ _ fun _ => rfl

theorem alternativeRecords (node : Node) : (alternative : Option Block) →
    Records Log.Open (Compile.otherwise node alternative) (Traced.otherwise node alternative) anyEnd
  | none => by
      unfold Compile.otherwise Traced.otherwise
      exact (emitPlain node [] rfl).weaken (fun _ _ => trivial) fun _ _ _ => trivial
  | some ⟨statements, span⟩ => by
      unfold Compile.otherwise Compile.block Traced.otherwise Traced.block
      exact (stmtsRecord statements).arm node span

theorem exprsRecord : (es : List Expr) → Records anyLog (Compile.exprs es) (Traced.exprs es) anyEnd
  | [] => by
      unfold Compile.exprs Traced.exprs
      exact nothing.weaken (fun _ h => h) fun _ _ _ => trivial
  | e :: rest => by
      unfold Compile.exprs Traced.exprs
      exact e.records.inTurn (exprsRecord rest)

theorem pairsRecord : (pairs : List (Expr × Expr)) →
    Records anyLog (Compile.keysAndValues pairs) (Traced.keysAndValues pairs) anyEnd
  | [] => by
      unfold Compile.keysAndValues Traced.keysAndValues
      exact nothing.weaken (fun _ h => h) fun _ _ _ => trivial
  | (key, value) :: rest => by
      unfold Compile.keysAndValues Traced.keysAndValues
      exact key.records.inTurn (value.records.inTurn (pairsRecord rest))

theorem Stmt.records : (s : Stmt) → Records anyLog (Compile.stmt s) (Traced.stmt s) (Ends [s])
  | .binding target value span => by
      unfold Compile.stmt Traced.stmt
      have defines := quiet (x := Compile.define target.name) fun _ => ⟨rfl, rfl⟩
      have last := defines.statement (.binding target value span)
        (fun symbol => if symbol.storage = .global then .setGlobal else .setLocal) (fun symbol => [symbol.index])
        (fun symbol => by split <;> rfl) (fun symbol => by split <;> decide)
      exact value.records.andThen (fun _ => last) (fun _ => trivial) fun _ ends => ends.behind
  | .returning value span => by
      unfold Compile.stmt Traced.stmt
      exact value.records.statement _ _ _ (fun _ => rfl) (fun _ => by decide)
  | .expression value span => by
      unfold Compile.stmt Traced.stmt
      refine value.records.andThen (fun _ => emitPlain _ [] rfl) (fun _ => trivial) fun some emits => ?_
      obtain ⟨before, acts⟩ := emits.acts
      refine .inr ⟨_, before, rfl, acts, ?_⟩
      rw [emits.more, List.length_append, List.length_singleton]
      exact Nat.succ_le_succ (List.length_pos_iff.mpr some)

theorem stmtsRecord : (statements : List Stmt) →
    Records (Begins statements) (Compile.stmts statements) (Traced.stmts statements) (Ends statements)
  | [] => by
      unfold Compile.stmts Traced.stmts
      exact nothing.weaken (fun _ h => h) fun _ _ h => .inl (h.2 rfl)
  | [s] => by
      have one : Compile.stmts [s] = Compile.stmt s := by
        rw [Compile.stmts, Compile.stmts]
        exact bind_pure_unit
      have one' : Traced.stmts [s] = Traced.stmt s := by
        rw [Traced.stmts, Traced.stmts]
        exact bind_pure_unit
      rw [one, one']
      exact s.records.weaken (fun _ _ => trivial) fun _ _ h => h
  | s :: t :: rest => by
      unfold Compile.stmts Traced.stmts
      rw [Ends.shorter]
      refine Records.weaken ?_ (fun _ _ => trivial) fun _ _ h => h
      exact s.records.andThen (fun _ => stmtsRecord (t :: rest)) (fun _ none => by cases none) fun _ ends => ends.behind

end

theorem Node.records : (n : Node) → Records anyLog (Compile.node n) (Traced.node n) anyEnd
  | .program p => statements p
  | .statement s => s.records.weaken (fun _ h => h) fun _ _ _ => trivial
  | .block ⟨body, _⟩ => by
      unfold Compile.node Compile.block Traced.node Traced.block
      exact statements body
  | .expression e => e.records.weaken (fun _ h => h) fun _ _ _ => trivial
where
  statements : (ss : List Stmt) → Records anyLog (Compile.stmts ss) (Traced.stmts ss) anyEnd
    | [] => by
        unfold Compile.stmts Traced.stmts
        exact nothing.weaken (fun _ h => h) fun _ _ _ => trivial
    | s :: rest => (stmtsRecord (s :: rest)).weaken (fun _ _ none => by cases none) fun _ _ _ => trivial

end ClosureCode
