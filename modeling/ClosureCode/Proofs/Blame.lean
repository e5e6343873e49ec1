import ClosureCode.Proofs.Overwrites
import ClosureCode.Proofs.UniqueDecoding

/-! Whom an error of the compiler points at. A name that is not bound is the first in the text of which this is so;
an operand that does not fit is one of an instruction that is emitted for the node that is shown. Nothing else can
go wrong. -/
namespace ClosureCode

/- A use of a name, with the frames of the functions around it as they are there. -/
structure Occurrence where
  name : String
  span : Span
  frames : List LexicalFrame

def Occurrence.Bound (o : Occurrence) : Prop := (lexical o.frames o.name).isSome

abbrev Uses := List LexicalFrame → List Occurrence

namespace Uses

def none : Uses := fun _ => []

/- Some uses, then others behind the events of the first. -/
def before (first : Uses) (events : List Event) (rest : Uses) : Uses :=
  fun frames => first frames ++ rest (framesAfter frames events)

end Uses

/- The uses of names, in the order in which they are compiled. -/
mutual

def Expr.uses : Expr → Uses
  | .name name span => fun frames => [⟨name, span, frames⟩]
  | .integer _ _ | .string _ _ | .boolean _ _ => .none
  | .unary _ operand _ => operand.uses
  | .binary _ left right _ => left.uses.before left.events right.uses
  | .conditional condition ⟨consequence, _⟩ alternative _ =>
      condition.uses.before condition.events
        ((stmtsUses consequence).before (stmtsEvents consequence) (alternativeUses alternative))
  | .function name parameters ⟨body, _⟩ _ => fun frames =>
      stmtsUses body (functionFrame name (parameters.map (·.name)) :: frames)
  | .call callee arguments _ => callee.uses.before callee.events (exprsUses arguments)
  | .array elements _ => exprsUses elements
  | .hash pairs _ => pairsUses pairs
  | .index collection position _ => collection.uses.before collection.events position.uses

def alternativeUses : Option Block → Uses
  | none => .none
  | some ⟨statements, _⟩ => stmtsUses statements

def exprsUses : List Expr → Uses
  | [] => .none
  | e :: rest => e.uses.before e.events (exprsUses rest)

def pairsUses : List (Expr × Expr) → Uses
  | [] => .none
  | (key, value) :: rest => key.uses.before key.events (value.uses.before value.events (pairsUses rest))

def Stmt.uses : Stmt → Uses
  | .binding _ value _ | .returning value _ | .expression value _ => value.uses

def stmtsUses : List Stmt → Uses
  | [] => .none
  | s :: rest => s.uses.before s.events (stmtsUses rest)

end

def Program.uses (p : Program) : List Occurrence := stmtsUses p [topFrame]

/- A node of the tree of another. -/
inductive Within (top : Node) : Node → Prop where
  | top : Within top top
  | part {n m} (above : Within top n) (place : m ∈ n.children) : Within top m

/- The instructions with operands that are emitted on behalf of a node. -/
def Node.opcodes : Node → List Opcode
  | .statement (.binding ..) => [.setGlobal, .setLocal]
  | .expression (.integer ..) | .expression (.string ..) => [.constant]
  | .expression (.name ..) => [.getGlobal, .getLocal, .getFree]
  | .expression (.conditional ..) => [.jumpUnlessTruthy, .jump]
  | .expression (.function ..) => [.getLocal, .getFree, .closure]
  | .expression (.call ..) => [.call]
  | .expression (.array ..) => [.array]
  | .expression (.hash ..) => [.hash]
  | .program _ | .block _ | .statement _ | .expression _ => []

/- The culprit is in the tree. -/
inductive Blamed (top : Node) (uses : List Occurrence) : CompileError → Prop where
  | unbound {before o after} (split : uses = before ++ o :: after) (bound : ∀ o ∈ before, o.Bound)
      (nowhere : lexical o.frames o.name = none) (place : Within top (.expression (.name o.name o.span))) :
      Blamed top uses (.undefinedVariable o.name o.span)
  | overflow {n op operand width} (place : Within top n) (emits : op ∈ n.opcodes) (wide : 256 ^ width ≤ operand) :
      Blamed top uses (.instruction n.render n.span (.operandOverflow op.name operand width))

/- With the frames of the text kept beside the table, a run that succeeds has found all names bound, and one that
fails points at its culprit. -/
structure Blames (top : Node) {α : Type} (x : Compile α) (events : List Event) (uses : Uses) : Prop where
  fine : ∀ {frames c a c'}, Faithful frames c.table.inner c.table.outer → x c = .ok a c' →
    Faithful (framesAfter frames events) c'.table.inner c'.table.outer ∧ ∀ o ∈ uses frames, o.Bound
  fails : ∀ {frames c e c'}, Faithful frames c.table.inner c.table.outer → x c = .error e c' →
    Blamed top (uses frames) e

section Blaming
variable {top : Node} {uses uses' : List Occurrence} {e : CompileError}

theorem Blamed.early (h : Blamed top uses e) : Blamed top (uses ++ uses') e := by
  cases h with
  | @unbound before o after split bound nowhere place =>
      have further : uses ++ uses' = before ++ o :: (after ++ uses') := by simp [split]
      exact .unbound further bound nowhere place
  | overflow place emits wide => exact .overflow place emits wide

theorem Blamed.late (fine : ∀ o ∈ uses, o.Bound) (h : Blamed top uses' e) : Blamed top (uses ++ uses') e := by
  cases h with
  | @unbound before o after split bound nowhere place =>
      have further : uses ++ uses' = (uses ++ before) ++ o :: after := by simp [split]
      have all : ∀ o ∈ uses ++ before, o.Bound := fun o member => (List.mem_append.mp member).elim (fine o) (bound o)
      exact .unbound further all nowhere place
  | overflow place emits wide => exact .overflow place emits wide

theorem Blamed.anywhere (h : Blamed top [] e) : Blamed top uses e := h.early

end Blaming

namespace Blames
variable {top n : Node} {α β : Type} {events events' : List Event} {uses uses' : Uses}

theorem andThen {x : Compile α} {f : α → Compile β} (first : Blames top x events uses)
    (second : ∀ a, Blames top (f a) events' uses') :
    Blames top (x >>= f) (events ++ events') (uses.before events uses') := by
  constructor
  case fine =>
    intro frames c b c' faithful ran
    obtain ⟨a, c₁, one, two⟩ := Compile.bindRan ran
    obtain ⟨faithful₁, bound⟩ := first.fine faithful one
    obtain ⟨faithful₂, bound'⟩ := (second a).fine faithful₁ two
    refine ⟨by rw [framesAfterAppend]; exact faithful₂, fun o member => ?_⟩
    exact (List.mem_append.mp member).elim (bound o) (bound' o)
  case fails =>
    intro frames c e c' faithful failed
    cases one : x c with
    | error e₁ c₁ =>
        rw [Compile.bindError one] at failed
        cases failed
        exact (first.fails faithful one).early
    | ok a c₁ =>
        rw [Compile.bindOk one] at failed
        obtain ⟨faithful₁, bound⟩ := first.fine faithful one
        exact ((second a).fails faithful₁ failed).late bound

theorem usesNone (uses : Uses) (events : List Event) : uses.before events .none = uses := by
  funext frames
  exact List.append_nil _

theorem thenUnused {x : Compile α} {f : α → Compile β} (first : Blames top x events uses)
    (second : ∀ a, Blames top (f a) events' .none) : Blames top (x >>= f) (events ++ events') uses := by
  have both := first.andThen second
  rwa [usesNone] at both

/- A step that has nothing to do with the names, last or first. -/
theorem thenStep {x : Compile α} {f : α → Compile β} (first : Blames top x events uses)
    (second : ∀ a, Blames top (f a) [] .none) : Blames top (x >>= f) events uses := by
  have both := first.thenUnused second
  rwa [List.append_nil] at both

theorem afterStep {x : Compile α} {f : α → Compile β} (first : Blames top x [] .none)
    (second : ∀ a, Blames top (f a) events uses) : Blames top (x >>= f) events uses := first.andThen second

theorem step {x : Compile α} (steady : Steady x)
    (fails : ∀ c e c', x c = .error e c' → Blamed top [] e) : Blames top x [] .none := by
  constructor
  case fine =>
    intro frames c a c' faithful ran
    have same := steady c
    rw [Compile.leftOk ran] at same
    rw [same]
    exact ⟨faithful, fun o member => by cases member⟩
  case fails => exact fun _ failed => fails _ _ _ failed

theorem nothing {a : α} : Blames top (pure a) [] .none := step Steady.nothing fun c e c' failed => by cases failed

theorem addConstant (value : Object) : Blames top (Compile.addConstant value) [] .none :=
  step (Steady.addConstant value) fun c e c' failed => by cases failed

/- As many operands as the instruction has: one that does not fit is all that can be wrong. -/
theorem encodeFails {op : Opcode} {operands : List Nat} {cause : CodeError} (count : operands.length = op.widths.length)
    (failed : Instruction.encode op operands = .error cause) :
    ∃ operand width, cause = .operandOverflow op.name operand width ∧ operand ∈ operands ∧ 256 ^ width ≤ operand := by
  cases (Instruction.encodeRefused op operands cause).mp failed with
  | count other => exact absurd count other
  | @overflow operand width _ first =>
      have wide := List.find?_some first
      have member := (List.of_mem_zip (List.mem_of_find?_eq_some first)).1
      refine ⟨operand, width.toNat, rfl, member, ?_⟩
      simpa [Layout.fits] using wide

theorem emitFails {op : Opcode} {operands : List Nat} {c c' : Compiler} {e : CompileError}
    (count : operands.length = op.widths.length) (failed : Compile.emit n op operands c = .error e c') :
    ∃ operand width, e = .instruction n.render n.span (.operandOverflow op.name operand width) ∧ operand ∈ operands ∧
      256 ^ width ≤ operand := by
  unfold Compile.emit at failed
  cases encoded : Instruction.encode op operands with
  | ok bytes =>
      simp only [encoded] at failed
      cases failed
  | error cause =>
      simp only [encoded] at failed
      cases failed
      obtain ⟨operand, width, rfl, member, wide⟩ := encodeFails count encoded
      exact ⟨operand, width, rfl, member, wide⟩

theorem emitBlamed (place : Within top n) {op : Opcode} {operands : List Nat} {c c' : Compiler} {e : CompileError}
    (emits : op ∈ n.opcodes) (count : operands.length = op.widths.length)
    (failed : Compile.emit n op operands c = .error e c') : Blamed top [] e := by
  obtain ⟨operand, width, rfl, -, wide⟩ := emitFails count failed
  exact .overflow place emits wide

theorem emit (place : Within top n) {op : Opcode} {operands : List Nat} (emits : op ∈ n.opcodes)
    (count : operands.length = op.widths.length) : Blames top (Compile.emit n op operands) [] .none :=
  step (Steady.emit n op operands) fun _ _ _ failed => emitBlamed place emits count failed

/- What has no operands can always be emitted. -/
theorem emitPlainFails {op : Opcode} {c c' : Compiler} {e : CompileError} (plain : op.widths = []) :
    Compile.emit n op [] c ≠ .error e c' := by
  intro failed
  obtain ⟨operand, width, -, member, -⟩ := emitFails (congrArg List.length plain).symm failed
  cases member

theorem emitPlain {op : Opcode} (plain : op.widths = []) : Blames top (Compile.emit n op []) [] .none :=
  step (Steady.emit n op []) fun _ _ _ failed => absurd failed (emitPlainFails plain)

theorem emitJump {op : Opcode} (jump : op = .jump ∨ op = .jumpUnlessTruthy) :
    Blames top (Compile.emitJump n op) [] .none := by
  refine step (Steady.emitJump n op) fun c e c' failed => ?_
  obtain ⟨c₁, run, -⟩ := Keeps.emitJumpLeaves n c jump
  rw [run] at failed
  cases failed

theorem patchJump (place : Within top n) {op : Opcode} (emits : op ∈ n.opcodes) (one : op.widths.length = 1)
    (start : Nat) : Blames top (Compile.patchJump n op start) [] .none := by
  refine step (Steady.patchJump n op start) fun c e c' failed => ?_
  cases Compile.patchRun n op start c with
  | inl wrong =>
      obtain ⟨cause, refused, wrong⟩ := wrong
      have count : [c.current.position].length = op.widths.length := one.symm
      obtain ⟨operand, width, rfl, -, wide⟩ := encodeFails count refused
      rw [wrong] at failed
      cases failed
      exact .overflow place emits wide
  | inr patched =>
      obtain ⟨bytes, -, patched⟩ := patched
      rw [patched] at failed
      cases failed

theorem ending {x : Compile Unit} {op : Opcode} (plain : op.widths = [])
    (run : ∀ c, ∃ c' : Compiler, c'.table = c.table ∧ (x c = .ok () c' ∨ x c = Compile.emit n op [] c')) :
    Blames top x [] .none := by
  refine step (Steady.ending run) fun c e c' failed => ?_
  obtain ⟨c₁, -, done | emits⟩ := run c
  · rw [done] at failed
    cases failed
  · rw [emits] at failed
    exact absurd failed (emitPlainFails plain)

theorem finishBranch : Blames top (Compile.finishBranch n) [] .none := ending rfl (Compile.finishBranchRun n)

theorem finishBody : Blames top (Compile.finishBody n) [] .none := ending rfl (Compile.finishBodyRun n)

theorem literal (place : Within top n) (emits : .constant ∈ n.opcodes) (value : Object) :
    Blames top (Compile.addConstant value >>= fun slot => Compile.emit n .constant [slot]) [] .none :=
  (addConstant value).afterStep fun _ => emit place emits rfl

/- The symbol of a function, or of one around it, has a slot that may be too large. -/
theorem loadFails {symbol : Symbol} {c c' : Compiler} {e : CompileError} (place : Within top n)
    (emits : ∀ op ∈ [Opcode.getLocal, .getFree], op ∈ n.opcodes) (inside : symbol.storage.everywhere = false)
    (failed : Compile.loadSymbol n symbol c = .error e c') : Blamed top [] e := by
  unfold Compile.loadSymbol at failed
  cases kind : symbol.storage with
  | global | builtin =>
      rw [kind] at inside
      cases inside
  | «local» =>
      rw [kind] at failed
      exact emitBlamed place (emits _ (by simp)) rfl failed
  | free =>
      rw [kind] at failed
      exact emitBlamed place (emits _ (by simp)) rfl failed
  | function =>
      rw [kind] at failed
      exact absurd failed (emitPlainFails rfl)

theorem loadSymbols (place : Within top n) (emits : ∀ op ∈ [Opcode.getLocal, .getFree], op ∈ n.opcodes) :
    (symbols : List Symbol) → (∀ σ ∈ symbols, σ.storage.everywhere = false) →
      Blames top (Compile.loadSymbols n symbols) [] .none
  | [], _ => nothing
  | symbol :: rest, inside => by
      have first : Blames top (Compile.loadSymbol n symbol) [] .none :=
        step (Steady.loadSymbol n symbol) fun _ _ _ failed =>
          loadFails place emits (inside symbol List.mem_cons_self) failed
      exact first.afterStep fun _ =>
        loadSymbols place emits rest fun σ member => inside σ (List.mem_cons_of_mem _ member)

theorem binding (place : Within top n) (emits : ∀ op ∈ [Opcode.setGlobal, .setLocal], op ∈ n.opcodes) (name : String) :
    Blames top
      (Compile.define name >>= fun symbol =>
        Compile.emit n (if symbol.storage = .global then .setGlobal else .setLocal) [symbol.index])
      [.bind name] .none := by
  have defined : Blames top (Compile.define name) [.bind name] .none := by
    constructor
    case fine =>
      intro frames c a c' faithful ran
      cases ran
      exact ⟨faithful.define name, fun o member => by cases member⟩
    case fails =>
      intro frames c e c' faithful failed
      cases failed
  refine defined.thenStep fun symbol => ?_
  split
  · exact emit place (emits _ (by simp)) rfl
  · exact emit place (emits _ (by simp)) rfl

theorem builtinIndex {frames : List LexicalFrame} {name : String} {index : Nat}
    (means : lexical frames name = some (.builtin index)) : index < 256 := by
  induction frames with
  | nil =>
      obtain ⟨i, found, same⟩ := Option.map_eq_some_iff.mp means
      cases same
      obtain ⟨lt, -⟩ := List.findIdx?_eq_some_iff_getElem.mp found
      exact Nat.lt_of_lt_of_le lt (by decide)
  | cons frame rest ih =>
      cases here : frame.find? name with
      | none =>
          rw [lexicalOther here] at means
          exact ih means
      | some found =>
          rw [lexicalOwn here] at means
          generalize rest.length = level at means
          cases level <;> cases found <;> cases means

/- A name that was found is loaded, unless its slot is too large. There are not so many builtins. -/
theorem knownFails {frames : List LexicalFrame} {scope : Scope} {name : String} {span : Span} {symbol : Symbol}
    {c c' : Compiler} {e : CompileError} (place : Within top (.expression (.name name span)))
    (found : Found frames scope name (some symbol))
    (failed : Compile.loadSymbol (.expression (.name name span)) symbol c = .error e c') : Blamed top [] e := by
  cases found with
  | @global slot home =>
      have emits : Opcode.getGlobal ∈ (Node.expression (.name name span)).opcodes := by simp [Node.opcodes]
      change Compile.emit _ .getGlobal [slot] c = _ at failed
      exact emitBlamed place emits rfl failed
  | @builtin index home =>
      have fits : Instruction.Fits .getBuiltin [index] := by
        refine ⟨rfl, fun field member => ?_⟩
        rw [List.mem_singleton.mp member]
        exact decide_eq_true (builtinIndex home)
      obtain ⟨bytes, encoded⟩ := (Instruction.encodeFits _ _).mpr fits
      change Compile.emit _ .getBuiltin [index] c = _ at failed
      simp only [Compile.emit, encoded] at failed
      cases failed
  | here found inside home => exact loadFails place (by simp [Node.opcodes]) inside failed

theorem load {name : String} {span : Span} (place : Within top (.expression (.name name span))) :
    Blames top
      (Compile.resolve name >>= fun
        | none => throw (.undefinedVariable name span)
        | some symbol => Compile.loadSymbol (.expression (.name name span)) symbol)
      [.use name] fun frames => [⟨name, span, frames⟩] := by
  constructor
  case fine =>
    intro frames c a c' faithful ran
    obtain ⟨result, c₁, looked, ran⟩ := Compile.bindRan ran
    have resolved := faithful.resolve name
    have found : Found frames c₁.table.inner name result := by
      cases looked
      exact resolved.found
    have faithful : Faithful frames c₁.table.inner c₁.table.outer := by
      cases looked
      exact resolved.faithful
    cases result with
    | none => cases ran
    | some symbol =>
        have same := Steady.loadSymbol (.expression (.name name span)) symbol c₁
        rw [Compile.leftOk ran] at same
        rw [same]
        refine ⟨faithful, fun o member => ?_⟩
        rw [List.mem_singleton.mp member]
        cases found with
        | global home | builtin home | here _ _ home => exact Option.isSome_of_eq_some home
  case fails =>
    intro frames c e c' faithful failed
    have resolved := faithful.resolve name
    have looked : Compile.resolve name c =
        .ok (c.table.resolve name).1 { c with table := (c.table.resolve name).2 } := rfl
    have found : Found frames (c.table.resolve name).2.inner name (c.table.resolve name).1 := resolved.found
    rw [Compile.bindOk looked] at failed
    generalize (c.table.resolve name).1 = result at found failed
    cases result with
    | none =>
        cases failed
        cases found with
        | nowhere home =>
            have first : [(⟨name, span, frames⟩ : Occurrence)] = [] ++ ⟨name, span, frames⟩ :: [] := rfl
            exact .unbound first (by simp) home place
    | some symbol => exact (knownFails place found failed).anywhere

theorem makeClosure (place : Within top n) (emits : ∀ op ∈ [Opcode.getLocal, .getFree, .closure], op ∈ n.opcodes)
    (inner : Emission) {own : SymbolTable} (inside : ∀ σ ∈ own.captured, σ.storage.everywhere = false)
    (parameters : Nat) : Blames top (Compile.makeClosure n inner own parameters) [] .none := by
  have loads := loadSymbols place (fun op member => emits op (by simp at member ⊢; tauto)) own.captured inside
  exact loads.afterStep fun _ => (addConstant _).afterStep fun _ => emit place (emits _ (by simp)) rfl

/- A function is left for the frames around it. What it has captured are names of these. -/
theorem leaveFaithful {frame : LexicalFrame} {frames : List LexicalFrame} {table : SymbolTable} (around : frames ≠ [])
    (faithful : Faithful (frame :: frames) table.inner table.outer) :
    Faithful frames (table.takeOuter.1.getD .empty).inner (table.takeOuter.1.getD .empty).outer ∧
      ∀ σ ∈ table.takeOuter.2.captured, σ.storage.everywhere = false := by
  obtain ⟨scope, outer⟩ := table
  cases faithful with
  | root own => exact absurd rfl around
  | inner own outside => exact ⟨outside, fun σ member => (own.kept σ member).2⟩

/- The names of a function are known in its body only. -/
theorem function (place : Within top n) (emits : ∀ op ∈ [Opcode.getLocal, .getFree, .closure], op ∈ n.opcodes)
    (name : Option String) (parameters : List Binder) {body : Compile Unit} (inside : Blames top body events uses) :
    Blames top (Compile.function n name parameters body) [.function name (parameters.map (·.name)) events]
      fun frames => uses (functionFrame name (parameters.map (·.name)) :: frames) := by
  have entered : ∀ {frames : List LexicalFrame} {c : Compiler}, Faithful frames c.table.inner c.table.outer →
      Faithful (functionFrame name (parameters.map (·.name)) :: frames) (c.enterFunction name parameters).table.inner
        (c.enterFunction name parameters).table.outer := by
    intro frames c faithful
    have table : (c.enterFunction name parameters).table = c.table.forFunction name (parameters.map (·.name)) := by
      cases name <;> simp only [Compiler.enterFunction, SymbolTable.forFunction, List.foldl_map]
    rw [table]
    exact (faithful.forFunction name _).1
  have left : ∀ {frames : List LexicalFrame} {c c₁ : Compiler}, Faithful frames c.table.inner c.table.outer →
      body (c.enterFunction name parameters) = .ok () c₁ →
      Faithful frames c₁.leaveFunction.2.table.inner c₁.leaveFunction.2.table.outer ∧
        Blames top (Compile.makeClosure n c₁.leaveFunction.1.1 c₁.leaveFunction.1.2 parameters.length) [] .none := by
    intro frames c c₁ faithful ran
    have around : frames ≠ [] := by
      intro none
      have lengths := faithful.lengths
      rw [none] at lengths
      cases lengths
    have after := (inside.fine (entered faithful) ran).1
    rw [framesAfterFrame] at after
    obtain ⟨outside, captured⟩ := leaveFaithful around after
    exact ⟨outside, makeClosure place emits _ captured _⟩
  constructor
  case fine =>
    intro frames c a c' faithful ran
    unfold Compile.function at ran
    cases shut : body (c.enterFunction name parameters) with
    | error e c₁ =>
        rw [shut] at ran
        cases ran
    | ok u c₁ =>
        rw [shut] at ran
        obtain ⟨outside, closes⟩ := left faithful shut
        exact ⟨(closes.fine outside ran).1, (inside.fine (entered faithful) shut).2⟩
  case fails =>
    intro frames c e c' faithful failed
    unfold Compile.function at failed
    cases shut : body (c.enterFunction name parameters) with
    | error e c₁ =>
        rw [shut] at failed
        cases failed
        exact inside.fails (entered faithful) shut
    | ok u c₁ =>
        rw [shut] at failed
        obtain ⟨outside, closes⟩ := left faithful shut
        exact (closes.fails outside failed).anywhere

end Blames

open Blames

mutual

theorem Expr.blames {top : Node} : (e : Expr) → Within top (.expression e) → Blames top (Compile.expr e) e.events e.uses
  | .name name span, place => by
      unfold Compile.expr Expr.events Expr.uses
      exact load place
  | .integer value span, place => by
      unfold Compile.expr Expr.events Expr.uses
      exact literal place (by simp [Node.opcodes]) _
  | .string value span, place => by
      unfold Compile.expr Expr.events Expr.uses
      exact literal place (by simp [Node.opcodes]) _
  | .boolean value span, place => by
      unfold Compile.expr Expr.events Expr.uses
      exact emitPlain (by cases value <;> rfl)
  | .unary op operand span, place => by
      unfold Compile.expr Expr.events Expr.uses
      exact (operand.blames (place.part (by simp [Node.children]))).thenStep fun _ => emitPlain (by cases op <;> rfl)
  | .binary op left right span, place => by
      unfold Compile.expr Expr.events Expr.uses
      exact (left.blames (place.part (by simp [Node.children]))).andThen fun _ =>
        (right.blames (place.part (by simp [Node.children]))).thenStep fun _ => emitPlain (by cases op <;> rfl)
  | .conditional condition ⟨consequence, at'⟩ alternative span, place => by
      have arm : Within top (.block ⟨consequence, at'⟩) := place.part (by simp [Node.children])
      have within : ∀ s ∈ consequence, Within top (.statement s) := fun s member => arm.part (by simpa [Node.children])
      have other : ∀ b, alternative = some b → Within top (.block b) := fun b same =>
        place.part (by simp [Node.children, same])
      unfold Compile.expr Expr.events Expr.uses Compile.block
      exact (condition.blames (place.part (by simp [Node.children]))).andThen fun _ =>
        (emitJump (.inr rfl)).afterStep fun _ => (stmtsBlame consequence within).andThen fun _ =>
          finishBranch.afterStep fun _ => (emitJump (.inl rfl)).afterStep fun _ =>
            (patchJump place (by simp [Node.opcodes]) rfl _).afterStep fun _ =>
              (alternativeBlames alternative other).thenStep fun _ => patchJump place (by simp [Node.opcodes]) rfl _
  | .function name parameters ⟨body, at'⟩ span, place => by
      have whole : Within top (.block ⟨body, at'⟩) := place.part (by simp [Node.children])
      have within : ∀ s ∈ body, Within top (.statement s) := fun s member => whole.part (by simpa [Node.children])
      unfold Compile.expr Expr.events Expr.uses Compile.block
      exact function place (by simp [Node.opcodes]) name parameters
        ((stmtsBlame body within).thenStep fun _ => finishBody)
  | .call callee arguments span, place => by
      have within : ∀ e ∈ arguments, Within top (.expression e) := fun e member =>
        place.part (by simpa [Node.children] using .inr member)
      unfold Compile.expr Expr.events Expr.uses
      exact (callee.blames (place.part (by simp [Node.children]))).andThen fun _ =>
        (exprsBlame arguments within).thenStep fun _ => emit place (by simp [Node.opcodes]) rfl
  | .array elements span, place => by
      have within : ∀ e ∈ elements, Within top (.expression e) := fun e member =>
        place.part (by simpa [Node.children])
      unfold Compile.expr Expr.events Expr.uses
      exact (exprsBlame elements within).thenStep fun _ => emit place (by simp [Node.opcodes]) rfl
  | .hash pairs span, place => by
      have within : ∀ n ∈ pairNodes pairs, Within top n := fun n member => place.part member
      unfold Compile.expr Expr.events Expr.uses
      exact (pairsBlame pairs within).thenStep fun _ => emit place (by simp [Node.opcodes]) rfl
  | .index collection position span, place => by
      unfold Compile.expr Expr.events Expr.uses
      exact (collection.blames (place.part (by simp [Node.children]))).andThen fun _ =>
        (position.blames (place.part (by simp [Node.children]))).thenStep fun _ => emitPlain rfl

theorem alternativeBlames {top n : Node} : (alternative : Option Block) →
    (∀ b, alternative = some b → Within top (.block b)) →
      Blames top (Compile.otherwise n alternative) (alternativeEvents alternative) (alternativeUses alternative)
  | none, _ => by
      unfold Compile.otherwise alternativeEvents alternativeUses
      exact emitPlain rfl
  | some ⟨statements, span⟩, place => by
      have within : ∀ s ∈ statements, Within top (.statement s) := fun s member =>
        (place _ rfl).part (by simpa [Node.children])
      unfold Compile.otherwise alternativeEvents alternativeUses Compile.block
      exact (stmtsBlame statements within).thenStep fun _ => finishBranch

theorem exprsBlame {top : Node} : (es : List Expr) → (∀ e ∈ es, Within top (.expression e)) →
    Blames top (Compile.exprs es) (exprsEvents es) (exprsUses es)
  | [], _ => by
      unfold Compile.exprs exprsEvents exprsUses
      exact nothing
  | e :: rest, place => by
      unfold Compile.exprs exprsEvents exprsUses
      exact (e.blames (place e List.mem_cons_self)).andThen fun _ =>
        exprsBlame rest fun e' member => place e' (List.mem_cons_of_mem _ member)

theorem pairsBlame {top : Node} : (pairs : List (Expr × Expr)) → (∀ n ∈ pairNodes pairs, Within top n) →
    Blames top (Compile.keysAndValues pairs) (pairsEvents pairs) (pairsUses pairs)
  | [], _ => by
      unfold Compile.keysAndValues pairsEvents pairsUses
      exact nothing
  | (key, value) :: rest, place => by
      unfold Compile.keysAndValues pairsEvents pairsUses
      rw [List.append_assoc]
      exact (key.blames (place _ (by simp [pairNodes]))).andThen fun _ =>
        (value.blames (place _ (by simp [pairNodes]))).andThen fun _ =>
          pairsBlame rest fun n member => place n (by simp [pairNodes, member])

theorem Stmt.blames {top : Node} : (s : Stmt) → Within top (.statement s) → Blames top (Compile.stmt s) s.events s.uses
  | .binding target value span, place => by
      unfold Compile.stmt Stmt.events Stmt.uses
      exact (value.blames (place.part (by simp [Node.children]))).thenUnused fun _ =>
        binding place (by simp [Node.opcodes]) target.name
  | .returning value span, place => by
      unfold Compile.stmt Stmt.events Stmt.uses
      exact (value.blames (place.part (by simp [Node.children]))).thenStep fun _ => emitPlain rfl
  | .expression value span, place => by
      unfold Compile.stmt Stmt.events Stmt.uses
      exact (value.blames (place.part (by simp [Node.children]))).thenStep fun _ => emitPlain rfl

theorem stmtsBlame {top : Node} : (statements : List Stmt) → (∀ s ∈ statements, Within top (.statement s)) →
    Blames top (Compile.stmts statements) (stmtsEvents statements) (stmtsUses statements)
  | [], _ => by
      unfold Compile.stmts stmtsEvents stmtsUses
      exact nothing
  | s :: rest, place => by
      unfold Compile.stmts stmtsEvents stmtsUses
      exact (s.blames (place s List.mem_cons_self)).andThen fun _ =>
        stmtsBlame rest fun s' member => place s' (List.mem_cons_of_mem _ member)

end

theorem Program.failed {p : Program} {e : CompileError} :
    p.compile = .error e ↔ (Compiler.fresh.compile (.program p)).1 = some e := by
  unfold Program.compile
  split
  · rename_i fine
    rw [fine]
    simp
  · rename_i failed
    rw [failed]
    simp

/- An error of any program points at its culprit, and nothing else can go wrong: where bytes are written over
others, those are there. -/
theorem errorsBlamed (p : Program) :
    (∀ e, p.compile = .error e → Blamed (.program p) p.uses e) ∧
      ∀ n c, Visits (.program p) .fresh n c → ∀ code position bytes, Overwrites n c code position bytes →
        position + bytes.length ≤ code.size := by
  constructor
  · intro e h
    have failure := Program.failed.mp h
    have place : ∀ s ∈ p, Within (.program p) (.statement s) := fun s member =>
      Within.top.part (List.mem_map_of_mem member)
    obtain ⟨c, failed⟩ := Compiler.notCompiled failure
    exact (stmtsBlame p place).fails freshFaithful failed
  · exact fun n c _ code position bytes written => overwritesInside written

/- `if (true) { true } c` -/
def Expr.certain : Expr :=
  .conditional (.boolean true .unknown) ⟨[.expression (.boolean true .unknown) .unknown], .unknown⟩ none .unknown

def Program.unboundAfter : Program := [.expression .certain .unknown, .expression (.name "c" .unknown) .unknown]

theorem errorsBlamedUnbound :
    Program.unboundAfter.compile = .error (.undefinedVariable "c" .unknown) ∧
      Blamed (.program .unboundAfter) Program.unboundAfter.uses (.undefinedVariable "c" .unknown) ∧
        Visits (.program .unboundAfter) .fresh (.expression .certain) .fresh ∧
          ∃ code position bytes, Overwrites (.expression .certain) .fresh code position bytes ∧
            position + bytes.length ≤ code.size := by
  have failed : Program.unboundAfter.compile = .error (.undefinedVariable "c" .unknown) :=
    Program.failed.mpr (by decide +kernel)
  have first : Visits (.program .unboundAfter) .fresh (.statement (.expression .certain .unknown)) .fresh :=
    .part .top List.mem_cons_self rfl
  have visits : Visits (.program .unboundAfter) .fresh (.expression .certain) .fresh :=
    .part first List.mem_cons_self rfl
  obtain ⟨blamed, inside⟩ := errorsBlamed .unboundAfter
  obtain ⟨code, position, bytes, written⟩ : ∃ code position bytes,
      Overwrites (.expression .certain) .fresh code position bytes := ⟨_, _, _, .toEnd rfl rfl⟩
  exact ⟨failed, blamed _ failed, visits, _, _, _, written, inside _ _ visits _ _ _ written⟩

end ClosureCode
