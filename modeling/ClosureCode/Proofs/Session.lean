import ClosureCode.Proofs.ForwardJumps
import ClosureCode.Proofs.Runs

/-! Sessions: calls of a compiler, each of which may fail anywhere, and new compilers that go on
from the names and constants of the one before. -/
namespace ClosureCode
open Symbolic (Placed advance)

/- Where a session has come to. -/
structure Session where
  compiler : Compiler
  /- Whether a call failed since the stream was begun. -/
  failed : Bool
  /- Whether all calls since then were for programs. -/
  programs : Bool
  /- The symbols of the `let`s that were reached outside of functions, from the start of the session. -/
  given : List Symbol

def Node.isProgram : Node → Bool
  | .program _ => true
  | .statement _ | .block _ | .expression _ => false

namespace Session

def start : Session := ⟨.fresh, false, true, []⟩

def call (s : Session) (node : Node) : Session :=
  let (failure, compiler) := s.compiler.compile node
  ⟨compiler, s.failed || failure.isSome, s.programs && node.isProgram, s.given ++ node.lets s.compiler⟩

def resume (s : Session) : Session :=
  ⟨.resume s.compiler.table s.compiler.constants, false, true, s.given⟩

inductive Reached : Session → Prop where
  | start : Reached start
  | call {s} (before : Reached s) (node : Node) : Reached (s.call node)
  | resume {s} (before : Reached s) : Reached s.resume

end Session

/- What a call leaves, whatever its outcome. -/
theorem compileLeaves (c : Compiler) (node : Node) : Leaves c (c.compile node).2 (node.lets c) := by
  have kept := node.keeps c trivial
  unfold Compiler.compile
  cases ran : Compile.node node c with
  | error e c' =>
      simp only [ran] at kept
      exact kept
  | ok u c' =>
      simp only [ran] at kept
      exact kept.1

def Node.lower : Node → Lower
  | .program p => lowerStmts p
  | .statement s => s.lower
  | .block b => lowerStmts b.statements
  | .expression e => e.lower

def Node.events : Node → List Event
  | .program p => stmtsEvents p
  | .statement s => s.events
  | .block b => stmtsEvents b.statements
  | .expression e => e.events

/- Only an expression leaves a value. -/
def Node.leaves : Node → Nat
  | .program _ | .statement _ | .block _ => 0
  | .expression _ => 1

theorem Node.refines : (node : Node) → Refines always (Compile.node node) node.lower always
  | .program p => stmtsRefine p
  | .statement s => s.refines
  | .block ⟨statements, _⟩ => by
      unfold Compile.node Compile.block Node.lower
      exact stmtsRefine statements
  | .expression e => e.refines

theorem Node.builds : (node : Node) → node.lower.Builds node.events 0 node.leaves
  | .program p => stmtsBuild p
  | .statement s => s.builds
  | .block b => stmtsBuild b.statements
  | .expression e => e.builds

/- The stream is a fragment with its labels placed. -/
structure Carries (c : Compiler) (l : Lowered) : Prop where
  fragment : ∃ s₀ e s depth, Fragment s₀ 0 e l s depth ∧ Represents c s
  encoded : ∀ place, Placed advance place 0 l.code →
    Instruction.encodeAll (Symbolic.instructions place l.code) = .ok c.current.code.toList

namespace Carries
variable {c c' : Compiler} {l : Lowered} {node : Node}

theorem blank (table : SymbolTable) (constants : Array Object) : Carries (.resume table constants) ⟨[], []⟩ :=
  ⟨⟨⟨table, constants.size, 0⟩, [], _, 0, .nil, ⟨rfl, rfl⟩⟩, fun _ _ => rfl⟩

theorem call (h : Carries c l) (ran : Compile.node node c = .ok () c') :
    ∃ l' s s', node.lower s = some (l', s') ∧ Carries c' (l ++ l') := by
  obtain ⟨⟨s₀, e, s, depth, fragment, start⟩, encoded⟩ := h
  have next := node.refines c s start trivial
  rw [ran] at next
  obtain ⟨l', s', lower, start', -, -, grown⟩ := next
  refine ⟨l', s, s', lower, ⟨_, _, s', _, fragment.append (node.builds lower depth), start'⟩, fun place placed => ?_⟩
  rw [Lowered.codeAppend, Symbolic.placedAppend] at placed
  have here := encoded place placed.1
  have position : c.current.position = l.code.foldl advance 0 := by
    rw [Symbolic.advanceAll, Nat.zero_add, ← Symbolic.instructionsLength here]
    exact Array.length_toList.symm
  obtain ⟨⟨bytes, behind, code⟩, -⟩ := grown place (position ▸ placed.2)
  rw [Lowered.codeAppend, Symbolic.instructionsAppend, Instruction.encodeAllAppend]
  exact ⟨_, bytes, here, behind, code⟩

theorem jumps (h : Carries c l) :
    JumpsForward c.current.code.toList ∧ (Symbolic.EndsPlain l.code → JumpsInside c.current.code.toList) := by
  obtain ⟨⟨s₀, e, s, depth, fragment, -⟩, encoded⟩ := h
  have placed : Placed advance (Symbolic.offset l.code) 0 l.code := Symbolic.placedSelf (fragmentLabels fragment).2.1 0
  exact fragmentJumps fragment (Symbolic.assembleOk.mpr (encoded _ placed))

end Carries

/- What every step of a session preserves. -/
structure Session.Sound (s : Session) : Prop where
  enclosing : s.compiler.enclosing = []
  top : s.compiler.table.outer = []
  whole : ∃ is, Instruction.encodeAll is = .ok s.compiler.current.code.toList
  functions : ∀ f, .compiled f ∈ s.compiler.constants.toList → f.WellMade
  stream : s.failed = false → ∃ l, Carries s.compiler l ∧ (s.programs → Symbolic.EndsPlain l.code)
  globals : ∀ symbol ∈ s.given, symbol.storage = .global ∧ symbol.index < s.compiler.table.definitions
  slots : s.given.Pairwise fun a b => a.index < b.index

namespace Session
variable {s : Session}

theorem startSound : start.Sound where
  enclosing := rfl
  top := rfl
  whole := ⟨[], rfl⟩
  functions f member := by cases member
  stream _ := ⟨_, Carries.blank _ _, fun _ => .inl rfl⟩
  globals symbol member := by cases member
  slots := .nil

theorem Sound.resume (h : s.Sound) : s.resume.Sound where
  enclosing := rfl
  top := h.top
  whole := ⟨[], rfl⟩
  functions := h.functions
  stream _ := ⟨_, Carries.blank _ _, fun _ => .inl rfl⟩
  globals := h.globals
  slots := h.slots

theorem Sound.call (h : s.Sound) (node : Node) : (s.call node).Sound := by
  have left := compileLeaves s.compiler node
  have defined := left.table.lets h.top
  obtain ⟨ascending, grown, slots⟩ := defined.increasing h.top
  obtain ⟨top, -, globals, -⟩ := defined.slots h.top
  constructor
  case enclosing => exact left.enclosing.trans h.enclosing
  case top => exact top
  case whole =>
    obtain ⟨is, encoded⟩ := h.whole
    obtain ⟨js, more, encoded', code⟩ := left.code
    exact ⟨is ++ js, Instruction.encodeAllAppend.mpr ⟨_, more, encoded, encoded', code⟩⟩
  case functions =>
    intro f member
    obtain ⟨new, pool, made⟩ := left.pool
    rcases List.mem_append.mp (pool ▸ member) with old | added
    · exact h.functions f old
    · exact made f added
  case stream =>
    -- A failed call may leave a jump without a target, so this goes by the runs that succeed.
    intro fine
    obtain ⟨before, now⟩ := Bool.or_eq_false_iff.mp fine
    obtain ⟨l, carries, ends⟩ := h.stream before
    cases ran : Compile.node node s.compiler with
    | error e c' => simp [ran] at now
    | ok u c' =>
        obtain ⟨l', s₁, s₂, lower, carries'⟩ := carries.call ran
        have same : (s.call node).compiler = c' := by simp [Session.call, Compiler.compile, ran]
        refine ⟨l ++ l', same ▸ carries', fun programs => ?_⟩
        obtain ⟨before, now⟩ := (Bool.and_eq_true _ _).mp programs
        cases node with
        | program p => exact Symbolic.endsPlainAppend (ends before) (stmtsEndPlain lower)
        | statement _ | block _ | expression _ => cases now
  case globals =>
    intro symbol member
    rcases List.mem_append.mp member with old | new
    · exact ⟨(h.globals symbol old).1, Nat.lt_of_lt_of_le (h.globals symbol old).2 grown⟩
    · exact ⟨globals symbol new, (slots symbol new).2⟩
  case slots =>
    refine List.pairwise_append.mpr ⟨h.slots, ascending, fun a old b new => ?_⟩
    exact Nat.lt_of_lt_of_le (h.globals a old).2 (slots b new).1

theorem Reached.sound (reached : s.Reached) : s.Sound := by
  induction reached with
  | start => exact startSound
  | call before node ih => exact ih.call node
  | resume before ih => exact ih.resume

/- Streams are whole instructions after any failure. Where jumps are all patched, they go forward. -/
structure WellFormed (s : Session) : Prop where
  whole : Whole s.compiler.current.code.toList
  forward : s.failed = false → JumpsForward s.compiler.current.code.toList
  inside : s.failed = false → s.programs → JumpsInside s.compiler.current.code.toList
  functions : ∀ f, .compiled f ∈ s.compiler.constants.toList →
    Whole f.code.toList ∧ JumpsForward f.code.toList ∧ JumpsInside f.code.toList

end Session

theorem sessionCode {s : Session} (reached : s.Reached) : s.WellFormed := by
  have sound := reached.sound
  constructor
  case whole =>
    obtain ⟨is, encoded⟩ := sound.whole
    exact encodedWhole encoded
  case forward =>
    intro fine
    obtain ⟨l, carries, -⟩ := sound.stream fine
    exact carries.jumps.1
  case inside =>
    intro fine programs
    obtain ⟨l, carries, ends⟩ := sound.stream fine
    exact carries.jumps.2 (ends programs)
  case functions =>
    intro f member
    obtain ⟨code, body, assembled⟩ := sound.functions f member
    exact ⟨encodedWhole (Symbolic.assembleOk.mp assembled), body.jumps assembled⟩

/- `if (true) { let b = 1; fn() { b; c } }`: it fails inside a function, in an arm whose jump waits. -/
def Program.unbound : Program :=
  let use := fun name => Stmt.expression (.name name .unknown) .unknown
  let function := Expr.function none [] ⟨[use "b", use "c"], .unknown⟩ .unknown
  let arm := Block.mk [.binding ⟨"b", .unknown⟩ (.integer 1 .unknown) .unknown, .expression function .unknown] .unknown
  [.expression (.conditional (.boolean true .unknown) arm none .unknown) .unknown]

theorem sessionCodeUnbound :
    let s := Session.start.call (.program .nested)
    let t := s.call (.program .unbound)
    s.failed = false ∧ s.WellFormed ∧ t.failed ∧ t.WellFormed :=
  ⟨by decide +kernel, sessionCode (.call .start _), by decide +kernel, sessionCode (.call (.call .start _) _)⟩

/- What a call hands on, whatever its outcome. -/
structure Session.Continues (s t : Session) (lets : List Symbol) : Prop where
  level : t.compiler.enclosing = [] ∧ t.compiler.table.outer = []
  pool : s.compiler.constants.toList <+: t.compiler.constants.toList
  stream : s.compiler.current.code.toList <+: t.compiler.current.code.toList
  defined : Defines s.compiler.table lets t.compiler.table
  given : t.given = s.given ++ lets
  globals : ∀ symbol ∈ t.given, symbol.storage = .global
  slots : t.given.Pairwise fun a b => a.index < b.index
  names : ∀ name, name ∉ lets.map (·.name) →
    (t.compiler.table.resolve name).1 = (s.compiler.table.resolve name).1

theorem sessionContinues {s : Session} (reached : s.Reached) (node : Node) :
    s.Continues (s.call node) (node.lets s.compiler) := by
  have sound := reached.sound
  have after := sound.call node
  have left := compileLeaves s.compiler node
  obtain ⟨new, pool, -⟩ := left.pool
  obtain ⟨is, more, -, code⟩ := left.code
  have defined := left.table.lets sound.top
  constructor
  case level => exact ⟨after.enclosing, after.top⟩
  case pool => exact ⟨new, pool.symm⟩
  case stream => exact ⟨more, code.symm⟩
  case defined => exact defined
  case given => rfl
  case globals => exact fun symbol member => (after.globals symbol member).1
  case slots => exact after.slots
  case names => exact fun name absent => defined.other sound.top absent

theorem sessionContinuesUnbound :
    let s := Session.start.call (.program .nested)
    let node := Node.program .unbound
    (s.call node).failed ∧ node.lets s.compiler = [⟨"b", .global, 1⟩] ∧
      s.Continues (s.call node) (node.lets s.compiler) :=
  ⟨by decide +kernel, by decide +kernel, sessionContinues (.call .start _) (.program .unbound)⟩

end ClosureCode
