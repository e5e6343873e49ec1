import ClosureCode.Proofs.Tracing

/-! The compiler's record of the last instruction, and the places where it writes over a stream, at every point of every
session: while a call goes on, after it has failed, and in the functions around the one being compiled. -/
namespace ClosureCode
open Instruction (encode encodeAll decodeAll decodeAllEncodeAll extent)

namespace Log

def start : Log := ⟨.fresh, []⟩

def call (l : Log) (node : Node) : Option CompileError × Log :=
  match Traced.node node l with
  | .ok _ l => (none, l)
  | .error e l => (some e, l)

def resume (l : Log) : Log := ⟨.resume l.compiler.table l.compiler.constants, .restart :: l.acts⟩

end Log

/- What was done to the streams in a session. -/
inductive Logged : Session → Log → Prop where
  | start : Logged .start .start
  | call {s l} (before : Logged s l) (node : Node) : Logged (s.call node) (l.call node).2
  | resume {s l} (before : Logged s l) : Logged s.resume l.resume

theorem Session.Reached.logged {s : Session} (reached : s.Reached) : ∃ l, Logged s l := by
  induction reached with
  | start => exact ⟨_, .start⟩
  | call before node ih =>
      obtain ⟨l, logged⟩ := ih
      exact ⟨_, logged.call node⟩
  | resume before ih =>
      obtain ⟨l, logged⟩ := ih
      exact ⟨_, logged.resume⟩

/- A call does the same with a journal as without. -/
theorem Log.Has.call {l : Log} {written : List Written} {around : List Account} (has : l.Has written around)
    (node : Node) :
    (l.call node).1 = (l.compiler.compile node).1 ∧ (l.call node).2.compiler = (l.compiler.compile node).2 ∧
      Log.Grown written around (l.call node).2 := by
  have ran := node.records l written around has trivial
  unfold Follows at ran
  unfold Log.call
  cases run : Traced.node node l with
  | ok u l' =>
      simp only [run] at ran ⊢
      obtain ⟨same, more, has', -⟩ := ran
      rw [Compiler.compileOk same]
      exact ⟨rfl, rfl, more, has'⟩
  | error e l' =>
      simp only [run] at ran ⊢
      rw [Compiler.compileError ran.1]
      exact ⟨rfl, rfl, ran.2⟩

theorem Logged.has {s : Session} {l : Log} (logged : Logged s l) :
    l.compiler = s.compiler ∧ ∃ written, l.Has written [] := by
  induction logged with
  | start => exact ⟨rfl, [], .start, rfl, rfl⟩
  | @call s l before node ih =>
      obtain ⟨same, written, has⟩ := ih
      obtain ⟨-, compiler, more, has'⟩ := has.call node
      rw [compiler, same]
      exact ⟨rfl, _, has'⟩
  | @resume s l before ih =>
      obtain ⟨same, written, has⟩ := ih
      refine ⟨?_, [], has.journal.act trivial, rfl, rfl⟩
      rw [Log.resume, same]
      rfl

/- What is recorded of the last instruction, against the stream as it is decoded from its start. -/
structure Account.Recorded (a : Account) : Prop where
  decoded : decodeAll a.emission.code.toList = .ok a.instructions
  blank : a.emission.last = none ↔ a.emission.code = #[]
  last : ∀ before i, a.instructions = before ++ [i] →
    a.emission.last = some ⟨i.opcode, extent before⟩ ∧
      Stands a.emission.code.toList (extent before) i i.opcode.length ∧
        extent before + i.opcode.length = a.emission.code.size

/- One instruction is written over another of the same length. -/
structure Account.Replaces (a : Account) (start : Nat) (old : Written) (new : Instruction) (code : Code) : Prop where
  bytes : ∃ bytes, encode new.opcode new.operands = .ok bytes ∧ bytes.length = old.instruction.opcode.length ∧
    start + bytes.length ≤ a.emission.code.size ∧ code = overwrite a.emission.code start bytes
  whole : ∃ before after, a.written = before ++ old :: after ∧ start = offsetBehind before ∧
    decodeAll code.toList = .ok (before.map Written.instruction ++ new :: after.map Written.instruction)
  boundaries : ∀ offset, Boundary code.toList offset ↔ Boundary a.emission.code.toList offset

/- The block's last statement was popped just before, behind its value. -/
structure Account.EndsInPop (a : Account) (block : Block) (earlier : List Act) (s : Stmt) (before : List Written)
    (value : Written) : Prop where
  statement : block.statements.getLast? = some s
  just : earlier.head? = some (.emit (.statement s) .pop [])
  written : a.written = before ++ [value] ++ [.pop s]
  last : a.emission.last = some ⟨.pop, offsetBehind (before ++ [value])⟩
  previous : a.emission.previous = some ⟨value.instruction.opcode, offsetBehind before⟩
  settled : ∀ w ∈ a.written, w.Settled (offsetBehind (before ++ [value]))

/- How a stream is when an act is done to it. -/
def Act.Careful (earlier : List Act) (a : Account) : Act → Prop
  | .patch node op start =>
      a.Replaces start (.placeholder node op) ⟨op, [a.emission.position]⟩ (a.patch op start).emission.code
  | .takeBack block => ∃ s before value, a.EndsInPop block earlier s before value
  | .returnLast block => ∃ s before value, a.EndsInPop block earlier s before value ∧
      a.Replaces (offsetBehind (before ++ [value])) (.pop s) ⟨.returnValue, []⟩
        a.returnLast.emission.code
  | .emit .. | .enter | .leave | .restart => True

/- Streams of instructions of the same lengths have the same boundaries. -/
theorem boundaryOfLengths {is js : List Instruction} {x y : Bytes} (hx : encodeAll is = .ok x)
    (hy : encodeAll js = .ok y)
    (same : is.map (·.opcode.length) = js.map (·.opcode.length)) {offset : Nat} (boundary : Boundary x offset) :
    Boundary y offset := by
  obtain ⟨before, after, rfl, rfl⟩ := boundarySplits hx boundary
  have front : before.map (·.opcode.length) = (js.take before.length).map (·.opcode.length) := by
    rw [List.map_take, ← same, List.map_append, List.take_left' (List.length_map _)]
  rw [extent, front]
  rw [← List.take_append_drop before.length js] at hy
  exact splitBoundary hy

namespace Account.Exact
variable {a : Account}

theorem recorded (h : a.Exact) : a.Recorded := by
  constructor
  case decoded => exact decodeAllEncodeAll h.encoded
  case blank =>
    rw [h.last]
    have encoded := h.encoded
    generalize a.instructions = is at encoded
    cases is using List.reverseRecOn with
    | nil =>
        have none : a.emission.code = #[] := Array.ext' (Except.ok.inj encoded).symm
        exact ⟨fun _ => none, fun _ => rfl⟩
    | append_singleton before i =>
        rw [recordOfAppend]
        refine ⟨fun none => (by cases none), fun none => ?_⟩
        have size := Instruction.encodeAllLength encoded
        rw [none, List.map_append, List.sum_append] at size
        have := i.opcode.lengthPositive
        simp at size
        omega
  case last =>
    intro before i split
    have encoded := h.encoded
    have last := h.last
    have size : a.emission.position = extent a.instructions := h.position
    rw [split] at encoded last size
    rw [recordOfAppend] at last
    rw [Emission.position, Instruction.extentAppend, Instruction.extentCons, Instruction.extentNil] at size
    exact ⟨last, splitStands encoded, size.symm⟩

theorem replaces (h : a.Exact) {before after : List Written} {old : Written}
    (found : a.written = before ++ old :: after) (new : Written)
    (same : new.instruction.opcode.length = old.instruction.opcode.length) {bytes : Bytes} {b : Account}
    (exact : b.Exact) (put : b.written = before ++ new :: after)
    (encoded : encode new.instruction.opcode new.instruction.operands = .ok bytes)
    (code : b.emission.code = overwrite a.emission.code (offsetBehind before) bytes) :
    a.Replaces (offsetBehind before) old new.instruction b.emission.code := by
  have length : bytes.length = old.instruction.opcode.length := by rw [Instruction.encodeLength encoded, same]
  have lengths : b.instructions.map (·.opcode.length) = a.instructions.map (·.opcode.length) := by
    simp [instructions, found, put, same]
  constructor
  case bytes =>
    refine ⟨bytes, encoded, length, ?_, code⟩
    have size := h.position
    rw [found, offsetBehindAppend, offsetBehindCons, Emission.position] at size
    omega
  case whole =>
    refine ⟨before, after, found, rfl, ?_⟩
    rw [decodeAllEncodeAll exact.encoded, instructions, put, List.map_append, List.map_cons]
  case boundaries =>
    exact fun offset => ⟨boundaryOfLengths exact.encoded h.encoded lengths,
      boundaryOfLengths h.encoded exact.encoded lengths.symm⟩

end Account.Exact

/- A pop that is due to go stands behind a value, and nothing goes beyond it. -/
theorem Popped.ends {block : Block} {earlier : List Act} (popped : Popped block earlier) (journal : Journal earlier) :
    ∃ s before value, ∃ a : Account, ∃ around, replay earlier = a.emit (.statement s) .pop [] :: around ∧ a.Exact ∧
      a.written = before ++ [value] ∧ (a.emit (.statement s) .pop []).EndsInPop block earlier s before value := by
  obtain ⟨s, earliest, a, around, last, rfl, accounts, some⟩ := popped
  have exact := journal.exact (List.suffix_cons _ earliest) a (accounts ▸ List.mem_cons_self)
  obtain ⟨before, value, split⟩ : ∃ before value, a.written = before ++ [value] :=
    ⟨_, _, (List.dropLast_append_getLast some).symm⟩
  refine ⟨s, before, value, a, around, by rw [replay, accounts]; rfl, exact, split, ?_⟩
  have position : a.emission.position = offsetBehind (before ++ [value]) := by
    rw [exact.position, split]
  constructor
  case statement => exact last
  case just => rfl
  case written =>
    rw [Account.emitPop, split]
    rfl
  case last =>
    rw [Account.emitPop, ← position]
    rfl
  case previous =>
    have record := exact.last
    rw [Account.instructions, split, List.map_append, List.map_singleton, recordOfAppend] at record
    exact record
  case settled =>
    rw [Account.emitPop, ← position]
    intro w member
    rcases List.mem_append.mp member with old | new
    · exact exact.settled w old
    · rw [List.mem_singleton.mp new]
      exact fun jump => by cases jump

theorem Journal.running {acts : List Act} (journal : Journal acts) : ∃ a around, replay acts = a :: around := by
  induction journal with
  | start => exact ⟨_, _, rfl⟩
  | @act act earlier before due ih =>
      obtain ⟨a, around, accounts⟩ := ih
      cases act with
      | leave =>
          obtain ⟨b, c, around', accounts'⟩ := due
          rw [replay, accounts']
          exact ⟨c, around', rfl⟩
      | _ =>
          rw [replay, accounts]
          exact ⟨_, _, rfl⟩

theorem Journal.point {acts earlier : List Act} (journal : Journal acts) (point : earlier <:+ acts) :
    Journal earlier := by
  induction journal with
  | start => exact List.suffix_nil.mp point ▸ .start
  | act before due ih =>
      rcases List.suffix_cons_iff.mp point with rfl | past
      · exact .act before due
      · exact ih past

/- Every act of a journal was done with care. -/
theorem Journal.careful {act : Act} {earlier : List Act} (journal : Journal (act :: earlier)) :
    ∃ a around, replay earlier = a :: around ∧ act.Careful earlier a := by
  cases journal with
  | act before due =>
    cases act with
    | patch node op start =>
        obtain ⟨a, around, first, rest, bytes, accounts, found, rfl, encoded⟩ := due
        have exact := before.exact (List.suffix_refl _) a (accounts ▸ List.mem_cons_self)
        have patched := Account.patchFound found encoded
        refine ⟨a, around, accounts, exact.replaces found ((Written.placeholder node op).aimed a.emission.position) rfl
          (exact.patch found encoded) (by rw [patched]) encoded (by rw [patched]; rfl)⟩
    | takeBack block =>
        obtain ⟨s, front, value, a, around, accounts, -, -, ends⟩ := Popped.ends due before
        exact ⟨_, around, accounts, s, front, value, ends⟩
    | returnLast block =>
        obtain ⟨s, front, value, a, around, accounts, exact, split, ends⟩ := Popped.ends due before
        refine ⟨_, around, accounts, s, front, value, ends, ?_⟩
        have returned : ((a.emit (.statement s) .pop []).returnLast).Exact := by
          rw [Account.returnPop]
          exact exact.emit _ fun jump => by cases jump
        have popped : (a.emit (.statement s) .pop []).Exact := exact.emit _ fun jump => by cases jump
        have put : (a.emit (.statement s) .pop []).returnLast.written =
            front ++ [value] ++ [(Written.pop s).returned] := by
          rw [Account.returnPop, ← split]
          rfl
        refine popped.replaces ends.written (Written.pop s).returned rfl returned put rfl ?_
        have last := ends.last
        rw [Account.returnLast, Emission.returnLast, last]
        rfl
    | _ =>
        obtain ⟨a, around, accounts⟩ := before.running
        exact ⟨a, around, accounts, trivial⟩

/- What is known of a session by its journal. -/
structure Bookkept (s : Session) (l : Log) : Prop where
  compiler : l.compiler = s.compiler
  follows : ∀ node, (l.call node).1 = (s.compiler.compile node).1 ∧
    (l.call node).2.compiler = (s.compiler.compile node).2
  streams : (replay l.acts).map Account.emission = s.compiler.current :: s.compiler.enclosing
  records : ∀ earlier, earlier <:+ l.acts → ∀ a ∈ replay earlier, a.Recorded
  acts : ∀ act earlier, act :: earlier <:+ l.acts → ∃ a around, replay earlier = a :: around ∧ act.Careful earlier a

theorem bookkeepingExact {s : Session} (reached : s.Reached) : (∃ l, Logged s l) ∧ ∀ l, Logged s l → Bookkept s l := by
  refine ⟨reached.logged, fun l logged => ?_⟩
  obtain ⟨same, written, has⟩ := logged.has
  constructor
  case compiler => exact same
  case follows =>
    intro node
    obtain ⟨failure, compiler, -⟩ := has.call node
    exact ⟨same ▸ failure, same ▸ compiler⟩
  case streams => rw [has.accounts, ← same, has.enclosing, List.map_cons]
  case records => exact fun earlier point a member => (has.journal.exact point a member).recorded
  case acts => exact fun act earlier point => (has.journal.point point).careful

/- `fn() { if (true) { if (false) { 1 } } }`: the inner conditional is the value of an arm, the outer one that of the
function. -/
def Program.branching : Program :=
  let one := Block.mk [.expression (.integer 1 .unknown) .unknown] .unknown
  let inner := Block.mk [.expression (.conditional (.boolean false .unknown) one none .unknown) .unknown] .unknown
  let outer := Block.mk [.expression (.conditional (.boolean true .unknown) inner none .unknown) .unknown] .unknown
  [.expression (.function none [] outer .unknown) .unknown]

namespace Act

def takesBack : Act → Bool
  | .takeBack _ => true
  | _ => false

def overwrites : Act → Bool
  | .patch .. | .returnLast _ => true
  | _ => false

end Act

theorem bookkeepingExactBranching :
    let s := (Session.start.call (.program .branching)).call (.program .unbound)
    let l := ((Log.start.call (.program .branching)).2.call (.program .unbound)).2
    s.failed ∧ l.acts.countP Act.takesBack = 2 ∧ l.acts.countP Act.overwrites = 5 ∧ Logged s l ∧ Bookkept s l := by
  intro s l
  have logged : Logged s l := .call (.call .start (.program .branching)) (.program .unbound)
  exact ⟨by decide +kernel, by decide +kernel, by decide +kernel, logged,
    (bookkeepingExact (.call (.call .start _) _)).2 l logged⟩

end ClosureCode
