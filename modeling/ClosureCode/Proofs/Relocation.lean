import ClosureCode.Proofs.Refinement
import ClosureCode.Proofs.StackDiscipline

/-! A program in two parts. Compiled on its own, with the names and constants that the first
part left, the second part has the code that it has in the whole, but for the targets of its jumps. -/
namespace ClosureCode
open Symbolic (Placed advance)

namespace Instruction

/- The same instruction in code that stands further on. -/
def relocate (distance : Nat) (i : Instruction) : Instruction :=
  if i.opcode.isJump then { i with operands := i.operands.map (· + distance) } else i

theorem jumpEncodes {op : Opcode} (jump : op.isJump) {operands : List Nat} :
    (∃ bytes, encode op operands = .ok bytes) ↔ ∃ target, operands = [target] ∧ target ≤ 65535 := by
  have widths : op.widths = [2] := by cases op <;> first | rfl | cases jump
  have one : ∀ target, (∃ bytes, encode op [target] = .ok bytes) ↔ target ≤ 65535 := by
    intro target
    by_cases near : target < 65536
    · simp [encode, widths, Layout.writeFields, Layout.writeField, near, bind, Except.bind, Nat.le_of_lt_succ near]
    · simp [encode, widths, Layout.writeFields, Layout.writeField, near, bind, Except.bind]
      omega
  constructor
  · rintro ⟨bytes, encoded⟩
    have count : operands.length = 1 := by
      by_contra other
      rw [encode, widths, if_neg (by simpa using other)] at encoded
      cases encoded
    obtain ⟨target, rfl⟩ := List.length_eq_one_iff.mp count
    exact ⟨target, rfl, (one target).mp ⟨bytes, encoded⟩⟩
  · rintro ⟨target, rfl, near⟩
    exact (one target).mpr near

theorem encodeRelocated (distance : Nat) (i : Instruction) :
    (∃ bytes, encode (i.relocate distance).opcode (i.relocate distance).operands = .ok bytes) ↔
      (∃ bytes, encode i.opcode i.operands = .ok bytes) ∧
        (i.opcode.isJump → ∀ target ∈ i.operands, target + distance ≤ 65535) := by
  unfold relocate
  by_cases jump : i.opcode.isJump
  · rw [if_pos jump, jumpEncodes jump, jumpEncodes jump]
    constructor
    · rintro ⟨moved, one, near⟩
      obtain ⟨target, same, rfl⟩ := List.map_eq_singleton_iff.mp one
      refine ⟨⟨target, same, by omega⟩, fun _ other member => ?_⟩
      rw [same, List.mem_singleton] at member
      rwa [member]
    · rintro ⟨⟨target, same, -⟩, near⟩
      exact ⟨target + distance, by simp [same], near jump target (by simp [same])⟩
  · simp [jump]

theorem encodeAllRelocated (distance : Nat) (is : List Instruction) :
    (∃ bytes, encodeAll (is.map (relocate distance)) = .ok bytes) ↔
      (∃ bytes, encodeAll is = .ok bytes) ∧
        ∀ i ∈ is, i.opcode.isJump → ∀ target ∈ i.operands, target + distance ≤ 65535 := by
  induction is with
  | nil => simp [encodeAll]
  | cons i rest ih =>
      have split : ∀ {j : Instruction} {js : List Instruction}, (∃ bytes, encodeAll (j :: js) = .ok bytes) ↔
          (∃ first, encode j.opcode j.operands = .ok first) ∧ ∃ more, encodeAll js = .ok more := by
        intro j js
        constructor
        · rintro ⟨bytes, encoded⟩
          obtain ⟨first, more, one, others, -⟩ := encodeAllCons.mp encoded
          exact ⟨⟨first, one⟩, ⟨more, others⟩⟩
        · rintro ⟨⟨first, one⟩, ⟨more, others⟩⟩
          exact ⟨_, encodeAllCons.mpr ⟨first, more, one, others, rfl⟩⟩
      rw [List.map_cons, split, split, encodeRelocated, ih, List.forall_mem_cons]
      exact and_and_and_comm

end Instruction

namespace Symbolic

theorem placeOfShift (label offset distance : Nat) (code : List Symbolic) :
    placeOf advance label (offset + distance) code = placeOf advance label offset code + distance := by
  induction code generalizing offset with
  | nil => rfl
  | cons i rest ih =>
      have step : advance (offset + distance) i = advance offset i + distance := by
        unfold advance
        omega
      simp only [placeOf, step, ih]
      split <;> rfl

/- Only jumps tell where code stands. -/
theorem instructionsShift {code : List Symbolic} (named : JumpsNamed code) (place : Nat → Nat) (distance : Nat) :
    instructions (fun label => place label + distance) code =
      (instructions place code).map (Instruction.relocate distance) := by
  induction code with
  | nil => rfl
  | cons piece rest ih =>
      have more := ih fun i member => named i (List.mem_cons_of_mem _ member)
      have here : resolved (fun label => place label + distance) piece =
          (resolved place piece).map (Instruction.relocate distance) := by
        cases piece with
        | plain i => simp [resolved, Instruction.relocate, named i List.mem_cons_self]
        | jumpUnlessTruthy target => rfl
        | jump target => rfl
        | mark label => rfl
      simpa [instructions, here] using more

end Symbolic

/- The places of the labels of code that starts at an offset. -/
def Lowered.placesFrom (l : Lowered) (start label : Nat) : Nat := Symbolic.placeOf advance label start l.code

theorem fitsFurther {l : Lowered} (named : Symbolic.JumpsNamed l.code) (start : Nat) :
    Fits (l.placesFrom start) l ↔ Fits (l.placesFrom 0) l ∧
      ∀ i ∈ Symbolic.instructions (l.placesFrom 0) l.code, i.opcode.isJump → ∀ target ∈ i.operands,
        target + start ≤ 65535 := by
  have places : l.placesFrom start = fun label => l.placesFrom 0 label + start := by
    funext label
    have shifted := Symbolic.placeOfShift label 0 start l.code
    rwa [Nat.zero_add] at shifted
  have code := Instruction.encodeAllRelocated start (Symbolic.instructions (l.placesFrom 0) l.code)
  rw [← Symbolic.instructionsShift named, ← places] at code
  constructor
  · rintro ⟨encoded, constants⟩
    obtain ⟨encoded, near⟩ := code.mp encoded
    exact ⟨⟨encoded, constants⟩, near⟩
  · rintro ⟨⟨encoded, constants⟩, near⟩
    exact ⟨code.mpr ⟨encoded, near⟩, constants⟩

section Runs
variable {ready after : Emission → Prop} {x : Compile Unit} {y : Lower} {c c' : Compiler} {s : Lowering}

theorem Refines.yields (h : Refines ready x y after) (start : Represents c s) (isReady : ready c.current)
    (once : ∀ l s', y s = some (l, s') → (Symbolic.marks l.code).Nodup) (ran : x c = .ok () c') :
    ∃ l s', y s = some (l, s') ∧ Represents c' s' ∧ Extends (l.placesFrom c.current.position) l c c' := by
  have outcome := h c s start isReady
  simp only [ran] at outcome
  obtain ⟨l, s', lower, represents, -, -, grown⟩ := outcome
  exact ⟨l, s', lower, represents, grown _ (Symbolic.placedSelf (once l s' lower) _)⟩

/- A run succeeds if and only if the part can be lowered and fits in where it is put. -/
theorem Refines.succeeds (h : Refines ready x y after) (start : Represents c s) (isReady : ready c.current)
    (once : ∀ l s', y s = some (l, s') → (Symbolic.marks l.code).Nodup) :
    (∃ c', x c = .ok () c') ↔ ∃ l s', y s = some (l, s') ∧ Fits (l.placesFrom c.current.position) l := by
  constructor
  · rintro ⟨c', ran⟩
    obtain ⟨l, s', lower, -, ⟨bytes, code, -⟩, ⟨objects, constants, -⟩⟩ := h.yields start isReady once ran
    exact ⟨l, s', lower, ⟨bytes, code⟩, ⟨objects, constants⟩⟩
  · rintro ⟨l, s', lower, fits⟩
    cases ran : x c with
    | ok u c' => exact ⟨c', rfl⟩
    | error e c' =>
        have outcome := h c s start isReady
        simp only [ran] at outcome
        exact absurd fits (outcome l s' lower _ (Symbolic.placedSelf (once l s' lower) _))

end Runs

theorem Compile.stmtsAppend (p q : List Stmt) :
    Compile.stmts (p ++ q) = (Compile.stmts p >>= fun _ => Compile.stmts q) := by
  induction p with
  | nil =>
      rw [List.nil_append, Compile.stmts, pure_bind]
  | cons s rest ih =>
      rw [List.cons_append, Compile.stmts, Compile.stmts, ih, bind_assoc]

theorem Compiler.compileProgram {c c' : Compiler} {program : Program} :
    c.compile (.program program) = (none, c') ↔ Compile.stmts program c = .ok () c' := by
  unfold Compiler.compile Compile.node
  cases ran : Compile.stmts program c <;> simp [ran]

section Resumed
variable {c whole rest : Compiler} {s : Lowering} {q : List Stmt}

theorem stmtsLabels (l : Lowered) (s' : Lowering) (h : lowerStmts q s = some (l, s')) :
    (Symbolic.marks l.code).Nodup :=
  (fragmentLabels (stmtsBuild q h 0)).2.1

theorem stmtsNamed {l : Lowered} {s' : Lowering} (h : lowerStmts q s = some (l, s')) : Symbolic.JumpsNamed l.code :=
  Symbolic.allSoundNamed (fragmentDepths (stmtsBuild q h 0))

theorem resumedRepresents (start : Represents c s) : Represents (.resume c.table c.constants) s :=
  ⟨start.table, start.slot⟩

/- The part compiled on its own has its code from offset zero on. -/
theorem resumedYields (start : Represents c s) (ran : Compile.stmts q (.resume c.table c.constants) = .ok () rest) :
    ∃ l s', lowerStmts q s = some (l, s') ∧ Represents rest s' ∧
      Instruction.encodeAll (Symbolic.instructions (l.placesFrom 0) l.code) = .ok rest.current.code.toList ∧
      ∃ objects, Constant.assembleAll l.constants = .ok objects ∧
        rest.constants.toList = c.constants.toList ++ objects := by
  obtain ⟨l, s', lower, represents, ⟨bytes, encoded, code⟩, constants⟩ :=
    (startRefines q).yields (resumedRepresents start) trivial stmtsLabels ran
  refine ⟨l, s', lower, represents, ?_, constants⟩
  rw [code]
  exact encoded

/- The same statements succeed behind other code if they succeed on their own and no jump
gets too far. -/
theorem resumedSucceeds (start : Represents c s) :
    (∃ whole, Compile.stmts q c = .ok () whole) ↔
      ∃ rest js, Compile.stmts q (.resume c.table c.constants) = .ok () rest ∧
        Instruction.decodeAll rest.current.code.toList = .ok js ∧
        ∀ i ∈ js, i.opcode.isJump → ∀ target ∈ i.operands, target + c.current.code.size ≤ 65535 := by
  rw [(startRefines q).succeeds start trivial stmtsLabels]
  constructor
  · rintro ⟨l, s', lower, fits⟩
    obtain ⟨fits, near⟩ := (fitsFurther (stmtsNamed lower) _).mp fits
    obtain ⟨rest, ran⟩ :=
      ((startRefines q).succeeds (resumedRepresents start) trivial stmtsLabels).mpr ⟨l, s', lower, fits⟩
    obtain ⟨l', s'', lower', -, encoded, -⟩ := resumedYields start ran
    cases lower.symm.trans lower'
    exact ⟨rest, _, ran, Instruction.decodeAllEncodeAll encoded, near⟩
  · rintro ⟨rest, js, ran, decoded, near⟩
    obtain ⟨l, s', lower, -, encoded, objects, assembled, -⟩ := resumedYields start ran
    cases decoded.symm.trans (Instruction.decodeAllEncodeAll encoded)
    exact ⟨l, s', lower, (fitsFurther (stmtsNamed lower) _).mpr ⟨⟨⟨_, encoded⟩, ⟨objects, assembled⟩⟩, near⟩⟩

theorem resumedAgrees (start : Represents c s) (behind : Compile.stmts q c = .ok () whole)
    (alone : Compile.stmts q (.resume c.table c.constants) = .ok () rest) :
    whole.constants = rest.constants ∧ whole.table = rest.table ∧ ∃ js moved,
      Instruction.decodeAll rest.current.code.toList = .ok js ∧
      Instruction.encodeAll (js.map (Instruction.relocate c.current.code.size)) = .ok moved ∧
      whole.current.code.toList = c.current.code.toList ++ moved := by
  obtain ⟨l, s', lower, represents, encoded, objects, assembled, constants⟩ := resumedYields start alone
  obtain ⟨l', s'', lower', represents', ⟨moved, encoded', code⟩, objects', assembled', constants'⟩ :=
    (startRefines q).yields start trivial stmtsLabels behind
  cases lower.symm.trans lower'
  cases assembled.symm.trans assembled'
  refine ⟨?_, represents'.table.trans represents.table.symm, _, moved, Instruction.decodeAllEncodeAll encoded, ?_, code⟩
  · rw [← Array.toList_inj, constants, constants']
  · rw [← Symbolic.instructionsShift (stmtsNamed lower), ← encoded']
    congr 2
    funext label
    have shifted := Symbolic.placeOfShift label 0 c.current.code.size l.code
    rwa [Nat.zero_add, eq_comm] at shifted

end Resumed

/- What becomes of `q` after `p`, which left the compiler `c`: compiled at once with `p`, and in
a run of its own that goes on from the names and constants of `c`. -/
structure Splits (p q : Program) (c : Compiler) : Prop where
  succeeds : (∃ whole, Compiler.fresh.compile (.program (p ++ q)) = (none, whole)) ↔
    ∃ rest js, (Compiler.resume c.table c.constants).compile (.program q) = (none, rest) ∧
      Instruction.decodeAll rest.current.code.toList = .ok js ∧
      ∀ i ∈ js, i.opcode.isJump → ∀ target ∈ i.operands, target + c.current.code.size ≤ 65535
  agrees : ∀ whole rest, Compiler.fresh.compile (.program (p ++ q)) = (none, whole) →
    (Compiler.resume c.table c.constants).compile (.program q) = (none, rest) →
    whole.constants = rest.constants ∧
    (∀ name, (whole.table.resolve name).1 = (rest.table.resolve name).1) ∧
    ∃ js moved, Instruction.decodeAll rest.current.code.toList = .ok js ∧
      Instruction.encodeAll (js.map (Instruction.relocate c.current.code.size)) = .ok moved ∧
      whole.current.code.toList = c.current.code.toList ++ moved

theorem splitProgram {p q : Program} {c : Compiler} (first : Compiler.fresh.compile (.program p) = (none, c)) :
    Splits p q c := by
  have ran := Compiler.compileProgram.mp first
  obtain ⟨l, s, -, start, -⟩ :=
    (startRefines p).yields freshRepresents trivial stmtsLabels ran
  have behind : Compile.stmts (p ++ q) .fresh = Compile.stmts q c := by
    rw [Compile.stmtsAppend, Compile.bindOk ran]
  constructor
  · simp only [Compiler.compileProgram, behind]
    exact resumedSucceeds start
  · intro whole rest together alone
    rw [Compiler.compileProgram, behind] at together
    obtain ⟨constants, table, moved⟩ := resumedAgrees start together (Compiler.compileProgram.mp alone)
    exact ⟨constants, fun name => by rw [table], moved⟩

/- `if (f) { let g = f; g(2) } else { len }`: a jump over each arm, and names of the part before. -/
def Program.choice : Program :=
  let use := fun name => Expr.name name .unknown
  let first := Block.mk [.binding ⟨"g", .unknown⟩ (use "f") .unknown,
    .expression (.call (use "g") [.integer 2 .unknown] .unknown) .unknown] .unknown
  let second := Block.mk [.expression (use "len") .unknown] .unknown
  [.expression (.conditional (use "f") first (some second) .unknown) .unknown]

theorem compiledState {program : Program} {b : Bytecode} (h : program.compile = .ok b) :
    ∃ c, Compiler.fresh.compile (.program program) = (none, c) ∧ c.bytecode = b := by
  unfold Program.compile at h
  split at h
  · rename_i c run
    cases h
    exact ⟨c, run, rfl⟩
  · cases h

theorem nestedChoiceCompiles : ∃ b, (Program.nested ++ Program.choice).compile = .ok b :=
  @Program.compiles (Program.nested ++ Program.choice) (by decide +kernel)

theorem splitNestedChoice : ∃ c whole, Compiler.fresh.compile (.program .nested) = (none, c) ∧
    Compiler.fresh.compile (.program (Program.nested ++ Program.choice)) = (none, whole) ∧
    Splits .nested .choice c := by
  obtain ⟨b, compiled⟩ := nestedCompiles
  obtain ⟨b', compiled'⟩ := nestedChoiceCompiles
  obtain ⟨c, first, -⟩ := compiledState compiled
  obtain ⟨whole, together, -⟩ := compiledState compiled'
  exact ⟨c, whole, first, together, splitProgram first⟩

end ClosureCode
