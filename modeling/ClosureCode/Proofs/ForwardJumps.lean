import ClosureCode.Proofs.Boundaries
import ClosureCode.Proofs.StackDiscipline

/-! Jumps in assembled code go forward. The label of a jump stands behind it, with an
instruction in between, and before the end if the code ends in an instruction. -/
namespace ClosureCode
namespace Symbolic

/- The label that a piece jumps to. -/
def target? : Symbolic → Option Nat
  | .jumpUnlessTruthy target | .jump target => some target
  | .plain _ | .mark _ => none

/- The mark of each jump stands behind it, not without an instruction in between. -/
def AllForward : List Symbolic → Prop
  | [] => True
  | i :: rest =>
    (∀ target, i.target? = some target →
      ∃ between behind, rest = between ++ .mark target :: behind ∧ 0 < totalSize between) ∧ AllForward rest

theorem allForwardAppend {a b : List Symbolic} (first : AllForward a) (second : AllForward b) : AllForward (a ++ b) := by
  induction a with
  | nil => exact second
  | cons i a ih =>
      refine ⟨fun target jumps => ?_, ih first.2⟩
      obtain ⟨between, behind, rfl, solid⟩ := first.1 target jumps
      exact ⟨between, behind ++ b, by simp, solid⟩

theorem allForwardAfter {a b : List Symbolic} (h : AllForward (a ++ b)) : AllForward b := by
  induction a with
  | nil => exact h
  | cons i a ih => exact ih h.2

theorem allForwardPlain (is : List Instruction) : AllForward (is.map .plain) := by
  induction is with
  | nil => trivial
  | cons i rest ih => exact ⟨fun target jumps => (by cases jumps), ih⟩

/- The second arm stands between the jump over it and its label: it must not be empty. -/
theorem allForwardConditional {label : Nat} {a b : List Symbolic} (first : AllForward a) (second : AllForward b)
    (solid : 0 < totalSize b) : AllForward (conditional label a b) := by
  have finish : AllForward ([.jump (label + 1), .mark label] ++ b ++ [.mark (label + 1)]) := by
    refine ⟨fun target jumps => ?_, fun target jumps => (by cases jumps), ?_⟩
    · cases jumps
      exact ⟨.mark label :: b, [], by simp, by simpa [size] using solid⟩
    · exact allForwardAppend second ⟨fun target jumps => (by cases jumps), trivial⟩
  have shape : conditional label a b =
      .jumpUnlessTruthy label :: (a ++ ([.jump (label + 1), .mark label] ++ b ++ [.mark (label + 1)])) := by
    simp [conditional]
  rw [shape]
  refine ⟨fun target jumps => ?_, allForwardAppend first finish⟩
  cases jumps
  have := Opcode.jump.lengthPositive
  exact ⟨a ++ [.jump (label + 1)], b ++ [.mark (label + 1)], by simp, by simp [size]; omega⟩

end Symbolic

/- A fragment that changes the depth of the stack has an instruction. -/
theorem fragmentSolid {s depth e l s' depth'} (h : Fragment s depth e l s' depth') (changes : depth ≠ depth') :
    0 < Symbolic.totalSize l.code := by
  rw [Nat.pos_iff_ne_zero]
  intro none
  obtain ⟨labels, same⟩ := Symbolic.sizeZero none
  have sum := (fragmentSound h).1
  rw [same, Symbolic.depthMarks] at sum
  exact changes sum

theorem fragmentForward {s depth e l s' depth'} (h : Fragment s depth e l s' depth') : Symbolic.AllForward l.code := by
  induction h with
  | nil => trivial
  | append first second ih₁ ih₂ => exact Symbolic.allForwardAppend ih₁ ih₂
  | operation i plain enough => exact Symbolic.allForwardPlain [i]
  | constant c literal => exact Symbolic.allForwardPlain [_]
  | use found => exact Symbolic.allForwardPlain [_]
  | bind defined => exact Symbolic.allForwardPlain [_]
  | conditional consequence alternative ih₁ ih₂ =>
      exact Symbolic.allForwardConditional ih₁ ih₂ (fragmentSolid alternative (Nat.ne_of_lt (Nat.lt_succ_self _)))
  | @function s depth name parameters e inner s₁ outer own before last body ends returns left ih =>
      have plain := Symbolic.allForwardPlain
        (own.captured.map Symbol.load ++ [⟨.closure, [s₁.slot, own.captured.length]⟩])
      rw [List.map_append, List.map_map] at plain
      exact plain

namespace Symbolic
variable {code : List Symbolic} {stream : Code}

/- Where a label stands, if it has one mark. -/
theorem offsetAt (once : (marks code).Nodup) {before behind : List Symbolic} {label : Nat}
    (split : code = before ++ .mark label :: behind) : offset code label = totalSize before := by
  have placed : Placed advance (offset code) 0 code := placedSelf once 0
  rw [split] at placed ⊢
  have here := (placedAppend.mp placed).2.1 label rfl
  rw [advanceAll, Nat.zero_add] at here
  exact here

theorem instructionsSplit {place : Nat → Nat} {x y : List Instruction} {i : Instruction}
    (h : instructions place code = x ++ i :: y) :
    ∃ before piece after, code = before ++ piece :: after ∧ instructions place before = x ∧
      resolved place piece = [i] := by
  induction code generalizing x with
  | nil => simp [instructions] at h
  | cons piece rest ih =>
      have cons : instructions place (piece :: rest) = resolved place piece ++ instructions place rest := rfl
      have further : ∀ {x'}, instructions place rest = x' ++ i :: y → resolved place piece ++ x' = x →
          ∃ before piece' after, piece :: rest = before ++ piece' :: after ∧ instructions place before = x ∧
            resolved place piece' = [i] := by
        intro x' same head
        obtain ⟨before, piece', after, rfl, here, solid⟩ := ih same
        exact ⟨piece :: before, piece', after, rfl, by rw [← head, ← here]; rfl, solid⟩
      rw [cons] at h
      cases solid : resolved place piece with
      | nil => exact @further x (by simpa [solid] using h) (by simp [solid])
      | cons j more =>
          have alone : more = [] := by cases piece <;> cases solid <;> rfl
          subst alone
          rw [solid] at h
          cases x with
          | nil =>
              obtain ⟨rfl, -⟩ := List.cons.inj h
              exact ⟨[], piece, rest, rfl, rfl, solid⟩
          | cons k x' =>
              obtain ⟨rfl, same⟩ := List.cons.inj h
              exact further same (by simp [solid])

theorem extentInstructions (place : Nat → Nat) (code : List Symbolic) :
    Instruction.extent (instructions place code) = totalSize code := by
  induction code with
  | nil => rfl
  | cons piece rest ih =>
      have cons : instructions place (piece :: rest) = resolved place piece ++ instructions place rest := rfl
      rw [cons, Instruction.extentAppend, ih, totalSizeCons]
      cases piece <;> simp [resolved, size]

/- A jump found in the stream is a jump of the code, to the place of its label. -/
theorem jumpFound (assembled : assemble code = .ok stream) (named : JumpsNamed code) {at' size : Nat} {i : Instruction}
    (stands : Stands stream.toList at' i size) (jumps : i.opcode.isJump) :
    ∃ before piece after target, code = before ++ piece :: after ∧ piece.target? = some target ∧
      i.operands = [offset code target] ∧ at' = totalSize before ∧ size = piece.size := by
  have encoded := assembleOk.mp assembled
  obtain ⟨x, y, split, rfl, rfl⟩ := standsSplit encoded stands
  obtain ⟨before, piece, after, same, rfl, solid⟩ := instructionsSplit split
  refine ⟨before, piece, after, ?_⟩
  cases piece with
  | plain j =>
      cases solid
      rw [named i (by simp [same])] at jumps
      cases jumps
  | jumpUnlessTruthy target => cases solid; exact ⟨target, same, rfl, rfl, extentInstructions _ _, rfl⟩
  | jump target => cases solid; exact ⟨target, same, rfl, rfl, extentInstructions _ _, rfl⟩
  | mark label => cases solid

theorem jumpsForward (assembled : assemble code = .ok stream) (named : JumpsNamed code) (once : (marks code).Nodup)
    (forward : AllForward code) : JumpsForward stream.toList := by
  intro at' i size stands jumps
  obtain ⟨before, piece, after, target, split, goal, operands, rfl, rfl⟩ := jumpFound assembled named stands jumps
  have encoded := assembleOk.mp assembled
  rw [split] at forward
  obtain ⟨between, behind, rfl, solid⟩ := (allForwardAfter forward).1 target goal
  have atMark : code = (before ++ piece :: between) ++ .mark target :: behind := by simp [split]
  have place : offset code target = totalSize (before ++ piece :: between) := offsetAt once atMark
  refine ⟨offset code target, operands, ?_, ?_⟩
  · have whole : instructions (offset code) code = instructions (offset code) (before ++ piece :: between) ++
        instructions (offset code) (.mark target :: behind) := by
      rw [← instructionsAppend, ← atMark]
    rw [place, ← extentInstructions (offset code)]
    rw [whole] at encoded
    exact splitBoundary encoded
  · -- The piece behind the jump, past the marks that stand there.
    obtain ⟨labels, rest, rfl, rfl | ⟨next, more, rfl, solid'⟩⟩ := pieceAt between
    · simp [totalSizeMarks] at solid
    · have following : code = (before ++ piece :: labels.map .mark) ++ next :: (more ++ .mark target :: behind) := by
        simp [split]
      rw [following] at encoded
      obtain ⟨j, -, decoded⟩ := decodePiece encoded solid'
      refine ⟨j, next.size, by simpa [totalSizeMarks] using decoded, ?_⟩
      simp only [place, totalSizeAppend, totalSizeCons, totalSizeMarks]
      omega

/- The code ends in an instruction, if there is any code. -/
def EndsPlain (code : List Symbolic) : Prop := code = [] ∨ ∃ before last, code = before ++ [.plain last]

theorem endsPlainAppend {a b : List Symbolic} (first : EndsPlain a) (second : EndsPlain b) : EndsPlain (a ++ b) := by
  rcases second with rfl | ⟨before, last, rfl⟩
  · simpa using first
  · exact .inr ⟨a ++ before, last, by simp⟩

theorem jumpsInside (assembled : assemble code = .ok stream) (named : JumpsNamed code)
    (marked : ∀ target ∈ targets code, target ∈ marks code) (ends : EndsPlain code) : JumpsInside stream.toList := by
  intro at' i size stands jumps goal member
  obtain ⟨before, piece, after, target, split, isTarget, operands, -, -⟩ := jumpFound assembled named stands jumps
  rw [operands, List.mem_singleton] at member
  have jumped : target ∈ targets code := by
    rw [split, targetsAppend, List.mem_append]
    refine .inr ?_
    cases piece <;> cases isTarget <;> exact List.mem_cons_self
  obtain ⟨x, y, whole, here, place⟩ := placeSplit target code
  obtain ⟨more, rfl⟩ := here (marked target jumped)
  rw [member, offset, place, advanceAll, Nat.zero_add, ← decodeEnd (assembleOk.mp assembled)]
  rcases ends with rfl | ⟨init, last, ends⟩
  · simp at split
  · exact moreBehind whole ends fun same => by cases same

end Symbolic

theorem fragmentJumps {s depth e l s'} {stream : Code} (h : Fragment s 0 e l s' depth)
    (assembled : Symbolic.assemble l.code = .ok stream) :
    JumpsForward stream.toList ∧ (Symbolic.EndsPlain l.code → JumpsInside stream.toList) :=
  have named := Symbolic.allSoundNamed (fragmentDepths h)
  ⟨Symbolic.jumpsForward assembled named (fragmentLabels h).2.1 (fragmentForward h),
    Symbolic.jumpsInside assembled named (fragmentTargets h)⟩

theorem Body.jumps {code : List Symbolic} {stream : Code} (h : Body code)
    (assembled : Symbolic.assemble code = .ok stream) :
    JumpsForward stream.toList ∧ JumpsInside stream.toList := by
  obtain ⟨⟨s, e, l, s', fragment, rfl⟩, before, last, ends, -⟩ := h
  obtain ⟨forward, inside⟩ := fragmentJumps fragment assembled
  exact ⟨forward, inside (.inr ⟨before, ⟨last, []⟩, ends⟩)⟩

theorem endsPlainThen {x y : Lower} (one : ∀ s l s', y s = some (l, s') → ∃ i, l.code = [.plain i]) {s s' : Lowering}
    {l : Lowered} (h : x.andThen y s = some (l, s')) : Symbolic.EndsPlain l.code := by
  obtain ⟨first, s₁, second, hx, hy, rfl⟩ := Lower.andThenSome.mp h
  obtain ⟨i, code⟩ := one _ _ _ hy
  exact .inr ⟨first.code, i, by rw [Lowered.codeAppend, code]⟩

/- Every statement ends in an instruction of its own. -/
theorem stmtEndsPlain (statement : Stmt) {s s' : Lowering} {l : Lowered} (h : statement.lower s = some (l, s')) :
    Symbolic.EndsPlain l.code := by
  cases statement with
  | binding target value span =>
      unfold Stmt.lower at h
      exact endsPlainThen (fun s l s' bound => by cases bound; exact ⟨_, rfl⟩) h
  | returning value span | expression value span =>
      unfold Stmt.lower at h
      exact endsPlainThen (fun s l s' emitted => by cases emitted; exact ⟨_, rfl⟩) h

theorem stmtsEndPlain {statements : List Stmt} {s s' : Lowering} {l : Lowered}
    (h : lowerStmts statements s = some (l, s')) :
    Symbolic.EndsPlain l.code := by
  induction statements generalizing s l with
  | nil =>
      unfold lowerStmts at h
      cases h
      exact .inl rfl
  | cons statement rest ih =>
      unfold lowerStmts at h
      obtain ⟨first, s₁, second, hx, hy, rfl⟩ := Lower.andThenSome.mp h
      exact Symbolic.endsPlainAppend (stmtEndsPlain statement hx) (ih hy)

end ClosureCode
