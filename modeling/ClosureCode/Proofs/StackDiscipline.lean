import ClosureCode.Proofs.ControlFlow
import ClosureCode.Proofs.Refinement

/-! The stack along every path through compiled code. Each offset has one depth, whatever
the path; nothing is taken that is not there; the top level ends with an empty
stack, and a function never runs past its end. -/
namespace ClosureCode

/- An offset that a path from the start comes to, with the depth of the stack it brings. -/
inductive Reachable (code : Bytes) : Nat → Nat → Prop where
  | start : Reachable code 0 0
  | step {offset depth i next} (before : Reachable code offset depth) (leads : Leads code offset i next) :
      Reachable code next (depth - i.pops + i.pushes)

structure Disciplined (code : Bytes) : Prop where
  inside : ∀ offset depth, Reachable code offset depth → offset ≤ code.length
  oneDepth : ∀ offset depth depth', Reachable code offset depth → Reachable code offset depth' → depth = depth'
  enough : ∀ offset depth, Reachable code offset depth → offset < code.length →
    ∃ i size, Instruction.decode (code.drop offset) = .ok (i, size) ∧ i.pops ≤ depth

namespace Symbolic

/- After a jump or a return the depth is that of the text that follows: one value less. -/
def depthAfter (depth : Nat) : Symbolic → Nat
  | .plain i => depth - i.pops + i.pushes
  | .jumpUnlessTruthy _ | .jump _ => depth - 1
  | .mark _ => depth

def Sound (depths : Nat → Nat) (depth : Nat) : Symbolic → Prop
  | .plain i => i.pops ≤ depth ∧ i.opcode.isJump = false
  | .jumpUnlessTruthy target => 1 ≤ depth ∧ depths target = depth - 1
  | .jump target => depths target = depth
  | .mark _ => True

def AllSound (depths : Nat → Nat) : Nat → List Symbolic → Prop
  | _, [] => True
  | depth, i :: rest => Sound depths depth i ∧ AllSound depths (depthAfter depth i) rest

theorem allSoundAppend {depths : Nat → Nat} {depth : Nat} {a b : List Symbolic} :
    AllSound depths depth (a ++ b) ↔ AllSound depths depth a ∧ AllSound depths (a.foldl depthAfter depth) b := by
  induction a generalizing depth with
  | nil => simp [AllSound]
  | cons i a ih => simp [AllSound, ih, and_assoc]

end Symbolic

open Symbolic (Placed AllSound depthAfter)

theorem operationNoJump {op : Opcode} (h : op.isOperation) : op.isJump = false := by
  cases op <;> first | rfl | cases h

theorem loadEffect (symbol : Symbol) :
    symbol.load.pops = 0 ∧ symbol.load.pushes = 1 ∧ symbol.load.opcode.isJump = false := by
  unfold Symbol.load
  cases symbol.storage <;> exact ⟨rfl, rfl, rfl⟩

theorem storeEffect (symbol : Symbol) :
    symbol.store.pops = 1 ∧ symbol.store.pushes = 0 ∧ symbol.store.opcode.isJump = false := by
  unfold Symbol.store
  split <;> exact ⟨rfl, rfl, rfl⟩

theorem loadsSound (depths : Nat → Nat) (symbols : List Symbol) (depth : Nat) :
    let code : List Symbolic := symbols.map fun symbol => .plain symbol.load
    code.foldl depthAfter depth = depth + symbols.length ∧ AllSound depths depth code := by
  induction symbols generalizing depth with
  | nil => exact ⟨rfl, trivial⟩
  | cons symbol rest ih =>
      obtain ⟨none, one, noJump⟩ := loadEffect symbol
      obtain ⟨sum, sound⟩ := ih (depth + 1)
      have after : depthAfter depth (.plain symbol.load) = depth + 1 := by simp [depthAfter, none, one]
      simp only [List.map_cons, List.foldl_cons, AllSound, after, List.length_cons]
      exact ⟨by rw [sum]; omega, ⟨by rw [none]; omega, noJump⟩, sound⟩

/- A fragment takes the stack to the depth it promises, if the labels have the depth of their marks. -/
theorem fragmentSound {s depth e l s' depth'} (h : Fragment s depth e l s' depth') :
    l.code.foldl depthAfter depth = depth' ∧
      ∀ depths, Placed depthAfter depths depth l.code → AllSound depths depth l.code := by
  induction h with
  | nil => exact ⟨rfl, fun _ _ => trivial⟩
  | append first second ih₁ ih₂ =>
      obtain ⟨sum₁, sound₁⟩ := ih₁
      obtain ⟨sum₂, sound₂⟩ := ih₂
      refine ⟨by rw [Lowered.codeAppend, List.foldl_append, sum₁, sum₂], fun depths placed => ?_⟩
      rw [Lowered.codeAppend, Symbolic.placedAppend, sum₁] at placed
      rw [Lowered.codeAppend, Symbolic.allSoundAppend, sum₁]
      exact ⟨sound₁ depths placed.1, sound₂ depths placed.2⟩
  | operation i plain enough => exact ⟨rfl, fun _ _ => ⟨⟨enough, operationNoJump plain⟩, trivial⟩⟩
  | constant c literal => exact ⟨rfl, fun _ _ => ⟨⟨Nat.zero_le _, rfl⟩, trivial⟩⟩
  | @use s depth name symbol table found =>
      obtain ⟨sum, sound⟩ := loadsSound (fun _ => 0) [symbol] depth
      exact ⟨sum, fun depths _ => (loadsSound depths [symbol] depth).2⟩
  | @bind s depth name symbol table defined =>
      obtain ⟨one, none, noJump⟩ := storeEffect symbol
      exact ⟨by simp [depthAfter, one, none], fun _ _ => ⟨⟨by omega, noJump⟩, trivial⟩⟩
  | @conditional s depth e first s₁ e' second s₂ consequence alternative ih₁ ih₂ =>
      obtain ⟨sum₁, sound₁⟩ := ih₁
      obtain ⟨sum₂, sound₂⟩ := ih₂
      refine ⟨by simp [Symbolic.conditional, List.foldl_append, depthAfter, sum₁, sum₂], fun depths placed => ?_⟩
      obtain ⟨inFirst, here, inSecond, finish⟩ := Symbolic.placedConditional placed
      simp only [depthAfter, Nat.add_sub_cancel, sum₁, sum₂] at inFirst here inSecond finish
      simp only [Symbolic.conditional, Symbolic.allSoundAppend, AllSound, Symbolic.Sound, List.foldl_append,
        List.foldl_cons, List.foldl_nil, depthAfter, Nat.add_sub_cancel, sum₁]
      exact ⟨⟨⟨⟨⟨⟨by omega, here⟩, trivial⟩, sound₁ depths inFirst⟩, finish, trivial, trivial⟩, sound₂ depths inSecond⟩,
        trivial, trivial⟩
  | @function s depth name parameters e inner s₁ outer own before last body ends returns left ih =>
      have closure : ∀ depths,
          AllSound depths (depth + own.captured.length) [.op .closure [s₁.slot, own.captured.length]] :=
        fun depths => ⟨⟨Nat.le_add_left _ _, rfl⟩, trivial⟩
      have sum : depthAfter (depth + own.captured.length) (.op .closure [s₁.slot, own.captured.length]) =
        depth + 1 := by
        simp [depthAfter, Symbolic.op, Instruction.pops, Instruction.pushes]
      refine ⟨?_, fun depths _ => ?_⟩
      · rw [List.foldl_append, (loadsSound (fun _ => 0) own.captured depth).1]
        exact sum
      · rw [Symbolic.allSoundAppend, (loadsSound depths own.captured depth).1]
        exact ⟨(loadsSound depths own.captured depth).2, closure depths⟩

namespace Symbolic

theorem allSoundNamed {depths : Nat → Nat} {depth : Nat} {code : List Symbolic} (h : AllSound depths depth code) :
    JumpsNamed code := by
  induction code generalizing depth with
  | nil => intro i member; cases member
  | cons piece rest ih =>
      intro i member
      rcases List.mem_cons.mp member with rfl | inRest
      · exact h.1.2
      · exact ih h.2 i inRest

theorem depthMarks (labels : List Nat) (depth : Nat) :
    (labels.map Symbolic.mark).foldl depthAfter depth = depth := by
  induction labels with
  | nil => rfl
  | cons label rest ih => exact ih

/- An offset inside the code, with the depth that the code before it leads to. -/
def Static (code : List Symbolic) (offset depth : Nat) : Prop :=
  ∃ before after, code = before ++ after ∧ offset = totalSize before ∧ depth = before.foldl depthAfter 0

theorem sizeZero {code : List Symbolic} (h : totalSize code = 0) : ∃ labels : List Nat, code = labels.map .mark := by
  obtain ⟨labels, rest, rfl, rfl | ⟨i, more, rfl, solid⟩⟩ := pieceAt code
  · exact ⟨labels, by simp⟩
  · simp at h
    omega

theorem staticOne {code : List Symbolic} {offset depth depth' : Nat} (h : Static code offset depth)
    (h' : Static code offset depth') : depth = depth' := by
  obtain ⟨before, after, split, rfl, rfl⟩ := h
  obtain ⟨before', after', split', same, rfl⟩ := h'
  rw [split] at split'
  rcases List.append_eq_append_iff.mp split' with ⟨gap, rfl, -⟩ | ⟨gap, rfl, -⟩
  all_goals
    rw [totalSizeAppend] at same
    have small : totalSize gap = 0 := by omega
    obtain ⟨labels, rfl⟩ := sizeZero small
    rw [List.foldl_append, depthMarks]

variable {code : List Symbolic} {stream : Code}

/- Where some code is left, the next piece is the one behind the marks. -/
theorem staticPiece {offset depth : Nat} (h : Static code offset depth) :
    offset = totalSize code ∨ ∃ before i after, code = before ++ i :: after ∧ 0 < i.size ∧
      offset = totalSize before ∧ depth = before.foldl depthAfter 0 := by
  obtain ⟨before, after, split, rfl, rfl⟩ := h
  obtain ⟨labels, rest, rfl, rfl | ⟨i, more, rfl, solid⟩⟩ := pieceAt after
  · exact .inl (by simp [split, totalSizeMarks])
  · refine .inr ⟨before ++ labels.map .mark, i, more, by simp [split], solid, by simp [totalSizeMarks], ?_⟩
    rw [List.foldl_append, depthMarks]

theorem staticPass {before after : List Symbolic} {i : Symbolic} (split : code = before ++ i :: after) :
    Static code (totalSize before + i.size) (depthAfter (before.foldl depthAfter 0) i) :=
  ⟨before ++ [i], after, by simp [split], by simp, by simp⟩

def depths (code : List Symbolic) (label : Nat) : Nat := placeOf depthAfter label 0 code

/- The pieces of the code are sound at the depth that the code before them leads to. -/
theorem soundAt {before after : List Symbolic} {i : Symbolic} (sound : AllSound (depths code) 0 code)
    (split : code = before ++ i :: after) : Sound (depths code) (before.foldl depthAfter 0) i := by
  rw [split] at sound
  rw [split]
  exact (allSoundAppend.mp sound).2.1

theorem staticTarget (code : List Symbolic) (label : Nat) : Static code (offset code label) (depths code label) := by
  obtain ⟨before, after, split, -, place⟩ := placeSplit label code
  refine ⟨before, after, split, ?_, place _ _⟩
  rw [offset, place, advanceAll, Nat.zero_add]
  rfl

theorem staticStep (assembled : assemble code = .ok stream) (sound : AllSound (depths code) 0 code)
    {offset depth next : Nat} {i : Instruction} (h : Static code offset depth)
    (leads : Leads stream.toList offset i next) :
    Static code next (depth - i.pops + i.pushes) := by
  rcases staticPiece h with rfl | ⟨before, piece, after, split, solid, rfl, rfl⟩
  · exact absurd leads (leadsNowhere assembled)
  · have ok := soundAt sound split
    cases leadsOn assembled (allSoundNamed sound) split solid leads with
    | plain falls => exact staticPass split
    | stays => exact staticPass split
    | @branches target =>
        have goal := staticTarget code target
        rw [ok.2] at goal
        exact goal
    | @jumps target =>
        have goal := staticTarget code target
        rw [show depths code target = _ from ok] at goal
        exact goal

theorem staticReachable (assembled : assemble code = .ok stream) (sound : AllSound (depths code) 0 code)
    {offset depth : Nat} (h : Reachable stream.toList offset depth) : Static code offset depth := by
  induction h with
  | start => exact ⟨[], code, rfl, rfl, rfl⟩
  | step before leads ih => exact staticStep assembled sound ih leads

theorem disciplined (assembled : assemble code = .ok stream) (sound : AllSound (depths code) 0 code) :
    Disciplined stream.toList := by
  have encoded := assembleOk.mp assembled
  constructor
  · intro offset depth reached
    obtain ⟨before, after, split, rfl, rfl⟩ := staticReachable assembled sound reached
    rw [← decodeEnd encoded, split, totalSizeAppend]
    exact Nat.le_add_right _ _
  · intro offset depth depth' reached reached'
    exact staticOne (staticReachable assembled sound reached) (staticReachable assembled sound reached')
  · intro offset depth reached inside
    rcases staticPiece (staticReachable assembled sound reached) with
      rfl | ⟨before, piece, after, split, solid, rfl, rfl⟩
    · rw [decodeEnd encoded] at inside
      exact absurd inside (Nat.lt_irrefl _)
    · have ok := soundAt sound split
      rw [split] at encoded
      obtain ⟨j, single, decoded⟩ := decodePiece encoded solid
      refine ⟨j, piece.size, decoded, ?_⟩
      cases piece with
      | plain i => cases single; exact ok.1
      | jumpUnlessTruthy target => cases single; exact ok.1
      | jump target => cases single; exact Nat.zero_le _
      | mark label => cases single

/- The end has the depth that the whole code leads to. -/
theorem depthAtEnd (assembled : assemble code = .ok stream) (sound : AllSound (depths code) 0 code) {depth : Nat}
    (reached : Reachable stream.toList stream.toList.length depth) : depth = code.foldl depthAfter 0 := by
  refine staticOne (staticReachable assembled sound reached) ⟨code, [], by simp, ?_, rfl⟩
  rw [decodeEnd (assembleOk.mp assembled)]

theorem moreBehind {before x y : List Symbolic} {piece : Symbolic} {last : Instruction} (split : code = x ++ piece :: y)
    (ends : code = before ++ [.plain last])
    (other : piece ≠ .plain last) : totalSize x + piece.size < totalSize code := by
  rcases List.eq_nil_or_concat y with rfl | ⟨init, z, rfl⟩
  · have same := List.append_inj' (split.symm.trans ends) rfl
    exact absurd (List.cons.inj same.2).1 other
  · have joined : (x ++ piece :: init) ++ [z] = before ++ [.plain last] := by simpa using split.symm.trans ends
    cases (List.append_inj' joined rfl).2
    have := last.opcode.lengthPositive
    have solid : (Symbolic.plain last).size = last.opcode.length := rfl
    simp only [split, List.concat_eq_append, totalSizeAppend, totalSizeCons, totalSizeNil, solid]
    omega

/- Code that ends in a return is never left behind its last instruction: neither by that
instruction nor by a jump, whose target has a mark and so stands before it. -/
theorem neverPastEnd {before : List Symbolic} {last : Opcode} (assembled : assemble code = .ok stream)
    (sound : AllSound (depths code) 0 code) (marked : ∀ target ∈ targets code, target ∈ marks code)
    (ends : code = before ++ [.op last []]) (returns : last.fallsThrough = false) {offset depth : Nat}
    (reached : Reachable stream.toList offset depth) : offset < stream.toList.length := by
  rw [← decodeEnd (assembleOk.mp assembled)]
  have target : ∀ label ∈ targets code, Symbolic.offset code label < totalSize code := by
    intro label jumped
    obtain ⟨x, y, split, here, place⟩ := placeSplit label code
    obtain ⟨more, rfl⟩ := here (marked label jumped)
    have inside := moreBehind split ends fun same => by cases same
    rw [Symbolic.offset, place, advanceAll, Nat.zero_add]
    exact inside
  cases reached with
  | start =>
      have := last.lengthPositive
      simp only [ends, totalSizeAppend, totalSizeCons, totalSizeNil, op, size]
      omega
  | step from' leads =>
      rcases staticPiece (staticReachable assembled sound from') with rfl | ⟨x, piece, y, split, solid, rfl, rfl⟩
      · exact absurd leads (leadsNowhere assembled)
      · cases leadsOn assembled (allSoundNamed sound) split solid leads with
        | plain falls =>
            refine moreBehind split ends fun same => ?_
            cases same
            rw [returns] at falls
            cases falls
        | stays => exact moreBehind split ends fun same => by cases same
        | branches => exact target _ (by simp [split, targets])
        | jumps => exact target _ (by simp [split, targets])

end Symbolic

/- What a fragment and its labels give for the assembled stream. -/
theorem fragmentDepths {s depth e l s'} (h : Fragment s 0 e l s' depth) :
    AllSound (Symbolic.depths l.code) 0 l.code :=
  (fragmentSound h).2 _ (Symbolic.placedSelf (fragmentLabels h).2.1 0)

theorem compiledConstant {constants : List Constant} {objects : List Object} {f : CompiledFunction}
    (assembled : Constant.assembleAll constants = .ok objects) (member : .compiled f ∈ objects) :
    ∃ code, .function code f.locals f.parameters ∈ constants ∧ Symbolic.assemble code = .ok f.code := by
  induction constants generalizing objects with
  | nil => cases assembled; cases member
  | cons c rest ih =>
      obtain ⟨first, more, one, others, rfl⟩ := Constant.assembleAllCons.mp assembled
      rcases List.mem_cons.mp member with rfl | inRest
      · cases c with
        | integer value => cases one
        | string value => cases one
        | function code locals parameters =>
            obtain ⟨stream, stored, same⟩ := Constant.assembleFunction.mp one
            cases same
            exact ⟨code, List.mem_cons_self, stored⟩
      · obtain ⟨code, inConstants, stored⟩ := ih others inRest
        exact ⟨code, List.mem_cons_of_mem _ inConstants, stored⟩

theorem stackDiscipline {program : Program} {b : Bytecode} (compiled : program.compile = .ok b) :
    (Disciplined b.code.toList ∧ ∀ depth, Reachable b.code.toList b.code.size depth → depth = 0) ∧
      ∀ f, .compiled f ∈ b.constants.toList →
        Disciplined f.code.toList ∧ ∀ offset depth, Reachable f.code.toList offset depth → offset < f.code.size := by
  obtain ⟨l, lower, assembled⟩ := lowered compiled
  obtain ⟨code, constants⟩ := Lowered.assembleOk.mp assembled
  obtain ⟨s, fragment⟩ := program.fragment lower
  refine ⟨⟨Symbolic.disciplined code (fragmentDepths fragment), fun depth reached => ?_⟩, fun f member => ?_⟩
  · have atEnd := Symbolic.depthAtEnd code (fragmentDepths fragment) (by simpa using reached)
    rw [atEnd, (fragmentSound fragment).1]
  · obtain ⟨inner, inConstants, stored⟩ := compiledConstant constants member
    obtain ⟨⟨s₁, e, l₁, s₂, body, rfl⟩, before, last, ends, returns⟩ := fragmentBodies fragment _ _ _ inConstants
    refine ⟨Symbolic.disciplined stored (fragmentDepths body), fun offset depth reached => ?_⟩
    have noFall : last.fallsThrough = false := by
      rcases returns with rfl | rfl <;> rfl
    simpa using Symbolic.neverPastEnd stored (fragmentDepths body) (fragmentTargets body) ends noFall reached

theorem stackDisciplineNested : ∃ b, Program.nested.compile = .ok b ∧
    (Disciplined b.code.toList ∧ ∀ depth, Reachable b.code.toList b.code.size depth → depth = 0) ∧
      ∀ f, .compiled f ∈ b.constants.toList →
        Disciplined f.code.toList ∧ ∀ offset depth, Reachable f.code.toList offset depth → offset < f.code.size := by
  obtain ⟨b, compiled⟩ := nestedCompiles
  exact ⟨b, compiled, stackDiscipline compiled⟩

end ClosureCode
