import ClosureCode.Proofs.ControlFlow
import Mathlib.Data.List.Induction

/-! The boundaries of a stream are the offsets to which decoding comes from its start. Where jumps
go forward from one boundary to another, a path has executed each instruction that
lies behind it, or has jumped over it. -/
namespace ClosureCode

inductive Boundary (code : Bytes) : Nat → Prop where
  | start : Boundary code 0
  | next {offset i size} (before : Boundary code offset)
      (found : Instruction.decode (code.drop offset) = .ok (i, size)) : Boundary code (offset + size)

/- An instruction that decoding comes to. -/
structure Stands (code : Bytes) (offset : Nat) (i : Instruction) (size : Nat) : Prop where
  boundary : Boundary code offset
  found : Instruction.decode (code.drop offset) = .ok (i, size)

/- The target of a jump is a boundary, and at least one instruction after the jump is skipped. -/
structure GoesForward (code : Bytes) (offset size target : Nat) : Prop where
  boundary : Boundary code target
  beyond : ∃ following size', Instruction.decode (code.drop (offset + size)) = .ok (following, size') ∧
    offset + size + size' ≤ target

def JumpsForward (code : Bytes) : Prop :=
  ∀ ⦃offset i size⦄, Stands code offset i size → i.opcode.isJump →
    ∃ target, i.operands = [target] ∧ GoesForward code offset size target

/- No jump goes to the end of the stream. -/
def JumpsInside (code : Bytes) : Prop :=
  ∀ ⦃offset i size⦄, Stands code offset i size → i.opcode.isJump → ∀ target ∈ i.operands, target < code.length

namespace Instruction

/- The bytes that some instructions take up. -/
def extent (is : List Instruction) : Nat := (is.map fun i => i.opcode.length).sum

@[simp] theorem extentNil : extent [] = 0 := rfl

@[simp] theorem extentCons (i : Instruction) (rest : List Instruction) :
    extent (i :: rest) = i.opcode.length + extent rest := by
  simp [extent]

@[simp] theorem extentAppend (a b : List Instruction) : extent (a ++ b) = extent a + extent b := by
  simp [extent]

end Instruction

section Encoded
open Instruction
variable {is : List Instruction} {code : Bytes}

theorem decodeAt {before after : List Instruction} {i : Instruction}
    (encoded : encodeAll (before ++ i :: after) = .ok code) :
    decode (code.drop (extent before)) = .ok (i, i.opcode.length) := by
  obtain ⟨x, y, hx, hy, rfl⟩ := encodeAllAppend.mp encoded
  obtain ⟨first, more, hf, hm, rfl⟩ := encodeAllCons.mp hy
  rw [extent, ← encodeAllLength hx, List.drop_left, decodeEncode hf, encodeLength hf]

theorem decodeBehind (encoded : encodeAll is = .ok code) {i : Instruction} {size : Nat} :
    decode (code.drop (extent is)) ≠ .ok (i, size) := by
  rw [extent, ← encodeAllLength encoded, List.drop_length]
  exact nofun

/- What is found at a boundary is one of the instructions that were encoded. -/
theorem foundAt (encoded : encodeAll is = .ok code) {offset size : Nat} {i : Instruction}
    (boundary : ∃ before after, is = before ++ after ∧ offset = extent before)
    (found : decode (code.drop offset) = .ok (i, size)) :
    ∃ before after, is = before ++ i :: after ∧ offset = extent before ∧ size = i.opcode.length := by
  obtain ⟨before, after, rfl, rfl⟩ := boundary
  cases after with
  | nil =>
      rw [List.append_nil] at encoded
      exact absurd found (decodeBehind encoded)
  | cons j after =>
      cases (decodeAt encoded).symm.trans found
      exact ⟨before, after, rfl, rfl, rfl⟩

theorem boundarySplits (encoded : encodeAll is = .ok code) {offset : Nat} (boundary : Boundary code offset) :
    ∃ before after, is = before ++ after ∧ offset = extent before := by
  induction boundary with
  | start => exact ⟨[], is, rfl, rfl⟩
  | @next offset i size before found ih =>
      obtain ⟨x, y, rfl, rfl, rfl⟩ := foundAt encoded ih found
      exact ⟨x ++ [i], y, by simp, by simp⟩

theorem splitBoundary {before after : List Instruction} (encoded : encodeAll (before ++ after) = .ok code) :
    Boundary code (extent before) := by
  induction before using List.reverseRecOn generalizing after with
  | nil => exact .start
  | append_singleton before i ih =>
      rw [List.append_assoc, List.singleton_append] at encoded
      have next := Boundary.next (ih encoded) (decodeAt encoded)
      rwa [extentAppend, extentCons, extentNil, Nat.add_zero]

theorem standsSplit (encoded : encodeAll is = .ok code) {offset size : Nat} {i : Instruction}
    (stands : Stands code offset i size) :
    ∃ before after, is = before ++ i :: after ∧ offset = extent before ∧ size = i.opcode.length :=
  foundAt encoded (boundarySplits encoded stands.boundary) stands.found

theorem splitStands {before after : List Instruction} {i : Instruction}
    (encoded : encodeAll (before ++ i :: after) = .ok code) : Stands code (extent before) i i.opcode.length :=
  ⟨splitBoundary encoded, decodeAt encoded⟩

/- No boundary lies inside an instruction. -/
theorem boundaryGap (encoded : encodeAll is = .ok code) {offset size other : Nat} {i : Instruction}
    (stands : Stands code offset i size) (second : Boundary code other) : other ≤ offset ∨ offset + size ≤ other := by
  obtain ⟨x, y, rfl, rfl, rfl⟩ := standsSplit encoded stands
  obtain ⟨u, v, split, rfl⟩ := boundarySplits encoded second
  rcases List.append_eq_append_iff.mp split with ⟨gap, rfl, rest⟩ | ⟨gap, rfl, rest⟩
  · cases gap with
    | nil => exact .inl (by simp)
    | cons j gap =>
        cases (List.cons.inj rest).1
        exact .inr (by simp [← Nat.add_assoc])
  · exact .inl (by simp)

end Encoded

/- One step of a path. -/
structure Step where
  offset : Nat
  instruction : Instruction
  next : Nat

/- The steps of a path from the start to an offset, latest first. -/
inductive Path (code : Bytes) : List Step → Nat → Prop where
  | start : Path code [] 0
  | step {taken offset i next} (before : Path code taken offset) (leads : Leads code offset i next) :
      Path code (⟨offset, i, next⟩ :: taken) next

def Executed (taken : List Step) (offset : Nat) (i : Instruction) : Prop :=
  ∃ next, ⟨offset, i, next⟩ ∈ taken

/- The path took a jump from before the place to behind it. -/
def JumpedOver (taken : List Step) (place : Nat) : Prop :=
  ∃ step ∈ taken, step.instruction.opcode.isJump ∧ step.offset < place ∧ place < step.next

def Passes (taken : List Step) (place : Nat) (i : Instruction) : Prop :=
  Executed taken place i ∨ JumpedOver taken place

theorem Passes.later {taken : List Step} {step : Step} {place : Nat} {i : Instruction} (h : Passes taken place i) :
    Passes (step :: taken) place i := by
  rcases h with ⟨next, member⟩ | ⟨jump, member, past⟩
  · exact .inl ⟨next, List.mem_cons_of_mem _ member⟩
  · exact .inr ⟨jump, List.mem_cons_of_mem _ member, past⟩

section Paths
variable {is : List Instruction} {code : Bytes} {taken : List Step} {offset : Nat}

theorem leadsFound {i : Instruction} {next : Nat} (leads : Leads code offset i next) :
    ∃ size, Instruction.decode (code.drop offset) = .ok (i, size) := by
  cases leads with
  | next found falls => exact ⟨_, found⟩
  | jump found jumps goal => exact ⟨_, found⟩

/- What lies behind a path it has passed, one way or the other. -/
theorem pathPasses (encoded : Instruction.encodeAll is = .ok code) (forward : JumpsForward code)
    (path : Path code taken offset) :
    Boundary code offset ∧ ∀ place i size, Stands code place i size → place < offset → Passes taken place i := by
  induction path with
  | start => exact ⟨.start, fun place i size _ lt => absurd lt (Nat.not_lt_zero _)⟩
  | @step taken offset j next before leads ih =>
      obtain ⟨here, passed⟩ := ih
      have now : ∀ i size, Stands code offset i size → Passes (⟨offset, j, next⟩ :: taken) offset i := by
        intro i size stands
        obtain ⟨size', found⟩ := leadsFound leads
        cases found.symm.trans stands.found
        exact .inl ⟨next, List.mem_cons_self⟩
      cases leads with
      | next decoded falls =>
          refine ⟨.next here decoded, fun place i size stands lt => ?_⟩
          rcases boundaryGap encoded ⟨here, decoded⟩ stands.boundary with le | beyond
          · rcases Nat.lt_or_eq_of_le le with earlier | rfl
            · exact (passed place i size stands earlier).later
            · exact now i size stands
          · omega
      | jump decoded jumps goal =>
          obtain ⟨target, same, boundary, -, -, -, -⟩ := forward ⟨here, decoded⟩ jumps
          cases goal.symm.trans same
          refine ⟨boundary, fun place i size stands lt => ?_⟩
          rcases Nat.lt_trichotomy place offset with earlier | rfl | past
          · exact (passed place i size stands earlier).later
          · exact now i size stands
          · exact .inr ⟨_, List.mem_cons_self, jumps, past, lt⟩

theorem leadsForward (forward : JumpsForward code) {i : Instruction} {next : Nat} (boundary : Boundary code offset)
    (leads : Leads code offset i next) : offset < next := by
  cases leads with
  | next found falls =>
      have := Instruction.decodePositive found
      omega
  | jump found jumps goal =>
      obtain ⟨target, same, -, following, size', after, beyond⟩ := forward ⟨boundary, found⟩ jumps
      cases goal.symm.trans same
      have := Instruction.decodePositive found
      omega

/- The steps of a path go on from one another, and none starts where another has passed. -/
theorem pathBehind (encoded : Instruction.encodeAll is = .ok code) (forward : JumpsForward code)
    (path : Path code taken offset) :
    (∀ step ∈ taken, step.offset < step.next ∧ step.next ≤ offset) ∧
      ∀ step ∈ taken, ∀ other ∈ taken, ¬ (step.offset < other.offset ∧ other.offset < step.next) := by
  induction path with
  | start => exact ⟨fun step member => (by cases member), fun step member => (by cases member)⟩
  | @step taken offset j next before leads ih =>
      obtain ⟨earlier, apart⟩ := ih
      have further := leadsForward forward (pathPasses encoded forward before).1 leads
      constructor
      · intro step member
        rcases List.mem_cons.mp member with rfl | member
        · exact ⟨further, Nat.le_refl _⟩
        · exact ⟨(earlier step member).1, Nat.le_trans (earlier step member).2 (Nat.le_of_lt further)⟩
      · intro step member other member'
        rcases List.mem_cons.mp member with rfl | member <;> rcases List.mem_cons.mp member' with rfl | member'
        · exact fun both => Nat.lt_irrefl _ both.1
        · have := earlier other member'
          dsimp only
          omega
        · have := earlier step member
          dsimp only
          omega
        · exact apart step member other member'

theorem jumpedNotExecuted (encoded : Instruction.encodeAll is = .ok code) (forward : JumpsForward code)
    (path : Path code taken offset) {place : Nat} {i : Instruction} (jumped : JumpedOver taken place) :
    ¬ Executed taken place i := by
  obtain ⟨step, member, -, past⟩ := jumped
  rintro ⟨next, member'⟩
  exact (pathBehind encoded forward path).2 step member ⟨place, i, next⟩ member' past

end Paths
end ClosureCode
