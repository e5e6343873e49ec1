import ClosureCode.Proofs.Surroundings

/-! The bytes that the compiler writes over others. They lie inside the stream, wherever it does so. -/
namespace ClosureCode
open Refines (closed)

/- What is written while a node is compiled, where, and over which code: the two jumps of a conditional get their
targets, and the last pop of a body becomes a return. -/
inductive Overwrites : Node → Compiler → Code → Nat → Bytes → Prop where
  | toAlternative {condition consequence alternative span c start c' bytes}
      (ran : (do
        let n := Node.expression (.conditional condition consequence alternative span)
        Compile.expr condition
        let start ← Compile.emitJump n .jumpUnlessTruthy
        Compile.block consequence
        Compile.finishBranch n
        let _ ← Compile.emitJump n .jump
        return start : Compile Nat) c = .ok start c')
      (target : Instruction.encode .jumpUnlessTruthy [c'.current.position] = .ok bytes) :
      Overwrites (.expression (.conditional condition consequence alternative span)) c c'.current.code start bytes
  | toEnd {condition consequence alternative span c start c' bytes}
      (ran : (do
        let n := Node.expression (.conditional condition consequence alternative span)
        Compile.expr condition
        let start ← Compile.firstArm n do
          Compile.block consequence
          Compile.finishBranch n
        Compile.otherwise n alternative
        return start : Compile Nat) c = .ok start c')
      (target : Instruction.encode .jump [c'.current.position] = .ok bytes) :
      Overwrites (.expression (.conditional condition consequence alternative span)) c c'.current.code start bytes
  | returned {name parameters body span c c' position}
      (ran : Compile.block body (c.enterFunction name parameters) = .ok () c')
      (last : c'.current.last = some ⟨.pop, position⟩) :
      Overwrites (.expression (.function name parameters body span)) c c'.current.code position
        [Opcode.returnValue.byte]

theorem Keeps.ran {α : Type} {ready after : Emission → Prop} {x : Compile α} {lets : Compiler → List Symbol}
    (h : Keeps ready x lets after) {c c' : Compiler} {a : α} (start : ready c.current) (ran : x c = .ok a c') :
    Leaves c c' (lets c) ∧ after c'.current := by
  have kept := h c start
  rw [ran] at kept
  exact kept

section Jumps
variable {base : Bytes} {op : Opcode} {start new : Nat} {code : Code} {bytes : Bytes} {n : Node} {c c' : Compiler}

theorem Waits.inside (h : Waits base op start code) (target : Instruction.encode op [new] = .ok bytes) :
    start + bytes.length ≤ code.size := by
  obtain ⟨before, jump, after, old, same, rfl, -, encoded, -⟩ := h
  have size : bytes.length = jump.length := by
    rw [Instruction.encodeLength target, Instruction.encodeLength encoded]
  rw [← Array.length_toList, same, size]
  simp only [List.length_append]
  omega

/- A jump that was emitted waits for its target, and no block takes it back. -/
theorem jumpRan (jump : op = .jump ∨ op = .jumpUnlessTruthy) (ran : Compile.emitJump n op c = .ok start c') :
    closed c'.current ∧ Waits c.current.code.toList op start c'.current.code := by
  obtain ⟨c₁, run, -, isClosed, waits⟩ := Keeps.emitJumpLeaves n c jump
  cases run.symm.trans ran
  exact ⟨isClosed, waits⟩

theorem armKeeps (n : Node) : (arm : Block) →
    Keeps closed (Compile.block arm >>= fun _ => Compile.finishBranch n) arm.lets always
  | ⟨statements, _⟩ => (endingKeeps .arm n statements).under fun _ h _ => h

/- At the end of the first arm, the jump over the other waits. -/
theorem firstArmRan {arm : Block} (ran : Compile.firstArm n (Compile.block arm >>= fun _ => Compile.finishBranch n) c =
    .ok start c') : closed c'.current ∧ Waits c.current.code.toList .jump start c'.current.code := by
  have one := Keeps.firstArmLeaves n (armKeeps n arm) c
  rw [ran] at one
  exact one.2

end Jumps

/- The last instruction that is recorded starts inside the stream. -/
def Emission.Tracks (e : Emission) : Prop := ∀ last, e.last = some last → last.position < e.code.size

section Tracking
variable {n : Node} {c c' : Compiler}

theorem emitTracks {op : Opcode} {operands : List Nat} (ran : Compile.emit n op operands c = .ok () c') :
    c'.current.Tracks := by
  obtain ⟨bytes, encoded, rfl⟩ := Compile.emitOk ran
  intro last same
  cases same
  have size := Instruction.encodeLength encoded
  rw [← Array.length_toList, Emission.appendCode, List.length_append, size, Array.length_toList]
  exact Nat.lt_add_of_pos_right op.lengthPositive

theorem Stmt.tracks {s : Stmt} (ran : Compile.stmt s c = .ok () c') : c'.current.Tracks := by
  cases s with
  | binding target value span =>
      unfold Compile.stmt at ran
      obtain ⟨u, c₁, -, ran⟩ := Compile.bindRan ran
      obtain ⟨symbol, c₂, -, ran⟩ := Compile.bindRan ran
      exact emitTracks ran
  | returning value span | expression value span =>
      unfold Compile.stmt at ran
      obtain ⟨u, c₁, -, ran⟩ := Compile.bindRan ran
      exact emitTracks ran

theorem stmtsTrack {statements : List Stmt} (start : c.current.Tracks) (ran : Compile.stmts statements c = .ok () c') :
    c'.current.Tracks := by
  induction statements generalizing c with
  | nil =>
      unfold Compile.stmts at ran
      cases ran
      exact start
  | cons s rest ih =>
      unfold Compile.stmts at ran
      obtain ⟨u, c₁, first, ran⟩ := Compile.bindRan ran
      exact ih (Stmt.tracks first) ran

end Tracking

theorem overwritesInside {n : Node} {c : Compiler} {code : Code} {position : Nat} {bytes : Bytes}
    (h : Overwrites n c code position bytes) : position + bytes.length ≤ code.size := by
  cases h with
  | @toAlternative condition consequence alternative span c start c' bytes ran target =>
      obtain ⟨u, c₁, -, ran⟩ := Compile.bindRan ran
      obtain ⟨first, c₂, jumped, ran⟩ := Compile.bindRan ran
      obtain ⟨u, c₃, inside, ran⟩ := Compile.bindRan ran
      obtain ⟨u, c₄, finished, ran⟩ := Compile.bindRan ran
      obtain ⟨second, c₅, jumped', ran⟩ := Compile.bindRan ran
      cases ran
      obtain ⟨isClosed, waits⟩ := jumpRan (.inr rfl) jumped
      obtain ⟨-, waits'⟩ := jumpRan (.inl rfl) jumped'
      have arm := ((armKeeps _ consequence).ran isClosed ((Compile.bindOk inside).trans finished)).1
      exact ((waits.further arm.code).further waits'.lengthens).inside target
  | @toEnd condition consequence alternative span c start c' bytes ran target =>
      obtain ⟨u, c₁, -, ran⟩ := Compile.bindRan ran
      obtain ⟨toEnd, c₂, first, ran⟩ := Compile.bindRan ran
      obtain ⟨u, c₃, second, ran⟩ := Compile.bindRan ran
      cases ran
      obtain ⟨isClosed, waits⟩ := firstArmRan first
      have other := ((alternativeKeeps _ alternative).ran isClosed second).1
      exact (waits.further other.code).inside target
  | @returned name parameters body span c c' position ran last =>
      obtain ⟨statements, place⟩ := body
      have blank : (c.enterFunction name parameters).current.Tracks := fun last none => by cases none
      exact stmtsTrack blank ran _ last

end ClosureCode
