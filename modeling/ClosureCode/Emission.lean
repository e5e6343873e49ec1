import ClosureCode.Instruction

/-! The instruction stream of one function while it is built. The last two instructions
are remembered, so that the value of a block's last statement can be kept. -/
namespace ClosureCode

def overwrite (code : Code) (position : Nat) : Bytes → Code
  | [] => code
  | byte :: rest => overwrite (code.setIfInBounds position byte) (position + 1) rest

theorem overwriteSize (code : Code) (position : Nat) (bytes : Bytes) :
    (overwrite code position bytes).size = code.size := by
  induction bytes generalizing code position with
  | nil => rfl
  | cons byte rest ih => simp [overwrite, ih]

theorem overwriteList (code : Code) (position : Nat) (bytes : Bytes)
    (inside : position + bytes.length ≤ code.size) :
    (overwrite code position bytes).toList =
      code.toList.take position ++ bytes ++ code.toList.drop (position + bytes.length) := by
  induction bytes generalizing code position with
  | nil => simp [overwrite]
  | cons byte rest ih =>
      have here : position < code.size := by simp at inside; omega
      have rest : position + 1 + rest.length ≤ (code.setIfInBounds position byte).size := by
        simp at inside ⊢; omega
      rw [overwrite, ih _ _ rest, Array.toList_setIfInBounds, List.drop_set_of_lt (by omega),
        List.take_succ_eq_append_getElem (by simpa using here), List.take_set_of_le (Nat.le_refl _)]
      simp [Nat.add_assoc, Nat.add_comm 1]

structure Emitted where
  opcode : Opcode
  position : Nat
  deriving DecidableEq, Repr

structure Emission where
  code : Code := #[]
  last : Option Emitted := none
  previous : Option Emitted := none
  deriving DecidableEq, Repr

namespace Emission

def empty : Emission := {}

def position (e : Emission) : Nat := e.code.size

def append (e : Emission) (opcode : Opcode) (bytes : Bytes) : Emission :=
  let position := e.position
  ⟨e.code ++ bytes, some ⟨opcode, position⟩, e.last⟩

def lastIs (e : Emission) (opcode : Opcode) : Bool :=
  match e.last with
  | some last => last.opcode == opcode
  | none => false

theorem appendCode (e : Emission) (opcode : Opcode) (bytes : Bytes) :
    (e.append opcode bytes).code.toList = e.code.toList ++ bytes := by
  simp [append]

def patch (e : Emission) (position : Nat) (bytes : Bytes) : Emission :=
  { e with code := overwrite e.code position bytes }

def dropLast (e : Emission) : Emission :=
  match e.last with
  | some last => { e with code := e.code.shrink last.position, last := e.previous }
  | none => e

theorem dropLastCode (e : Emission) (last : Emitted) (h : e.last = some last) :
    e.dropLast.code.toList = e.code.toList.take last.position := by
  simp [dropLast, h]

/- Writes a return of the value over the last instruction. -/
def returnLast (e : Emission) : Emission :=
  match e.last with
  | some last =>
      { e with
        code := overwrite e.code last.position [Opcode.returnValue.byte]
        last := some ⟨.returnValue, last.position⟩ }
  | none => e

end Emission
end ClosureCode
