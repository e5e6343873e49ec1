import ClosureCode.Proofs.Boundaries
import ClosureCode.Proofs.Refinement

/-! What is done to the streams of the functions that are being compiled, act by act, with an account of what stands
in each of them. The record of the last instruction is exact at every point of a journal in which each act is due:
a patch finds the placeholder of its jump, and a pop is taken back right after it was emitted. -/
namespace ClosureCode
open Instruction (encode encodeAll encodeAllOne encodeAllAppend encodeAllCons encodeLength extent extentCons)

inductive Act where
  | emit (node : Node) (opcode : Opcode) (operands : List Nat)
  | patch (node : Node) (opcode : Opcode) (start : Nat)
  /- The value of the block's last statement is kept for what comes behind the arm. -/
  | takeBack (block : Block)
  /- The value of the block's last statement is returned. -/
  | returnLast (block : Block)
  | enter
  | leave
  /- A new compiler takes over names and constants. -/
  | restart

/- An instruction of a stream, and for which node it was emitted. -/
structure Written where
  instruction : Instruction
  node : Node
  /- Whether it is a jump that has got its target. -/
  targeted : Bool

/- The instruction is a jump whose target is not known yet. -/
def Written.placeholder (node : Node) (opcode : Opcode) : Written := ⟨⟨opcode, [jumpPlaceholder]⟩, node, false⟩

/- Where the stream goes on behind what is written. -/
def offsetBehind (written : List Written) : Nat := extent (written.map Written.instruction)

@[simp] theorem offsetBehindCons (w : Written) (rest : List Written) :
    offsetBehind (w :: rest) = w.instruction.opcode.length + offsetBehind rest := extentCons _ _

@[simp] theorem offsetBehindAppend (a b : List Written) : offsetBehind (a ++ b) = offsetBehind a + offsetBehind b := by
  simp [offsetBehind]

def Written.aimed (w : Written) (target : Nat) : Written :=
  { w with instruction := ⟨w.instruction.opcode, [target]⟩, targeted := true }

/- The pop of a statement's value. -/
def Written.pop (s : Stmt) : Written := ⟨⟨.pop, []⟩, .statement s, false⟩

def Written.returned (w : Written) : Written := { w with instruction := ⟨.returnValue, []⟩ }

/- The jump at `start` gets its target. -/
def aim (start target : Nat) : List Written → List Written
  | [] => []
  | w :: rest =>
      if start = 0 then w.aimed target :: rest else w :: aim (start - w.instruction.opcode.length) target rest

/- A stream while it is built, with what was written to it. -/
structure Account where
  emission : Emission
  written : List Written

namespace Account

def blank : Account := ⟨.empty, []⟩

def instructions (a : Account) : List Instruction := a.written.map Written.instruction

def emit (a : Account) (node : Node) (op : Opcode) (operands : List Nat) : Account :=
  match encode op operands with
  | .ok bytes => ⟨a.emission.append op bytes, a.written ++ [⟨⟨op, operands⟩, node, false⟩]⟩
  | .error _ => a

def patch (a : Account) (op : Opcode) (start : Nat) : Account :=
  match encode op [a.emission.position] with
  | .ok bytes => ⟨a.emission.patch start bytes, aim start a.emission.position a.written⟩
  | .error _ => a

def takeBack (a : Account) : Account := ⟨a.emission.dropLast, a.written.dropLast⟩

def returnLast (a : Account) : Account :=
  ⟨a.emission.returnLast, a.written.dropLast ++ a.written.getLast?.toList.map Written.returned⟩

end Account

/- The accounts of the functions being compiled, innermost first. -/
def Act.apply : Act → List Account → List Account
  | .enter, accounts => .blank :: accounts
  | .restart, _ => [.blank]
  | .emit node op operands, a :: around => a.emit node op operands :: around
  | .patch _ op start, a :: around => a.patch op start :: around
  | .takeBack _, a :: around => a.takeBack :: around
  | .returnLast _, a :: around => a.returnLast :: around
  | .leave, _ :: around => around
  | _, [] => []

/- What a journal, latest act first, has made of a blank stream. -/
def replay : List Act → List Account
  | [] => [.blank]
  | act :: earlier => act.apply (replay earlier)

/- The value of the block's last statement was popped just before. -/
def Popped (block : Block) (earlier : List Act) : Prop :=
  ∃ s before a around, block.statements.getLast? = some s ∧ earlier = .emit (.statement s) .pop [] :: before ∧
    replay before = a :: around ∧ a.written ≠ []

/- What has to be before an act. -/
def Act.Due (earlier : List Act) : Act → Prop
  | .emit _ op operands => (∃ a around, replay earlier = a :: around) ∧ (op.isJump → operands = [jumpPlaceholder])
  | .patch node op start => ∃ a around before after bytes, replay earlier = a :: around ∧
      a.written = before ++ .placeholder node op :: after ∧ start = offsetBehind before ∧
      encode op [a.emission.position] = .ok bytes
  | .takeBack block | .returnLast block => Popped block earlier
  | .leave => ∃ a b around, replay earlier = a :: b :: around
  | .enter | .restart => True

inductive Journal : List Act → Prop where
  | start : Journal []
  | act {act earlier} (before : Journal earlier) (due : act.Due earlier) : Journal (act :: earlier)

/- The record of an emission's last instruction. -/
def recordOf (is : List Instruction) : Option Emitted := is.getLast?.map fun i => ⟨i.opcode, extent is.dropLast⟩

namespace Written

/- A jump waits for its target, or does not go beyond the end. -/
def Settled (w : Written) (size : Nat) : Prop :=
  w.instruction.opcode.isJump →
    w.targeted = false ∧ w.instruction.operands = [jumpPlaceholder] ∨
      w.targeted ∧ ∃ target, w.instruction.operands = [target] ∧ target ≤ size

theorem Settled.further {w : Written} {size size' : Nat} (h : w.Settled size) (grown : size ≤ size') :
    w.Settled size' := by
  intro jump
  rcases h jump with waits | ⟨targeted, target, operands, inside⟩
  · exact .inl waits
  · exact .inr ⟨targeted, target, operands, Nat.le_trans inside grown⟩

end Written

/- What the account of a stream has to say about it. -/
structure Account.Exact (a : Account) : Prop where
  encoded : encodeAll a.instructions = .ok a.emission.code.toList
  last : a.emission.last = recordOf a.instructions
  settled : ∀ w ∈ a.written, w.Settled a.emission.position

theorem recordOfAppend (is : List Instruction) (i : Instruction) :
    recordOf (is ++ [i]) = some ⟨i.opcode, extent is⟩ := by
  simp [recordOf]

section Aiming
variable {before after : List Written} {w : Written} (target : Nat)

theorem aimSplit : aim (offsetBehind before) target (before ++ w :: after) =
    before ++ w.aimed target :: after := by
  induction before with
  | nil => rfl
  | cons first rest ih =>
      have size := first.instruction.opcode.lengthPositive
      have notHere : first.instruction.opcode.length + offsetBehind rest ≠ 0 := by omega
      rw [offsetBehindCons, List.cons_append, aim, if_neg notHere, Nat.add_sub_cancel_left, ih]
      rfl

theorem extentOfOpcodes {is js : List Instruction} (same : is.map Instruction.opcode = js.map Instruction.opcode) :
    extent is = extent js := by
  have lengths := congrArg (·.map Opcode.length) same
  rw [List.map_map, List.map_map] at lengths
  exact congrArg List.sum lengths

/- The record of the last instruction has nothing to do with operands. -/
theorem recordOfOpcodes {is js : List Instruction} (same : is.map Instruction.opcode = js.map Instruction.opcode) :
    recordOf is = recordOf js := by
  have lasts : is.getLast?.map Instruction.opcode = js.getLast?.map Instruction.opcode := by
    rw [← List.getLast?_map, ← List.getLast?_map, same]
  have fronts : extent is.dropLast = extent js.dropLast :=
    extentOfOpcodes (by rw [List.map_dropLast, List.map_dropLast, same])
  have both : ∀ ks : List Instruction,
      recordOf ks = (ks.getLast?.map Instruction.opcode).map (⟨·, extent ks.dropLast⟩) := by
    intro ks
    rw [recordOf, Option.map_map]
    rfl
  rw [both is, both js, lasts, fronts]

end Aiming

/- With the placeholder at hand, a patch is known in full. -/
theorem Account.patchFound {a : Account} {node : Node} {op : Opcode} {before after : List Written} {bytes : Bytes}
    (found : a.written = before ++ .placeholder node op :: after)
    (encoded : encode op [a.emission.position] = .ok bytes) :
    a.patch op (offsetBehind before) = ⟨a.emission.patch (offsetBehind before) bytes,
      before ++ (Written.placeholder node op).aimed a.emission.position :: after⟩ := by
  rw [patch, encoded, found]
  simp only [aimSplit]

namespace Account.Exact
variable {a : Account}

theorem blank : Account.blank.Exact := ⟨rfl, rfl, fun w member => by cases member⟩

theorem position (h : a.Exact) : a.emission.position = offsetBehind a.written := by
  rw [Emission.position, ← Array.length_toList, Instruction.encodeAllLength h.encoded]
  rfl

/- Only a jump that waits for its target is emitted. -/
theorem emit (h : a.Exact) (node : Node) {op : Opcode} {operands : List Nat}
    (waits : op.isJump → operands = [jumpPlaceholder]) :
    (a.emit node op operands).Exact := by
  unfold Account.emit
  split
  · rename_i bytes encoded
    have code : (a.emission.append op bytes).code.toList = a.emission.code.toList ++ bytes := Emission.appendCode _ _ _
    have grown : a.emission.position ≤ (a.emission.append op bytes).position := by
      rw [Emission.position, Emission.position, ← Array.length_toList, ← Array.length_toList, code, List.length_append]
      exact Nat.le_add_right _ _
    constructor
    case encoded =>
      rw [code, Account.instructions, List.map_append]
      exact encodeAllAppend.mpr ⟨_, _, h.encoded, encodeAllOne.mpr encoded, rfl⟩
    case last =>
      rw [Account.instructions, List.map_append, List.map_singleton, recordOfAppend]
      exact congrArg (fun position => some (Emitted.mk op position)) h.position
    case settled =>
      intro w member
      rcases List.mem_append.mp member with old | new
      · exact (h.settled w old).further grown
      · rw [List.mem_singleton.mp new]
        exact fun jump => .inl ⟨rfl, waits jump⟩
  · exact h

/- A jump that gets its target is overwritten by an instruction of the same length. -/
theorem patch (h : a.Exact) {node : Node} {op : Opcode} {before after : List Written} {bytes : Bytes}
    (found : a.written = before ++ .placeholder node op :: after)
    (encoded : encode op [a.emission.position] = .ok bytes) :
    (a.patch op (offsetBehind before)).Exact := by
  rw [patchFound found encoded]
  have whole := h.encoded
  rw [Account.instructions, found, List.map_append, List.map_cons] at whole
  obtain ⟨x, y, hx, hy, same⟩ := encodeAllAppend.mp whole
  obtain ⟨jump, z, hj, hz, rfl⟩ := encodeAllCons.mp hy
  have size : bytes.length = jump.length := (encodeLength encoded).trans (encodeLength hj).symm
  have start : offsetBehind before = x.length := (Instruction.encodeAllLength hx).symm
  have code : (overwrite a.emission.code x.length bytes).toList = x ++ bytes ++ z :=
    overwriteMiddle (by rw [same, List.append_assoc]) size
  rw [start]
  constructor
  case encoded =>
    change encodeAll (List.map _ (_ ++ _ :: _)) = .ok (overwrite a.emission.code x.length bytes).toList
    rw [code, List.map_append, List.map_cons, List.append_assoc]
    exact encodeAllAppend.mpr ⟨x, bytes ++ z, hx, encodeAllCons.mpr ⟨bytes, z, encoded, hz, rfl⟩, rfl⟩
  case last =>
    refine h.last.trans (recordOfOpcodes ?_)
    rw [Account.instructions, found]
    simp [Account.instructions, Written.aimed]
  case settled =>
    have stays : (a.emission.patch x.length bytes).position = a.emission.position := overwriteSize _ _ _
    intro w member
    rw [stays]
    rcases List.mem_append.mp member with early | late
    · exact h.settled w (found ▸ List.mem_append_left _ early)
    · rcases List.mem_cons.mp late with rfl | late
      · exact fun _ => .inr ⟨rfl, _, rfl, Nat.le_refl _⟩
      · exact h.settled w (found ▸ List.mem_append_right _ (List.mem_cons_of_mem _ late))

end Account.Exact

namespace Account
variable (a : Account) (node : Node)

theorem emitPop : a.emit node .pop [] =
    ⟨a.emission.append .pop [Opcode.pop.byte], a.written ++ [⟨⟨.pop, []⟩, node, false⟩]⟩ := rfl

/- Taking back the pop that was emitted just before leaves the stream as it was. -/
theorem takeBackPop : (a.emit node .pop []).takeBack =
    ⟨{ a.emission with previous := a.emission.last }, a.written⟩ := by
  have code : (a.emission.code ++ [Opcode.pop.byte]).shrink a.emission.code.size = a.emission.code := by
    apply Array.ext'
    simp
  rw [emitPop, takeBack, List.dropLast_concat]
  simp only [Emission.dropLast, Emission.append, Emission.position, code]

/- A return in its place is as if it had been emitted at once. -/
theorem returnPop : (a.emit node .pop []).returnLast = a.emit node .returnValue [] := by
  have code : overwrite (a.emission.code ++ [Opcode.pop.byte]) a.emission.code.size [Opcode.returnValue.byte] =
      a.emission.code ++ [Opcode.returnValue.byte] := by
    apply Array.ext'
    have split : (a.emission.code ++ [Opcode.pop.byte]).toList =
        a.emission.code.toList ++ [Opcode.pop.byte] ++ [] := by simp
    have size : [Opcode.returnValue.byte].length = [Opcode.pop.byte].length := rfl
    rw [← Array.length_toList, overwriteMiddle split size]
    simp
  have emitted : a.emit node .returnValue [] = ⟨a.emission.append .returnValue [Opcode.returnValue.byte],
      a.written ++ [⟨⟨.returnValue, []⟩, node, false⟩]⟩ := rfl
  rw [emitPop, emitted, returnLast, List.dropLast_concat, List.getLast?_concat]
  simp only [Emission.returnLast, Emission.append, Emission.position, code]
  rfl

theorem Exact.unrecord {a : Account} (h : a.Exact) (previous : Option Emitted) :
    Exact ⟨{ a.emission with previous }, a.written⟩ := ⟨h.encoded, h.last, h.settled⟩

end Account

/- Every point of a journal: what had been done by then. -/
theorem Journal.exact {acts : List Act} (journal : Journal acts) {earlier : List Act} (point : earlier <:+ acts) :
    ∀ a ∈ replay earlier, a.Exact := by
  induction journal generalizing earlier with
  | start =>
      rw [List.suffix_nil.mp point]
      exact fun a member => List.mem_singleton.mp member ▸ .blank
  | @act act before journal due ih =>
      rcases List.suffix_cons_iff.mp point with rfl | past
      swap
      · exact ih past
      have now := ih (List.suffix_refl before)
      -- What was recorded before a pop is recorded again without it, so this goes back by two acts.
      have popped : ∀ {block : Block}, Popped block before → ∃ s, ∃ a : Account, ∃ around,
          replay before = a.emit (.statement s) .pop [] :: around ∧ a.Exact ∧ ∀ b ∈ around, b.Exact := by
        rintro block ⟨s, earliest, a, around, -, rfl, accounts, -⟩
        have older := ih (List.suffix_cons _ earliest)
        rw [accounts] at older
        refine ⟨s, a, around, ?_, List.forall_mem_cons.mp older⟩
        rw [replay, accounts]
        rfl
      cases act with
      | emit node op operands =>
          obtain ⟨⟨a, around, accounts⟩, waits⟩ := due
          rw [accounts] at now
          obtain ⟨here, others⟩ := List.forall_mem_cons.mp now
          rw [replay, accounts]
          exact List.forall_mem_cons.mpr ⟨here.emit node waits, others⟩
      | patch node op start =>
          obtain ⟨a, around, first, rest, bytes, accounts, found, rfl, encoded⟩ := due
          rw [accounts] at now
          obtain ⟨here, others⟩ := List.forall_mem_cons.mp now
          rw [replay, accounts]
          exact List.forall_mem_cons.mpr ⟨here.patch found encoded, others⟩
      | takeBack block =>
          obtain ⟨s, a, around, accounts, here, others⟩ := popped due
          rw [replay, accounts, Act.apply, Account.takeBackPop]
          exact List.forall_mem_cons.mpr ⟨here.unrecord _, others⟩
      | returnLast block =>
          obtain ⟨s, a, around, accounts, here, others⟩ := popped due
          rw [replay, accounts, Act.apply, Account.returnPop]
          exact List.forall_mem_cons.mpr ⟨here.emit _ (fun jump => by cases jump), others⟩
      | enter => exact List.forall_mem_cons.mpr ⟨.blank, now⟩
      | leave =>
          obtain ⟨a, b, around, accounts⟩ := due
          rw [accounts] at now
          rw [replay, accounts]
          exact (List.forall_mem_cons.mp now).2
      | restart => exact fun a member => List.mem_singleton.mp member ▸ .blank

end ClosureCode
