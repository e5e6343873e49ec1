import ClosureCode.Proofs.ForwardJumps
import ClosureCode.Proofs.References
import Mathlib.Data.List.Nodup

/-! Slots are stored to before they are read. In the order of the stream this holds for each slot
that is not a parameter; a path may jump over the store, if the `let` is in an arm of a conditional. -/
namespace ClosureCode

/- How a variable of the function at hand is read. -/
def loadOf (outer : List (List Instruction)) (slot : Nat) : Instruction :=
  ⟨if outer.isEmpty then .getGlobal else .getLocal, [slot]⟩

/- In the order of the code, slots from `first` on are stored to before they are read. -/
def StoresFirst (load store : Nat → Instruction) (first : Nat) (is : List Instruction) : Prop :=
  ∀ before slot after, is = before ++ load slot :: after → slot < first ∨ store slot ∈ before

section Order
variable {load store : Nat → Instruction} {first : Nat} {i : Instruction} {is : List Instruction}

theorem storesFirstCons (h : StoresFirst load store first is) (known : ∀ slot, i = load slot → slot < first) :
    StoresFirst load store first (i :: is) := by
  intro before slot after split
  cases before with
  | nil => exact .inl (known slot (List.cons.inj split).1)
  | cons j before => exact (h before slot after (List.cons.inj split).2).imp_right (List.mem_cons_of_mem _)

theorem storesFirstAppend {loads : List Instruction} (h : StoresFirst load store first is)
    (known : ∀ slot, load slot ∈ loads → slot < first) : StoresFirst load store first (loads ++ is) := by
  induction loads with
  | nil => exact h
  | cons i loads ih =>
      refine storesFirstCons (ih fun slot member => known slot (List.mem_cons_of_mem _ member)) fun slot same => ?_
      exact known slot (same ▸ List.mem_cons_self)

/- With the store of one slot in front there is one slot less to ask for. -/
theorem storesFirstStore (h : StoresFirst load store (first + 1) is) (other : ∀ slot, store first ≠ load slot) :
    StoresFirst load store first (store first :: is) := by
  intro before slot after split
  cases before with
  | nil => exact absurd (List.cons.inj split).1 (other slot)
  | cons j before =>
      obtain ⟨rfl, rest⟩ := List.cons.inj split
      rcases h before slot after rest with lt | member
      · rcases Nat.lt_or_eq_of_le (Nat.le_of_lt_succ lt) with lt | rfl
        · exact .inl lt
        · exact .inr List.mem_cons_self
      · exact .inr (List.mem_cons_of_mem _ member)

end Order

section Realized
variable {pool : List Object} {frames : List LexicalFrame} {outer : List (List Instruction)} {slot slot' : Nat}
  {events : List Event} {is : List Instruction}

/- A load that reaches the meaning of a name reads no slot that is not bound yet. -/
theorem reachesBound {name : String} {home : Home} {k : Nat} (depth : frames.length = outer.length + 1)
    (means : lexical frames name = some home) (reaches : Reaches outer (loadOf outer k) home) :
    k < (frames.headD topFrame).bound.length := by
  have refers : Refers [] (roomOf frames outer 0) (loadOf outer k) := reachesRefers depth means reaches 0
  cases outer with
  | nil =>
      obtain ⟨frame, rfl⟩ := List.length_eq_one_iff.mp depth
      obtain ⟨j, same, lt⟩ := refersGlobal refers rfl
      cases same
      exact lt
  | cons loads outer =>
      obtain ⟨j, same, lt⟩ := refersLocal refers (.inl rfl)
      cases same
      exact lt

theorem Realizes.storesFirst (h : Realizes pool frames outer slot events is slot')
    (depth : frames.length = outer.length + 1) :
    StoresFirst (loadOf outer) (storeOf outer) (frames.headD topFrame).bound.length is := by
  induction h with
  | done => intro before slot after split; simp at split
  | @silent frames outer slot events is slot' i silent rest ih =>
      refine storesFirstCons (ih depth) fun k same => ?_
      rw [same] at silent
      cases outer <;> cases silent
  | @constant frames outer slot events is slot' object constant literal rest ih =>
      refine storesFirstCons (ih depth) fun k same => ?_
      cases outer <;> cases same
  | use means reaches rest ih =>
      refine storesFirstCons (ih depth) fun k same => ?_
      exact reachesBound depth means (same ▸ reaches)
  | @bind frame frames outer slot events is slot' name rest ih =>
      refine storesFirstStore (ih depth) fun k same => ?_
      cases outer <;> cases same
  | @function frames outer slot events is slot' name parameters body code loads own f captures inside constant decoded count
      rest ihInside ih =>
      refine storesFirstAppend (storesFirstCons (ih depth) fun k same => ?_) fun k member => ?_
      · cases outer <;> cases same
      · obtain ⟨name, -, home, means, reaches⟩ := captures.origin member
        exact reachesBound depth means reaches

/- The code of the function realizes some body, wherever in the text that stands. -/
structure RealizedBody (pool : List Object) (f : CompiledFunction) (code : List Instruction) : Prop where
  decoded : Instruction.decodeAll f.code.toList = .ok code
  realizes : ∃ name parameters frames loads outer slot body own,
    f.parameters = parameters.length ∧ frames.length = outer.length + 1 ∧
      Realizes pool (functionFrame name parameters :: frames) (loads :: outer) slot body code own

theorem Realizes.bodies (h : Realizes pool frames outer slot events is slot') (depth : frames.length = outer.length + 1) :
    ∀ k f, slot ≤ k → k < slot' → pool[k]? = some (.compiled f) → ∃ code, RealizedBody pool f code := by
  induction h with
  | done =>
      intro k f low high
      omega
  | silent silent rest ih => exact ih depth
  | @constant frames outer slot events is slot' object constant literal rest ih =>
      intro k f low high found
      rcases Nat.eq_or_lt_of_le low with rfl | later
      · cases constant.symm.trans found
        cases literal
      · exact ih depth k f later high found
  | use means reaches rest ih => exact ih depth
  | bind rest ih => exact ih depth
  | @function frames outer slot events is slot' name parameters body code loads own f captures inside constant decoded count
      rest ihInside ih =>
      have deeper : (functionFrame name parameters :: frames).length = (loads :: outer).length + 1 := by simp [depth]
      intro k g low high found
      rcases Nat.lt_trichotomy k own with earlier | rfl | later
      · exact ihInside deeper k g low earlier found
      · cases constant.symm.trans found
        exact ⟨code, decoded, name, parameters, frames, loads, outer, slot, body, _, count.1, depth, inside⟩
      · exact ih depth k g later high found

end Realized

/- Of what is filtered without repetition, an element stands at one place. -/
theorem splitOnce {α : Type} {p : α → Bool} {x y x' y' : List α} {a : α} (once : ((x ++ a :: y).filter p).Nodup)
    (among : p a) (same : x ++ a :: y = x' ++ a :: y') : x = x' := by
  simp only [List.filter_append, List.filter_cons_of_pos among, List.nodup_append, List.nodup_cons, List.mem_filter,
    among, and_true] at once
  obtain ⟨-, ⟨behind, -⟩, apart⟩ := once
  rcases List.append_eq_append_iff.mp same with ⟨gap, rfl, rest⟩ | ⟨gap, rfl, rest⟩
  · cases gap with
    | nil => simp
    | cons b gap =>
        obtain ⟨rfl, rfl⟩ := List.cons.inj rest
        exact absurd (by simp) behind
  · cases gap with
    | nil => simp
    | cons b gap =>
        obtain ⟨rfl, -⟩ := List.cons.inj rest
        exact absurd rfl (apart a (by simp [among]) a List.mem_cons_self)

/- There is one store to a slot, and it stands before each read. -/
structure Ordered (load store : Nat → Instruction) (first : Nat) (is : List Instruction) : Prop where
  before : StoresFirst load store first is
  once : (is.filter (·.opcode.isStore)).Nodup
  stores : ∀ slot, (store slot).opcode.isStore

theorem Realizes.ordered {pool : List Object} {frames : List LexicalFrame} {outer : List (List Instruction)}
    {slot slot' : Nat} {events : List Event} {is : List Instruction}
    (h : Realizes pool frames outer slot events is slot') (depth : frames.length = outer.length + 1) :
    Ordered (loadOf outer) (storeOf outer) (frames.headD topFrame).bound.length is := by
  refine ⟨h.storesFirst depth, ?_, fun slot => by cases outer <;> rfl⟩
  rw [h.stores]
  refine List.Nodup.map (fun a b same => ?_) List.nodup_range'
  cases same
  rfl

/- On every path from the start to a read of a slot, the slot is stored to. -/
def BoundFirst (code : Bytes) (load store : Opcode) (first : Nat) : Prop :=
  ∀ ⦃taken offset slot size⦄, Path code taken offset →
    Instruction.decode (code.drop offset) = .ok (⟨load, [slot]⟩, size) → first ≤ slot →
    ∃ place, Executed taken place ⟨store, [slot]⟩

/- The stream has one instruction like this, and it stands at the place. -/
def OnlyAt (code : Bytes) (i : Instruction) (place : Nat) : Prop :=
  ∀ offset, (∃ size, Stands code offset i size) ↔ offset = place

/- The one store to a slot stands before each read of it, and every path to the read has taken it,
unless it jumped over it. -/
def BoundUnlessSkipped (code : Bytes) (load store : Opcode) (first : Nat) : Prop :=
  ∀ ⦃taken offset slot size⦄, Path code taken offset →
    Instruction.decode (code.drop offset) = .ok (⟨load, [slot]⟩, size) → first ≤ slot →
    ∃ place < offset, OnlyAt code ⟨store, [slot]⟩ place ∧
      (Executed taken place ⟨store, [slot]⟩ ↔ ¬ JumpedOver taken place)

theorem orderedBound {is : List Instruction} {code : Bytes} {load store : Opcode} {first : Nat}
    (encoded : Instruction.encodeAll is = .ok code) (forward : JumpsForward code)
    (ordered : Ordered (fun slot => ⟨load, [slot]⟩) (fun slot => ⟨store, [slot]⟩) first is) :
    BoundUnlessSkipped code load store first := by
  intro taken offset slot size path found ge
  obtain ⟨boundary, passed⟩ := pathPasses encoded forward path
  obtain ⟨before, after, rfl, rfl, -⟩ := standsSplit encoded ⟨boundary, found⟩
  have stored := (ordered.before before slot after rfl).resolve_left (Nat.not_lt.mpr ge)
  obtain ⟨x, y, rfl⟩ := List.append_of_mem stored
  -- The store is behind the path at the read, so the path has passed it.
  rw [List.append_assoc, List.cons_append] at encoded
  have stands := splitStands encoded
  have lt : Instruction.extent x < Instruction.extent (x ++ ⟨store, [slot]⟩ :: y) := by
    have := store.lengthPositive
    simp only [Instruction.extentAppend, Instruction.extentCons]
    omega
  refine ⟨_, lt, fun offset => ⟨?_, ?_⟩, fun executed jumped => ?_, fun untouched => ?_⟩
  · rintro ⟨size', other⟩
    obtain ⟨x', y', same, rfl, -⟩ := standsSplit encoded other
    have once := ordered.once
    rw [List.append_assoc, List.cons_append] at once
    rw [splitOnce once (ordered.stores slot) same]
  · rintro rfl
    exact ⟨_, stands⟩
  · exact jumpedNotExecuted encoded forward path jumped executed
  · exact (passed _ _ _ stands lt).resolve_right untouched

theorem assembledEncodes {code : List Symbolic} {stream : Code} {is : List Instruction}
    (assembled : Symbolic.assemble code = .ok stream) (decoded : Instruction.decodeAll stream.toList = .ok is) :
    Instruction.encodeAll is = .ok stream.toList := by
  have encoded := Symbolic.assembleOk.mp assembled
  cases (Instruction.decodeAllEncodeAll encoded).symm.trans decoded
  exact encoded

/- For the top level with its globals, and for each function with the locals that are not parameters. -/
def Bytecode.EachStream (b : Bytecode) (P : Bytes → Opcode → Opcode → Nat → Prop) : Prop :=
  P b.code.toList .getGlobal .setGlobal 0 ∧
    ∀ f, .compiled f ∈ b.constants.toList → P f.code.toList .getLocal .setLocal f.parameters

theorem boundUnlessSkipped {program : Program} {b : Bytecode} (compiled : program.compile = .ok b) :
    b.EachStream BoundUnlessSkipped := by
  obtain ⟨l, lower, assembled⟩ := lowered compiled
  obtain ⟨code, constants⟩ := Lowered.assembleOk.mp assembled
  obtain ⟨s, fragment⟩ := program.fragment lower
  obtain ⟨is, decoded, realizes⟩ := assembledRealizes fragment assembled
  constructor
  · exact orderedBound (assembledEncodes code decoded) (fragmentJumps fragment code).1 (realizes.ordered rfl)
  · intro f member
    obtain ⟨k, inside, found⟩ := List.getElem_of_mem member
    obtain ⟨is, inner⟩ := realizes.bodies rfl k f (Nat.zero_le _) (by simpa using inside)
      (List.getElem?_eq_some_iff.mpr ⟨inside, found⟩)
    obtain ⟨name, parameters, frames, loads, outer, slot, body, own, count, depth, realized⟩ := inner.realizes
    obtain ⟨symbolic, inConstants, stored⟩ := compiledConstant constants member
    have ordered := realized.ordered (by simp [depth])
    have first : ((functionFrame name parameters :: frames).headD topFrame).bound.length = f.parameters := by
      simp [functionFrame, count]
    rw [first] at ordered
    have forward := ((fragmentBodies fragment _ _ _ inConstants).jumps stored).1
    exact orderedBound (assembledEncodes stored inner.decoded) forward ordered

/- `if (false) { let a = 1 }; a` -/
def Program.skipped : Program :=
  let arm := Block.mk [.binding ⟨"a", .unknown⟩ (.integer 1 .unknown) .unknown] .unknown
  [.expression (.conditional (.boolean false .unknown) arm none .unknown) .unknown,
    .expression (.name "a" .unknown) .unknown]

def Program.skippedCode : Bytes := [3, 15, 0, 14, 0, 0, 0, 18, 0, 0, 4, 16, 0, 15, 4, 1, 17, 0, 0, 1]

theorem skippedCompiles : ∃ b, Program.skipped.compile = .ok b ∧ b.code.toList = Program.skippedCode := by
  have code : Program.skipped.compile.toOption.map (·.code.toList) = some Program.skippedCode := by decide +kernel
  cases compiled : Program.skipped.compile with
  | ok b =>
      rw [compiled] at code
      exact ⟨b, rfl, Option.some.inj code⟩
  | error e =>
      rw [compiled] at code
      cases code

theorem boundUnlessSkippedArm : ∃ b, Program.skipped.compile = .ok b ∧ b.EachStream BoundUnlessSkipped := by
  obtain ⟨b, compiled, -⟩ := skippedCompiles
  exact ⟨b, compiled, boundUnlessSkipped compiled⟩

/- The way around the arm comes to a read of the slot, which was never stored to. -/
theorem skippedNotBound : ∃ b, Program.skipped.compile = .ok b ∧ ¬ b.EachStream BoundFirst := by
  obtain ⟨b, compiled, code⟩ := skippedCompiles
  refine ⟨b, compiled, fun bound => ?_⟩
  have top := bound.1
  rw [code] at top
  have condition : Path Program.skippedCode [⟨0, ⟨.pushFalse, []⟩, 1⟩] 1 :=
    .step .start (@Leads.next _ 0 ⟨.pushFalse, []⟩ 1 rfl rfl)
  have around := condition.step (@Leads.jump _ 1 ⟨.jumpUnlessTruthy, [14]⟩ 3 14 rfl rfl rfl)
  have alternative := around.step (@Leads.next _ 14 ⟨.pushNull, []⟩ 1 rfl rfl)
  have dropped := alternative.step (@Leads.next _ 15 ⟨.pop, []⟩ 1 rfl rfl)
  obtain ⟨place, next, member⟩ := @top _ 16 0 3 dropped rfl (Nat.le_refl 0)
  simp at member

end ClosureCode
