import ClosureCode.Proofs.Fragment

/-! The compiler emits what the lowering describes. A run of the compiler and the lowering of
the same part stay in step: placeholders that are patched, pops that are taken back and the
scopes that are entered and left add up to the symbolic code with its labels placed. -/
namespace ClosureCode
open Symbolic (Placed advance)

/- The compiler and the lowering agree on names and on the next free slot. -/
structure Represents (c : Compiler) (s : Lowering) : Prop where
  table : c.table = s.table
  slot : c.constants.size = s.slot

structure Fits (place : Nat → Nat) (l : Lowered) : Prop where
  code : ∃ bytes, Instruction.encodeAll (Symbolic.instructions place l.code) = .ok bytes
  constants : ∃ objects, Constant.assembleAll l.constants = .ok objects

/- The stream and the pool of `c'` are those of `c` followed by the assembled `l`. -/
structure Extends (place : Nat → Nat) (l : Lowered) (c c' : Compiler) : Prop where
  code : ∃ bytes, Instruction.encodeAll (Symbolic.instructions place l.code) = .ok bytes ∧
    c'.current.code.toList = c.current.code.toList ++ bytes
  constants : ∃ objects, Constant.assembleAll l.constants = .ok objects ∧
    c'.constants.toList = c.constants.toList ++ objects

theorem fitsAppend {place : Nat → Nat} {a b : Lowered} : Fits place (a ++ b) ↔ Fits place a ∧ Fits place b := by
  constructor
  · rintro ⟨⟨bytes, code⟩, ⟨objects, constants⟩⟩
    rw [Lowered.codeAppend, Symbolic.instructionsAppend] at code
    obtain ⟨x, y, hx, hy, _⟩ := Instruction.encodeAllAppend.mp code
    obtain ⟨u, v, hu, hv, _⟩ := Constant.assembleAllAppend.mp constants
    exact ⟨⟨⟨x, hx⟩, ⟨u, hu⟩⟩, ⟨⟨y, hy⟩, ⟨v, hv⟩⟩⟩
  · rintro ⟨⟨⟨x, hx⟩, ⟨u, hu⟩⟩, ⟨⟨y, hy⟩, ⟨v, hv⟩⟩⟩
    refine ⟨⟨x ++ y, ?_⟩, ⟨u ++ v, Constant.assembleAllAppend.mpr ⟨u, v, hu, hv, rfl⟩⟩⟩
    rw [Lowered.codeAppend, Symbolic.instructionsAppend]
    exact Instruction.encodeAllAppend.mpr ⟨x, y, hx, hy, rfl⟩

theorem overwriteMiddle {code : Code} {before old after new : Bytes} (h : code.toList = before ++ old ++ after)
    (size : new.length = old.length) : (overwrite code before.length new).toList = before ++ new ++ after := by
  have total := congrArg List.length h
  rw [overwriteList _ _ _ (by simp at total; omega), h, size]
  simp

namespace Extends
variable {place : Nat → Nat} {a b l : Lowered} {c c' c'' : Compiler}

theorem append (first : Extends place a c c') (second : Extends place b c' c'') : Extends place (a ++ b) c c'' := by
  obtain ⟨⟨x, hx, codeX⟩, ⟨u, hu, poolU⟩⟩ := first
  obtain ⟨⟨y, hy, codeY⟩, ⟨v, hv, poolV⟩⟩ := second
  refine ⟨⟨x ++ y, ?_, by simp [codeY, codeX]⟩,
    ⟨u ++ v, Constant.assembleAllAppend.mpr ⟨u, v, hu, hv, rfl⟩, by simp [poolV, poolU]⟩⟩
  rw [Lowered.codeAppend, Symbolic.instructionsAppend]
  exact Instruction.encodeAllAppend.mpr ⟨x, y, hx, hy, rfl⟩

theorem position (h : Extends place l c c') : c'.current.position = l.code.foldl advance c.current.position := by
  obtain ⟨bytes, encoded, code⟩ := h.code
  have size := congrArg List.length code
  rw [List.length_append, Symbolic.instructionsLength encoded] at size
  rw [Symbolic.advanceAll]
  simpa [Emission.position] using size

/- A jump, wherever it stands, gets another target. -/
theorem patch (before : Lowered) {rest : Lowered} {op : Opcode} {old new : Nat} {bytes : Bytes}
    (h : Extends place (before ++ ⟨[.op op [old]], []⟩ ++ rest) c c')
    (encoded : Instruction.encode op [new] = .ok bytes) :
    Extends place (before ++ ⟨[.op op [new]], []⟩ ++ rest) c
      { c' with current := c'.current.patch (before.code.foldl advance c.current.position) bytes } := by
  obtain ⟨⟨all, codeOld, grown⟩, constants⟩ := h
  simp only [Lowered.codeAppend, Symbolic.instructionsAppend] at codeOld
  obtain ⟨_, z, left, hz, rfl⟩ := Instruction.encodeAllAppend.mp codeOld
  obtain ⟨x, y, hx, hy, rfl⟩ := Instruction.encodeAllAppend.mp left
  have size : bytes.length = y.length := by
    rw [Instruction.encodeLength encoded, Instruction.encodeLength (Instruction.encodeAllOne.mp hy)]
  have position : before.code.foldl advance c.current.position = (c.current.code.toList ++ x).length := by
    rw [Symbolic.advanceAll, ← Symbolic.instructionsLength hx]
    simp [Emission.position]
  refine ⟨⟨x ++ bytes ++ z, ?_, ?_⟩, constants⟩
  · simp only [Lowered.codeAppend, Symbolic.instructionsAppend]
    refine Instruction.encodeAllAppend.mpr ⟨x ++ bytes, z, ?_, hz, rfl⟩
    exact Instruction.encodeAllAppend.mpr ⟨x, bytes, hx, Instruction.encodeAllOne.mpr encoded, rfl⟩
  · rw [position]
    have code : c'.current.code.toList = (c.current.code.toList ++ x) ++ y ++ z := by simp [grown]
    simpa [Emission.patch] using overwriteMiddle code size

end Extends

namespace Compile
variable {α β : Type} {x : Compile α} {f : α → Compile β} {c c' : Compiler}

theorem bindOk {a : α} (h : x c = .ok a c') : (x >>= f) c = f a c' := by
  show EStateM.bind x f c = f a c'
  unfold EStateM.bind
  rw [h]

theorem bindError {e : CompileError} (h : x c = .error e c') : (x >>= f) c = .error e c' := by
  show EStateM.bind x f c = .error e c'
  unfold EStateM.bind
  rw [h]

end Compile

/- A jump is patched if its target, the end of the code so far, can be encoded. -/
theorem Compile.patchRun (node : Node) (op : Opcode) (start : Nat) (c : Compiler) :
    (∃ cause, Instruction.encode op [c.current.position] = .error cause ∧
      Compile.patchJump node op start c = .error (.instruction node.render node.span cause) c) ∨
    (∃ bytes, Instruction.encode op [c.current.position] = .ok bytes ∧
      Compile.patchJump node op start c = .ok () { c with current := c.current.patch start bytes }) := by
  unfold Compile.patchJump
  cases encoded : Instruction.encode op [c.current.position] with
  | error cause => exact .inl ⟨cause, rfl, rfl⟩
  | ok bytes => exact .inr ⟨bytes, rfl, rfl⟩

/- Started in step and with an emission that is `ready`, both end in step and with an
emission `after`, or both fail: the run because the lowering binds no such name or has an operand that
does not fit. -/
def Refines (ready : Emission → Prop) (x : Compile Unit) (y : Lower) (after : Emission → Prop) : Prop :=
  ∀ c s, Represents c s → ready c.current →
    match x c with
    | .ok _ c' => ∃ l s', y s = some (l, s') ∧ Represents c' s' ∧ c'.enclosing = c.enclosing ∧ after c'.current ∧
        ∀ place, Placed advance place c.current.position l.code → Extends place l c c'
    | .error _ _ => ∀ l s', y s = some (l, s') →
        ∀ place, Placed advance place c.current.position l.code → ¬ Fits place l

def always (_ : Emission) : Prop := True

namespace Refines
variable {ready middle after : Emission → Prop} {x x' : Compile Unit} {y y' : Lower}

theorem weaken {ready' after' : Emission → Prop} (h : Refines ready x y after)
    (before : ∀ e, ready' e → ready e) (next : ∀ e, after e → after' e) : Refines ready' x y after' := by
  intro c s start isReady
  have := h c s start (before _ isReady)
  split at this
  · obtain ⟨l, s', run, same, enclosing, done, grown⟩ := this
    exact ⟨l, s', run, same, enclosing, next _ done, grown⟩
  · exact this

theorem loosen (h : Refines ready x y after) : Refines ready x y always := h.weaken (fun _ h => h) fun _ _ => trivial

theorem congr (same : ∀ c, ready c.current → x c = x' c) (h : Refines ready x' y after) :
    Refines ready x y after := by
  intro c s start isReady
  have := h c s start isReady
  rwa [← same c isReady] at this

theorem andThen (first : Refines ready x y middle) (second : Refines middle x' y' after) :
    Refines ready (x >>= fun _ => x') (y.andThen y') after := by
  intro c s start isReady
  have one := first c s start isReady
  cases ran : x c with
  | error e c₁ =>
      rw [Compile.bindError ran]
      simp only [ran] at one
      intro l s' h place placed
      obtain ⟨l₁, s₁, l₂, hx, hy, rfl⟩ := Lower.andThenSome.mp h
      rw [Lowered.codeAppend, Symbolic.placedAppend] at placed
      exact fun fits => one l₁ s₁ hx place placed.1 (fitsAppend.mp fits).1
  | ok a c₁ =>
      rw [Compile.bindOk ran]
      simp only [ran] at one
      obtain ⟨l₁, s₁, run₁, start₁, enclosing₁, mid, grown₁⟩ := one
      have two := second c₁ s₁ start₁ mid
      cases ran' : x' c₁ with
      | error e c₂ =>
          simp only [ran'] at two ⊢
          intro l s' h place placed
          obtain ⟨l', s'', l₂, hx, hy, rfl⟩ := Lower.andThenSome.mp h
          cases run₁.symm.trans hx
          rw [Lowered.codeAppend, Symbolic.placedAppend] at placed
          rw [← (grown₁ place placed.1).position] at placed
          exact fun fits => two l₂ s' hy place placed.2 (fitsAppend.mp fits).2
      | ok b c₂ =>
          simp only [ran'] at two ⊢
          obtain ⟨l₂, s₂, run₂, start₂, enclosing₂, done, grown₂⟩ := two
          refine ⟨l₁ ++ l₂, s₂, Lower.andThenSome.mpr ⟨l₁, s₁, l₂, run₁, run₂, rfl⟩, start₂,
            enclosing₂.trans enclosing₁, done, fun place placed => ?_⟩
          rw [Lowered.codeAppend, Symbolic.placedAppend] at placed
          have before := grown₁ place placed.1
          rw [← before.position] at placed
          exact before.append (grown₂ place placed.2)

theorem nothing : Refines ready (pure ()) (.emit []) ready := by
  intro c s start isReady
  exact ⟨⟨[], []⟩, s, rfl, start, rfl, isReady, fun place _ => ⟨⟨[], rfl, by simp⟩, [], rfl, by simp⟩⟩

/- After an instruction was emitted, it is the last one. -/
def justEmitted (op : Opcode) (e : Emission) : Prop := ∃ position, e.last = some ⟨op, position⟩

theorem emit (node : Node) (op : Opcode) (operands : List Nat) :
    Refines ready (Compile.emit node op operands) (.emit [.op op operands]) (justEmitted op) := by
  intro c s start _
  unfold Compile.emit
  cases encoded : Instruction.encode op operands with
  | ok bytes =>
      refine ⟨⟨[.op op operands], []⟩, s, rfl, ⟨start.table, start.slot⟩, rfl, ⟨_, rfl⟩, fun place _ => ?_⟩
      exact ⟨⟨bytes, Instruction.encodeAllOne.mpr encoded, Emission.appendCode _ _ _⟩, [], rfl, by simp⟩
  | error e =>
      intro l s' h place _ fits
      cases h
      obtain ⟨bytes, all⟩ := fits.code
      cases encoded.symm.trans (Instruction.encodeAllOne.mp all)

theorem refer (node : Node) (op : Opcode) (more : List Nat) {value : Object} {k : Constant}
    (assembled : k.assemble = .ok value) :
    Refines ready (Compile.addConstant value >>= fun slot => Compile.emit node op (slot :: more)) (.refer op k more)
      (justEmitted op) := by
  intro c s start _
  have pool : Constant.assembleAll [k] = .ok [value] := Constant.assembleAllOne.mpr ⟨value, assembled, rfl⟩
  show match Compile.emit node op (c.constants.size :: more) { c with constants := c.constants.push value } with
    | .ok _ c' => _
    | .error _ _ => _
  unfold Compile.emit
  rw [start.slot]
  cases encoded : Instruction.encode op (s.slot :: more) with
  | ok bytes =>
      refine ⟨⟨[.op op (s.slot :: more)], [k]⟩, { s with slot := s.slot + 1 }, rfl, ⟨start.table, ?_⟩, rfl, ⟨_, rfl⟩,
        fun place _ => ?_⟩
      · simp [start.slot]
      · exact ⟨⟨bytes, Instruction.encodeAllOne.mpr encoded, Emission.appendCode _ _ _⟩, [value], pool, by simp⟩
  | error e =>
      intro l s' h place _ fits
      cases h
      obtain ⟨bytes, all⟩ := fits.code
      cases encoded.symm.trans (Instruction.encodeAllOne.mp all)

theorem loadSymbol (node : Node) (symbol : Symbol) :
    Refines ready (Compile.loadSymbol node symbol) (.emit [.plain symbol.load]) always := by
  unfold Compile.loadSymbol Symbol.load
  cases symbol.storage <;> exact (emit node _ _).loosen

theorem loadSymbols (node : Node) : (symbols : List Symbol) →
    Refines always (Compile.loadSymbols node symbols) (.emit (symbols.map fun symbol => .plain symbol.load)) always
  | [] => nothing
  | symbol :: rest => (loadSymbol node symbol).andThen (loadSymbols node rest)

/- A step that only asks or changes the names, and goes on with the answer. -/
theorem names {α : Type} (f : SymbolTable → α × SymbolTable) (x : α → Compile Unit) (y : α → Lower)
    (h : ∀ a, Refines ready (x a) (y a) after) :
    Refines ready ((fun c => .ok (f c.table).1 { c with table := (f c.table).2 } : Compile α) >>= x)
      (fun s => y (f s.table).1 { s with table := (f s.table).2 }) after := by
  intro c s start isReady
  have next := h (f c.table).1 { c with table := (f c.table).2 } { s with table := (f c.table).2 }
    ⟨rfl, start.slot⟩ isReady
  show match x (f c.table).1 { c with table := (f c.table).2 } with
    | .ok _ c' => _
    | .error _ _ => _
  dsimp only
  rw [← start.table]
  split at next
  · obtain ⟨l, s', run, same, enclosing, done, grown⟩ := next
    refine ⟨l, s', run, same, enclosing, done, fun place placed => ?_⟩
    exact ⟨(grown place placed).code, (grown place placed).constants⟩
  · exact next

theorem load (node : Node) (name : String) (span : Span) :
    Refines ready
      (Compile.resolve name >>= fun
        | none => throw (.undefinedVariable name span)
        | some symbol => Compile.loadSymbol node symbol)
      (.load name) always := by
  have known : Refines ready _ _ always := names (fun table => table.resolve name)
    (fun | none => throw (.undefinedVariable name span) | some symbol => Compile.loadSymbol node symbol)
    (fun | none => fun _ => none | some symbol => .emit [.plain symbol.load])
    (fun
      | none => fun c s _ _ l s' h => nomatch h
      | some symbol => loadSymbol node symbol)
  have same : Lower.load name = fun s =>
      (match (s.table.resolve name).1 with
        | none => fun _ => none
        | some symbol => Lower.emit [.plain symbol.load]) { s with table := (s.table.resolve name).2 } := by
    funext s
    unfold Lower.load
    rcases s.table.resolve name with ⟨_ | symbol, table⟩ <;> rfl
  rw [same]
  exact known

theorem binding (node : Node) (name : String) :
    Refines ready
      (Compile.define name >>= fun symbol =>
        Compile.emit node (if symbol.storage = .global then .setGlobal else .setLocal) [symbol.index])
      (.bind name) fun e => justEmitted .setGlobal e ∨ justEmitted .setLocal e := by
  refine names (fun table => table.define name) _ (fun symbol => .emit [.plain symbol.store]) fun symbol => ?_
  refine (emit node _ _).weaken (fun _ h => h) fun e done => ?_
  split at done
  · exact .inl done
  · exact .inr done

/- What a block can be entered with: nothing that its end would take back. -/
def closed (e : Emission) : Prop := e.lastIs .pop = false ∧ e.lastIs .returnValue = false

theorem emitJumpStep (node : Node) {op : Opcode} (c : Compiler) (s : Lowering) (start : Represents c s)
    (jump : op = .jump ∨ op = .jumpUnlessTruthy) :
    ∃ c', Compile.emitJump node op c = .ok c.current.position c' ∧ Represents c' s ∧ c'.enclosing = c.enclosing ∧
      closed c'.current ∧ c'.current.position = c.current.position + op.length ∧
      ∀ place, Extends place ⟨[.op op [jumpPlaceholder]], []⟩ c c' := by
  have encodes : ∃ bytes, Instruction.encode op [jumpPlaceholder] = .ok bytes := by
    rcases jump with rfl | rfl <;> exact ⟨_, rfl⟩
  obtain ⟨bytes, encoded⟩ := encodes
  have emitted : Compile.emit node op [jumpPlaceholder] c =
    .ok () { c with current := c.current.append op bytes } := by
    unfold Compile.emit
    rw [encoded]
  have grown : ∀ place,
      Extends place ⟨[.op op [jumpPlaceholder]], []⟩ c { c with current := c.current.append op bytes } :=
    fun place => ⟨⟨bytes, Instruction.encodeAllOne.mpr encoded, Emission.appendCode _ _ _⟩, [], rfl, by simp⟩
  refine ⟨{ c with current := c.current.append op bytes }, ?_, ⟨start.table, start.slot⟩, rfl, ?_,
    (grown fun _ => 0).position, grown⟩
  · show (Compile.emit node op [jumpPlaceholder] >>= fun _ => pure c.current.position) c = _
    rw [Compile.bindOk emitted]
    rfl
  · rcases jump with rfl | rfl <;> exact ⟨rfl, rfl⟩

theorem fitsConditional {place : Nat → Nat} {label : Nat} {a b : Lowered}
    (h : Fits place ⟨Symbolic.conditional label a.code b.code, a.constants ++ b.constants⟩) :
    Fits place a ∧ Fits place b ∧ (∃ bytes, Instruction.encode .jumpUnlessTruthy [place label] = .ok bytes) ∧
      ∃ bytes, Instruction.encode .jump [place (label + 1)] = .ok bytes := by
  obtain ⟨⟨bytes, code⟩, ⟨objects, constants⟩⟩ := h
  obtain ⟨toSecond, first, toEnd, second, h₁, h₂, h₃, h₄, _⟩ := Symbolic.encodeConditional.mp code
  obtain ⟨u, v, hu, hv, _⟩ := Constant.assembleAllAppend.mp constants
  exact ⟨⟨⟨first, h₂⟩, ⟨u, hu⟩⟩, ⟨⟨second, h₄⟩, ⟨v, hv⟩⟩, ⟨toSecond, h₁⟩, ⟨toEnd, h₃⟩⟩

theorem extendsConditional {place : Nat → Nat} {label toSecond toEnd : Nat} {a b : Lowered} {c c' : Compiler}
    (h : Extends place (⟨[.op .jumpUnlessTruthy [toSecond]], []⟩ ++ a ++ ⟨[.op .jump [toEnd]], []⟩ ++ b) c c')
    (second : place label = toSecond) (finish : place (label + 1) = toEnd) :
    Extends place ⟨Symbolic.conditional label a.code b.code, a.constants ++ b.constants⟩ c c' := by
  have same : Symbolic.instructions place
      (⟨[.op .jumpUnlessTruthy [toSecond]], []⟩ ++ a ++ ⟨[.op .jump [toEnd]], []⟩ ++ b : Lowered).code =
      Symbolic.instructions place (Symbolic.conditional label a.code b.code) := by
    simp [Symbolic.conditional, Symbolic.instructions, Symbolic.resolved, Symbolic.op, second, finish]
  obtain ⟨code, constants⟩ := h
  rw [same] at code
  exact ⟨code, by simpa using constants⟩

/- Where the run and the lowering are after the first arm and the jump behind it. -/
structure FirstArm (c : Compiler) (s : Lowering) (l₁ : Lowered) (s₁ : Lowering) (toEnd : Nat) (c₁ : Compiler) : Prop where
  represents : Represents c₁ s₁
  enclosing : c₁.enclosing = c.enclosing
  ready : closed c₁.current
  -- What the marks of the whole say, in terms of the states of the run.
  second : ∀ place l₂, Placed advance place c.current.position (Symbolic.conditional s.label l₁.code l₂) →
    place s.label = c₁.current.position ∧ Placed advance place c₁.current.position l₂ ∧
      place (s.label + 1) = l₂.foldl advance c₁.current.position
  grown : ∀ place l₂, Placed advance place c.current.position (Symbolic.conditional s.label l₁.code l₂) →
    Extends place (⟨[.op .jumpUnlessTruthy [jumpPlaceholder]], []⟩ ++ l₁ ++ ⟨[.op .jump [jumpPlaceholder]], []⟩) c c₁ ∧
      toEnd = (⟨[.op .jumpUnlessTruthy [jumpPlaceholder]], []⟩ ++ l₁ : Lowered).code.foldl advance c.current.position

theorem firstArm (node : Node) (first : Refines closed x y after) (next : Nat → Nat → Compile Unit) {c : Compiler}
    {s : Lowering} (start : Represents c s) {run : EStateM.Result CompileError Compiler Unit}
    (ran : (Compile.emitJump node .jumpUnlessTruthy >>= fun toSecond => x >>= fun _ =>
      Compile.emitJump node .jump >>= next toSecond) c = run) :
    (∃ e c', run = .error e c' ∧ ∀ l₁ s₁, y { s with label := s.label + 2 } = some (l₁, s₁) → ∀ place l₂,
      Placed advance place c.current.position (Symbolic.conditional s.label l₁.code l₂) → ¬ Fits place l₁) ∨
    ∃ l₁ s₁ toEnd c₁, y { s with label := s.label + 2 } = some (l₁, s₁) ∧ run = next c.current.position toEnd c₁ ∧
      FirstArm c s l₁ s₁ toEnd c₁ := by
  obtain ⟨c₁, run₁, start₁, enclosing₁, closed₁, position₁, grown₁⟩ :=
    emitJumpStep node c { s with label := s.label + 2 } ⟨start.table, start.slot⟩ (.inr rfl)
  have one := first c₁ { s with label := s.label + 2 } start₁ closed₁
  cases ran₁ : x c₁ with
  | error e c₂ =>
      simp only [ran₁] at one
      refine .inl ⟨e, c₂, ?_, fun l₁ s₁ hx place l₂ placed => ?_⟩
      · rw [← ran, Compile.bindOk run₁, Compile.bindError ran₁]
      · obtain ⟨inFirst, -, -, -⟩ := Symbolic.placedConditional placed
        exact one l₁ s₁ hx place (position₁ ▸ inFirst)
  | ok u c₂ =>
      simp only [ran₁] at one
      obtain ⟨l₁, s₁, hx, start₂, enclosing₂, -, grown₂⟩ := one
      obtain ⟨c₃, run₃, start₃, enclosing₃, closed₃, position₃, grown₃⟩ := emitJumpStep node c₂ s₁ start₂ (.inl rfl)
      refine .inr ⟨l₁, s₁, c₂.current.position, c₃, hx, ?_,
        ⟨start₃, (enclosing₃.trans enclosing₂).trans enclosing₁, closed₃, fun place l₂ placed => ?_,
          fun place l₂ placed => ?_⟩⟩
      · rw [← ran, Compile.bindOk run₁, Compile.bindOk ran₁, Compile.bindOk run₃]
      · obtain ⟨inFirst, second, inSecond, finish⟩ := Symbolic.placedConditional placed
        have here : c₃.current.position =
            advance (l₁.code.foldl advance (advance c.current.position (.jumpUnlessTruthy s.label)))
              (.jump (s.label + 1)) := by
          rw [position₃, (grown₂ place (position₁ ▸ inFirst)).position, position₁]
          rfl
        exact ⟨second.trans here.symm, here ▸ inSecond, here ▸ finish⟩
      · obtain ⟨inFirst, -, -, -⟩ := Symbolic.placedConditional placed
        have arm := (grown₁ place).append (grown₂ place (position₁ ▸ inFirst))
        exact ⟨arm.append (grown₃ place), arm.position⟩

theorem conditional (node : Node) {after' : Emission → Prop} (first : Refines closed x y after)
    (second : Refines closed x' y' after') :
    Refines ready
      (Compile.emitJump node .jumpUnlessTruthy >>= fun toSecond => x >>= fun _ =>
        Compile.emitJump node .jump >>= fun toEnd => Compile.patchJump node .jumpUnlessTruthy toSecond >>= fun _ =>
        x' >>= fun _ => Compile.patchJump node .jump toEnd)
      (.conditional y y') always := by
  intro c s start isReady
  rcases firstArm node first (fun toSecond toEnd => Compile.patchJump node .jumpUnlessTruthy toSecond >>= fun _ =>
      x' >>= fun _ => Compile.patchJump node .jump toEnd) start rfl with
    ⟨e, c', run, fails⟩ | ⟨l₁, s₁, toEnd, c₁, hx, run, arm⟩
  · rw [run]
    intro l s' h place placed fits
    obtain ⟨l₁, s₁, l₂, hx, hy, rfl⟩ := Lower.conditionalSome.mp h
    exact fails l₁ s₁ hx place l₂.code placed (fitsConditional fits).1
  · rw [run]
    rcases Compile.patchRun node .jumpUnlessTruthy c.current.position c₁ with
      ⟨cause, far, ran⟩ | ⟨bytes₁, near₁, ran⟩
    · rw [Compile.bindError ran]
      intro l s' h place placed fits
      obtain ⟨l₁', s₁', l₂, hx', hy, rfl⟩ := Lower.conditionalSome.mp h
      cases hx.symm.trans hx'
      obtain ⟨bytes, encoded⟩ := (fitsConditional fits).2.2.1
      rw [(arm.second place l₂.code placed).1, far] at encoded
      cases encoded
    · rw [Compile.bindOk ran]
      have patched : (c₁.current.patch c.current.position bytes₁).position = c₁.current.position :=
        overwriteSize _ _ _
      have two := second { c₁ with current := c₁.current.patch c.current.position bytes₁ } s₁
        ⟨arm.represents.table, arm.represents.slot⟩ arm.ready
      cases ran₂ : x' { c₁ with current := c₁.current.patch c.current.position bytes₁ } with
      | error e c₂ =>
          rw [Compile.bindError ran₂]
          simp only [ran₂, patched] at two
          intro l s' h place placed fits
          obtain ⟨l₁', s₁', l₂, hx', hy, rfl⟩ := Lower.conditionalSome.mp h
          cases hx.symm.trans hx'
          exact two l₂ s' hy place (arm.second place l₂.code placed).2.1 (fitsConditional fits).2.1
      | ok u c₂ =>
          rw [Compile.bindOk ran₂]
          simp only [ran₂, patched] at two
          obtain ⟨l₂, s₂, hy, start₂, enclosing₂, -, grown₂⟩ := two
          have finish : ∀ place, Placed advance place c.current.position
              (Symbolic.conditional s.label l₁.code l₂.code) → place (s.label + 1) = c₂.current.position := by
            intro place placed
            obtain ⟨-, inSecond, finish⟩ := arm.second place l₂.code placed
            rw [finish, (grown₂ place inSecond).position, patched]
          rcases Compile.patchRun node .jump toEnd c₂ with ⟨cause, far, ran₃⟩ | ⟨bytes₂, near₂, ran₃⟩
          · rw [ran₃]
            intro l s' h place placed fits
            obtain ⟨l₁', s₁', l₂', hx', hy', rfl⟩ := Lower.conditionalSome.mp h
            cases hx.symm.trans hx'
            cases hy.symm.trans hy'
            obtain ⟨bytes, encoded⟩ := (fitsConditional fits).2.2.2
            rw [finish place placed, far] at encoded
            cases encoded
          · rw [ran₃]
            refine ⟨_, s₂, Lower.conditionalSome.mpr ⟨l₁, s₁, l₂, hx, hy, rfl⟩, ⟨start₂.table, start₂.slot⟩,
              enclosing₂.trans arm.enclosing, trivial, fun place placed => ?_⟩
            obtain ⟨here, inSecond, -⟩ := arm.second place l₂.code placed
            obtain ⟨grown, rfl⟩ := arm.grown place l₂.code placed
            rw [Lowered.appendAssoc] at grown
            have arms := (grown.patch ⟨[], []⟩ near₁).append (grown₂ place inSecond)
            rw [← Lowered.appendAssoc] at arms
            exact extendsConditional (arms.patch _ near₂) here (finish place placed)

theorem andThenTwice {last : Emission → Prop} {x'' : Compile Unit} {y'' : Lower} (first : Refines ready x y middle)
    (second : Refines middle x' y' after) (third : Refines after x'' y'' last) :
    Refines ready (x >>= fun _ => x' >>= fun _ => x'') ((y.andThen y').andThen y'') last := by
  have h := (first.andThen second).andThen third
  rwa [bind_assoc] at h

end Refines

/- What the compiler does at the end of a block. -/
def Ending.finish : Ending → Node → Compile Unit
  | .arm => Compile.finishBranch
  | .body => Compile.finishBody

namespace Refines
variable {ready : Emission → Prop}

theorem finishNothing (ending : Ending) (node : Node) :
    Refines closed (ending.finish node) (.emit ending.nothing) always := by
  cases ending with
  | arm =>
      refine congr (fun c isClosed => ?_) ((emit node .pushNull []).loosen)
      simp [Ending.finish, Compile.finishBranch, isClosed.1]
  | body =>
      refine congr (fun c isClosed => ?_) ((emit node .returnNothing []).loosen)
      simp [Ending.finish, Compile.finishBody, isClosed.1, isClosed.2]

theorem finishReturned (ending : Ending) (node : Node) :
    Refines (justEmitted .returnValue) (ending.finish node) (.emit ending.returned) always := by
  cases ending with
  | arm =>
      refine congr (fun c returned => ?_) ((emit node .pushNull []).loosen)
      obtain ⟨position, last⟩ := returned
      simp [Ending.finish, Compile.finishBranch, Emission.lastIs, last]
  | body =>
      refine congr (fun c returned => ?_) (nothing.loosen)
      obtain ⟨position, last⟩ := returned
      simp [Ending.finish, Compile.finishBody, Emission.lastIs, last]
      rfl

/- The pop after the last value is taken back or becomes a return. -/
theorem finishValue (ending : Ending) (node node' : Node) :
    Refines ready (Compile.emit node' .pop [] >>= fun _ => ending.finish node) (.emit ending.value) always := by
  intro c s start _
  have popped : Compile.emit node' .pop [] c = .ok () { c with current := c.current.append .pop [1] } := rfl
  rw [Compile.bindOk popped]
  cases ending with
  | arm =>
      refine ⟨⟨[], []⟩, s, rfl, ⟨start.table, start.slot⟩, rfl, trivial,
        fun place _ => ⟨⟨[], rfl, ?_⟩, [], rfl, by simp⟩⟩
      rw [Emission.dropLastCode _ ⟨.pop, c.current.position⟩ rfl, Emission.appendCode]
      simp [Emission.position]
  | body =>
      refine ⟨⟨[.op .returnValue []], []⟩, s, rfl, ⟨start.table, start.slot⟩, rfl, trivial,
        fun place _ => ⟨⟨[27], rfl, ?_⟩, [], rfl, (List.append_nil _).symm⟩⟩
      have code : (c.current.code ++ ([1] : Bytes)).toList = c.current.code.toList ++ [1] ++ [] := by simp
      have returned := overwriteMiddle code (show [Opcode.returnValue.byte].length = [1].length from rfl)
      rw [List.append_nil] at returned
      exact returned

theorem makeClosure (node : Node) {inner : Emission} {code : List Symbolic} (own : SymbolTable) (parameters : Nat)
    (assembled : Symbolic.assemble code = .ok inner.code) :
    Refines always (Compile.makeClosure node inner own parameters)
      ((Lower.emit (own.captured.map fun symbol => .plain symbol.load)).andThen
        (.refer .closure (.function code own.definitions parameters) [own.captured.length])) always := by
  have constant : (Constant.function code own.definitions parameters).assemble =
      .ok (.compiled ⟨inner.code, own.definitions, parameters⟩) := by
    simp [Constant.assemble, assembled, Bind.bind, Except.bind]
  exact (loadSymbols node own.captured).andThen ((refer node .closure _ constant).loosen)

/- The function's stream starts at offset zero, wherever the surrounding stream has come to. -/
theorem function (node : Node) (name : Option String) (parameters : List Binder) {body : Compile Unit} {y : Lower}
    (inside : Refines closed body y always)
    (nodup : ∀ s l s', y s = some (l, s') → (Symbolic.marks l.code).Nodup) :
    Refines ready (Compile.function node name parameters body) (.function name (parameters.map (·.name)) y) always := by
  intro c s start _
  have table : (c.enterFunction name parameters).table = s.table.forFunction name (parameters.map (·.name)) := by
    rw [← start.table]
    cases name <;> simp only [Compiler.enterFunction, SymbolTable.forFunction, List.foldl_map]
  have one :=
    inside (c.enterFunction name parameters) { s with table := s.table.forFunction name (parameters.map (·.name)) }
    ⟨table, start.slot⟩ ⟨rfl, rfl⟩
  have placedInside : ∀ inner s₁,
      y { s with table := s.table.forFunction name (parameters.map (·.name)) } = some (inner, s₁) →
      Placed advance (Symbolic.offset inner.code) (c.enterFunction name parameters).current.position inner.code :=
    fun inner s₁ run => Symbolic.placedSelf (nodup _ _ _ run) _
  unfold Compile.function
  cases ran : body (c.enterFunction name parameters) with
  | error e c₁ =>
      simp only [ran] at one
      intro l s' h place placed fits
      obtain ⟨inner, s₁, outer, own, hx, left, rfl, rfl⟩ := Lower.functionSome.mp h
      obtain ⟨objects, constants⟩ := fits.constants
      obtain ⟨first, last, inPool, assembled, -⟩ := Constant.assembleAllAppend.mp constants
      obtain ⟨object, assembled, -⟩ := Constant.assembleAllOne.mp assembled
      obtain ⟨stream, assembled, -⟩ := Constant.assembleFunction.mp assembled
      exact one inner s₁ hx _ (placedInside inner s₁ hx) ⟨⟨_, Symbolic.assembleOk.mp assembled⟩, ⟨first, inPool⟩⟩
  | ok u c₁ =>
      simp only [ran] at one
      obtain ⟨inner, s₁, hx, start₁, enclosing₁, -, grown₁⟩ := one
      obtain ⟨⟨bytes, encoded, code⟩, ⟨objects, inPool, pool⟩⟩ := grown₁ _ (placedInside inner s₁ hx)
      have assembled : Symbolic.assemble inner.code = .ok c₁.current.code := by
        rw [Symbolic.assembleOk, encoded, code]
        rfl
      obtain ⟨outer, own, left⟩ : ∃ outer own, s₁.table.takeOuter = (outer, own) := ⟨_, _, rfl⟩
      have leaves : c₁.leaveFunction = ((c₁.current, own),
          { c₁ with table := outer.getD .empty, current := c.current, enclosing := c.enclosing }) := by
        unfold Compiler.leaveFunction
        rw [enclosing₁, start₁.table, left]
        rfl
      simp only [leaves]
      have two := makeClosure node own parameters.length assembled
        { c₁ with table := outer.getD .empty, current := c.current, enclosing := c.enclosing }
        { s₁ with table := outer.getD .empty } ⟨rfl, start₁.slot⟩ trivial
      have lowered := @Lower.functionSome name (parameters.map (·.name)) y s
      cases ran₂ : Compile.makeClosure node c₁.current own parameters.length
          { c₁ with table := outer.getD .empty, current := c.current, enclosing := c.enclosing } with
      | error e c₂ =>
          simp only [ran₂] at two
          intro l s' h place placed fits
          obtain ⟨inner', s₁', outer', own', hx', left', rfl, rfl⟩ := lowered.mp h
          cases hx.symm.trans hx'
          cases left.symm.trans left'
          obtain ⟨objects', constants⟩ := fits.constants
          obtain ⟨-, last, -, closed, -⟩ := Constant.assembleAllAppend.mp constants
          rw [List.length_map] at closed
          exact two _ _ rfl place placed ⟨fits.code, last, closed⟩
      | ok u c₂ =>
          simp only [ran₂] at two
          obtain ⟨l₂, s₂, run₂, start₂, enclosing₂, -, grown₂⟩ := two
          cases run₂
          refine ⟨_, _, lowered.mpr ⟨inner, s₁, outer, own, hx, left, rfl, rfl⟩, start₂, enclosing₂, trivial,
            fun place placed => ?_⟩
          obtain ⟨code₂, ⟨last, closed, pool₂⟩⟩ := grown₂ place placed
          rw [List.length_map]
          exact ⟨code₂, objects ++ last, Constant.assembleAllAppend.mpr ⟨objects, last, inPool, closed, rfl⟩, by
            rw [pool₂, pool, List.append_assoc]; rfl⟩

end Refines
theorem bodyLabels (body : List Stmt) (s : Lowering) (l : Lowered) (s' : Lowering)
    (h : lowerEnding .body body s = some (l, s')) : (Symbolic.marks l.code).Nodup :=
  (fragmentLabels (endingBuilds .body body h 0)).2.1

open Refines

mutual

theorem Expr.refines {ready : Emission → Prop} : (e : Expr) → Refines ready (Compile.expr e) e.lower always
  | .name name span => by
      unfold Compile.expr Expr.lower
      exact load _ name span
  | .integer value span => by
      unfold Compile.expr Expr.lower
      exact (refer _ .constant [] rfl).loosen
  | .string value span => by
      unfold Compile.expr Expr.lower
      exact (refer _ .constant [] rfl).loosen
  | .boolean value span => by
      unfold Compile.expr Expr.lower
      exact (emit _ _ []).loosen
  | .unary op operand span => by
      unfold Compile.expr Expr.lower
      exact operand.refines.andThen (emit _ _ []).loosen
  | .binary op left right span => by
      unfold Compile.expr Expr.lower
      exact left.refines.andThenTwice right.refines (emit _ _ []).loosen
  | .conditional condition ⟨consequence, place⟩ alternative span => by
      unfold Compile.expr Expr.lower Compile.block
      refine condition.refines.andThen ?_
      have arms (node : Node) : Refines always _ _ always :=
        conditional node ((endingRefines .arm node consequence).weaken (fun _ h _ => h) fun _ h => h)
          (alternativeRefines node alternative)
      simp only [bind_assoc] at arms
      exact arms _
  | .function name parameters ⟨body, place⟩ span => by
      unfold Compile.expr Expr.lower Compile.block
      exact function _ name parameters ((endingRefines .body _ body).weaken (fun _ h _ => h) fun _ h => h) (bodyLabels body)
  | .call callee arguments span => by
      unfold Compile.expr Expr.lower
      exact callee.refines.andThenTwice (exprsRefine arguments) (emit _ _ _).loosen
  | .array elements span => by
      unfold Compile.expr Expr.lower
      exact (exprsRefine elements).andThen (emit _ _ _).loosen
  | .hash pairs span => by
      unfold Compile.expr Expr.lower
      exact (pairsRefine pairs).andThen (emit _ _ _).loosen
  | .index collection position span => by
      unfold Compile.expr Expr.lower
      exact collection.refines.andThenTwice position.refines (emit _ _ []).loosen

theorem alternativeRefines (node : Node) : (alternative : Option Block) →
    Refines closed (Compile.otherwise node alternative) (lowerAlternative alternative) always
  | none => by
      unfold Compile.otherwise lowerAlternative
      exact (emit _ _ []).loosen
  | some ⟨statements, span⟩ => by
      unfold Compile.otherwise lowerAlternative Compile.block
      exact (endingRefines .arm node statements).weaken (fun _ h _ => h) fun _ h => h

theorem exprsRefine {ready : Emission → Prop} : (es : List Expr) →
    Refines ready (Compile.exprs es) (lowerExprs es) always
  | [] => by
      unfold Compile.exprs lowerExprs
      exact nothing.loosen
  | e :: rest => by
      unfold Compile.exprs lowerExprs
      exact e.refines.andThen (exprsRefine rest)

theorem pairsRefine {ready : Emission → Prop} : (pairs : List (Expr × Expr)) →
    Refines ready (Compile.keysAndValues pairs) (lowerPairs pairs) always
  | [] => by
      unfold Compile.keysAndValues lowerPairs
      exact nothing.loosen
  | (key, value) :: rest => by
      unfold Compile.keysAndValues lowerPairs
      exact key.refines.andThenTwice value.refines (pairsRefine rest)

theorem Stmt.refines {ready : Emission → Prop} : (s : Stmt) → Refines ready (Compile.stmt s) s.lower always
  | .binding target value span => by
      unfold Compile.stmt Stmt.lower
      exact value.refines.andThen (binding _ target.name).loosen
  | .returning value span => by
      unfold Compile.stmt Stmt.lower
      exact value.refines.andThen (emit _ _ []).loosen
  | .expression value span => by
      unfold Compile.stmt Stmt.lower
      exact value.refines.andThen (emit _ _ []).loosen

theorem Stmt.lastRefines (ending : Ending) (node : Node) {ready : Emission → Prop} : (s : Stmt) →
    Refines ready (Compile.stmt s >>= fun _ => ending.finish node) (s.lowerLast ending) always
  | .binding target value span => by
      unfold Compile.stmt Stmt.lowerLast
      refine (value.refines.andThen (binding _ target.name)).andThen ((finishNothing ending node).weaken ?_ fun _ h => h)
      rintro e (⟨position, last⟩ | ⟨position, last⟩) <;> simp [closed, Emission.lastIs, last]
  | .returning value span => by
      unfold Compile.stmt Stmt.lowerLast
      exact (value.refines.andThen (emit _ _ [])).andThen (finishReturned ending node)
  | .expression value span => by
      unfold Compile.stmt Stmt.lowerLast
      rw [bind_assoc]
      exact value.refines.andThen (finishValue ending node _)

theorem endingRefines (ending : Ending) (node : Node) : (statements : List Stmt) →
    Refines (fun e => statements = [] → closed e) (Compile.stmts statements >>= fun _ => ending.finish node)
      (lowerEnding ending statements) always
  | [] => by
      unfold Compile.stmts lowerEnding
      rw [pure_bind]
      exact (finishNothing ending node).weaken (fun _ h => h rfl) fun _ h => h
  | [last] => by
      unfold Compile.stmts lowerEnding Compile.stmts
      rw [bind_assoc]
      exact last.lastRefines ending node
  | s :: next :: rest => by
      unfold Compile.stmts lowerEnding
      rw [bind_assoc]
      exact s.refines.andThen ((endingRefines ending node (next :: rest)).weaken (fun _ _ => nofun) fun _ h => h)

end

theorem stmtsRefine {ready : Emission → Prop} : (statements : List Stmt) →
    Refines ready (Compile.stmts statements) (lowerStmts statements) always
  | [] => by
      unfold Compile.stmts lowerStmts
      exact nothing.loosen
  | s :: rest => by
      unfold Compile.stmts lowerStmts
      exact s.refines.andThen (stmtsRefine rest)

theorem startRefines (program : Program) : Refines always (Compile.stmts program) (lowerStmts program) always :=
  stmtsRefine program

theorem freshRepresents : Represents .fresh .start := ⟨rfl, rfl⟩

theorem lowered {program : Program} {b : Bytecode} (h : program.compile = .ok b) :
    ∃ l, program.lower = some l ∧ l.assemble = .ok b := by
  have outcome := startRefines program .fresh .start freshRepresents trivial
  unfold Program.compile Compiler.compile Compile.node at h
  cases ran : Compile.stmts program .fresh with
  | error e c =>
      simp only [ran] at h
      cases h
  | ok u c =>
      simp only [ran] at h outcome
      cases h
      obtain ⟨l, s, lower, -, -, -, grown⟩ := outcome
      have lower : program.lower = some l := by
        unfold Program.lower
        rw [lower]
        rfl
      obtain ⟨⟨bytes, encoded, code⟩, ⟨objects, assembled, constants⟩⟩ :=
        grown _ (Symbolic.placedSelf (Program.wellLabelled lower).1.once 0)
      refine ⟨l, lower, Lowered.assembleOk.mpr ⟨Symbolic.assembleOk.mpr ?_, ?_⟩⟩
      · rw [show c.bytecode.code.toList = bytes from code]
        exact encoded
      · rw [show c.bytecode.constants.toList = objects from constants]
        exact assembled

theorem notLowered {program : Program} {e : CompileError} (h : program.compile = .error e) {l : Lowered}
    (lower : program.lower = some l) (b : Bytecode) : l.assemble ≠ .ok b := by
  have outcome := startRefines program .fresh .start freshRepresents trivial
  unfold Program.compile Compiler.compile Compile.node at h
  cases ran : Compile.stmts program .fresh with
  | ok u c =>
      simp only [ran] at h
      cases h
  | error e' c =>
      simp only [ran] at outcome
      intro assembled
      obtain ⟨code, constants⟩ := Lowered.assembleOk.mp assembled
      have placed : Placed advance (Symbolic.offset l.code) 0 l.code :=
        Symbolic.placedSelf (Program.wellLabelled lower).1.once 0
      unfold Program.lower at lower
      obtain ⟨⟨_, s⟩, run, rfl⟩ := Option.map_eq_some_iff.mp lower
      exact outcome _ s run _ placed ⟨⟨_, Symbolic.assembleOk.mp code⟩, ⟨_, constants⟩⟩

/- Compiling succeeds if and only if every name is bound and every operand and offset fits,
and then yields the assembled lowering. -/
theorem compileAssemblesLowering (program : Program) :
    program.compile.toOption = program.lower.bind (fun l => l.assemble.toOption) ∧
      ∀ l, program.lower = some l → l.WellLabelled := by
  refine ⟨?_, fun l lower => Program.wellLabelled lower⟩
  cases compiled : program.compile with
  | ok b =>
      obtain ⟨l, lower, assembled⟩ := lowered compiled
      simp [lower, assembled, Except.toOption]
  | error e =>
      cases lower : program.lower with
      | none => rfl
      | some l =>
          have failed := notLowered compiled lower
          cases assembled : l.assemble with
          | ok b => exact absurd assembled (failed b)
          | error cause => simp [assembled, Except.toOption]

/- `let f = fn f(a) { fn(b) { if (b) { return a }; f(b) } }; f(1)`: the inner function reaches
for names of the outer one, and returns from an arm. -/
def Program.nested : Program :=
  let use := fun name => Expr.name name .unknown
  let call := fun callee argument => Expr.call (use callee) [argument] .unknown
  let arm := Block.mk [.returning (use "a") .unknown] .unknown
  let inner := Block.mk [.expression (.conditional (use "b") arm none .unknown) .unknown,
    .expression (call "f" (use "b")) .unknown] .unknown
  let outer := Block.mk [.expression (.function none [⟨"b", .unknown⟩] inner .unknown) .unknown] .unknown
  [.binding ⟨"f", .unknown⟩ (.function (some "f") [⟨"a", .unknown⟩] outer .unknown) .unknown,
    .expression (call "f" (.integer 1 .unknown)) .unknown]

theorem Program.compiles {program : Program} (succeeds : program.compile.isOk) : ∃ b, program.compile = .ok b := by
  cases compiled : program.compile with
  | ok b => exact ⟨b, rfl⟩
  | error e =>
      rw [compiled] at succeeds
      cases succeeds

theorem nestedCompiles : ∃ b, Program.nested.compile = .ok b := Program.compiles (by decide +kernel)

end ClosureCode
