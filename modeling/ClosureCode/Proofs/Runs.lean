import ClosureCode.Proofs.Refinement
import ClosureCode.Proofs.TopLevelLets

/-! What a run of the compiler leaves, whether it succeeds or fails anywhere. The stream has grown
by whole instructions and the pool by constants, of which the functions are well made; the surrounding
functions are as before; and of the names only those of the `let`s that were reached are new. -/
namespace ClosureCode
open Compile (noLets followed)
open Refines (closed justEmitted)

/- The code was assembled from the code of a function. -/
def CompiledFunction.WellMade (f : CompiledFunction) : Prop := ∃ code, Body code ∧ Symbolic.assemble code = .ok f.code

/- What comes behind `before` are whole instructions. -/
def Lengthens (before after : Bytes) : Prop :=
  ∃ is more, Instruction.encodeAll is = .ok more ∧ after = before ++ more

namespace Lengthens
variable {a b c : Bytes}

theorem refl (a : Bytes) : Lengthens a a := ⟨[], [], rfl, by simp⟩

theorem trans (first : Lengthens a b) (second : Lengthens b c) : Lengthens a c := by
  obtain ⟨is, x, hx, rfl⟩ := first
  obtain ⟨js, y, hy, rfl⟩ := second
  exact ⟨is ++ js, x ++ y, Instruction.encodeAllAppend.mpr ⟨x, y, hx, hy, rfl⟩, by simp⟩

theorem one {op : Opcode} {operands : List Nat} {bytes : Bytes} (encoded : Instruction.encode op operands = .ok bytes) :
    Lengthens a (a ++ bytes) :=
  ⟨[⟨op, operands⟩], bytes, Instruction.encodeAllOne.mpr encoded, rfl⟩

theorem behind {rest : Bytes} (h : Lengthens [] rest) : Lengthens a (a ++ rest) := by
  obtain ⟨is, more, encoded, same⟩ := h
  exact ⟨is, more, encoded, by rw [same, List.nil_append]⟩

end Lengthens

/- A jump that was emitted at `start`, behind what `base` was lengthened to, waits for its target. -/
def Waits (base : Bytes) (op : Opcode) (start : Nat) (code : Code) : Prop :=
  ∃ before jump after old, code.toList = before ++ jump ++ after ∧ before.length = start ∧ Lengthens base before ∧
    Instruction.encode op [old] = .ok jump ∧ Lengthens [] after

namespace Waits
variable {base : Bytes} {op : Opcode} {start : Nat} {code code' : Code}

theorem lengthens (h : Waits base op start code) : Lengthens base code.toList := by
  obtain ⟨before, jump, after, old, same, -, grown, encoded, rest⟩ := h
  rw [same]
  exact (grown.trans (.one encoded)).trans (.behind rest)

theorem further (h : Waits base op start code) (grown : Lengthens code.toList code'.toList) :
    Waits base op start code' := by
  obtain ⟨before, jump, after, old, same, length, head, encoded, rest⟩ := h
  obtain ⟨js, more, hm, longer⟩ := grown
  refine ⟨before, jump, after ++ more, old, by simp [longer, same], length, head, encoded, ?_⟩
  exact rest.trans ⟨js, more, hm, rfl⟩

/- With its target the jump is an instruction like others. -/
theorem patched (h : Waits base op start code) {new : Nat} {bytes : Bytes}
    (encoded : Instruction.encode op [new] = .ok bytes) : Lengthens base (overwrite code start bytes).toList := by
  obtain ⟨before, jump, after, old, same, rfl, head, encoded', rest⟩ := h
  have size : bytes.length = jump.length := by
    rw [Instruction.encodeLength encoded, Instruction.encodeLength encoded']
  rw [overwriteMiddle same size]
  exact (head.trans (.one encoded)).trans (.behind rest)

/- A jump that waits behind it still waits. -/
theorem patchEarlier (h : Waits base op start code) {op' : Opcode} {start' : Nat}
    (h' : Waits code.toList op' start' code') {new : Nat} {bytes : Bytes} (encoded : Instruction.encode op [new] = .ok bytes) :
    Waits base op' start' (overwrite code' start bytes) := by
  obtain ⟨before, jump, after, old, same, rfl, head, encoded₁, rest⟩ := h
  obtain ⟨_, jump', after', old', same', rfl, ⟨js, more, hm, rfl⟩, encoded₂, rest'⟩ := h'
  have size : bytes.length = jump.length := by
    rw [Instruction.encodeLength encoded, Instruction.encodeLength encoded₁]
  have split : code'.toList = before ++ jump ++ (after ++ more ++ jump' ++ after') := by simp [same', same]
  refine ⟨before ++ bytes ++ after ++ more, jump', after', old', ?_, by simp [same, size], ?_, encoded₂, rest'⟩
  · rw [overwriteMiddle split size]
    simp
  · exact ((head.trans (.one encoded)).trans (.behind rest)).trans ⟨js, more, hm, rfl⟩

end Waits

/- Of the pool, only the end is new. -/
def PoolGrows (before after : Array Object) : Prop :=
  ∃ new, after.toList = before.toList ++ new ∧ ∀ f, .compiled f ∈ new → f.WellMade

theorem PoolGrows.refl (pool : Array Object) : PoolGrows pool pool := ⟨[], by simp, fun f member => (by cases member)⟩

theorem PoolGrows.trans {a b c : Array Object} (first : PoolGrows a b) (second : PoolGrows b c) : PoolGrows a c := by
  obtain ⟨x, hx, soundX⟩ := first
  obtain ⟨y, hy, soundY⟩ := second
  exact ⟨x ++ y, by simp [hy, hx], fun f member => (List.mem_append.mp member).elim (soundX f) (soundY f)⟩

/- What has become of everything but the stream. -/
structure Framed (c c' : Compiler) (lets : List Symbol) : Prop where
  enclosing : c'.enclosing = c.enclosing
  pool : PoolGrows c.constants c'.constants
  table : TableKept c.table c'.table lets

structure Leaves (c c' : Compiler) (lets : List Symbol) : Prop extends Framed c c' lets where
  code : Lengthens c.current.code.toList c'.current.code.toList

section Leaving
variable {c c' c'' : Compiler} {first second : List Symbol}

theorem Framed.stream (c : Compiler) (e : Emission) : Framed c { c with current := e } [] :=
  ⟨rfl, .refl _, .refl _⟩

theorem Framed.trans (h : Framed c c' first) (h' : Framed c' c'' second) : Framed c c'' (first ++ second) :=
  ⟨h'.enclosing.trans h.enclosing, h.pool.trans h'.pool, h.table.trans h'.table⟩

theorem Leaves.refl (c : Compiler) : Leaves c c [] := ⟨.stream c c.current, .refl _⟩

theorem Leaves.trans (h : Leaves c c' first) (h' : Leaves c' c'' second) : Leaves c c'' (first ++ second) :=
  ⟨h.toFramed.trans h'.toFramed, h.code.trans h'.code⟩

end Leaving

/- Started with an emission that is `ready`, every run leaves what it should, and a successful one
an emission `after`. -/
def Keeps {α : Type} (ready : Emission → Prop) (x : Compile α) (lets : Compiler → List Symbol)
    (after : Emission → Prop) : Prop :=
  ∀ c, ready c.current →
    match x c with
    | .ok _ c' => Leaves c c' (lets c) ∧ after c'.current
    | .error _ c' => Leaves c c' (lets c)

namespace Keeps
variable {α β : Type} {ready middle after : Emission → Prop} {first second : Compiler → List Symbol}

theorem weaken {x : Compile α} {ready' after' : Emission → Prop} (h : Keeps ready x first after)
    (before : ∀ e, ready' e → ready e) (next : ∀ e, after e → after' e) : Keeps ready' x first after' := by
  intro c isReady
  have := h c (before _ isReady)
  split at this
  · exact ⟨this.1, next _ this.2⟩
  · exact this

theorem under {x : Compile α} {ready' : Emission → Prop} (h : Keeps ready x first after)
    (before : ∀ e, ready' e → ready e) : Keeps ready' x first after := h.weaken before fun _ h => h

theorem loosen {x : Compile α} (h : Keeps ready x first after) : Keeps ready x first always :=
  h.weaken (fun _ h => h) fun _ _ => trivial

theorem followedBy {x : Compile α} {f : α → Compile β} (h : Keeps ready x first middle)
    (next : ∀ a, Keeps middle (f a) second after) : Keeps ready (x >>= f) (followed x first second) after := by
  intro c isReady
  have one := h c isReady
  cases ran : x c with
  | error e c₁ =>
      rw [Compile.bindError ran]
      simp only [ran] at one
      simpa [followed, ran] using one
  | ok a c₁ =>
      rw [Compile.bindOk ran]
      simp only [ran] at one
      have two := next a c₁ one.2
      simp only [followed, ran]
      split at two
      · exact ⟨one.1.trans two.1, two.2⟩
      · exact one.1.trans two

theorem followedNone (x : Compile α) (lets : Compiler → List Symbol) : followed x lets noLets = lets := by
  funext c
  unfold followed
  split <;> simp [noLets]

theorem andThen {x : Compile α} {f : α → Compile β} (h : Keeps ready x first middle)
    (next : ∀ a, Keeps middle (f a) noLets after) : Keeps ready (x >>= f) first after := by
  have both := h.followedBy next
  rwa [followedNone] at both

theorem nothing : Keeps ready (pure ()) noLets ready := fun c isReady => ⟨.refl c, isReady⟩

theorem emit (node : Node) (op : Opcode) (operands : List Nat) :
    Keeps ready (Compile.emit node op operands) noLets (justEmitted op) := by
  intro c _
  unfold Compile.emit
  cases encoded : Instruction.encode op operands with
  | ok bytes =>
      refine ⟨⟨.stream c _, ?_⟩, _, rfl⟩
      rw [Emission.appendCode]
      exact .one encoded
  | error e => exact .refl c

theorem addConstant {value : Object} (sound : ∀ f, value = .compiled f → f.WellMade) :
    Keeps ready (Compile.addConstant value) noLets always := by
  intro c _
  refine ⟨⟨⟨rfl, ⟨[value], by simp, fun f member => ?_⟩, .refl _⟩, .refl _⟩, trivial⟩
  exact sound f (List.mem_singleton.mp member).symm

theorem literal (node : Node) {value : Object} (literal : ∀ f, value ≠ .compiled f) :
    Keeps ready (Compile.addConstant value >>= fun slot => Compile.emit node .constant [slot]) noLets always :=
  (addConstant fun f same => absurd same (literal f)).andThen fun _ => (emit node _ _).loosen

theorem loadSymbol (node : Node) (symbol : Symbol) : Keeps ready (Compile.loadSymbol node symbol) noLets always := by
  unfold Compile.loadSymbol
  cases symbol.storage <;> exact (emit node _ _).loosen

theorem loadSymbols (node : Node) : (symbols : List Symbol) →
    Keeps always (Compile.loadSymbols node symbols) noLets always
  | [] => nothing
  | symbol :: rest => (loadSymbol node symbol).andThen fun _ => loadSymbols node rest

theorem load (node : Node) (name : String) (span : Span) :
    Keeps ready
      (Compile.resolve name >>= fun
        | none => throw (.undefinedVariable name span)
        | some symbol => Compile.loadSymbol node symbol)
      noLets always := by
  have found : Keeps ready (Compile.resolve name) noLets always :=
    fun c _ => ⟨⟨⟨rfl, .refl _, .resolve c.table name⟩, .refl _⟩, trivial⟩
  refine found.andThen fun symbol => ?_
  cases symbol with
  | none => exact fun c _ => .refl c
  | some symbol => exact loadSymbol node symbol

theorem binding (node : Node) (name : String) :
    Keeps ready
      (Compile.define name >>= fun symbol =>
        Compile.emit node (if symbol.storage = .global then .setGlobal else .setLocal) [symbol.index])
      (fun c => [(c.table.define name).1]) fun e => justEmitted .setGlobal e ∨ justEmitted .setLocal e := by
  have defined : Keeps ready (Compile.define name) (fun c => [(c.table.define name).1]) always :=
    fun c _ => ⟨⟨⟨rfl, .refl _, .define c.table name⟩, .refl _⟩, trivial⟩
  refine defined.andThen fun symbol => (emit node _ _).weaken (fun _ h => h) fun e done => ?_
  split at done
  · exact .inl done
  · exact .inr done

/- A jump that was just emitted is the one that waits, and no block takes it back. -/
theorem emitJumpLeaves (node : Node) {op : Opcode} (c : Compiler) (jump : op = .jump ∨ op = .jumpUnlessTruthy) :
    ∃ c', Compile.emitJump node op c = .ok c.current.position c' ∧ Framed c c' [] ∧ closed c'.current ∧
      Waits c.current.code.toList op c.current.position c'.current.code := by
  obtain ⟨c', run, start, enclosing, isClosed, -, grown⟩ :=
    Refines.emitJumpStep node c ⟨c.table, c.constants.size, 0⟩ ⟨rfl, rfl⟩ jump
  obtain ⟨⟨bytes, encoded, code⟩, ⟨objects, none, pool⟩⟩ := grown fun _ => 0
  cases none
  have framed : Framed c c' [] :=
    ⟨enclosing, ⟨[], pool, fun f member => (by cases member)⟩, by rw [start.table]; exact .refl _⟩
  refine ⟨c', run, framed, isClosed, c.current.code.toList, bytes, [], jumpPlaceholder, by simp [code],
    Array.length_toList, .refl _, Instruction.encodeAllOne.mp encoded, .refl _⟩

/- After the first arm only the jump behind it waits, unless the run failed before. -/
theorem firstArmLeaves (node : Node) {arm : Compile Unit} {lets : Compiler → List Symbol}
    (inside : Keeps closed arm lets after) (c : Compiler) :
    match Compile.firstArm node arm c with
    | .ok toEnd c' => Framed c c' (followed (Compile.emitJump node .jumpUnlessTruthy) noLets lets c) ∧ closed c'.current ∧
        Waits c.current.code.toList .jump toEnd c'.current.code
    | .error _ c' => Leaves c c' (followed (Compile.emitJump node .jumpUnlessTruthy) noLets lets c) := by
  obtain ⟨c₁, run₁, framed₁, closed₁, waits₁⟩ := emitJumpLeaves node c (.inr rfl)
  have one := inside c₁ closed₁
  simp only [Compile.firstArm, Compile.bindOk run₁, followed, run₁, noLets, List.nil_append]
  cases ran : arm c₁ with
  | error e c₂ =>
      simp only [ran] at one
      simp only [Compile.bindError ran]
      exact ⟨framed₁.trans one.toFramed, (waits₁.further one.code).lengthens⟩
  | ok u c₂ =>
      simp only [ran] at one
      obtain ⟨c₃, run₃, framed₃, closed₃, waits₃⟩ := emitJumpLeaves node c₂ (.inl rfl)
      have framed : Framed c c₃ (lets c₁) := by simpa using (framed₁.trans one.1.toFramed).trans framed₃
      have waits := waits₁.further one.1.code
      -- Both jumps wait now: the first is patched in the middle of what the second stands behind.
      simp only [Compile.bindOk ran, Compile.bindOk run₃]
      rcases Compile.patchRun node .jumpUnlessTruthy c.current.position c₃ with
        ⟨cause, -, failed⟩ | ⟨bytes, encoded, patched⟩
      · rw [Compile.bindError failed]
        exact ⟨framed, (waits.further waits₃.lengthens).lengthens⟩
      · rw [Compile.bindOk patched]
        exact ⟨⟨framed.enclosing, framed.pool, framed.table⟩, closed₃, waits.patchEarlier waits₃ encoded⟩

theorem conditional (node : Node) {arm other : Compile Unit} {lets lets' : Compiler → List Symbol}
    (inside : Keeps closed arm lets middle) (second : Keeps closed other lets' after) :
    Keeps ready (Compile.firstArm node arm >>= fun toEnd => other >>= fun _ => Compile.patchJump node .jump toEnd)
      (followed (Compile.firstArm node arm) (followed (Compile.emitJump node .jumpUnlessTruthy) noLets lets) lets')
      always := by
  intro c _
  have one := firstArmLeaves node inside c
  cases ran : Compile.firstArm node arm c with
  | error e c₁ =>
      rw [Compile.bindError ran]
      simp only [ran] at one
      simpa [followed, ran] using one
  | ok toEnd c₁ =>
      rw [Compile.bindOk ran]
      simp only [ran] at one
      obtain ⟨framed, closed₁, waits⟩ := one
      have two := second c₁ closed₁
      rw [followed, ran]
      cases ran₂ : other c₁ with
      | error e c₂ =>
          rw [Compile.bindError ran₂]
          simp only [ran₂] at two
          exact ⟨framed.trans two.toFramed, (waits.further two.code).lengthens⟩
      | ok u c₂ =>
          rw [Compile.bindOk ran₂]
          simp only [ran₂] at two
          have both := framed.trans two.1.toFramed
          have waits := waits.further two.1.code
          rcases Compile.patchRun node .jump toEnd c₂ with ⟨cause, -, failed⟩ | ⟨bytes, encoded, patched⟩
          · rw [failed]
            exact ⟨both, waits.lengthens⟩
          · rw [patched]
            exact ⟨⟨⟨both.enclosing, both.pool, both.table⟩, waits.patched encoded⟩, trivial⟩

/- Plain instructions that can be encoded: such a step never fails. -/
theorem plain {x : Compile Unit} {code : List Symbolic} (h : Refines ready x (.emit code) after)
    (encodes : ∃ is bytes, code = is.map .plain ∧ Instruction.encodeAll is = .ok bytes) : Keeps ready x noLets after := by
  obtain ⟨is, bytes, rfl, encoded⟩ := encodes
  have placed : ∀ a, Symbolic.Placed Symbolic.advance
      (fun label => Symbolic.placeOf Symbolic.advance label a (is.map .plain)) a (is.map .plain) :=
    Symbolic.placedSelf (labelsPlain 0 is).2.1
  intro c isReady
  have one := h c ⟨c.table, c.constants.size, 0⟩ ⟨rfl, rfl⟩ isReady
  cases ran : x c with
  | error e c' =>
      simp only [ran] at one
      refine absurd ⟨⟨bytes, ?_⟩, [], rfl⟩ (one _ _ rfl _ (placed _))
      rw [Symbolic.instructionsPlain]
      exact encoded
  | ok u c' =>
      simp only [ran] at one
      obtain ⟨l, s', same, start, enclosing, done, grown⟩ := one
      cases same
      obtain ⟨⟨bytes', encoded', code⟩, ⟨objects, none, pool⟩⟩ := grown _ (placed _)
      cases none
      rw [Symbolic.instructionsPlain] at encoded'
      have framed : Framed c c' [] :=
        ⟨enclosing, ⟨[], pool, fun f member => (by cases member)⟩, by rw [start.table]; exact .refl _⟩
      exact ⟨⟨framed, is, bytes', encoded', code⟩, done⟩

theorem finishNothing (ending : Ending) (node : Node) : Keeps closed (ending.finish node) noLets always := by
  refine plain (Refines.finishNothing ending node) ?_
  cases ending with
  | arm => exact ⟨[⟨.pushNull, []⟩], _, rfl, rfl⟩
  | body => exact ⟨[⟨.returnNothing, []⟩], _, rfl, rfl⟩

theorem finishReturned (ending : Ending) (node : Node) :
    Keeps (justEmitted .returnValue) (ending.finish node) noLets always := by
  refine plain (Refines.finishReturned ending node) ?_
  cases ending with
  | arm => exact ⟨[⟨.pushNull, []⟩], _, rfl, rfl⟩
  | body => exact ⟨[], _, rfl, rfl⟩

theorem finishValue (ending : Ending) (node node' : Node) :
    Keeps ready (Compile.emit node' .pop [] >>= fun _ => ending.finish node) noLets always := by
  refine plain (Refines.finishValue ending node node') ?_
  cases ending with
  | arm => exact ⟨[], _, rfl, rfl⟩
  | body => exact ⟨[⟨.returnValue, []⟩], _, rfl, rfl⟩

theorem makeClosure (node : Node) (inner : Emission) (own : SymbolTable) (parameters : Nat)
    (made : CompiledFunction.WellMade ⟨inner.code, own.definitions, parameters⟩) :
    Keeps always (Compile.makeClosure node inner own parameters) noLets always := by
  have stored : Keeps always (Compile.addConstant (.compiled ⟨inner.code, own.definitions, parameters⟩)) noLets always :=
    addConstant fun f same => by cases same; exact made
  exact (loadSymbols node own.captured).andThen fun _ => stored.andThen fun _ => (emit node _ _).loosen

/- A function that was begun is left, whatever happens in its body; what it defines is its own. -/
theorem function (node : Node) (name : Option String) (parameters : List Binder) {body : Compile Unit}
    {lets : Compiler → List Symbol} (inside : Keeps closed body lets always)
    (made : ∀ c c', c.current = .empty → body c = .ok () c' →
      ∃ code, Body code ∧ Symbolic.assemble code = .ok c'.current.code) :
    Keeps ready (Compile.function node name parameters body) noLets always := by
  intro c _
  -- The body's own stream is put away with its scope, so only the pool and outer captures are seen from here.
  have leaves : ∀ {c' : Compiler} {symbols : List Symbol}, Leaves (c.enterFunction name parameters) c' symbols →
      ∃ outer own, c'.leaveFunction = ((c'.current, own),
          { c' with table := outer, current := c.current, enclosing := c.enclosing }) ∧
        Leaves c { c' with table := outer, current := c.current, enclosing := c.enclosing } [] := by
    intro c' symbols left
    refine ⟨c'.table.takeOuter.1.getD .empty, c'.table.takeOuter.2, ?_, ⟨rfl, left.pool, ?_⟩, .refl _⟩
    · unfold Compiler.leaveFunction
      rw [left.enclosing]
      rfl
    · exact left.table.leave (TableKept.enterScopes c name parameters)
  have one := inside (c.enterFunction name parameters) ⟨rfl, rfl⟩
  unfold Compile.function
  cases ran : body (c.enterFunction name parameters) with
  | error e c₁ =>
      simp only [ran] at one
      obtain ⟨outer, own, left, kept⟩ := leaves one
      simp only [left]
      exact kept
  | ok u c₁ =>
      simp only [ran] at one
      obtain ⟨outer, own, left, kept⟩ := leaves one.1
      simp only [left]
      have closure := makeClosure node c₁.current own parameters.length (made _ c₁ rfl ran)
        { c₁ with table := outer, current := c.current, enclosing := c.enclosing } trivial
      split at closure
      · exact ⟨kept.trans closure.1, trivial⟩
      · exact kept.trans closure

end Keeps

/- The function that a body is compiled to is well made. -/
theorem bodyMade (node : Node) (body : List Stmt) (c c' : Compiler) (blank : c.current = .empty)
    (ran : (Compile.stmts body >>= fun _ => Compile.finishBody node) c = .ok () c') :
    ∃ code, Body code ∧ Symbolic.assemble code = .ok c'.current.code := by
  have one := endingRefines .body node body c ⟨c.table, c.constants.size, 0⟩ ⟨rfl, rfl⟩ fun _ => by
    rw [blank]
    exact ⟨rfl, rfl⟩
  rw [show Ending.body.finish = Compile.finishBody from rfl, ran] at one
  obtain ⟨l, s', lower, -, -, -, grown⟩ := one
  obtain ⟨⟨bytes, encoded, code⟩, -⟩ := grown (Symbolic.offset l.code) (by
    rw [blank]
    exact Symbolic.placedSelf (bodyLabels body _ _ _ lower) 0)
  refine ⟨l.code, ⟨⟨_, _, l, s', endingBuilds .body body lower 0, rfl⟩, bodyReturns body lower⟩, ?_⟩
  rw [Symbolic.assembleOk, encoded, code, blank]
  rfl

open Keeps

mutual

theorem Expr.keeps {ready : Emission → Prop} : (e : Expr) → Keeps ready (Compile.expr e) e.lets always
  | .name name span => by
      unfold Compile.expr Expr.lets
      exact load _ name span
  | .integer value span => by
      unfold Compile.expr Expr.lets
      exact literal _ fun f same => by cases same
  | .string value span => by
      unfold Compile.expr Expr.lets
      exact literal _ fun f same => by cases same
  | .boolean value span => by
      unfold Compile.expr Expr.lets
      exact (emit _ _ []).loosen
  | .unary op operand span => by
      unfold Compile.expr Expr.lets
      exact operand.keeps.andThen fun _ => (emit _ _ []).loosen
  | .binary op left right span => by
      unfold Compile.expr Expr.lets
      exact left.keeps.followedBy fun _ => right.keeps.andThen fun _ => (emit _ _ []).loosen
  | .conditional condition ⟨consequence, place⟩ alternative span => by
      unfold Compile.expr Expr.lets Compile.block Block.lets
      refine condition.keeps.followedBy fun _ => ?_
      have arms (node : Node) : Keeps always _ _ always :=
        conditional node ((endingKeeps .arm node consequence).under fun _ h _ => h)
          (alternativeKeeps node alternative)
      have whole := arms (.expression (.conditional condition ⟨consequence, place⟩ alternative span))
      simp only [Compile.firstArm, bind_assoc, pure_bind] at whole ⊢
      exact whole
  | .function name parameters ⟨body, place⟩ span => by
      unfold Compile.expr Expr.lets Compile.block
      exact function _ name parameters ((endingKeeps .body _ body).under fun _ h _ => h) (bodyMade _ body)
  | .call callee arguments span => by
      unfold Compile.expr Expr.lets
      exact callee.keeps.followedBy fun _ => (exprsKeep arguments).andThen fun _ => (emit _ _ _).loosen
  | .array elements span => by
      unfold Compile.expr Expr.lets
      exact (exprsKeep elements).andThen fun _ => (emit _ _ _).loosen
  | .hash pairs span => by
      unfold Compile.expr Expr.lets
      exact (pairsKeep pairs).andThen fun _ => (emit _ _ _).loosen
  | .index collection position span => by
      unfold Compile.expr Expr.lets
      exact collection.keeps.followedBy fun _ => position.keeps.andThen fun _ => (emit _ _ []).loosen

theorem alternativeKeeps (node : Node) : (alternative : Option Block) →
    Keeps closed (Compile.otherwise node alternative) (alternativeLets alternative) always
  | none => by
      unfold Compile.otherwise alternativeLets
      exact (emit _ _ []).loosen
  | some ⟨statements, span⟩ => by
      unfold Compile.otherwise alternativeLets Compile.block Block.lets
      exact (endingKeeps .arm node statements).under fun _ h _ => h

theorem exprsKeep {ready : Emission → Prop} : (es : List Expr) → Keeps ready (Compile.exprs es) (exprsLets es) always
  | [] => by
      unfold Compile.exprs exprsLets
      exact nothing.loosen
  | e :: rest => by
      unfold Compile.exprs exprsLets
      exact e.keeps.followedBy fun _ => exprsKeep rest

theorem pairsKeep {ready : Emission → Prop} : (pairs : List (Expr × Expr)) →
    Keeps ready (Compile.keysAndValues pairs) (pairsLets pairs) always
  | [] => by
      unfold Compile.keysAndValues pairsLets
      exact nothing.loosen
  | (key, value) :: rest => by
      unfold Compile.keysAndValues pairsLets
      exact key.keeps.followedBy fun _ => value.keeps.followedBy fun _ => pairsKeep rest

theorem Stmt.keeps {ready : Emission → Prop} : (s : Stmt) → Keeps ready (Compile.stmt s) s.lets always
  | .binding target value span => by
      unfold Compile.stmt Stmt.lets
      exact value.keeps.followedBy fun _ => (binding _ target.name).loosen
  | .returning value span => by
      unfold Compile.stmt Stmt.lets
      exact value.keeps.andThen fun _ => (emit _ _ []).loosen
  | .expression value span => by
      unfold Compile.stmt Stmt.lets
      exact value.keeps.andThen fun _ => (emit _ _ []).loosen

theorem Stmt.lastKeeps (ending : Ending) (node : Node) {ready : Emission → Prop} : (s : Stmt) →
    Keeps ready (Compile.stmt s >>= fun _ => ending.finish node) s.lets always
  | .binding target value span => by
      unfold Compile.stmt Stmt.lets
      refine (value.keeps.followedBy fun _ => binding _ target.name).andThen fun _ =>
        (finishNothing ending node).under ?_
      rintro e (⟨position, last⟩ | ⟨position, last⟩) <;> simp [closed, Emission.lastIs, last]
  | .returning value span => by
      unfold Compile.stmt Stmt.lets
      exact (value.keeps.andThen fun _ => emit _ _ []).andThen fun _ => finishReturned ending node
  | .expression value span => by
      unfold Compile.stmt Stmt.lets
      rw [bind_assoc]
      exact value.keeps.andThen fun _ => finishValue ending node _

theorem endingKeeps (ending : Ending) (node : Node) : (statements : List Stmt) →
    Keeps (fun e => statements = [] → closed e) (Compile.stmts statements >>= fun _ => ending.finish node)
      (stmtsLets statements) always
  | [] => by
      unfold Compile.stmts stmtsLets
      rw [pure_bind]
      exact (finishNothing ending node).under fun _ h => h rfl
  | [last] => by
      unfold Compile.stmts stmtsLets Compile.stmts stmtsLets
      rw [bind_assoc, followedNone]
      exact last.lastKeeps ending node
  | s :: next :: rest => by
      unfold Compile.stmts stmtsLets
      rw [bind_assoc]
      exact s.keeps.followedBy fun _ => (endingKeeps ending node (next :: rest)).under fun _ _ same => by cases same

end

theorem stmtsKeep {ready : Emission → Prop} : (statements : List Stmt) →
    Keeps ready (Compile.stmts statements) (stmtsLets statements) always
  | [] => by
      unfold Compile.stmts stmtsLets
      exact nothing.loosen
  | s :: rest => by
      unfold Compile.stmts stmtsLets
      exact s.keeps.followedBy fun _ => stmtsKeep rest

theorem Node.keeps : (node : Node) → Keeps always (Compile.node node) node.lets always
  | .program p => stmtsKeep p
  | .statement s => s.keeps
  | .block ⟨statements, _⟩ => by
      unfold Compile.node Compile.block Node.lets Block.lets
      exact stmtsKeep statements
  | .expression e => e.keeps

end ClosureCode
