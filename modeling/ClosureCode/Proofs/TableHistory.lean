import ClosureCode.Proofs.Refinement
import ClosureCode.Proofs.Scopes

/-! Symbol tables under every history of their operations, made in any order and on any of the tables
at hand: how each table of a chain files its names, and what its captures are in the table around it. -/
namespace ClosureCode

/- What can be done with a table that is at hand. -/
inductive TableAction where
  | enclose
  | takeOuter
  | clone
  | define (name : String)
  | defineBuiltin (index : Nat) (name : String)
  | defineFunctionName (name : String)
  | resolve (name : String)
  deriving DecidableEq, Repr

/- The tables in place of the one that was acted on. -/
def TableAction.leaves (table : SymbolTable) : TableAction → List SymbolTable
  | .enclose => [table.enclose]
  | .takeOuter => table.takeOuter.2 :: table.takeOuter.1.toList
  | .clone => [table, table]
  | .define name => [(table.define name).2]
  | .defineBuiltin index name => [(table.defineBuiltin index name).2]
  | .defineFunctionName name => [(table.defineFunctionName name).2]
  | .resolve name => [(table.resolve name).2]

inductive TableStep where
  | new
  | act (position : Nat) (action : TableAction)
  deriving DecidableEq, Repr

/- Where no table is, no action changes anything. -/
def TableStep.run (tables : List SymbolTable) : TableStep → List SymbolTable
  | .new => tables ++ [.empty]
  | .act position action =>
      tables.take position ++ tables[position]?.toList.flatMap (fun table => action.leaves table) ++
        tables.drop (position + 1)

def tablesAfter (history : List TableStep) : List SymbolTable := history.foldl TableStep.run []

/- The tables of a chain, the innermost first. -/
def chainFrom (scope : Scope) : List Scope → List SymbolTable
  | [] => [⟨scope, []⟩]
  | next :: rest => ⟨scope, next :: rest⟩ :: chainFrom next rest

def SymbolTable.chain (table : SymbolTable) : List SymbolTable := chainFrom table.inner table.outer

/- Globals and locals have slots of their scope. -/
def Storage.slotted : Storage → Bool
  | .global | .local => true
  | .builtin | .free | .function => false

/- How a scope files its names. -/
structure Scope.Filed (scope : Scope) : Prop where
  named : ∀ name symbol, scope.find? name = some symbol → symbol.name = name
  below : ∀ name symbol, scope.find? name = some symbol → symbol.storage.slotted → symbol.index < scope.definitions
  apart : ∀ name other symbol symbol', scope.find? name = some symbol → scope.find? other = some symbol' →
    symbol.storage.slotted → symbol'.storage.slotted → symbol.index = symbol'.index → name = other
  free : ∀ name symbol, scope.find? name = some symbol → symbol.storage = .free →
    ∃ σ, scope.captured.toList[symbol.index]? = some σ ∧ σ.name = name

/- What a scope has captured: each name once and never what can be reached from everywhere. The name is known
here since, so that it is not captured again. -/
structure Scope.Takes (scope : Scope) : Prop where
  distinct : (scope.captured.toList.map (·.name)).Nodup
  inside : ∀ σ ∈ scope.captured.toList, σ.storage.everywhere = false
  known : ∀ σ ∈ scope.captured.toList, ∃ symbol, scope.find? σ.name = some symbol

/- While there is a table around it, this still has every capture under its name. -/
structure SymbolTable.Consistent (table : SymbolTable) : Prop where
  filed : table.inner.Filed
  takes : table.inner.Takes
  current : ∀ next, table.outer.head? = some next → ∀ σ ∈ table.captured, next.find? σ.name = some σ

def SymbolTable.Sound (table : SymbolTable) : Prop := ∀ t ∈ table.chain, t.Consistent

namespace Scope
variable {scope scope' : Scope}

theorem emptyFiled : empty.Filed where
  named name symbol found := by simp [findEmpty] at found
  below name symbol found := by simp [findEmpty] at found
  apart name other symbol symbol' found := by simp [findEmpty] at found
  free name symbol found := by simp [findEmpty] at found

theorem emptyTakes : empty.Takes where
  distinct := .nil
  inside σ member := by cases member
  known σ member := by cases member

/- One name more, or again: a slot that it takes is new, and a capture that it stands for is there. -/
theorem Filed.file (h : scope.Filed) {symbol : Symbol}
    (files : ∀ name, scope'.find? name = if symbol.name = name then some symbol else scope.find? name)
    (count : scope.definitions ≤ scope'.definitions)
    (grows : scope.captured.toList <+: scope'.captured.toList)
    (slot : symbol.storage.slotted → scope.definitions ≤ symbol.index ∧ symbol.index < scope'.definitions)
    (free : symbol.storage = .free → ∃ σ, scope'.captured.toList[symbol.index]? = some σ ∧ σ.name = symbol.name) :
    scope'.Filed := by
  have either : ∀ {name found}, scope'.find? name = some found →
      (symbol.name = name ∧ symbol = found) ∨ (symbol.name ≠ name ∧ scope.find? name = some found) := by
    intro name found known
    rw [files] at known
    by_cases same : symbol.name = name
    · exact .inl ⟨same, by simpa [same] using known⟩
    · exact .inr ⟨same, by simpa [same] using known⟩
  refine ⟨?_, ?_, ?_, ?_⟩
  · intro name found known
    rcases either known with ⟨same, rfl⟩ | ⟨-, known⟩
    · exact same
    · exact h.named name found known
  · intro name found known slotted
    rcases either known with ⟨-, rfl⟩ | ⟨-, known⟩
    · exact (slot slotted).2
    · exact Nat.lt_of_lt_of_le (h.below name found known slotted) count
  · intro name other found found' known known' slotted slotted' same
    rcases either known with ⟨here, rfl⟩ | ⟨-, known⟩ <;> rcases either known' with ⟨here', rfl⟩ | ⟨-, known'⟩
    · exact here.symm.trans here'
    · have := (slot slotted).1
      have := h.below other found' known' slotted'
      omega
    · have := (slot slotted').1
      have := h.below name found known slotted
      omega
    · exact h.apart name other found found' known known' slotted slotted' same
  · intro name found known isFree
    rcases either known with ⟨rfl, rfl⟩ | ⟨-, known⟩
    · exact free isFree
    · obtain ⟨σ, at', named⟩ := h.free name found known isFree
      obtain ⟨more, grown⟩ := grows
      refine ⟨σ, ?_, named⟩
      rw [← grown, List.getElem?_append_left (List.getElem?_eq_some_iff.mp at').1, at']

theorem Takes.under (h : scope.Takes) (same : scope'.captured = scope.captured)
    (kept : ∀ name symbol, scope.find? name = some symbol → ∃ symbol', scope'.find? name = some symbol') :
    scope'.Takes := by
  refine ⟨by rw [same]; exact h.distinct, by rw [same]; exact h.inside, ?_⟩
  rw [same]
  intro σ member
  obtain ⟨symbol, known⟩ := h.known σ member
  exact kept σ.name symbol known

theorem Takes.capture (h : scope.Takes) {enclosing : Symbol} (inside : enclosing.storage.everywhere = false)
    (absent : scope.find? enclosing.name = none) : (scope.capture enclosing).2.Takes := by
  refine ⟨captureDistinct h.known h.distinct absent, ?_, captureKnown h.known⟩
  intro σ member
  rw [capturedCapture, List.mem_append, List.mem_singleton] at member
  rcases member with member | rfl
  · exact h.inside σ member
  · exact inside

theorem Filed.capture (h : scope.Filed) (enclosing : Symbol) : (scope.capture enclosing).2.Filed := by
  have grows := capturedCapture scope enclosing
  have files : ∀ name, (scope.capture enclosing).2.find? name =
      if (scope.capture enclosing).1.name = name then some (scope.capture enclosing).1 else scope.find? name :=
    findCapture scope enclosing
  refine h.file files (Nat.le_refl _) (grows ▸ List.prefix_append _ _) (fun slotted => by cases slotted) fun _ => ?_
  exact ⟨enclosing, by rw [grows]; simp [Scope.capture], rfl⟩

end Scope

namespace SymbolTable
variable {table table' : SymbolTable} {scope next : Scope} {rest : List Scope}

theorem soundAlone : Sound ⟨scope, []⟩ ↔ Consistent ⟨scope, []⟩ := by
  simp [Sound, chain, chainFrom]

theorem soundInside : Sound ⟨scope, next :: rest⟩ ↔ Consistent ⟨scope, next :: rest⟩ ∧ Sound ⟨next, rest⟩ := by
  simp [Sound, chain, chainFrom]

theorem Sound.own (h : table.Sound) : table.Consistent := by
  obtain ⟨scope, outer⟩ := table
  cases outer with
  | nil => exact soundAlone.mp h
  | cons next rest => exact (soundInside.mp h).1

/- The innermost scope may change as long as it stays consistent with those around it. -/
theorem Sound.renew (h : table.Sound) {inner : Scope} (own : Consistent ⟨inner, table.outer⟩) :
    Sound ⟨inner, table.outer⟩ := by
  obtain ⟨scope, outer⟩ := table
  cases outer with
  | nil => exact soundAlone.mpr own
  | cons next rest => exact soundInside.mpr ⟨own, (soundInside.mp h).2⟩

theorem emptySound : Sound .empty :=
  soundAlone.mpr ⟨Scope.emptyFiled, Scope.emptyTakes, fun next around => by cases around⟩

theorem Sound.enclose (h : table.Sound) : table.enclose.Sound :=
  soundInside.mpr ⟨⟨Scope.emptyFiled, Scope.emptyTakes, fun next around σ member => by cases member⟩, h⟩

/- A table that was left keeps its captures, but there is no table any more in which they are current. -/
theorem Sound.takeOuter (h : table.Sound) :
    table.takeOuter.2.Sound ∧ ∀ outer, table.takeOuter.1 = some outer → outer.Sound := by
  obtain ⟨scope, outer⟩ := table
  cases outer with
  | nil => exact ⟨h, fun outer left => by cases left⟩
  | cons next rest =>
      obtain ⟨own, around⟩ := soundInside.mp h
      refine ⟨soundAlone.mpr ⟨own.filed, own.takes, fun next around => by cases around⟩, fun outer left => ?_⟩
      cases left
      exact around

/- A name is given to something of this scope. -/
theorem Sound.file (h : table.Sound) {symbol : Symbol} {inner : Scope}
    (files : ∀ name, inner.find? name = if symbol.name = name then some symbol else table.inner.find? name)
    (same : inner.captured = table.inner.captured) (count : table.inner.definitions ≤ inner.definitions)
    (slot : symbol.storage.slotted → table.inner.definitions ≤ symbol.index ∧ symbol.index < inner.definitions)
    (bound : symbol.storage ≠ .free) : Sound ⟨inner, table.outer⟩ := by
  obtain ⟨filed, takes, current⟩ := h.own
  refine h.renew ⟨?_, takes.under same fun name known found => ?_, ?_⟩
  · exact filed.file files count (same.symm ▸ List.prefix_rfl) slot fun free => absurd free bound
  · rw [files]
    split
    · exact ⟨_, rfl⟩
    · exact ⟨known, found⟩
  · rw [captured, same]
    exact current

theorem Sound.define (h : table.Sound) (name : String) : (table.define name).2.Sound := by
  have files : ∀ other, (table.define name).2.inner.find? other =
      if (table.define name).1.name = other then some (table.define name).1 else table.inner.find? other :=
    Scope.findDefine table.inner _ name
  have bound : (table.define name).1.storage ≠ .free := by
    change (if table.isGlobal then Storage.global else Storage.local) ≠ .free
    split <;> decide
  exact h.file files rfl (Nat.le_succ _) (fun _ => ⟨Nat.le_refl _, Nat.lt_succ_self _⟩) bound

theorem Sound.defineBuiltin (h : table.Sound) (index : Nat) (name : String) :
    (table.defineBuiltin index name).2.Sound :=
  h.file (Scope.findPut table.inner ⟨name, .builtin, index⟩) rfl (Nat.le_refl _) (fun slotted => by cases slotted)
    (by simp)

theorem Sound.defineFunctionName (h : table.Sound) (name : String) : (table.defineFunctionName name).2.Sound :=
  h.file (Scope.findPut table.inner ⟨name, .function, 0⟩) rfl (Nat.le_refl _) (fun slotted => by cases slotted)
    (by simp)

/- What one look for a name does to a table. -/
structure Looked (name : String) (table : SymbolTable) (result : Option Symbol) (table' : SymbolTable) : Prop where
  sound : table'.Sound
  kept : ∀ other symbol, table.inner.find? other = some symbol → table'.inner.find? other = some symbol
  found : ∀ symbol, result = some symbol → symbol.storage.everywhere = false → table'.inner.find? name = some symbol

theorem Consistent.under (h : Consistent ⟨scope, next :: rest⟩) {name : String} {result : Option Symbol}
    (around : Looked name ⟨next, rest⟩ result table') : Consistent ⟨scope, table'.scopes⟩ := by
  refine ⟨h.filed, h.takes, fun next' at' σ member => ?_⟩
  cases at'
  exact around.kept _ _ (h.current next rfl σ member)

/- The scope takes in what the table around it found. -/
theorem Consistent.capture (h : Consistent ⟨scope, next :: rest⟩) {symbol : Symbol}
    (inside : symbol.storage.everywhere = false) (found : next.find? symbol.name = some symbol)
    (absent : scope.find? symbol.name = none) : Consistent ⟨(scope.capture symbol).2, next :: rest⟩ := by
  refine ⟨h.filed.capture symbol, h.takes.capture inside absent, fun next' around σ member => ?_⟩
  cases around
  rw [captured, Scope.capturedCapture, List.mem_append, List.mem_singleton] at member
  rcases member with member | rfl
  · exact h.current next rfl σ member
  · exact found

theorem Sound.looked {name : String} {scope scope' : Scope} {outer outer' : List Scope} {result : Option Symbol}
    (look : Resolves name scope outer result scope' outer') (h : Sound ⟨scope, outer⟩) :
    Looked name ⟨scope, outer⟩ result ⟨scope', outer'⟩ := by
  induction look with
  | here found => exact ⟨h, fun _ _ same => same, fun _ same _ => found.trans same⟩
  | nowhere absent => exact ⟨h, fun _ _ same => same, fun _ same => by cases same⟩
  | pass absent further passes ih =>
      obtain ⟨own, around⟩ := soundInside.mp h
      have looked := ih around
      refine ⟨soundInside.mpr ⟨own.under looked, looked.sound⟩, fun _ _ same => same, fun symbol same inside => ?_⟩
      rw [passes symbol same] at inside
      cases inside
  | @capture scope next rest symbol next' rest' absent further inside ih =>
      obtain ⟨own, around⟩ := soundInside.mp h
      have looked := ih around
      have found := looked.found symbol rfl inside
      obtain rfl := looked.sound.own.filed.named name symbol found
      have under := (own.under looked).capture inside found absent
      exact ⟨soundInside.mpr ⟨under, looked.sound⟩, fun _ _ => Scope.captureKept absent,
        fun free same _ => Scope.captureFound.trans same⟩

theorem Sound.resolve (h : table.Sound) (name : String) : (table.resolve name).2.Sound :=
  (Sound.looked (resolveInResolves name table.inner table.outer) h).sound

end SymbolTable

/- Every table that an action leaves is as sound as the one it was done to. -/
theorem TableAction.leavesSound (action : TableAction) {table : SymbolTable} (h : table.Sound) :
    ∀ t ∈ action.leaves table, t.Sound := by
  cases action with
  | enclose => simpa [leaves] using h.enclose
  | takeOuter => simpa [leaves] using h.takeOuter
  | clone => simpa [leaves] using h
  | define name => simpa [leaves] using h.define name
  | defineBuiltin index name => simpa [leaves] using h.defineBuiltin index name
  | defineFunctionName name => simpa [leaves] using h.defineFunctionName name
  | resolve name => simpa [leaves] using h.resolve name

theorem TableStep.runSound (step : TableStep) {tables : List SymbolTable} (h : ∀ t ∈ tables, t.Sound) :
    ∀ t ∈ step.run tables, t.Sound := by
  intro t member
  cases step with
  | new =>
      rcases List.mem_append.mp member with member | member
      · exact h t member
      · rw [List.mem_singleton.mp member]
        exact SymbolTable.emptySound
  | act position action =>
      simp only [run, List.mem_append, List.mem_flatMap, Option.mem_toList] at member
      rcases member with (before | ⟨table, there, left⟩) | behind
      · exact h t (List.mem_of_mem_take before)
      · exact action.leavesSound (h table (List.mem_of_getElem? there)) t left
      · exact h t (List.mem_of_mem_drop behind)

theorem stepsSound (steps : List TableStep) {tables : List SymbolTable} (h : ∀ t ∈ tables, t.Sound) :
    ∀ t ∈ steps.foldl TableStep.run tables, t.Sound := by
  induction steps generalizing tables with
  | nil => exact h
  | cons step rest ih => exact ih (step.runSound h)

theorem tablesSound (history : List TableStep) : ∀ t ∈ tablesAfter history, t.Sound :=
  stepsSound history fun t member => by cases member

/- When the function that `c` is in is left, its captures are what their names stand for in the table around
it, and to load them is to load those names. -/
structure Compiler.LoadsByName (c : Compiler) : Prop where
  same : ∀ σ ∈ c.leaveFunction.1.2.captured,
    c.leaveFunction.2.table.resolve σ.name = (some σ, c.leaveFunction.2.table)
  loads : ∀ node span c', Compile.loadSymbols node c.leaveFunction.1.2.captured c.leaveFunction.2 = .ok () c' ↔
    Compile.exprs (c.leaveFunction.1.2.captured.map fun σ => .name σ.name span) c.leaveFunction.2 = .ok () c'

namespace Compile
variable {c c' : Compiler}

/- A load that succeeds does the same on behalf of any node, and does not look at the names. -/
theorem loadAnywhere {node : Node} {symbol : Symbol} (ran : loadSymbol node symbol c = .ok () c') (other : Node) :
    loadSymbol other symbol c = .ok () c' ∧ c'.table = c.table := by
  have emitted : ∀ {op operands}, emit node op operands c = .ok () c' →
      emit other op operands c = .ok () c' ∧ c'.table = c.table := by
    intro op operands ran
    unfold emit at ran ⊢
    cases encoded : Instruction.encode op operands with
    | error e => simp [encoded] at ran
    | ok bytes =>
        simp only [encoded] at ran ⊢
        cases ran
        exact ⟨rfl, rfl⟩
  unfold loadSymbol at ran ⊢
  cases kind : symbol.storage <;> simp only [kind] at ran ⊢ <;> exact emitted ran

theorem nameLoads {symbol : Symbol} (known : c.table.resolve symbol.name = (some symbol, c.table)) (span : Span) :
    expr (.name symbol.name span) c = loadSymbol (.expression (.name symbol.name span)) symbol c := by
  have found : resolve symbol.name c = .ok (some symbol) c := by simp [resolve, known]
  unfold expr
  exact bindOk found

theorem namesLoad (node : Node) (span : Span) : (symbols : List Symbol) → {c : Compiler} →
    (∀ σ ∈ symbols, c.table.resolve σ.name = (some σ, c.table)) →
    (loadSymbols node symbols c = .ok () c' ↔
      exprs (symbols.map fun σ => .name σ.name span) c = .ok () c')
  | [], c, _ => by unfold loadSymbols exprs; rfl
  | symbol :: rest, c, known => by
      have named := nameLoads (known symbol List.mem_cons_self) span
      unfold loadSymbols
      rw [List.map_cons, exprs]
      cases ran : loadSymbol node symbol c with
      | ok u c₁ =>
          obtain ⟨ran', table⟩ := loadAnywhere ran (.expression (.name symbol.name span))
          rw [bindOk ran, bindOk (named.trans ran')]
          refine namesLoad node span rest fun σ member => ?_
          rw [table]
          exact known σ (List.mem_cons_of_mem _ member)
      | error e c₁ =>
          cases ran' : loadSymbol (.expression (.name symbol.name span)) symbol c with
          | ok u c₁ =>
              rw [(loadAnywhere ran' node).1] at ran
              cases ran
          | error e' c₁ =>
              rw [bindError ran, bindError (named.trans ran')]
              simp

end Compile

theorem SymbolTable.resolveKnown {table : SymbolTable} {symbol : Symbol}
    (known : table.inner.find? symbol.name = some symbol) : table.resolve symbol.name = (some symbol, table) := by
  obtain ⟨scope, outer⟩ := table
  cases outer <;> simp only [resolve, resolveIn, known]

theorem SymbolTable.Consistent.loadsByName {c : Compiler} (h : c.table.Consistent) (inside : c.table.outer ≠ []) :
    c.LoadsByName := by
  obtain ⟨constants, ⟨scope, outer⟩, current, enclosing⟩ := c
  cases outer with
  | nil => exact absurd rfl inside
  | cons next rest =>
      have same : ∀ σ ∈ scope.captured.toList, resolve ⟨next, rest⟩ σ.name = (some σ, ⟨next, rest⟩) :=
        fun σ member => resolveKnown (h.current next rfl σ member)
      exact ⟨same, fun node span c' => Compile.namesLoad node span _ same⟩

/- In every chain that any history leads to, every table is consistent, and what a function captured is, where it
is left, what the names stand for. -/
theorem historyConsistent (history : List TableStep) {table t : SymbolTable} (reached : table ∈ tablesAfter history)
    (within : t ∈ table.chain) :
    t.Consistent ∧ (t.outer ≠ [] → ∀ c : Compiler, c.table = t → c.LoadsByName) := by
  have consistent := tablesSound history table reached t within
  refine ⟨consistent, fun inside c here => ?_⟩
  cases here
  exact consistent.loadsByName inside

/- A local that is captured twice over, in a table that is then copied and given a name of its own for it, while
the copy is left. -/
def capturedHistory : List TableStep :=
  [.new, .act 0 (.define "g"), .act 0 .enclose, .act 0 (.define "x"), .act 0 .enclose, .act 0 .enclose,
    .act 0 (.resolve "x"), .act 0 .clone, .act 1 .takeOuter, .act 2 (.define "x"), .act 0 (.define "x"),
    .act 0 (.resolve "g")]

theorem historyConsistentCaptured : ∃ table ∈ tablesAfter capturedHistory, ∃ t ∈ table.chain,
    t.captured = [⟨"x", .free, 0⟩] ∧ t.inner.find? "x" = some ⟨"x", .local, 0⟩ ∧ t.outer.length = 3 ∧
      t.Consistent ∧ ∀ c : Compiler, c.table = t → c.LoadsByName := by
  obtain ⟨table, reached, t, within, captured, own, depth⟩ : ∃ table ∈ tablesAfter capturedHistory,
      ∃ t ∈ table.chain, t.captured = [⟨"x", .free, 0⟩] ∧ t.inner.find? "x" = some ⟨"x", .local, 0⟩ ∧
        t.outer.length = 3 := by decide
  obtain ⟨consistent, loads⟩ := historyConsistent capturedHistory reached within
  have inside : t.outer ≠ [] := by
    intro none
    simp [none] at depth
  exact ⟨table, reached, t, within, captured, own, depth, consistent, loads inside⟩

end ClosureCode
