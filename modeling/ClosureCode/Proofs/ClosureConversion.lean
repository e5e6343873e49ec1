import ClosureCode.Proofs.Refinement
import ClosureCode.Proofs.Scopes

/-! Closure conversion. The load emitted for a name reaches the place that the text gives to
the name: at once, or through the loads with which the closures on the way were built. -/
namespace ClosureCode

def Place.load : Place → Instruction
  | .slot index => ⟨.getLocal, [index]⟩
  | .self => ⟨.currentClosure, []⟩

/- For each function around the code, the innermost first, the loads that stand before its
closure in the stream around it. -/
def Reaches : List (List Instruction) → Instruction → Home → Prop
  | _, i, .builtin index => i = ⟨.getBuiltin, [index]⟩
  | _, i, .global slot => i = ⟨.getGlobal, [slot]⟩
  | [], _, .inner _ _ => False
  | loads :: outer, i, .inner level place =>
    if level = outer.length + 1 then i = place.load
    else ∃ index load, i = ⟨.getFree, [index]⟩ ∧ loads[index]? = some load ∧ Reaches outer load (.inner level place)

/- The loads of what belongs to a function. -/
def Opcode.loadsInner (op : Opcode) : Prop := op = .getLocal ∨ op = .getFree ∨ op = .currentClosure

theorem reachesBuiltin {outer : List (List Instruction)} {i : Instruction} {index : Nat} :
    Reaches outer i (.builtin index) ↔ i = ⟨.getBuiltin, [index]⟩ := by
  cases outer <;> rfl

theorem reachesGlobal {outer : List (List Instruction)} {i : Instruction} {slot : Nat} :
    Reaches outer i (.global slot) ↔ i = ⟨.getGlobal, [slot]⟩ := by
  cases outer <;> rfl

theorem reachesInner {outer : List (List Instruction)} {i : Instruction} {level : Nat} {place : Place}
    (h : Reaches outer i (.inner level place)) :
    outer ≠ [] ∧ i.opcode.loadsInner := by
  cases outer with
  | nil => cases h
  | cons loads outer =>
      refine ⟨nofun, ?_⟩
      unfold Reaches at h
      split at h
      · cases place with
        | slot index => exact .inl (by rw [h]; rfl)
        | self => exact .inr (.inr (by rw [h]; rfl))
      · obtain ⟨index, load, rfl, -⟩ := h
        exact .inr (.inl rfl)

theorem Place.loadInjective {place place' : Place} (same : place.load = place'.load) : place = place' := by
  cases place <;> cases place' <;> simp_all [Place.load]

theorem Place.loadNotFree {place : Place} {index : Nat} : place.load ≠ ⟨.getFree, [index]⟩ := by
  cases place <;> simp [Place.load]

/- A load reaches one place. -/
theorem reachesInnerOnce {outer : List (List Instruction)} {i : Instruction} {level level' : Nat}
    {place place' : Place}
    (h : Reaches outer i (.inner level place)) (h' : Reaches outer i (.inner level' place')) :
    level = level' ∧ place = place' := by
  induction outer generalizing i with
  | nil => cases h
  | cons loads outer ih =>
      unfold Reaches at h h'
      split at h <;> split at h'
      · rename_i here here'
        exact ⟨here.trans here'.symm, Place.loadInjective (h.symm.trans h')⟩
      · obtain ⟨index, load, rfl, -⟩ := h'
        exact absurd h.symm Place.loadNotFree
      · obtain ⟨index, load, rfl, -⟩ := h
        exact absurd h'.symm Place.loadNotFree
      · obtain ⟨index, load, rfl, at', reaches⟩ := h
        obtain ⟨index', load', same, at'', reaches'⟩ := h'
        cases same
        rw [at'] at at''
        cases at''
        exact ih reaches reaches'

/- The opcodes that have nothing to do with names or constants. -/
def Opcode.isSilent : Opcode → Bool
  | .constant | .getGlobal | .setGlobal | .getLocal | .setLocal | .getBuiltin | .getFree | .currentClosure | .closure => false
  | _ => true

/- The captures of a closure: each name that is used from outside, once, by a load that reaches it. -/
def Captures (frames : List LexicalFrame) (outer : List (List Instruction)) (used : List String)
    (loads : List Instruction) : Prop :=
  ∃ names : List String, names.Nodup ∧ (∀ name, name ∈ names ↔ name ∈ used) ∧
    List.Forall₂ (fun name load => ∃ home, lexical frames name = some home ∧ Reaches outer load home) names loads

/- A `let` outside of all functions binds a global. -/
def storeOf (outer : List (List Instruction)) (slot : Nat) : Instruction :=
  ⟨if outer.isEmpty then .setGlobal else .setLocal, [slot]⟩

def Object.isLiteral : Object → Bool
  | .integer _ | .string _ => true
  | _ => false

/- Instructions that do to the names what the events say, one after the other. They take
their constants from the pool in order, from one slot to another. -/
inductive Realizes (pool : List Object) :
    List LexicalFrame → List (List Instruction) → Nat → List Event → List Instruction → Nat → Prop where
  | done {frames outer slot} : Realizes pool frames outer slot [] [] slot
  | silent {frames outer slot events is slot'} {i : Instruction} (silent : i.opcode.isSilent)
      (rest : Realizes pool frames outer slot events is slot') :
      Realizes pool frames outer slot events (i :: is) slot'
  | constant {frames outer slot events is slot' object} (constant : pool[slot]? = some object)
    (literal : object.isLiteral)
      (rest : Realizes pool frames outer (slot + 1) events is slot') :
      Realizes pool frames outer slot events (⟨.constant, [slot]⟩ :: is) slot'
  | use {frames outer slot events is slot' name home load} (means : lexical frames name = some home)
      (reaches : Reaches outer load home) (rest : Realizes pool frames outer slot events is slot') :
      Realizes pool frames outer slot (.use name :: events) (load :: is) slot'
  | bind {frame frames outer slot events is slot' name}
      (rest : Realizes pool (bindIn name (frame :: frames)) outer slot events is slot') :
      Realizes pool (frame :: frames) outer slot (.bind name :: events) (storeOf outer frame.bound.length :: is) slot'
  | function {frames outer slot events is slot' name parameters body code loads own} {f : CompiledFunction}
      (captures : Captures frames outer (outerNames frames.length (functionFrame name parameters :: frames) body) loads)
      (inside : Realizes pool (functionFrame name parameters :: frames) (loads :: outer) slot body code own)
      (constant : pool[own]? = some (.compiled f)) (decoded : Instruction.decodeAll f.code.toList = .ok code)
      (count : f.parameters = parameters.length ∧ f.locals = parameters.length + (lets body).length)
      (rest : Realizes pool frames outer (own + 1) events is slot') :
      Realizes pool frames outer slot (.function name parameters body :: events)
        (loads ++ ⟨.closure, [own, loads.length]⟩ :: is) slot'

section Realizing
variable {pool : List Object} {frames : List LexicalFrame} {outer : List (List Instruction)}

theorem Realizes.append {a b : List Event} {is js : List Instruction} {slot slot' slot'' : Nat}
    (first : Realizes pool frames outer slot a is slot')
    (second : Realizes pool (framesAfter frames a) outer slot' b js slot'') :
    Realizes pool frames outer slot (a ++ b) (is ++ js) slot'' := by
  induction first with
  | done => exact second
  | silent silent rest ih => exact .silent silent (ih second)
  | constant constant literal rest ih => exact .constant constant literal (ih second)
  | use means reaches rest ih => exact .use means reaches (ih second)
  | bind rest ih => exact .bind (ih second)
  | function captures inside constant decoded count rest ihInside ih =>
      rw [List.append_assoc]
      exact .function captures inside constant decoded count (ih second)

/- The lists of loads are those of the scopes, as far as these have captured. -/
def Agrees : List (List Instruction) → List Scope → Prop
  | [], [_] => True
  | loads :: outer, scope :: rest => scope.captured.toList.map Symbol.load <+: loads ∧ Agrees outer rest
  | _, _ => False

theorem agreesLength {scope : Scope} {rest : List Scope} (h : Agrees outer (scope :: rest)) :
    outer.length = rest.length := by
  induction outer generalizing scope rest with
  | nil =>
      cases rest with
      | nil => rfl
      | cons next rest => cases h
  | cons loads outer ih =>
      cases rest with
      | nil => cases outer <;> cases h.2
      | cons next rest => simp [ih h.2]

theorem agreesGrows {scopes scopes' : List Scope} (grows : Grows scopes scopes') (h : Agrees outer scopes') :
    Agrees outer scopes := by
  induction grows generalizing outer with
  | nil => exact h
  | @cons scope scope' rest rest' head tail ih =>
      cases outer with
      | nil =>
          cases tail with
          | nil => trivial
          | cons head tail => cases h
      | cons loads outer => exact ⟨(head.map _).trans h.1, ih h.2⟩

theorem symbolReaches {scope : Scope} {rest : List Scope} (h : Faithful frames scope rest)
    (agrees : Agrees outer (scope :: rest)) {name : String} {symbol : Symbol}
    (found : scope.find? name = some symbol) :
    ∃ home, lexical frames name = some home ∧ Reaches outer symbol.load home := by
  induction h generalizing outer symbol with
  | root own =>
      rcases own.found found with ⟨slot, rfl, home⟩ | ⟨index, rfl, home⟩
      · exact ⟨_, home, reachesGlobal.mpr rfl⟩
      · exact ⟨_, home, reachesBuiltin.mpr rfl⟩
  | @inner frame frames scope enclosing rest own around ih =>
      cases outer with
      | nil => cases agrees
      | cons loads outer =>
          have depth := agreesLength agrees.2
          cases here : frame.find? name with
          | some place =>
              refine ⟨.inner frames.length place, ?_, ?_⟩
              · rw [lexicalOwn here, around.lengths, Place.homeInner]
              · rw [own.own name place here] at found
                cases found
                unfold Reaches
                rw [if_pos (by rw [around.lengths, depth])]
                cases place <;> rfl
          | none =>
              obtain ⟨index, σ, rfl, at', rfl⟩ := own.other name symbol here found
              have member := List.mem_of_getElem? at'
              obtain ⟨kept, inside⟩ := own.kept σ member
              obtain ⟨level, place, means, le⟩ := around.innerHome kept inside
              obtain ⟨home, means', reaches⟩ := ih agrees.2 kept
              rw [means] at means'
              cases means'
              refine ⟨_, by rw [lexicalOther here, means], ?_⟩
              unfold Reaches
              rw [if_neg (by omega)]
              refine ⟨index, σ.load, rfl, ?_, reaches⟩
              have stored : (scope.captured.toList.map Symbol.load)[index]? = some σ.load := by simp [at']
              obtain ⟨more, rfl⟩ := agrees.1
              rw [List.getElem?_append_left (List.getElem?_eq_some_iff.mp stored).1, stored]

theorem Found.reaches {scope : Scope} {rest : List Scope} {name : String} {symbol : Symbol}
    (h : Found frames scope name (some symbol)) (faithful : Faithful frames scope rest)
    (agrees : Agrees outer (scope :: rest)) :
    ∃ home, lexical frames name = some home ∧ Reaches outer symbol.load home := by
  cases h with
  | global home => exact ⟨_, home, reachesGlobal.mpr rfl⟩
  | builtin home => exact ⟨_, home, reachesBuiltin.mpr rfl⟩
  | here found inside home => exact symbolReaches faithful agrees found

theorem capturesReach {scope : Scope} {rest : List Scope} (faithful : Faithful frames scope rest)
    (agrees : Agrees outer (scope :: rest)) {symbols : List Symbol}
    (known : ∀ σ ∈ symbols, scope.find? σ.name = some σ ∧ σ.storage.everywhere = false) :
    List.Forall₂ (fun name load => ∃ home, lexical frames name = some home ∧ Reaches outer load home)
      (symbols.map (·.name)) (symbols.map Symbol.load) := by
  rw [List.forall₂_map_left_iff, List.forall₂_map_right_iff, List.forall₂_same]
  intro σ member
  exact symbolReaches faithful agrees (known σ member).1

end Realizing

theorem literalAssembles {c : Constant} {object : Object} (literal : c.isLiteral)
    (assembled : c.assemble = .ok object) :
    object.isLiteral := by
  cases c with
  | integer value => cases assembled; rfl
  | string value => cases assembled; rfl
  | function code locals parameters => cases literal

theorem operationSilent {op : Opcode} (h : op.isOperation) : op.isSilent := by
  cases op <;> first | rfl | cases h

theorem closureRealizes {pool : List Object} {frames : List LexicalFrame} {outer : List (List Instruction)}
    {table table' own : SymbolTable} {around : Option SymbolTable} {name : Option String} {parameters : List String}
    {e : List Event} {code : List Symbolic} {slot last : Nat} (faithful : Faithful frames table.inner table.outer)
    (inside : Passed (functionFrame name parameters :: frames) e (table.forFunction name parameters) table')
    (left : table'.takeOuter = (around, own)) (agrees : Agrees outer (around.getD .empty).scopes)
    (stored : Constant.Stored pool last [.function code own.definitions parameters.length])
    (body : ∀ {outer' : List (List Instruction)}, Agrees outer' table'.scopes → ∀ place,
      Realizes pool (functionFrame name parameters :: frames) outer' slot e (Symbolic.instructions place code) last) :
    Realizes pool frames outer slot [.function name parameters e]
      (own.captured.map Symbol.load ++ [⟨.closure, [last, own.captured.length]⟩]) (last + 1) := by
  obtain ⟨same, shape, passed⟩ := inside.leave faithful left
  obtain ⟨count, distinct, exactly, known⟩ := inside.captures faithful left
  obtain ⟨object, assembled, constant⟩ := Constant.storedOne stored
  obtain ⟨stream, encoded, rfl⟩ := Constant.assembleFunction.mp assembled
  have decoded := Instruction.decodeAllEncodeAll (Symbolic.assembleOk.mp encoded)
  have loads : Agrees (own.captured.map Symbol.load :: outer) table'.scopes := by
    rw [SymbolTable.scopes, shape, ← same]
    exact ⟨List.prefix_rfl, agrees⟩
  have captures : Captures frames outer
      (outerNames frames.length (functionFrame name parameters :: frames) e) (own.captured.map Symbol.load) :=
    ⟨_, distinct, exactly, capturesReach passed.faithful agrees known⟩
  have realizes := Realizes.function captures (body loads (Symbolic.offset code)) constant decoded ⟨rfl, count⟩ .done
  rwa [List.length_map] at realizes

/- The code of a fragment realizes its events, whatever has been captured when its function is left. -/
theorem fragmentRealizes {s depth e l s' depth'} (h : Fragment s depth e l s' depth') {pool : List Object}
    {frames : List LexicalFrame} {outer : List (List Instruction)}
    (faithful : Faithful frames s.table.inner s.table.outer)
    (agrees : Agrees outer s'.table.scopes) (stored : Constant.Stored pool s.slot l.constants) (place : Nat → Nat) :
    Realizes pool frames outer s.slot e (Symbolic.instructions place l.code) s'.slot := by
  induction h generalizing frames outer place with
  | nil => exact .done
  | append first second ih₁ ih₂ =>
      have passed := fragmentPasses first faithful
      obtain ⟨left, right⟩ := Constant.storedAppend stored
      rw [← fragmentSlots first] at right
      have grows := (fragmentPasses second passed.faithful).grows
      rw [Lowered.codeAppend, Symbolic.instructionsAppend]
      exact (ih₁ faithful (agreesGrows grows agrees) left place).append (ih₂ passed.faithful agrees right place)
  | operation i plain enough => exact .silent (operationSilent plain) .done
  | constant c literal =>
      obtain ⟨object, assembled, constant⟩ := Constant.storedOne stored
      exact .constant constant (literalAssembles literal assembled) .done
  | use found =>
      obtain ⟨passed, symbol⟩ := passedUse faithful found
      obtain ⟨home, means, reaches⟩ := symbol.reaches passed.faithful agrees
      exact .use means reaches .done
  | @bind s depth name symbol table defined =>
      have depth := agreesLength agrees
      rw [(passedBind faithful defined).depth] at depth
      obtain ⟨frame, rest, rfl, store⟩ := faithful.store defined
      have same : s.table.outer.isEmpty = outer.isEmpty := by
        cases outer <;> cases around : s.table.outer <;> simp [around] at depth ⊢
      show Realizes pool (frame :: rest) outer s.slot [.bind name] [symbol.store] s.slot
      rw [store, same]
      exact .bind .done
  | conditional consequence alternative ih₁ ih₂ =>
      have passed := fragmentPasses consequence faithful
      obtain ⟨left, right⟩ := Constant.storedAppend stored
      have slots := fragmentSlots consequence
      dsimp only at slots
      rw [← slots] at right
      have grows := (fragmentPasses alternative passed.faithful).grows
      have first := ih₁ faithful (agreesGrows grows agrees) left place
      have second := ih₂ passed.faithful agrees right place
      rw [Symbolic.instructionsConditional, List.append_assoc, List.append_assoc]
      exact .silent rfl (first.append (.silent rfl second))
  | @function s depth name parameters e inner s₁ around own before last body ends returns left ih =>
      have entered := (faithful.forFunction name parameters).1
      obtain ⟨constants, function⟩ := Constant.storedAppend stored
      have slots := fragmentSlots body
      dsimp only at slots
      rw [← slots] at function
      have realizes := closureRealizes faithful (fragmentPasses body entered) left agrees function
        fun agrees place => ih entered agrees constants place
      have plain := Symbolic.instructionsPlain place (own.captured.map Symbol.load)
      rw [List.map_map] at plain
      rw [Symbolic.instructionsAppend]
      exact plain ▸ realizes

theorem assembledRealizes {events : List Event} {l : Lowered} {s : Lowering} {b : Bytecode}
    (fragment : Fragment .start 0 events l s 0) (assembled : l.assemble = .ok b) :
    ∃ code, Instruction.decodeAll b.code.toList = .ok code ∧
      Realizes b.constants.toList [topFrame] [] 0 events code b.constants.size := by
  obtain ⟨code, constants⟩ := Lowered.assembleOk.mp assembled
  have passed := fragmentPasses fragment freshFaithful
  have alone : s.table.outer = [] := List.length_eq_zero_iff.mp passed.depth
  have slots : s.slot = b.constants.size := by
    rw [fragmentSlots fragment, ← Constant.assembleAllLength constants]
    exact Nat.zero_add _
  refine ⟨_, Instruction.decodeAllEncodeAll (Symbolic.assembleOk.mp code), ?_⟩
  rw [← slots]
  refine fragmentRealizes fragment freshFaithful ?_ ⟨_, constants, List.prefix_rfl⟩ _
  rw [SymbolTable.scopes, alone]
  trivial

theorem closureConversion {program : Program} {b : Bytecode} (compiled : program.compile = .ok b) :
    ∃ code, Instruction.decodeAll b.code.toList = .ok code ∧
      Realizes b.constants.toList [topFrame] [] 0 program.events code b.constants.size := by
  obtain ⟨l, lower, assembled⟩ := lowered compiled
  obtain ⟨s, fragment⟩ := program.fragment lower
  exact assembledRealizes fragment assembled

theorem closureConversionNested : ∃ b code, Program.nested.compile = .ok b ∧
    Instruction.decodeAll b.code.toList = .ok code ∧
    Realizes b.constants.toList [topFrame] [] 0 Program.nested.events code b.constants.size := by
  obtain ⟨b, compiled⟩ := nestedCompiles
  obtain ⟨code, decoded, realizes⟩ := closureConversion compiled
  exact ⟨b, code, compiled, decoded, realizes⟩

end ClosureCode
