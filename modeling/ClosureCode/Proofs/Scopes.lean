import ClosureCode.Proofs.Lexical
import Mathlib.Data.List.Forall2

/-! The symbol table beside the text: each scope holds its own names as the frame of its
function has them, and what it captured from the scopes around it. Looking a name up keeps
this so, and finds what the name means. -/
namespace ClosureCode

/- The captures of a scope, one more of them under a name that the scope did not know. -/
section Captures
variable {scope : Scope} {enclosing : Symbol}

theorem Scope.captureFound : (scope.capture enclosing).2.find? enclosing.name = some (scope.capture enclosing).1 :=
  (findCapture scope enclosing enclosing.name).trans (if_pos rfl)

theorem Scope.captureKept (absent : scope.find? enclosing.name = none) {name : String} {symbol : Symbol}
    (known : scope.find? name = some symbol) : (scope.capture enclosing).2.find? name = some symbol := by
  rw [findCapture, if_neg, known]
  rintro rfl
  rw [absent] at known
  cases known

theorem Scope.captureKnown (known : ∀ σ ∈ scope.captured.toList, ∃ symbol, scope.find? σ.name = some symbol) :
    ∀ σ ∈ (scope.capture enclosing).2.captured.toList,
      ∃ symbol, (scope.capture enclosing).2.find? σ.name = some symbol := by
  intro σ member
  rw [capturedCapture, List.mem_append, List.mem_singleton] at member
  rw [findCapture]
  rcases member with member | rfl
  · split
    · exact ⟨_, rfl⟩
    · exact known σ member
  · exact ⟨_, if_pos rfl⟩

theorem Scope.captureDistinct (known : ∀ σ ∈ scope.captured.toList, ∃ symbol, scope.find? σ.name = some symbol)
    (distinct : (scope.captured.toList.map (·.name)).Nodup) (absent : scope.find? enclosing.name = none) :
    ((scope.capture enclosing).2.captured.toList.map (·.name)).Nodup := by
  rw [capturedCapture, List.map_append, List.nodup_append]
  refine ⟨distinct, by simp, fun name old name' new => ?_⟩
  obtain ⟨σ, member, rfl⟩ := List.mem_map.mp old
  obtain ⟨symbol, there⟩ := known σ member
  rintro same
  rw [List.map_singleton, List.mem_singleton] at new
  rw [same, new, absent] at there
  cases there

end Captures

/- How the scope of a function files a name that is the function's own. -/
def Place.symbol (name : String) : Place → Symbol
  | .slot index => ⟨name, .local, index⟩
  | .self => ⟨name, .function, 0⟩

/- The root scope holds the globals, and the builtins that no global hides. -/
structure FaithfulRoot (frame : LexicalFrame) (scope : Scope) : Prop where
  unnamed : frame.name = none
  count : scope.definitions = frame.bound.length
  alone : scope.captured = #[]
  global : ∀ name slot, slotOf? name frame.bound = some slot → scope.find? name = some ⟨name, .global, slot⟩
  builtin : ∀ name symbol, slotOf? name frame.bound = none → scope.find? name = some symbol →
    ∃ index, symbol = ⟨name, .builtin, index⟩ ∧ builtinHome? name = some (.builtin index)
  nowhere : ∀ name, scope.find? name = none → builtinHome? name = none

/- The scope of a function holds its own names, and others that it captured: under each of
those the enclosing scope still holds what was captured. -/
structure FaithfulInner (frame : LexicalFrame) (scope enclosing : Scope) : Prop where
  count : scope.definitions = frame.bound.length
  own : ∀ name place, frame.find? name = some place → scope.find? name = some (place.symbol name)
  other : ∀ name symbol, frame.find? name = none → scope.find? name = some symbol →
    ∃ index σ, symbol = ⟨name, .free, index⟩ ∧ scope.captured.toList[index]? = some σ ∧ σ.name = name
  kept : ∀ σ ∈ scope.captured.toList, enclosing.find? σ.name = some σ ∧ σ.storage.everywhere = false
  known : ∀ σ ∈ scope.captured.toList, ∃ symbol, scope.find? σ.name = some symbol
  distinct : (scope.captured.toList.map (·.name)).Nodup

inductive Faithful : List LexicalFrame → Scope → List Scope → Prop where
  | root {frame scope} (own : FaithfulRoot frame scope) : Faithful [frame] scope []
  | inner {frame frames scope enclosing rest} (own : FaithfulInner frame scope enclosing)
      (outer : Faithful frames enclosing rest) : Faithful (frame :: frames) scope (enclosing :: rest)

theorem Faithful.lengths {frames : List LexicalFrame} {scope : Scope} {outer : List Scope}
    (h : Faithful frames scope outer) : frames.length = outer.length + 1 := by
  induction h with
  | root own => rfl
  | inner own outer ih => simp [ih]

theorem FaithfulRoot.found {frame : LexicalFrame} {scope : Scope} (h : FaithfulRoot frame scope) {name : String}
    {symbol : Symbol} (found : scope.find? name = some symbol) :
    (∃ slot, symbol = ⟨name, .global, slot⟩ ∧ lexical [frame] name = some (.global slot)) ∨
      ∃ index, symbol = ⟨name, .builtin, index⟩ ∧ lexical [frame] name = some (.builtin index) := by
  cases slot : slotOf? name frame.bound with
  | some k =>
      rw [h.global name k slot] at found
      cases found
      exact .inl ⟨k, rfl, by simp [lexical, LexicalFrame.find?, slot, Place.home]⟩
  | none =>
      obtain ⟨index, rfl, home⟩ := h.builtin name symbol slot found
      exact .inr ⟨index, rfl, by simpa [lexical, LexicalFrame.find?, slot, h.unnamed] using home⟩

/- The scope of a function holds nothing that can be reached from everywhere. -/
theorem FaithfulInner.here {frame : LexicalFrame} {scope enclosing : Scope} (h : FaithfulInner frame scope enclosing)
    {name : String} {symbol : Symbol} (found : scope.find? name = some symbol) :
    symbol.name = name ∧ symbol.storage.everywhere = false := by
  cases place : frame.find? name with
  | some place' =>
      have same := h.own name place' place
      rw [found] at same
      cases same
      cases place' <;> exact ⟨rfl, rfl⟩
  | none =>
      obtain ⟨index, σ, rfl, at', named⟩ := h.other name symbol place found
      exact ⟨rfl, rfl⟩

/- A name that is not in the scope is not the function's own. -/
theorem FaithfulInner.unknown {frame : LexicalFrame} {scope enclosing : Scope} (h : FaithfulInner frame scope enclosing)
    {name : String} (absent : scope.find? name = none) : frame.find? name = none := by
  cases here : frame.find? name with
  | none => rfl
  | some place =>
      rw [h.own name place here] at absent
      cases absent

theorem Faithful.named {frames : List LexicalFrame} {scope : Scope} {outer : List Scope}
    (h : Faithful frames scope outer)
    {name : String} {symbol : Symbol} (found : scope.find? name = some symbol) : symbol.name = name := by
  cases h with
  | root own => rcases own.found found with ⟨slot, rfl, -⟩ | ⟨index, rfl, -⟩ <;> rfl
  | inner own outer => exact (own.here found).1

/- A symbol of some function stands for a name of that function or of one around it. -/
theorem Faithful.innerHome {frames : List LexicalFrame} {scope : Scope} {outer : List Scope}
    (h : Faithful frames scope outer)
    {name : String} {symbol : Symbol} (found : scope.find? name = some symbol)
    (here : symbol.storage.everywhere = false) :
    ∃ level place, lexical frames name = some (.inner level place) ∧ level ≤ outer.length := by
  induction h generalizing symbol with
  | root own => rcases own.found found with ⟨slot, rfl, -⟩ | ⟨index, rfl, -⟩ <;> cases here
  | @inner frame frames scope enclosing rest own outer ih =>
      cases place : frame.find? name with
      | some place' =>
          refine ⟨rest.length + 1, place', ?_, Nat.le_refl _⟩
          rw [lexicalOwn place, outer.lengths, Place.homeInner]
      | none =>
          obtain ⟨index, σ, rfl, at', rfl⟩ := own.other name symbol place found
          obtain ⟨kept, inside⟩ := own.kept σ (List.mem_of_getElem? at')
          obtain ⟨level, where', home, le⟩ := ih kept inside
          exact ⟨level, where', by rw [lexicalOther place, home], Nat.le_succ_of_le le⟩

section Operations
variable {frames : List LexicalFrame} {scope : Scope} {outer : List Scope}

theorem Faithful.define (h : Faithful frames scope outer) (name : String) :
    Faithful (bindIn name frames) (scope.define (if outer.isEmpty then .global else .local) name).2 outer := by
  cases h with
  | @root frame scope own =>
      refine .root ⟨own.unnamed, congrArg (· + 1) own.count, own.alone, ?_, ?_, ?_⟩
      · intro other slot found
        rw [Scope.findDefine, own.count]
        by_cases same : name = other
        · simp only [slotOf?, same, if_true, Option.some.injEq] at found
          simp [same, found]
        · simp only [slotOf?, same, if_false] at found
          simp [same, own.global other slot found]
      · intro other symbol absent found
        rw [Scope.findDefine] at found
        by_cases same : name = other
        · simp [slotOf?, same] at absent
        · simp only [slotOf?, same, if_false] at absent found
          exact own.builtin other symbol absent found
      · intro other absent
        rw [Scope.findDefine] at absent
        by_cases same : name = other
        · simp [same] at absent
        · exact own.nowhere other (by simpa [same] using absent)
  | @inner frame frames scope enclosing rest own outer =>
      refine .inner ⟨congrArg (· + 1) own.count, ?_, ?_, own.kept, ?_, own.distinct⟩ outer
      · intro other place found
        rw [LexicalFrame.findBind] at found
        rw [Scope.findDefine, own.count]
        by_cases same : name = other
        · simp only [same, if_true, Option.some.injEq] at found
          simp [← found, same, Place.symbol]
        · simp only [same, if_false] at found
          simp [same, own.own other place found]
      · intro other symbol absent found
        rw [LexicalFrame.findBind] at absent
        rw [Scope.findDefine] at found
        by_cases same : name = other
        · simp [same] at absent
        · simp only [same, if_false] at absent found
          exact own.other other symbol absent found
      · intro σ member
        rw [Scope.findDefine]
        by_cases same : name = σ.name
        · simp [same]
        · simpa [same] using own.known σ member

/- A fresh scope of a function, with the name of the function if it has one. -/
theorem Faithful.enclose (h : Faithful frames scope outer) :
    Faithful (⟨none, []⟩ :: frames) .empty (scope :: outer) := by
  refine .inner ⟨rfl, ?_, ?_, ?_, ?_, List.nodup_nil⟩ h
  · intro name place found
    simp [LexicalFrame.find?, slotOf?] at found
  · intro name symbol absent found
    simp [Scope.findEmpty] at found
  · intro σ member
    cases member
  · intro σ member
    cases member

theorem Faithful.functionName (h : Faithful frames scope outer) (own : String) :
    Faithful (⟨some own, []⟩ :: frames) (Scope.empty.put ⟨own, .function, 0⟩) (scope :: outer) := by
  refine .inner ⟨rfl, ?_, ?_, ?_, ?_, List.nodup_nil⟩ h
  · intro name place found
    simp only [LexicalFrame.find?, slotOf?, Option.some.injEq, Option.ite_none_right_eq_some] at found
    obtain ⟨rfl, rfl⟩ := found
    simp [Scope.findPut, Place.symbol]
  · intro name symbol absent found
    by_cases same : own = name
    · simp [LexicalFrame.find?, slotOf?, same] at absent
    · simp [Scope.findPut, same, Scope.findEmpty] at found
  · intro σ member
    cases member
  · intro σ member
    cases member

theorem Faithful.parameters {frame : LexicalFrame} {enclosing : Scope}
    (h : Faithful (frame :: frames) scope (enclosing :: outer))
    (names : List String) :
    ∃ scope', names.foldl (fun table p => (table.define p).2) (⟨scope, enclosing :: outer⟩ : SymbolTable) =
        ⟨scope', enclosing :: outer⟩ ∧
      Faithful ({ frame with bound := names.reverse ++ frame.bound } :: frames) scope' (enclosing :: outer) ∧
      scope'.captured = scope.captured := by
  induction names generalizing frame scope with
  | nil => exact ⟨scope, rfl, h, rfl⟩
  | cons p rest ih =>
      obtain ⟨scope', run, faithful, captured⟩ := ih (h.define p)
      refine ⟨scope', run, ?_, captured⟩
      simpa using faithful

theorem Faithful.forFunction {table : SymbolTable} (h : Faithful frames table.inner table.outer)
    (name : Option String) (parameters : List String) :
    Faithful (functionFrame name parameters :: frames) (table.forFunction name parameters).inner
        (table.forFunction name parameters).outer ∧
      (table.forFunction name parameters).outer = table.inner :: table.outer ∧
      (table.forFunction name parameters).inner.captured = #[] := by
  cases name with
  | none =>
      obtain ⟨scope', run, faithful, captured⟩ := h.enclose.parameters parameters
      have same : table.forFunction none parameters = ⟨scope', table.inner :: table.outer⟩ := run
      rw [same]
      exact ⟨by simpa [functionFrame] using faithful, rfl, captured⟩
  | some own =>
      obtain ⟨scope', run, faithful, captured⟩ := (h.functionName own).parameters parameters
      have same : table.forFunction (some own) parameters = ⟨scope', table.inner :: table.outer⟩ := run
      rw [same]
      exact ⟨by simpa [functionFrame] using faithful, rfl, captured⟩

/- The functions on the way to a name take it in; a name of the function itself, a global or a
builtin is just found. -/
inductive Found (frames : List LexicalFrame) (scope : Scope) (name : String) : Option Symbol → Prop where
  | nowhere (home : lexical frames name = none) : Found frames scope name none
  | global {slot} (home : lexical frames name = some (.global slot)) :
      Found frames scope name (some ⟨name, .global, slot⟩)
  | builtin {index} (home : lexical frames name = some (.builtin index)) :
      Found frames scope name (some ⟨name, .builtin, index⟩)
  | here {symbol level place} (found : scope.find? name = some symbol) (inside : symbol.storage.everywhere = false)
      (home : lexical frames name = some (.inner level place)) : Found frames scope name (some symbol)

/- Captures are only added, at the end. -/
def Grows (scopes scopes' : List Scope) : Prop :=
  List.Forall₂ (fun scope scope' => scope.captured.toList <+: scope'.captured.toList) scopes scopes'

theorem Grows.refl (scopes : List Scope) : Grows scopes scopes :=
  List.forall₂_same.mpr fun _ _ => List.prefix_rfl

theorem Grows.trans {a b c : List Scope} (first : Grows a b) (second : Grows b c) : Grows a c := by
  unfold Grows at *
  induction first generalizing c with
  | nil => exact second
  | cons head tail ih =>
      cases second with
      | cons head' tail' => exact .cons (head.trans head') (ih tail')

/- The names that the function of the given level has captured. -/
def capturedAt (level : Nat) : List Scope → List String
  | [] => []
  | scope :: outer => if outer.length = level then scope.captured.toList.map (·.name) else capturedAt level outer

theorem capturedCons (level : Nat) (scope : Scope) (outer : List Scope) :
    capturedAt level (scope :: outer) =
      if outer.length = level then scope.captured.toList.map (·.name) else capturedAt level outer := rfl

theorem capturedBelow {level : Nat} {outer : List Scope} (scope : Scope) (lt : level < outer.length) :
    capturedAt level (scope :: outer) = capturedAt level outer := if_neg (by omega)

/- What belongs to a function further out has been captured all the way to where it is known. -/
theorem Faithful.capturedBetween {scope : Scope} {outer : List Scope} (h : Faithful frames scope outer)
    {name : String}
    {symbol : Symbol} (found : scope.find? name = some symbol) {level : Nat} (le : level ≤ outer.length)
    (outside : isOutside level frames name) : name ∈ capturedAt level (scope :: outer) := by
  obtain ⟨home, place, means, lt⟩ := outsideHome.mp outside
  induction h generalizing symbol with
  | @root frame scope own =>
      simp only [List.length_nil] at le
      omega
  | @inner frame frames scope enclosing rest own outer ih =>
      cases here : frame.find? name with
      | some place' =>
          rw [lexicalOwn here, outer.lengths, Place.homeInner] at means
          cases means
          simp only [List.length_cons] at le
          omega
      | none =>
          obtain ⟨index, σ, rfl, at', rfl⟩ := own.other name symbol here found
          have member := List.mem_of_getElem? at'
          unfold capturedAt
          split
          · exact List.mem_map_of_mem member
          · rename_i inner
            simp only [List.length_cons] at le inner
            rw [lexicalOther here] at means
            exact ih (own.kept σ member).1 (by omega) (outsideHome.mpr ⟨home, place, means, lt⟩) means

/- What one look for a name does to the scopes. -/
structure Resolved (frames : List LexicalFrame) (name : String) (scope : Scope) (outer : List Scope)
    (result : Option Symbol)
    (scope' : Scope) (outer' : List Scope) : Prop where
  faithful : Faithful frames scope' outer'
  kept : ∀ other symbol, scope.find? other = some symbol → scope'.find? other = some symbol
  grows : Grows (scope :: outer) (scope' :: outer')
  found : Found frames scope' name result
  captured : ∀ level ≤ outer.length, ∀ other, other ∈ capturedAt level (scope' :: outer') ↔
    other ∈ capturedAt level (scope :: outer) ∨ (other = name ∧ isOutside level frames name)

theorem resolvedHere {scope : Scope} {outer : List Scope} (h : Faithful frames scope outer) {name : String}
    {symbol : Symbol} (found : scope.find? name = some symbol) :
    Resolved frames name scope outer (some symbol) scope outer := by
  refine ⟨h, fun _ _ same => same, .refl _, ?_, fun level le other => ?_⟩
  · cases h with
    | root own =>
        rcases own.found found with ⟨slot, rfl, home⟩ | ⟨index, rfl, home⟩
        · exact .global home
        · exact .builtin home
    | @inner frame frames scope enclosing rest own outer =>
        have inside := (own.here found).2
        obtain ⟨level, place, home, -⟩ := (Faithful.inner own outer).innerHome found inside
        exact .here found inside home
  · constructor
    · exact .inl
    · rintro (member | ⟨rfl, outside⟩)
      · exact member
      · exact h.capturedBetween found le outside

theorem FaithfulInner.under {frame : LexicalFrame} {scope enclosing enclosing' : Scope}
    (own : FaithfulInner frame scope enclosing)
    (kept : ∀ other symbol, enclosing.find? other = some symbol → enclosing'.find? other = some symbol) :
    FaithfulInner frame scope enclosing' :=
  ⟨own.count, own.own, own.other, fun σ member => ⟨kept _ _ (own.kept σ member).1, (own.kept σ member).2⟩, own.known,
    own.distinct⟩

theorem FaithfulInner.capture {frame : LexicalFrame} {scope enclosing : Scope}
    (own : FaithfulInner frame scope enclosing)
    {symbol : Symbol} (found : enclosing.find? symbol.name = some symbol) (inside : symbol.storage.everywhere = false)
    (absent : scope.find? symbol.name = none) : FaithfulInner frame (scope.capture symbol).2 enclosing := by
  have entries := Scope.capturedCapture scope symbol
  refine ⟨own.count, ?_, ?_, ?_, Scope.captureKnown own.known, Scope.captureDistinct own.known own.distinct absent⟩
  · intro name place place'
    exact Scope.captureKept absent (own.own name place place')
  · intro name symbol' place found'
    rw [Scope.findCapture] at found'
    rw [entries]
    by_cases same : symbol.name = name
    · simp only [same, if_true, Option.some.injEq] at found'
      exact ⟨scope.captured.size, symbol, found'.symm, by simp, same⟩
    · rw [if_neg same] at found'
      obtain ⟨index, σ, rfl, at', named⟩ := own.other name symbol' place found'
      exact ⟨index, σ, rfl, by rw [List.getElem?_append_left (List.getElem?_eq_some_iff.mp at').1, at'], named⟩
  · intro σ member
    rw [entries, List.mem_append, List.mem_singleton] at member
    rcases member with member | rfl
    · exact own.kept σ member
    · exact ⟨found, inside⟩

theorem Found.inside {scope : Scope} {name : String} {symbol : Symbol} (h : Found frames scope name (some symbol))
    (inside : symbol.storage.everywhere = false) : scope.find? name = some symbol := by
  cases h with
  | global home => cases inside
  | builtin home => cases inside
  | here found _ home => exact found

/- The name is not in the scope and is not captured: it stands for no name of a function. -/
theorem Resolved.pass {frame : LexicalFrame} {name : String} {scope enclosing enclosing' : Scope}
    {rest rest' : List Scope}
    {result : Option Symbol} (own : FaithfulInner frame scope enclosing) (absent : frame.find? name = none)
    (h : Resolved frames name enclosing rest result enclosing' rest')
    (passes : ∀ symbol, result = some symbol → symbol.storage.everywhere) :
    Resolved (frame :: frames) name scope (enclosing :: rest) result scope (enclosing' :: rest') := by
  have lengths : rest'.length = rest.length := (Nat.succ.inj (List.Forall₂.length_eq h.grows)).symm
  have same : lexical (frame :: frames) name = lexical frames name := lexicalOther absent
  obtain ⟨found, beyond⟩ : Found (frame :: frames) scope name result ∧
      ∀ home place, lexical (frame :: frames) name ≠ some (.inner home place) := by
    rw [same]
    cases h.found with
    | nowhere home => exact ⟨.nowhere (by rw [same, home]), by simp [home]⟩
    | global home => exact ⟨.global (by rw [same, home]), by simp [home]⟩
    | builtin home => exact ⟨.builtin (by rw [same, home]), by simp [home]⟩
    | here known inside home =>
        have := passes _ rfl
        rw [inside] at this
        cases this
  refine ⟨.inner (own.under h.kept) h.faithful, fun _ _ same => same, .cons List.prefix_rfl h.grows, found, ?_⟩
  intro level le other
  rw [capturedCons level scope (enclosing' :: rest'), capturedCons level scope (enclosing :: rest), notOutside beyond]
  simp only [Bool.false_eq_true, and_false, or_false, List.length_cons, lengths]
  split
  · rfl
  · rename_i inner
    simp only [List.length_cons] at le
    rw [h.captured level (by omega) other, ← outsideOther absent, notOutside beyond]
    simp

/- The function takes in what the functions around it found. -/
theorem Resolved.capture {frame : LexicalFrame} {name : String} {scope enclosing enclosing' : Scope}
    {rest rest' : List Scope}
    {symbol : Symbol} (own : FaithfulInner frame scope enclosing) (absent : scope.find? name = none)
    (h : Resolved frames name enclosing rest (some symbol) enclosing' rest')
    (inside : symbol.storage.everywhere = false) :
    Resolved (frame :: frames) name scope (enclosing :: rest) (some (scope.capture symbol).1) (scope.capture symbol).2
      (enclosing' :: rest') := by
  have lengths : rest'.length = rest.length := (Nat.succ.inj (List.Forall₂.length_eq h.grows)).symm
  have found := h.found.inside inside
  obtain ⟨home, place, means, le⟩ := h.faithful.innerHome found inside
  obtain rfl := h.faithful.named found
  have absentOwn := own.unknown absent
  have entries := Scope.capturedCapture scope symbol
  refine ⟨.inner ((own.under h.kept).capture found inside absent) h.faithful, fun _ _ => Scope.captureKept absent,
    .cons ?_ h.grows, ?_, ?_⟩
  · rw [entries]
    exact List.prefix_append _ _
  · exact .here Scope.captureFound rfl (by rw [lexicalOther absentOwn, means])
  · intro level bound other
    rw [outsideOther absentOwn, capturedCons level scope, capturedCons level (scope.capture symbol).2]
    simp only [List.length_cons, lengths]
    split
    · rename_i own
      have outside : isOutside level frames symbol.name := outsideHome.mpr ⟨home, place, means, by omega⟩
      simp [entries, outside]
    · rename_i inner
      simp only [List.length_cons] at bound
      exact h.captured level (by omega) other

/- Whatever a look for a name does, it does as the text has it. -/
theorem Faithful.resolves {scope scope' : Scope} {outer outer' : List Scope} {name : String} {result : Option Symbol}
    (look : SymbolTable.Resolves name scope outer result scope' outer') (h : Faithful frames scope outer) :
    Resolved frames name scope outer result scope' outer' := by
  induction look generalizing frames with
  | here found => exact resolvedHere h found
  | @nowhere scope absent =>
      cases h with
      | @root frame _ own =>
          have means : lexical [frame] name = none := by
            cases slot : slotOf? name frame.bound with
            | some index =>
                rw [own.global name index slot] at absent
                cases absent
            | none => simpa [lexical, LexicalFrame.find?, slot, own.unnamed] using own.nowhere name absent
          refine ⟨.root own, fun _ _ same => same, .refl _, .nowhere means, fun level le other => ?_⟩
          rw [notOutside (by simp [means])]
          simp
  | pass absent further passes ih =>
      cases h with
      | inner own outer => exact (ih outer).pass own (own.unknown absent) passes
  | capture absent further inside ih =>
      cases h with
      | inner own outer =>
          have around := ih outer
          obtain rfl := around.faithful.named (around.found.inside inside)
          exact around.capture own absent inside

theorem Faithful.resolve {scope : Scope} {outer : List Scope} (h : Faithful frames scope outer) (name : String) :
    Resolved frames name scope outer (SymbolTable.resolveIn name scope outer).1
      (SymbolTable.resolveIn name scope outer).2.1 (SymbolTable.resolveIn name scope outer).2.2 :=
  Faithful.resolves (SymbolTable.resolveInResolves name scope outer) h

end Operations

/- Builtins of different names are filed in a row. -/
theorem findBuiltins {builtins : List Builtin} (distinct : (builtins.map (·.name)).Nodup) (table : SymbolTable)
    (index : Nat) (name : String) :
    (defineBuiltins table index builtins).inner.find? name =
      match builtins.findIdx? (·.name == name) with
      | some i => some ⟨name, .builtin, index + i⟩
      | none => table.inner.find? name := by
  induction builtins generalizing table index with
  | nil => rfl
  | cons b rest ih =>
      obtain ⟨new, others⟩ := List.nodup_cons.mp distinct
      have step := ih others (table.defineBuiltin index b.name).2 (index + 1)
      rw [defineBuiltins, step, List.findIdx?_cons]
      by_cases here : b.name = name
      · subst here
        have absent : rest.findIdx? (·.name == b.name) = none := by
          rw [List.findIdx?_eq_none_iff]
          intro c member
          have other : c.name ≠ b.name := fun same => new (List.mem_map.mpr ⟨c, member, same⟩)
          simpa using other
        simp [absent, SymbolTable.defineBuiltin, SymbolTable.put, Scope.findPut]
      · cases later : rest.findIdx? (·.name == name) with
        | none => simp [here, SymbolTable.defineBuiltin, SymbolTable.put, Scope.findPut]
        | some i => simp [here, Nat.add_assoc, Nat.add_comm 1]

theorem freshFind (name : String) :
    Compiler.fresh.table.inner.find? name = (Builtin.all.findIdx? (·.name == name)).map (⟨name, .builtin, ·⟩) := by
  have distinct : (Builtin.all.map (·.name)).Nodup := by decide
  have found := findBuiltins distinct .empty 0 name
  rw [Compiler.fresh, Compiler.resume, found]
  cases Builtin.all.findIdx? (·.name == name) with
  | none => exact Scope.findEmpty name
  | some i => simp

theorem freshFaithful : Faithful [topFrame] Compiler.fresh.table.inner Compiler.fresh.table.outer := by
  refine .root ⟨rfl, rfl, rfl, ?_, ?_, ?_⟩
  · intro name slot found
    cases found
  · intro name symbol absent found
    rw [freshFind, Option.map_eq_some_iff] at found
    obtain ⟨index, at', rfl⟩ := found
    exact ⟨index, rfl, by simp [builtinHome?, at']⟩
  · intro name absent
    rw [freshFind, Option.map_eq_none_iff] at absent
    simp [builtinHome?, absent]

def SymbolTable.scopes (table : SymbolTable) : List Scope := table.inner :: table.outer

/- What some events leave of the scopes and the frames. -/
structure Passed (frames : List LexicalFrame) (events : List Event) (table table' : SymbolTable) : Prop where
  faithful : Faithful (framesAfter frames events) table'.inner table'.outer
  grows : Grows table.scopes table'.scopes
  captured : ∀ level ≤ table.outer.length, ∀ name, name ∈ capturedAt level table'.scopes ↔
    name ∈ capturedAt level table.scopes ∨ name ∈ outerNames level frames events

section Passing
variable {frames : List LexicalFrame} {table table' : SymbolTable}

theorem Passed.depth {events : List Event} (h : Passed frames events table table') :
    table'.outer.length = table.outer.length := (Nat.succ.inj h.grows.length_eq).symm

theorem passedNil (h : Faithful frames table.inner table.outer) : Passed frames [] table table :=
  ⟨h, .refl _, fun level le name => by simp [outerNames]⟩

theorem Passed.append {table'' : SymbolTable} {a b : List Event} (first : Passed frames a table table')
    (second : Passed (framesAfter frames a) b table' table'') : Passed frames (a ++ b) table table'' := by
  refine ⟨?_, first.grows.trans second.grows, fun level le name => ?_⟩
  · rw [framesAfterAppend]
    exact second.faithful
  · rw [second.captured level (by rw [first.depth]; exact le), first.captured level le, outerNamesAppend,
      List.mem_append, or_assoc]

theorem passedUse (h : Faithful frames table.inner table.outer) {name : String} {symbol : Symbol}
    (found : table.resolve name = (some symbol, table')) :
    Passed frames [.use name] table table' ∧ Found frames table'.inner name (some symbol) := by
  have resolved := h.resolve name
  unfold SymbolTable.resolve at found
  cases result : SymbolTable.resolveIn name table.inner table.outer with
  | mk symbol' left =>
      rw [result] at found resolved
      cases found
      refine ⟨⟨resolved.faithful, resolved.grows, fun level le other => ?_⟩, resolved.found⟩
      rw [SymbolTable.scopes, resolved.captured level le other]
      simp [outerNames, usedOutside, SymbolTable.scopes]

theorem passedBind (h : Faithful frames table.inner table.outer) {name : String} {symbol : Symbol}
    (defined : table.define name = (symbol, table')) : Passed frames [.bind name] table table' := by
  have faithful := h.define name
  cases defined
  refine ⟨faithful, .cons List.prefix_rfl (Grows.refl _), fun level le other => ?_⟩
  simp [outerNames, Event.outerNames, SymbolTable.scopes, capturedCons, Scope.put]

/- A `let` stores into the slot that the text counts to. -/
theorem Faithful.store (h : Faithful frames table.inner table.outer) {name : String} {symbol : Symbol}
    (defined : table.define name = (symbol, table')) :
    ∃ frame rest, frames = frame :: rest ∧
      symbol.store = ⟨if table.outer.isEmpty then .setGlobal else .setLocal, [frame.bound.length]⟩ := by
  obtain ⟨scope, outer⟩ := table
  cases defined
  cases h with
  | root own => exact ⟨_, _, rfl, by rw [← own.count]; rfl⟩
  | inner own around => exact ⟨_, _, rfl, by rw [← own.count]; rfl⟩

/- A function is left with its own scope as it is, and around it the scopes that it grew. -/
theorem Passed.leave {name : Option String} {parameters : List String} {body : List Event}
    {outer : Option SymbolTable}
    {own : SymbolTable} (h : Faithful frames table.inner table.outer)
    (inside : Passed (functionFrame name parameters :: frames) body (table.forFunction name parameters) table')
    (left : table'.takeOuter = (outer, own)) :
    own.inner = table'.inner ∧ table'.outer = (outer.getD .empty).scopes ∧
      Passed frames [.function name parameters body] table (outer.getD .empty) := by
  obtain ⟨-, around, -⟩ := h.forFunction name parameters
  have after := framesAfterFrame (functionFrame name parameters) frames body
  obtain ⟨scope, scopes⟩ := table'
  have faithful := inside.faithful
  have grows := inside.grows
  have captured := inside.captured
  simp only [SymbolTable.scopes, after, around] at faithful grows captured
  cases faithful with
  | root alone =>
      cases grows with
      | cons head tail => cases tail
  | @inner _ _ _ next rest kept faithful =>
      cases left
      cases grows with
      | cons head tail =>
          have lengths := tail.length_eq
          simp only [List.length_cons] at lengths captured
          refine ⟨rfl, rfl, ⟨faithful, tail, fun level le other => ?_⟩⟩
          have more := captured level (by omega) other
          have before : level < (table.inner :: table.outer).length := by simp only [List.length_cons]; omega
          have after : level < (next :: rest).length := by simp only [List.length_cons]; omega
          rw [capturedBelow _ before, capturedBelow _ after] at more
          simpa [SymbolTable.scopes, outerNames, Event.outerNames] using more

/- What a function has captured when it is left: once each, the names that it uses from the
functions around it, each as the scope around it has it. Its slots are those of its parameters and `let`s. -/
theorem Passed.captures {name : Option String} {parameters : List String} {body : List Event}
    {outer : Option SymbolTable}
    {own : SymbolTable} (h : Faithful frames table.inner table.outer)
    (inside : Passed (functionFrame name parameters :: frames) body (table.forFunction name parameters) table')
    (left : table'.takeOuter = (outer, own)) :
    own.definitions = parameters.length + (lets body).length ∧ (own.captured.map (·.name)).Nodup ∧
      (∀ other, other ∈ own.captured.map (·.name) ↔
        other ∈ outerNames frames.length (functionFrame name parameters :: frames) body) ∧
      ∀ σ ∈ own.captured, (outer.getD .empty).inner.find? σ.name = some σ ∧ σ.storage.everywhere = false := by
  obtain ⟨-, around, none⟩ := h.forFunction name parameters
  obtain ⟨same, shape, -⟩ := inside.leave h left
  have after := framesAfterFrame (functionFrame name parameters) frames body
  have faithful := inside.faithful
  rw [after, shape] at faithful
  cases faithful with
  | @inner _ _ _ next rest kept faithful =>
      rw [SymbolTable.captured, SymbolTable.definitions, same]
      have count := kept.count
      simp only [functionFrame, List.length_append, List.length_reverse] at count
      refine ⟨by omega, kept.distinct, fun other => ?_, kept.kept⟩
      have depth : (table.forFunction name parameters).outer.length = frames.length := by rw [around, h.lengths]; rfl
      have more := inside.captured frames.length (Nat.le_of_eq depth.symm) other
      rw [SymbolTable.scopes, SymbolTable.scopes, capturedCons, capturedCons, if_pos depth,
        if_pos (inside.depth.trans depth), none] at more
      simpa using more

end Passing

theorem fragmentPasses {s depth e l s' depth'} (h : Fragment s depth e l s' depth') {frames : List LexicalFrame}
    (faithful : Faithful frames s.table.inner s.table.outer) : Passed frames e s.table s'.table := by
  induction h generalizing frames with
  | nil => exact passedNil faithful
  | append first second ih₁ ih₂ =>
      have passed := ih₁ faithful
      exact passed.append (ih₂ passed.faithful)
  | operation i plain enough => exact passedNil faithful
  | constant c literal => exact passedNil faithful
  | use found => exact (passedUse faithful found).1
  | bind defined => exact passedBind faithful defined
  | conditional consequence alternative ih₁ ih₂ =>
      have passed := ih₁ faithful
      exact passed.append (ih₂ passed.faithful)
  | function body ends returns left ih => exact ((ih (faithful.forFunction _ _).1).leave faithful left).2.2

end ClosureCode
