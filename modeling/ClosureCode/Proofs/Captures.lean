import ClosureCode.Proofs.Lookup
import ClosureCode.Proofs.TopLevelLets

/-! What looking names up leaves of the tables: captures, and nothing else. The order in which names are looked up
shows in the indices of captures only. -/
namespace ClosureCode

/- How captures alone leave a scope. What was captured is new here, and what is new here was captured. -/
structure Scope.Grown (scope scope' : Scope) (more : List Symbol) : Prop where
  definitions : scope'.definitions = scope.definitions
  captured : scope'.captured.toList = scope.captured.toList ++ more
  kept : ∀ name symbol, scope.find? name = some symbol → scope'.find? name = some symbol
  gained : ∀ name symbol, scope.find? name = none → scope'.find? name = some symbol →
    symbol.storage = .free ∧ ∃ σ ∈ more, σ.name = name
  unknown : ∀ σ ∈ more, scope.find? σ.name = none

namespace Scope
variable {scope scope' scope'' : Scope} {more more' : List Symbol}

theorem Grown.refl (scope : Scope) : scope.Grown scope [] where
  definitions := rfl
  captured := (List.append_nil _).symm
  kept name symbol found := found
  gained name symbol absent found := by
    rw [absent] at found
    cases found
  unknown σ member := by cases member

theorem Grown.trans (first : scope.Grown scope' more) (second : scope'.Grown scope'' more') :
    scope.Grown scope'' (more ++ more') := by
  have unknown : ∀ name, scope'.find? name = none → scope.find? name = none := by
    intro name absent
    cases known : scope.find? name with
    | none => rfl
    | some symbol =>
        rw [first.kept name symbol known] at absent
        cases absent
  constructor
  case definitions => exact second.definitions.trans first.definitions
  case captured => rw [second.captured, first.captured, List.append_assoc]
  case kept => exact fun name symbol found => second.kept name symbol (first.kept name symbol found)
  case gained =>
    intro name symbol absent found
    cases between : scope'.find? name with
    | none =>
        obtain ⟨free, σ, member, named⟩ := second.gained name symbol between found
        exact ⟨free, σ, List.mem_append_right _ member, named⟩
    | some known =>
        rw [second.kept name known between] at found
        cases found
        obtain ⟨free, σ, member, named⟩ := first.gained name symbol absent between
        exact ⟨free, σ, List.mem_append_left _ member, named⟩
  case unknown =>
    intro σ member
    cases List.mem_append.mp member with
    | inl member => exact first.unknown σ member
    | inr member => exact unknown σ.name (second.unknown σ member)

theorem grownCapture {enclosing : Symbol} (absent : scope.find? enclosing.name = none) :
    scope.Grown (scope.capture enclosing).2 [enclosing] where
  definitions := rfl
  captured := capturedCapture scope enclosing
  kept name symbol := captureKept absent
  gained name symbol unknown found := by
    rw [findCapture] at found
    by_cases same : enclosing.name = name
    · rw [if_pos same] at found
      cases found
      exact ⟨rfl, enclosing, List.mem_singleton_self enclosing, same⟩
    · rw [if_neg same, unknown] at found
      cases found
  unknown σ member := by
    rw [List.mem_singleton.mp member]
    exact absent

/- The names that were captured are those that were not known and now are. -/
theorem Grown.names (h : scope.Grown scope' more) (takes : scope'.Takes) (name : String) :
    name ∈ more.map (·.name) ↔ scope.find? name = none ∧ (scope'.find? name).isSome := by
  constructor
  · intro member
    obtain ⟨σ, captured, rfl⟩ := List.mem_map.mp member
    have here : σ ∈ scope'.captured.toList := by
      rw [h.captured]
      exact List.mem_append_right _ captured
    obtain ⟨symbol, found⟩ := takes.known σ here
    exact ⟨h.unknown σ captured, Option.isSome_of_eq_some found⟩
  · intro ⟨absent, found⟩
    obtain ⟨symbol, found⟩ := Option.isSome_iff_exists.mp found
    obtain ⟨-, σ, member, named⟩ := h.gained name symbol absent found
    exact List.mem_map.mpr ⟨σ, member, named⟩

end Scope

/- Each scope of a chain has at most captured more. -/
def CapturedMore (scopes scopes' : List Scope) : Prop :=
  List.Forall₂ (fun scope scope' => ∃ more, scope.Grown scope' more) scopes scopes'

namespace CapturedMore
variable {a b c : List Scope}

theorem refl (scopes : List Scope) : CapturedMore scopes scopes :=
  List.forall₂_same.mpr fun scope _ => ⟨[], .refl scope⟩

theorem trans (first : CapturedMore a b) (second : CapturedMore b c) : CapturedMore a c := by
  unfold CapturedMore at *
  induction first generalizing c with
  | nil => exact second
  | cons head tail ih =>
      cases second with
      | cons head' tail' =>
          obtain ⟨more, grown⟩ := head
          obtain ⟨more', grown'⟩ := head'
          exact .cons ⟨more ++ more', grown.trans grown'⟩ (ih tail')

end CapturedMore

section Levels
variable {α : Type} {related : α → α → Prop} {a b : List α} {n : Nat} {x y : α}

theorem levelAfter (h : List.Forall₂ related a b) (here : a[n]? = some x) : ∃ y, b[n]? = some y ∧ related x y := by
  induction h generalizing n with
  | nil => simp at here
  | @cons _ y _ _ head tail ih =>
      cases n with
      | zero =>
          cases here
          exact ⟨y, rfl, head⟩
      | succ n => exact ih here

theorem levelBefore (h : List.Forall₂ related a b) (here : b[n]? = some y) : ∃ x, a[n]? = some x ∧ related x y :=
  levelAfter h.flip here

end Levels

namespace SymbolTable

/- The name is bound in a function further out than so many steps, so that to reach the binding takes a capture
there. -/
def Between (table : SymbolTable) (name : String) (n : Nat) : Prop :=
  ∃ steps binding, table.Binds name steps binding ∧ binding.storage.everywhere = false ∧ n < steps

section Looking
variable {name : String} {scope scope' : Scope} {outer outer' : List Scope} {result : Option Symbol}

/- One look captures at most once in each scope. -/
theorem Sound.lookGrows (h : Sound ⟨scope, outer⟩) (look : Resolves name scope outer result scope' outer') :
    List.Forall₂ (fun s s' => ∃ more, s.Grown s' more ∧ more.length ≤ 1) (scope :: outer) (scope' :: outer') := by
  induction look with
  | here found => exact List.forall₂_same.mpr fun s _ => ⟨[], .refl s, Nat.zero_le 1⟩
  | nowhere absent => exact List.forall₂_same.mpr fun s _ => ⟨[], .refl s, Nat.zero_le 1⟩
  | @pass scope next rest result next' rest' absent further passes ih =>
      exact .cons ⟨[], .refl scope, Nat.zero_le 1⟩ (ih (soundInside.mp h).2)
  | @capture scope next rest symbol next' rest' absent further inside ih =>
      have around := (soundInside.mp h).2
      obtain ⟨named, -⟩ := around.captures further inside
      exact .cons ⟨[symbol], Scope.grownCapture (named ▸ absent), Nat.le_refl 1⟩ (ih around)

/- What is new after a look stands for the name that was looked for, in the scopes on the way to its binding. -/
theorem Sound.lookEntries (h : Sound ⟨scope, outer⟩) (look : Resolves name scope outer result scope' outer')
    {other : String} {n : Nat} (absent : entryAt? ⟨scope, outer⟩ n other = none)
    (found : (entryAt? ⟨scope', outer'⟩ n other).isSome) : other = name ∧ Between ⟨scope, outer⟩ name n := by
  induction look generalizing n with
  | here known =>
      rw [absent] at found
      cases found
  | nowhere unknown =>
      rw [absent] at found
      cases found
  | pass unknown further passes ih =>
      cases n with
      | zero =>
          rw [entryHere] at absent found
          rw [absent] at found
          cases found
      | succ n =>
          obtain ⟨same, steps, binding, binds, inside, lt⟩ := ih (soundInside.mp h).2 absent found
          exact ⟨same, steps + 1, binding, binds.out (ownAbsent unknown), inside, Nat.succ_lt_succ lt⟩
  | @capture scope next rest symbol next' rest' unknown further inside ih =>
      have around := (soundInside.mp h).2
      cases n with
      | zero =>
          obtain ⟨named, there⟩ := around.captures further inside
          rw [entryHere] at absent found
          rw [Scope.findCapture, named, absent] at found
          have same : name = other := by
            by_contra apart
            rw [if_neg apart] at found
            cases found
          obtain ⟨steps, binding, binds, -, reach⟩ := (around.looked further).sound.leads there
          have binds := (Binds.congr (around.lookOwn further name)).mp binds
          exact ⟨same.symm, steps + 1, binding, binds.out (ownAbsent unknown), reach.trans inside, Nat.succ_pos steps⟩
      | succ n =>
          obtain ⟨same, steps, binding, binds, inside, lt⟩ := ih around absent found
          exact ⟨same, steps + 1, binding, binds.out (ownAbsent unknown), inside, Nat.succ_lt_succ lt⟩

end Looking

/- What looking some names up makes of a chain of tables. -/
structure Enlarged (table after : SymbolTable) (names : List String) : Prop where
  sound : after.Sound
  levels : CapturedMore table.scopes after.scopes
  root : after.scopes.getLast? = table.scopes.getLast?
  own : ∀ n name, after.own? n name = table.own? n name
  entries : ∀ n name, (after.entryAt? n name).isSome ↔
    (table.entryAt? n name).isSome ∨ name ∈ names ∧ table.Between name n

section Enlarging
variable {table after after' : SymbolTable} {names names' : List String}

theorem entryKept (h : CapturedMore table.scopes after.scopes) {n : Nat} {name : String} {symbol : Symbol}
    (found : table.entryAt? n name = some symbol) : after.entryAt? n name = some symbol := by
  obtain ⟨scope, here, found⟩ := Option.bind_eq_some_iff.mp found
  obtain ⟨scope', here', more, grown⟩ := levelAfter h here
  exact Option.bind_eq_some_iff.mpr ⟨scope', here', grown.kept name symbol found⟩

theorem Between.congr (same : ∀ n name, after.own? n name = table.own? n name) {name : String} {n : Nat} :
    after.Between name n ↔ table.Between name n := by
  simp only [Between, Binds.congr fun n => same n name]

theorem Enlarged.nothing (h : table.Sound) : Enlarged table table [] where
  sound := h
  levels := .refl _
  root := rfl
  own n name := rfl
  entries n name := by simp

theorem Enlarged.trans (first : Enlarged table after names) (second : Enlarged after after' names') :
    Enlarged table after' (names ++ names') where
  sound := second.sound
  levels := first.levels.trans second.levels
  root := second.root.trans first.root
  own n name := (second.own n name).trans (first.own n name)
  entries n name := by
    rw [second.entries, first.entries, Between.congr first.own, List.mem_append, or_assoc, ← or_and_right]

theorem Sound.enlarged (h : table.Sound) (name : String) : Enlarged table (table.resolve name).2 [name] := by
  have look := resolveInResolves name table.inner table.outer
  have levels : CapturedMore table.scopes (table.resolve name).2.scopes :=
    (h.lookGrows look).imp fun _ _ ⟨more, grown, _⟩ => ⟨more, grown⟩
  constructor
  case sound => exact h.resolve name
  case levels => exact levels
  case root => exact (TableKept.resolvesKeeps look).2
  case own => exact fun n other => h.lookOwn look other n
  case entries =>
    intro n other
    constructor
    · intro found
      cases absent : table.entryAt? n other with
      | some symbol => exact .inl rfl
      | none =>
          obtain ⟨same, between⟩ := h.lookEntries look absent found
          exact .inr ⟨List.mem_singleton.mpr same, same ▸ between⟩
    · intro known
      cases known with
      | inl known =>
          obtain ⟨symbol, known⟩ := Option.isSome_iff_exists.mp known
          exact Option.isSome_of_eq_some (entryKept levels known)
      | inr known =>
          obtain ⟨member, steps, binding, binds, inside, lt⟩ := known
          obtain rfl := List.mem_singleton.mp member
          obtain ⟨symbol, -, leads⟩ := (h.resolveOutcome other).leads binds inside
          obtain ⟨σ, found, -⟩ := leads.passes n (Nat.le_of_lt lt)
          exact Option.isSome_of_eq_some found

end Enlarging

def resolveAll (table : SymbolTable) (names : List String) : SymbolTable :=
  names.foldl (fun table name => (table.resolve name).2) table

theorem Sound.enlargedAll {table : SymbolTable} (h : table.Sound) (names : List String) :
    Enlarged table (table.resolveAll names) names := by
  induction names generalizing table with
  | nil => exact .nothing h
  | cons name rest ih => exact (h.enlarged name).trans (ih (h.resolve name))

end SymbolTable

/- All of a symbol but which of the captures it is. -/
def Symbol.unindexed (symbol : Symbol) : Symbol :=
  if symbol.storage = .free then { symbol with index := 0 } else symbol

theorem Symbol.unindexedName (symbol : Symbol) : symbol.unindexed.name = symbol.name := by
  unfold unindexed
  split <;> rfl

/- The same but for the order of captures. -/
structure Scope.Alike (scope scope' : Scope) : Prop where
  definitions : scope'.definitions = scope.definitions
  names : ∀ name, (scope'.find? name).map Symbol.unindexed = (scope.find? name).map Symbol.unindexed
  captured : (scope'.captured.toList.map Symbol.unindexed).Perm (scope.captured.toList.map Symbol.unindexed)

namespace SymbolTable

/- The same but for the order of captures. What a name stands for leads to the same binding. -/
structure Alike (table table' : SymbolTable) : Prop where
  root : table'.scopes.getLast? = table.scopes.getLast?
  levels : List.Forall₂ Scope.Alike table.scopes table'.scopes
  binds : ∀ name steps binding, table'.Binds name steps binding ↔ table.Binds name steps binding
  leads : ∀ name symbol, table.entryAt? 0 name = some symbol → ∃ symbol' steps binding,
    table'.entryAt? 0 name = some symbol' ∧ table.Leads name symbol steps binding ∧
      table'.Leads name symbol' steps binding

theorem chainLevel {table : SymbolTable} {n : Nat} {scope : Scope} (here : table.scopes[n]? = some scope) :
    ⟨scope, table.scopes.drop (n + 1)⟩ ∈ table.chain := by
  obtain ⟨inner, outer⟩ := table
  induction outer generalizing inner n with
  | nil =>
      cases n with
      | zero =>
          cases here
          exact List.mem_singleton_self _
      | succ n => simp [scopes] at here
  | cons next rest ih =>
      cases n with
      | zero =>
          cases here
          exact List.mem_cons_self
      | succ n => exact List.mem_cons_of_mem _ (ih next here)

section Orders
variable {table a b : SymbolTable} {xs ys : List String}

theorem Sound.level (h : table.Sound) {n : Nat} {scope : Scope} (here : table.scopes[n]? = some scope) :
    Consistent ⟨scope, table.scopes.drop (n + 1)⟩ := h _ (chainLevel here)

theorem Sound.named (h : table.Sound) {n : Nat} {name : String} {symbol : Symbol}
    (found : table.entryAt? n name = some symbol) : symbol.name = name := by
  obtain ⟨scope, here, found⟩ := Option.bind_eq_some_iff.mp found
  exact (h.level here).filed.named name symbol found

/- An entry is the table's own, or a capture. -/
theorem ownOrFree {n : Nat} {name : String} {symbol : Symbol} (found : table.entryAt? n name = some symbol) :
    table.own? n name = some symbol ∨ table.own? n name = none ∧ symbol.storage = .free := by
  rw [own?, found, Option.filter_some]
  by_cases free : symbol.storage = .free
  · split
    · exact .inl rfl
    · exact .inr ⟨rfl, free⟩
  · simp [free]

theorem entryOwn {n : Nat} {name : String} {symbol : Symbol} (own : table.own? n name = some symbol) :
    table.entryAt? n name = some symbol := (Option.filter_eq_some_iff.mp own).1

/- After looking up the same names, the tables have entries for the same names, and these differ in indices only. -/
theorem Enlarged.entriesAlike (h : Enlarged table a xs) (h' : Enlarged table b ys)
    (same : ∀ name, name ∈ xs ↔ name ∈ ys) (n : Nat) (name : String) :
    (b.entryAt? n name).map Symbol.unindexed = (a.entryAt? n name).map Symbol.unindexed := by
  have known : (b.entryAt? n name).isSome ↔ (a.entryAt? n name).isSome := by rw [h.entries, h'.entries, same]
  have own : b.own? n name = a.own? n name := (h'.own n name).trans (h.own n name).symm
  cases found : a.entryAt? n name with
  | none =>
      cases found' : b.entryAt? n name with
      | none => rfl
      | some symbol => simp [found, found'] at known
  | some symbol =>
      cases ownOrFree found with
      | inl here => rw [entryOwn (own.trans here)]
      | inr here =>
          obtain ⟨none, free⟩ := here
          obtain ⟨symbol', found'⟩ := Option.isSome_iff_exists.mp (known.mpr (Option.isSome_of_eq_some found))
          have free' : symbol'.storage = .free := by
            cases ownOrFree found' with
            | inl here' =>
                rw [own, none] at here'
                cases here'
            | inr here' => exact here'.2
          have named := (h.sound.named found).trans (h'.sound.named found').symm
          simp only [found', Option.map_some, Symbol.unindexed, free, free', if_true, named]

/- The scope that has none around it is the root. -/
theorem rootLevel {n : Nat} {scope : Scope} (here : table.scopes[n]? = some scope)
    (outermost : table.scopes.length ≤ n + 1) : table.scopes.getLast? = some scope := by
  have lt := (List.getElem?_eq_some_iff.mp here).1
  rw [List.getLast?_eq_getElem?, show table.scopes.length - 1 = n by omega, here]

/- A capture is what the table around has under the name. -/
theorem Sound.around (h : table.Sound) {n : Nat} {scope : Scope} (here : table.scopes[n]? = some scope)
    (more : n + 1 < table.scopes.length) {σ : Symbol} (member : σ ∈ scope.captured.toList) :
    table.entryAt? (n + 1) σ.name = some σ := by
  have next := List.getElem?_eq_getElem more
  refine Option.bind_eq_some_iff.mpr ⟨_, next, (h.level here).current _ ?_ σ member⟩
  exact List.head?_drop.trans next

/- What was captured in one table was captured in the other, though perhaps not at the same time. -/
theorem Enlarged.capturedAlike (h : Enlarged table a xs) (h' : Enlarged table b ys)
    (same : ∀ name, name ∈ xs ↔ name ∈ ys) {n : Nat} {scope scope' : Scope} (here : a.scopes[n]? = some scope)
    (here' : b.scopes[n]? = some scope') :
    ∀ σ ∈ scope.captured.toList, ∃ σ' ∈ scope'.captured.toList, σ'.unindexed = σ.unindexed := by
  intro σ member
  obtain ⟨before, there, more, grown⟩ := levelBefore h.levels here
  obtain ⟨_, there', more', grown'⟩ := levelBefore h'.levels here'
  cases there.symm.trans there'
  have entry : ∀ name, a.entryAt? n name = scope.find? name := fun name => by simp [entryAt?, here]
  have entry' : ∀ name, b.entryAt? n name = scope'.find? name := fun name => by simp [entryAt?, here']
  rw [grown.captured, List.mem_append] at member
  rw [grown'.captured]
  cases member with
  | inl old => exact ⟨σ, List.mem_append_left _ old, rfl⟩
  | inr new =>
      have member : σ ∈ scope.captured.toList := by
        rw [grown.captured]
        exact List.mem_append_right _ new
      have named : σ.name ∈ more.map (·.name) := List.mem_map_of_mem new
      obtain ⟨absent, found⟩ := (grown.names (h.sound.level here).takes σ.name).mp named
      have found' : (scope'.find? σ.name).isSome := by
        rw [← entry', ← Option.isSome_map, h.entriesAlike h' same, Option.isSome_map, entry]
        exact found
      have named' := (grown'.names (h'.sound.level here').takes σ.name).mpr ⟨absent, found'⟩
      obtain ⟨σ', new', named'⟩ := List.mem_map.mp named'
      refine ⟨σ', List.mem_append_right _ new', ?_⟩
      -- Both are what the table around has under the name, but the root has captured nothing.
      by_cases inner : n + 1 < a.scopes.length
      · have inner' : n + 1 < b.scopes.length := by
          rw [← h'.levels.length_eq, h.levels.length_eq]
          exact inner
        have captured := h.sound.around here inner member
        have captured' := h'.sound.around here' inner' (grown'.captured ▸ List.mem_append_right _ new')
        have alike := h.entriesAlike h' same (n + 1) σ.name
        rw [captured, ← named', captured'] at alike
        exact Option.some.inj alike
      · have outermost := Nat.le_of_not_lt inner
        have root := rootLevel here outermost
        rw [h.root, rootLevel there (Nat.le_trans (Nat.le_of_eq h.levels.length_eq) outermost)] at root
        cases root
        rw [absent] at found
        cases found

/- Where two tables have the same bindings, what they have under a name leads to the same. -/
theorem Sound.leadsAlike (h : a.Sound) (h' : b.Sound) {name : String} {symbol symbol' : Symbol}
    (own : ∀ n, b.own? n name = a.own? n name) (found : a.entryAt? 0 name = some symbol)
    (found' : b.entryAt? 0 name = some symbol') :
    ∃ steps binding, a.Leads name symbol steps binding ∧ b.Leads name symbol' steps binding := by
  obtain ⟨steps, binding, there, leads, -⟩ := Sound.leads h found
  obtain ⟨steps', binding', there', leads', -⟩ := Sound.leads h' found'
  obtain ⟨rfl, rfl⟩ := there.once ((Binds.congr own).mp there')
  exact ⟨steps, binding, leads, leads'⟩

theorem unindexedDistinct {scope : Scope} (takes : scope.Takes) :
    (scope.captured.toList.map Symbol.unindexed).Nodup := by
  refine List.Nodup.of_map (·.name) ?_
  rw [List.map_map, show (·.name) ∘ Symbol.unindexed = (·.name) from funext Symbol.unindexedName]
  exact takes.distinct

theorem Enlarged.scopesAlike (h : Enlarged table a xs) (h' : Enlarged table b ys)
    (same : ∀ name, name ∈ xs ↔ name ∈ ys) {n : Nat} {scope scope' : Scope} (here : a.scopes[n]? = some scope)
    (here' : b.scopes[n]? = some scope') : scope.Alike scope' := by
  constructor
  case definitions =>
    obtain ⟨before, there, more, grown⟩ := levelBefore h.levels here
    obtain ⟨before', there', more', grown'⟩ := levelBefore h'.levels here'
    cases there.symm.trans there'
    exact grown'.definitions.trans grown.definitions.symm
  case names =>
    intro name
    have alike := h.entriesAlike h' same n name
    simpa [entryAt?, here, here'] using alike
  case captured =>
    refine (List.perm_ext_iff_of_nodup ?_ ?_).mpr fun symbol => ?_
    · exact unindexedDistinct (h'.sound.level here').takes
    · exact unindexedDistinct (h.sound.level here).takes
    · simp only [List.mem_map]
      constructor
      · intro ⟨σ, member, alike⟩
        obtain ⟨σ', member', alike'⟩ := h'.capturedAlike h (fun name => (same name).symm) here' here σ member
        exact ⟨σ', member', alike'.trans alike⟩
      · intro ⟨σ, member, alike⟩
        obtain ⟨σ', member', alike'⟩ := h.capturedAlike h' same here here' σ member
        exact ⟨σ', member', alike'.trans alike⟩

theorem Enlarged.alike (h : Enlarged table a xs) (h' : Enlarged table b ys) (same : ∀ name, name ∈ xs ↔ name ∈ ys) :
    Alike a b := by
  have own : ∀ n name, b.own? n name = a.own? n name := fun n name => (h'.own n name).trans (h.own n name).symm
  constructor
  case root => exact h'.root.trans h.root.symm
  case levels =>
    refine List.forall₂_iff_get.mpr ⟨h.levels.length_eq.symm.trans h'.levels.length_eq, fun n lt lt' => ?_⟩
    exact h.scopesAlike h' same (List.getElem?_eq_getElem lt) (List.getElem?_eq_getElem lt')
  case binds => exact fun name steps binding => Binds.congr fun n => own n name
  case leads =>
    intro name symbol found
    have known : (b.entryAt? 0 name).isSome := by
      rw [← Option.isSome_map, h.entriesAlike h' same, Option.isSome_map, found]
      rfl
    obtain ⟨symbol', found'⟩ := Option.isSome_iff_exists.mp known
    obtain ⟨steps, binding, leads, leads'⟩ := h.sound.leadsAlike h'.sound (fun n => own n name) found found'
    exact ⟨symbol', steps, binding, found', leads, leads'⟩

end Orders

/- What one look for a name leaves of the chain. Where the name is found, it is found again. What another name
stood for, it still stands for. -/
structure Undisturbed (table : SymbolTable) (name : String) (result : Option Symbol) (after : SymbolTable) : Prop where
  absent : result = none → after = table
  again : ∀ symbol, result = some symbol → after.resolve name = (some symbol, after)
  root : after.scopes.getLast? = table.scopes.getLast?
  levels : List.Forall₂ (fun s s' => ∃ more, s.Grown s' more ∧ more.length ≤ 1) table.scopes after.scopes
  binds : ∀ other steps binding, after.Binds other steps binding ↔ table.Binds other steps binding
  leads : ∀ other symbol, table.entryAt? 0 other = some symbol → ∃ steps binding,
    after.entryAt? 0 other = some symbol ∧ table.Leads other symbol steps binding ∧
      after.Leads other symbol steps binding

section Again
variable {table : SymbolTable} {name : String}

/- Nothing is changed for a name that is nowhere, or that can be reached from everywhere. -/
theorem resolvePlain (plain : ∀ symbol, (table.resolve name).1 = some symbol → symbol.storage.everywhere) :
    (table.resolve name).2 = table := by
  obtain ⟨inner, outer, -⟩ := lookPlain (resolveInResolves name table.inner table.outer) plain
  exact congrArg₂ SymbolTable.mk inner outer

theorem Sound.resolveAgain (h : table.Sound) {symbol : Symbol} (found : (table.resolve name).1 = some symbol) :
    (table.resolve name).2.resolve name = (some symbol, (table.resolve name).2) := by
  cases reach : symbol.storage.everywhere with
  | true =>
      have same : (table.resolve name).2 = table := resolvePlain fun symbol' found' => by
        cases found.symm.trans found'
        exact reach
      rw [same]
      exact Prod.ext found same
  | false =>
      have look := resolveInResolves name table.inner table.outer
      have known := (h.looked look).found symbol found reach
      have named := (h.resolve name).own.filed.named name symbol known
      rw [← named] at known ⊢
      exact resolveKnown known

end Again

end SymbolTable

/- Looking names up disturbs nothing but captures, in every chain of tables that any history leads to. -/
theorem lookupDisturbs (history : List TableStep) {table : SymbolTable} (reached : table ∈ tablesAfter history) :
    (∀ name, table.Undisturbed name (table.resolve name).1 (table.resolve name).2) ∧
      ∀ names names', (∀ name, name ∈ names ↔ name ∈ names') →
        (table.resolveAll names).Alike (table.resolveAll names') := by
  have sound : table.Sound := tablesSound history table reached
  constructor
  · intro name
    have enlarged := sound.enlarged name
    constructor
    case absent =>
      intro none
      refine SymbolTable.resolvePlain fun symbol found => ?_
      rw [none] at found
      cases found
    case again => exact fun symbol found => sound.resolveAgain found
    case root => exact enlarged.root
    case levels => exact sound.lookGrows (SymbolTable.resolveInResolves name table.inner table.outer)
    case binds => exact fun other steps binding => SymbolTable.Binds.congr fun n => enlarged.own n other
    case leads =>
      intro other symbol found
      have found' := SymbolTable.entryKept enlarged.levels found
      have own := fun n => enlarged.own n other
      obtain ⟨steps, binding, leads, leads'⟩ := sound.leadsAlike enlarged.sound own found found'
      exact ⟨steps, binding, found', leads, leads'⟩
  · exact fun names names' same => (sound.enlargedAll names).alike (sound.enlargedAll names') same

theorem lookupDisturbsNested : ∃ table ∈ tablesAfter nestedHistory,
    (table.resolveAll ["x", "z"]).captured.map (·.name) = ["y", "x", "z"] ∧
      (table.resolveAll ["z", "x"]).captured.map (·.name) = ["y", "z", "x"] ∧
        table.Undisturbed "x" (table.resolve "x").1 (table.resolve "x").2 ∧
          (table.resolveAll ["x", "z"]).Alike (table.resolveAll ["z", "x"]) := by
  obtain ⟨table, reached, first, second⟩ : ∃ table ∈ tablesAfter nestedHistory,
      (table.resolveAll ["x", "z"]).captured.map (·.name) = ["y", "x", "z"] ∧
        (table.resolveAll ["z", "x"]).captured.map (·.name) = ["y", "z", "x"] := by decide
  obtain ⟨undisturbed, alike⟩ := lookupDisturbs nestedHistory reached
  exact ⟨table, reached, first, second, undisturbed "x", alike ["x", "z"] ["z", "x"] fun name => by simp [or_comm]⟩

end ClosureCode
