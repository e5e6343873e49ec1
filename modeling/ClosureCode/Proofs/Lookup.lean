import ClosureCode.Proofs.TableHistory
import Mathlib.Data.List.Nodup

/-! Looking a name up, in every table that a history can lead to. The nearest table with a binding of its own
decides. What lies further in has the name by captures, and following these from the symbol that was found
leads to that binding. -/
namespace ClosureCode

/- What a symbol of the innermost scope was captured from, some scopes further out. -/
def follow : Nat → Symbol → List Scope → Option Symbol
  | 0, symbol, _ => some symbol
  | steps + 1, symbol, scope :: outer =>
      if symbol.storage = .free then scope.captured.toList[symbol.index]?.bind (follow steps · outer) else none
  | _ + 1, _, [] => none

namespace SymbolTable

/- What the table some steps further out has under a name. -/
def entryAt? (table : SymbolTable) (steps : Nat) (name : String) : Option Symbol :=
  table.scopes[steps]?.bind (·.find? name)

/- An entry is a table's own unless it was captured from the table around. There is none around the root. -/
def own? (table : SymbolTable) (steps : Nat) (name : String) : Option Symbol :=
  (table.entryAt? steps name).filter fun symbol => symbol.storage ≠ .free || steps = table.outer.length

/- The nearest table with a binding of its own is so many steps further out. -/
structure Binds (table : SymbolTable) (name : String) (steps : Nat) (binding : Symbol) : Prop where
  own : table.own? steps name = some binding
  nearest : ∀ nearer < steps, table.own? nearer name = none

def capturedNames (table : SymbolTable) (steps : Nat) : List String :=
  (table.scopes[steps]?.map fun scope => scope.captured.toList.map (·.name)).getD []

/- Captures lead from the symbol to the binding. On the way they pass what each table has under the name. -/
structure Leads (table : SymbolTable) (name : String) (symbol : Symbol) (steps : Nat) (binding : Symbol) : Prop where
  passes : ∀ n ≤ steps, ∃ σ, table.entryAt? n name = some σ ∧ follow n symbol table.scopes = some σ
  arrives : follow steps symbol table.scopes = some binding
  once : ∀ n < steps, (table.capturedNames n).count name = 1

section Chains
variable {table table' : SymbolTable} {scope next : Scope} {outer rest : List Scope} {name : String}

theorem entryHere : entryAt? ⟨scope, outer⟩ 0 name = scope.find? name := rfl

theorem entryNext (steps : Nat) :
    entryAt? ⟨scope, next :: rest⟩ (steps + 1) name = entryAt? ⟨next, rest⟩ steps name := rfl

theorem ownRoot : own? ⟨scope, []⟩ 0 name = scope.find? name := by
  cases found : scope.find? name <;> simp [own?, entryHere, found]

theorem ownInner :
    own? ⟨scope, next :: rest⟩ 0 name = (scope.find? name).filter fun symbol => symbol.storage ≠ .free := by
  simp [own?, entryHere]

theorem ownNext (steps : Nat) : own? ⟨scope, next :: rest⟩ (steps + 1) name = own? ⟨next, rest⟩ steps name := by
  simp [own?, entryNext]

theorem ownAbsent (absent : scope.find? name = none) : own? ⟨scope, outer⟩ 0 name = none := by
  simp [own?, entryHere, absent]

/- What is not a capture is a binding. -/
theorem ownFound {symbol : Symbol} (found : scope.find? name = some symbol) (bound : symbol.storage ≠ .free) :
    own? ⟨scope, outer⟩ 0 name = some symbol := by
  simp [own?, entryHere, found, bound]

theorem bindsHere {binding : Symbol} (own : table.own? 0 name = some binding) : table.Binds name 0 binding :=
  ⟨own, fun nearer lt => absurd lt (Nat.not_lt_zero nearer)⟩

theorem Binds.out {steps : Nat} {binding : Symbol} (h : Binds ⟨next, rest⟩ name steps binding)
    (absent : own? ⟨scope, next :: rest⟩ 0 name = none) : Binds ⟨scope, next :: rest⟩ name (steps + 1) binding := by
  constructor
  case own =>
    rw [ownNext]
    exact h.own
  case nearest =>
    intro nearer lt
    cases nearer with
    | zero => exact absent
    | succ nearer =>
        rw [ownNext]
        exact h.nearest nearer (Nat.lt_of_succ_lt_succ lt)

theorem Binds.once {steps steps' : Nat} {binding binding' : Symbol} (h : table.Binds name steps binding)
    (h' : table.Binds name steps' binding') : steps = steps' ∧ binding = binding' := by
  have apart : ∀ {n m b b'}, table.Binds name n b → table.Binds name m b' → ¬ n < m := by
    intro n m b b' near far lt
    have none := far.nearest n lt
    rw [near.own] at none
    cases none
  have same : steps = steps' := Nat.le_antisymm (Nat.le_of_not_lt (apart h' h)) (Nat.le_of_not_lt (apart h h'))
  subst same
  exact ⟨rfl, Option.some.inj (h.own.symm.trans h'.own)⟩

theorem notBound (unbound : ∀ steps, table.own? steps name = none) (steps : Nat) (binding : Symbol) :
    ¬ table.Binds name steps binding := by
  intro h
  have own := h.own
  rw [unbound] at own
  cases own

/- Bindings are the same where the tables have the same of their own. -/
theorem Binds.congr {steps : Nat} {binding : Symbol} (same : ∀ n, table'.own? n name = table.own? n name) :
    table'.Binds name steps binding ↔ table.Binds name steps binding := by
  constructor
  · intro h
    exact ⟨(same steps).symm.trans h.own, fun nearer lt => (same nearer).symm.trans (h.nearest nearer lt)⟩
  · intro h
    exact ⟨(same steps).trans h.own, fun nearer lt => (same nearer).trans (h.nearest nearer lt)⟩

end Chains

section Bindings
variable {scope : Scope} {outer : List Scope} {name : String} {symbol : Symbol}

/- A capture goes on where the table around has what was captured. -/
theorem Leads.out {next : Scope} {rest : List Scope} {σ binding : Symbol} {steps : Nat} (takes : scope.Takes)
    (found : scope.find? name = some symbol) (free : symbol.storage = .free)
    (captured : scope.captured.toList[symbol.index]? = some σ) (named : σ.name = name)
    (h : Leads ⟨next, rest⟩ name σ steps binding) :
    Leads ⟨scope, next :: rest⟩ name symbol (steps + 1) binding := by
  have further : ∀ n, follow (n + 1) symbol (scope :: next :: rest) = follow n σ (next :: rest) := by
    intro n
    simp [follow, free, captured]
  constructor
  case passes =>
    intro n le
    cases n with
    | zero => exact ⟨symbol, found, rfl⟩
    | succ n =>
        obtain ⟨τ, entry, passed⟩ := h.passes n (Nat.le_of_succ_le_succ le)
        exact ⟨τ, entry, (further n).trans passed⟩
  case arrives => exact (further steps).trans h.arrives
  case once =>
    intro n lt
    cases n with
    | zero =>
        have member : name ∈ scope.captured.toList.map (·.name) :=
          List.mem_map.mpr ⟨σ, List.mem_of_getElem? captured, named⟩
        exact List.count_eq_one_of_mem takes.distinct member
    | succ n => exact h.once n (Nat.lt_of_succ_lt_succ lt)

theorem leadsHere (found : scope.find? name = some symbol) : Leads ⟨scope, outer⟩ name symbol 0 symbol := by
  constructor
  case passes =>
    intro n le
    obtain rfl := Nat.le_zero.mp le
    exact ⟨symbol, found, rfl⟩
  case arrives => rfl
  case once => exact fun n lt => absurd lt (Nat.not_lt_zero n)

/- Whatever a table has under a name leads to the binding of the name. -/
theorem Sound.leads (h : Sound ⟨scope, outer⟩) (found : scope.find? name = some symbol) :
    ∃ steps binding, Binds ⟨scope, outer⟩ name steps binding ∧ Leads ⟨scope, outer⟩ name symbol steps binding ∧
      binding.storage.everywhere = symbol.storage.everywhere := by
  induction outer generalizing scope symbol with
  | nil => exact ⟨0, symbol, bindsHere (ownRoot.trans found), leadsHere found, rfl⟩
  | cons next rest ih =>
      by_cases free : symbol.storage = .free
      · obtain ⟨own, around⟩ := soundInside.mp h
        obtain ⟨σ, captured, named⟩ := own.filed.free name symbol found free
        have member := List.mem_of_getElem? captured
        have known := own.current next rfl σ member
        rw [named] at known
        obtain ⟨steps, binding, binds, leads, reach⟩ := ih around known
        have absent : own? ⟨scope, next :: rest⟩ 0 name = none := by simp [ownInner, found, free]
        have inside : binding.storage.everywhere = symbol.storage.everywhere := by
          rw [reach, own.takes.inside σ member, free]
          rfl
        exact ⟨steps + 1, binding, binds.out absent, leads.out own.takes found free captured named, inside⟩
      · exact ⟨0, symbol, bindsHere (ownFound found free), leadsHere found, rfl⟩

end Bindings

/- How a look for a name ends: nothing was found, or the binding itself, or a symbol that leads to it. -/
inductive Outcome (table : SymbolTable) (name : String) : Option Symbol → SymbolTable → Prop where
  | nowhere (unbound : ∀ steps binding, ¬ table.Binds name steps binding) : Outcome table name none table
  | everywhere {steps binding} (binds : table.Binds name steps binding) (reach : binding.storage.everywhere) :
      Outcome table name (some binding) table
  | inside {steps binding symbol after} (binds : table.Binds name steps binding)
      (reach : binding.storage.everywhere = false) (leads : after.Leads name symbol steps binding) :
      Outcome table name (some symbol) after

section Outcomes
variable {table after : SymbolTable} {name : String} {result : Option Symbol} {steps : Nat} {binding : Symbol}

theorem Outcome.absent (h : Outcome table name result after) :
    result = none ↔ ∀ steps binding, ¬ table.Binds name steps binding := by
  have found : ∀ {symbol : Symbol} {steps binding}, table.Binds name steps binding →
      (some symbol = none ↔ ∀ steps binding, ¬ table.Binds name steps binding) := by
    intro symbol steps binding binds
    constructor
    · intro none
      cases none
    · exact fun unbound => absurd binds (unbound steps binding)
  cases h with
  | nowhere unbound => exact ⟨fun _ => unbound, fun _ => rfl⟩
  | everywhere binds reach => exact found binds
  | inside binds reach leads => exact found binds

/- A binding of the innermost table needs no capture. -/
theorem Outcome.own (h : Outcome table name result after) (here : table.Binds name 0 binding) :
    result = some binding := by
  cases h with
  | nowhere unbound => exact absurd here (unbound 0 binding)
  | everywhere binds reach =>
      obtain ⟨-, rfl⟩ := binds.once here
      rfl
  | inside binds reach leads =>
      obtain ⟨rfl, rfl⟩ := binds.once here
      exact leads.arrives

/- Nor does one that can be reached from everywhere. -/
theorem Outcome.plain (h : Outcome table name result after) (there : table.Binds name steps binding)
    (reach : binding.storage.everywhere) : result = some binding ∧ after = table := by
  cases h with
  | nowhere unbound => exact absurd there (unbound steps binding)
  | everywhere binds reach =>
      obtain ⟨-, rfl⟩ := binds.once there
      exact ⟨rfl, rfl⟩
  | inside binds inside leads =>
      obtain ⟨-, rfl⟩ := binds.once there
      rw [reach] at inside
      cases inside

/- A binding in a function is what the symbol leads to. -/
theorem Outcome.leads (h : Outcome table name result after) (there : table.Binds name steps binding)
    (inside : binding.storage.everywhere = false) :
    ∃ symbol, result = some symbol ∧ after.Leads name symbol steps binding := by
  cases h with
  | nowhere unbound => exact absurd there (unbound steps binding)
  | everywhere binds reach =>
      obtain ⟨-, rfl⟩ := binds.once there
      rw [reach] at inside
      cases inside
  | @inside _ _ symbol _ binds reach leads =>
      obtain ⟨rfl, rfl⟩ := binds.once there
      exact ⟨symbol, rfl, leads⟩

end Outcomes

section Looking
variable {name : String} {scope scope' : Scope} {outer outer' : List Scope} {result : Option Symbol}

/- What a scope captures is what the scope around has under the name. -/
theorem Sound.captures {symbol : Symbol} (h : Sound ⟨scope, outer⟩)
    (look : Resolves name scope outer (some symbol) scope' outer') (inside : symbol.storage.everywhere = false) :
    symbol.name = name ∧ scope'.find? name = some symbol := by
  have looked := h.looked look
  have found := looked.found symbol rfl inside
  exact ⟨looked.sound.own.filed.named name symbol found, found⟩

/- Captures are no bindings. -/
theorem Sound.lookOwn (h : Sound ⟨scope, outer⟩) (look : Resolves name scope outer result scope' outer')
    (other : String) (steps : Nat) : own? ⟨scope', outer'⟩ steps other = own? ⟨scope, outer⟩ steps other := by
  induction look generalizing steps with
  | here found => rfl
  | nowhere absent => rfl
  | pass absent further passes ih =>
      cases steps with
      | zero => rw [ownInner, ownInner]
      | succ steps => rw [ownNext, ownNext, ih (soundInside.mp h).2]
  | @capture scope next rest symbol next' rest' absent further inside ih =>
      cases steps with
      | zero =>
          obtain ⟨named, -⟩ := (soundInside.mp h).2.captures further inside
          rw [ownInner, ownInner, Scope.findCapture, named]
          by_cases same : name = other
          · simp [← same, absent]
          · rw [if_neg same]
      | succ steps => rw [ownNext, ownNext, ih (soundInside.mp h).2]

/- What can be reached from everywhere, or is nowhere, is not captured. -/
theorem lookPlain (look : Resolves name scope outer result scope' outer')
    (plain : ∀ symbol, result = some symbol → symbol.storage.everywhere) :
    scope' = scope ∧ outer' = outer ∧ match result with
      | none => ∀ steps, own? ⟨scope, outer⟩ steps name = none
      | some symbol => ∃ steps, Binds ⟨scope, outer⟩ name steps symbol := by
  induction look with
  | @here scope outer symbol found =>
      have reach := plain symbol rfl
      have bound : symbol.storage ≠ .free := by
        intro free
        rw [free] at reach
        cases reach
      exact ⟨rfl, rfl, 0, bindsHere (ownFound found bound)⟩
  | nowhere absent =>
      refine ⟨rfl, rfl, fun steps => ?_⟩
      cases steps with
      | zero => exact ownAbsent absent
      | succ steps => rfl
  | @pass scope next rest result next' rest' absent further passes ih =>
      obtain ⟨rfl, rfl, found⟩ := ih plain
      refine ⟨rfl, rfl, ?_⟩
      cases result with
      | none =>
          intro steps
          cases steps with
          | zero => exact ownAbsent absent
          | succ steps => exact (ownNext steps).trans (found steps)
      | some symbol =>
          obtain ⟨steps, binds⟩ := found
          exact ⟨steps + 1, binds.out (ownAbsent absent)⟩
  | capture absent further inside ih =>
      have reach := plain _ rfl
      cases reach

theorem Sound.outcome (h : Sound ⟨scope, outer⟩) (look : Resolves name scope outer result scope' outer') :
    Outcome ⟨scope, outer⟩ name result ⟨scope', outer'⟩ := by
  cases result with
  | none =>
      obtain ⟨rfl, rfl, unbound⟩ := lookPlain look fun _ same => by cases same
      exact .nowhere (notBound unbound)
  | some symbol =>
      cases reach : symbol.storage.everywhere with
      | true =>
          obtain ⟨rfl, rfl, steps, binds⟩ := lookPlain look fun _ same => by cases same; exact reach
          exact .everywhere binds reach
      | false =>
          have looked := h.looked look
          obtain ⟨steps, binding, binds, leads, same⟩ := looked.sound.leads (looked.found symbol rfl reach)
          have binds := (Binds.congr (h.lookOwn look name)).mp binds
          exact .inside binds (same.trans reach) leads

theorem Sound.resolveOutcome {table : SymbolTable} (h : table.Sound) (name : String) :
    Outcome table name (table.resolve name).1 (table.resolve name).2 :=
  h.outcome (resolveInResolves name table.inner table.outer)

end Looking

/- Look-ups at any depth. The nearest binding decides; to one of a function around, captures lead. -/
structure LooksUp (table : SymbolTable) (name : String) (result : Option Symbol) (after : SymbolTable) : Prop where
  nowhere : result = none ↔ ∀ steps binding, ¬ table.Binds name steps binding
  own : ∀ binding, table.Binds name 0 binding → result = some binding
  everywhere : ∀ steps binding, table.Binds name steps binding → binding.storage.everywhere →
    result = some binding ∧ after = table
  captured : ∀ steps binding, table.Binds name (steps + 1) binding → binding.storage.everywhere = false →
    ∃ index, result = some ⟨name, .free, index⟩ ∧ after.Leads name ⟨name, .free, index⟩ (steps + 1) binding

/- Captures lead on from captures only. -/
theorem Leads.free {table : SymbolTable} {name : String} {symbol binding : Symbol} {steps : Nat}
    (h : table.Leads name symbol (steps + 1) binding) : symbol.storage = .free := by
  have arrives := h.arrives
  unfold follow scopes at arrives
  simp only [Option.ite_none_right_eq_some] at arrives
  exact arrives.1

end SymbolTable

open SymbolTable

/- In every chain of tables that any history leads to, looking a name up is lexical. -/
theorem lexicalLookup (history : List TableStep) {table : SymbolTable} (reached : table ∈ tablesAfter history)
    (name : String) : table.LooksUp name (table.resolve name).1 (table.resolve name).2 := by
  have sound : table.Sound := tablesSound history table reached
  have named : ∀ symbol, (table.resolve name).2.entryAt? 0 name = some symbol → symbol.name = name :=
    (sound.resolve name).own.filed.named name
  have outcome := sound.resolveOutcome name
  generalize (table.resolve name).1 = result, (table.resolve name).2 = after at outcome named
  constructor
  case nowhere => exact outcome.absent
  case own => exact fun binding here => outcome.own here
  case everywhere => exact fun steps binding there reach => outcome.plain there reach
  case captured =>
    intro steps binding there inside
    obtain ⟨⟨name', storage, index⟩, rfl, leads⟩ := outcome.leads there inside
    obtain ⟨σ, entry, same⟩ := leads.passes 0 (Nat.zero_le _)
    cases same
    cases leads.free
    cases named _ entry
    exact ⟨index, rfl, leads⟩

/- Three locals of a function, of which a function two further in has captured one. -/
def nestedHistory : List TableStep :=
  [.new, .act 0 (.define "g"), .act 0 .enclose, .act 0 (.define "x"), .act 0 (.define "y"), .act 0 (.define "z"),
    .act 0 .enclose, .act 0 .enclose, .act 0 (.resolve "y")]

theorem lexicalLookupNested : ∃ table ∈ tablesAfter nestedHistory, table.own? 2 "x" = some ⟨"x", .local, 0⟩ ∧
    (table.resolve "x").1 = some ⟨"x", .free, 1⟩ ∧
      table.LooksUp "x" (table.resolve "x").1 (table.resolve "x").2 := by
  obtain ⟨table, reached, own, found⟩ : ∃ table ∈ tablesAfter nestedHistory,
      table.own? 2 "x" = some ⟨"x", .local, 0⟩ ∧ (table.resolve "x").1 = some ⟨"x", .free, 1⟩ := by decide
  exact ⟨table, reached, own, found, lexicalLookup nestedHistory reached "x"⟩

end ClosureCode
