import ClosureCode.Builtin.Call
import ClosureCode.Proofs.EntryOrder
import Mathlib.Data.List.Perm.Subperm

/-! Equality of objects is an equivalence, and equal objects are the same key. Hashes are compared from
one side only: as many entries on both sides, and each of the left found on the right. -/
namespace ClosureCode

/- The kinds that hold other objects. -/
def Kind.compound : Kind → Bool
  | .returned | .array | .hash => true
  | _ => false

namespace Object

/- Under a hash key a hash has one entry, here and in all that is inside. Objects are not made otherwise, as
`hashOfPairsProper` and `Builtin.resultProper` say. -/
inductive Proper : Object → Prop where
  | simple {o} (alone : o.kind.compound = false) : Proper o
  | returned {o} (inner : Proper o) : Proper (.returned o)
  | array {elements} (each : ∀ o ∈ elements, Proper o) : Proper (.array elements)
  | hash {entries} (once : (entryKeys entries).Nodup) (keys : ∀ e ∈ entries, Proper e.key)
      (values : ∀ e ∈ entries, Proper e.value) : Proper (.hash entries)

/- What it comes down to that two objects are equal. -/
inductive SameContent : Object → Object → Prop where
  | simple {o} (alone : o.kind.compound = false) : SameContent o o
  | function {f g} (same : f.identity = g.identity) : SameContent (.function f) (.function g)
  | returned {a b : Object} (inner : a.equal b) : SameContent (.returned a) (.returned b)
  | array {elements others : List Object} (size : elements.length = others.length)
      (each : ∀ (i : Nat) (here : i < elements.length) (there : i < others.length), elements[i].equal others[i]) :
      SameContent (.array elements) (.array others)
  | hash {entries others} (size : entries.length = others.length)
      (found : ∀ e ∈ entries, ∃ other, findEntry? e.hashKey others = some other ∧
        e.key.equal other.key ∧ e.value.equal other.value) :
      SameContent (.hash entries) (.hash others)

end Object

open Object

theorem equalListsIff {elements others : List Object} :
    equalLists elements others ↔ elements.length = others.length ∧
      ∀ (i : Nat) (here : i < elements.length) (there : i < others.length), elements[i].equal others[i] := by
  induction elements generalizing others with
  | nil => cases others <;> simp [equalLists]
  | cons a rest ih =>
      cases others with
      | nil => simp [equalLists]
      | cons b others =>
          rw [equalLists, Bool.and_eq_true, ih]
          constructor
          · rintro ⟨first, size, later⟩
            refine ⟨congrArg Nat.succ size, fun i here there => ?_⟩
            cases i with
            | zero => exact first
            | succ i => exact later i (Nat.lt_of_succ_lt_succ here) (Nat.lt_of_succ_lt_succ there)
          · rintro ⟨size, each⟩
            exact ⟨each 0 (Nat.succ_pos _) (Nat.succ_pos _), Nat.succ.inj size, fun i here there =>
              each (i + 1) (Nat.succ_lt_succ here) (Nat.succ_lt_succ there)⟩

theorem entriesWithinIff {entries others : List Entry} :
    entriesWithin others entries ↔ ∀ e ∈ entries, ∃ other, findEntry? e.hashKey others = some other ∧
      e.key.equal other.key ∧ e.value.equal other.value := by
  induction entries with
  | nil => simp [entriesWithin]
  | cons e rest ih =>
      obtain ⟨key, k, v⟩ := e
      rw [entriesWithin, Bool.and_eq_true, ih, List.forall_mem_cons, Entry.foundIn]
      cases findEntry? key others <;> simp

theorem equalIff {a b : Object} : a.equal b ↔ SameContent a b := by
  constructor
  · intro same
    cases a <;> cases b <;> simp only [Object.equal, beq_iff_eq, Bool.false_eq_true, Bool.and_eq_true] at same
    case null.null => exact .simple rfl
    case function.function => exact .function same
    case returned.returned => exact .returned same
    case array.array => exact .array (equalListsIff.mp same).1 (equalListsIff.mp same).2
    case hash.hash => exact .hash same.1 (entriesWithinIff.mp same.2)
    all_goals
      subst same
      exact .simple rfl
  · intro content
    cases content with
    | simple alone => cases a <;> simp_all [Object.equal, kind, Kind.compound]
    | function same => simpa [Object.equal] using same
    | returned inner => simpa [Object.equal] using inner
    | array size each => simpa [Object.equal] using equalListsIff.mpr ⟨size, each⟩
    | hash size found => simpa [Object.equal] using And.intro size (entriesWithinIff.mpr found)

section Entries
variable {entries others : List Entry} {e : Entry} {key : HashKey}

theorem findEntryIff (once : (entryKeys entries).Nodup) :
    findEntry? key entries = some e ↔ e ∈ entries ∧ e.hashKey = key := by
  constructor
  · intro found
    exact ⟨List.mem_of_find?_eq_some found, by simpa using List.find?_some found⟩
  · rintro ⟨member, rfl⟩
    cases found : findEntry? e.hashKey entries with
    | none => simpa using List.find?_eq_none.mp found e member
    | some other =>
        have same : other.hashKey = e.hashKey := by simpa using List.find?_some found
        rw [List.inj_on_of_nodup_map once (List.mem_of_find?_eq_some found) member same]

theorem entryKeysMember : key ∈ entryKeys entries ↔ ∃ e ∈ entries, e.hashKey = key := List.mem_map

/- The same hash keys, and under each of them equal keys and equal values. -/
structure SameEntries (entries others : List Entry) : Prop where
  keys : ∀ key, key ∈ entryKeys entries ↔ key ∈ entryKeys others
  equal : ∀ e ∈ entries, ∀ other ∈ others, e.hashKey = other.hashKey →
    e.key.equal other.key ∧ e.value.equal other.value

/- With each hash key once, as many keys as on the left that have all of the left are no others. -/
theorem equalHashIff (once : (entryKeys entries).Nodup) (onceToo : (entryKeys others).Nodup) :
    (Object.hash entries).equal (.hash others) ↔ SameEntries entries others := by
  rw [equalIff]
  constructor
  · intro content
    cases content with
    | simple alone => cases alone
    | hash size found =>
        have within : entryKeys entries ⊆ entryKeys others := by
          intro key member
          obtain ⟨e, inside, rfl⟩ := entryKeysMember.mp member
          obtain ⟨other, there, -⟩ := found e inside
          exact entryKeysMember.mpr ⟨other, (findEntryIff onceToo).mp there⟩
        have few : (entryKeys others).length ≤ (entryKeys entries).length := by simp [entryKeys, size]
        have all := (List.subperm_of_subset once within).perm_of_length_le few
        refine ⟨fun key => all.mem_iff, fun e inside other outside same => ?_⟩
        obtain ⟨other', there, equal⟩ := found e inside
        rw [(findEntryIff onceToo).mpr ⟨outside, same.symm⟩] at there
        cases there
        exact equal
  · rintro ⟨keys, equal⟩
    have all : (entryKeys entries).Perm (entryKeys others) := (List.perm_ext_iff_of_nodup once onceToo).mpr keys
    refine .hash (by simpa [entryKeys] using all.length_eq) fun e inside => ?_
    obtain ⟨other, outside, same⟩ := entryKeysMember.mp ((keys _).mp (entryKeysMember.mpr ⟨e, inside, rfl⟩))
    exact ⟨other, (findEntryIff onceToo).mpr ⟨outside, same⟩, equal e inside other outside same.symm⟩

end Entries

namespace Object
variable {a b c : Object}

theorem equalReturned (same : (returned a).equal b) : ∃ inner, b = .returned inner ∧ a.equal inner := by
  cases equalIff.mp same with
  | simple alone => cases alone
  | returned inner => exact ⟨_, rfl, inner⟩

theorem equalArray {elements : List Object} (same : (array elements).equal b) :
    ∃ others, b = .array others ∧ equalLists elements others := by
  cases equalIff.mp same with
  | simple alone => cases alone
  | array size each => exact ⟨_, rfl, equalListsIff.mpr ⟨size, each⟩⟩

theorem equalHash {entries : List Entry} (same : (hash entries).equal b) : ∃ others, b = .hash others := by
  cases equalIff.mp same with
  | simple alone => cases alone
  | hash => exact ⟨_, rfl⟩

theorem Proper.inReturned (h : (Object.returned a).Proper) : a.Proper := by
  cases h with
  | simple alone => cases alone
  | returned inner => exact inner

theorem Proper.inArray {elements : List Object} (h : (Object.array elements).Proper) : ∀ o ∈ elements, o.Proper := by
  cases h with
  | simple alone => cases alone
  | array each => exact each

theorem Proper.inHash {entries : List Entry} (h : (Object.hash entries).Proper) :
    (entryKeys entries).Nodup ∧ ∀ e ∈ entries, e.key.Proper ∧ e.value.Proper := by
  cases h with
  | simple alone => cases alone
  | hash once keys values => exact ⟨once, fun e member => ⟨keys e member, values e member⟩⟩

theorem Proper.self (h : a.Proper) : a.equal a := by
  induction h with
  | simple alone => exact equalIff.mpr (.simple alone)
  | returned inner ih => exact equalIff.mpr (.returned ih)
  | array each ih => exact equalIff.mpr (.array rfl fun i here _ => ih _ (List.getElem_mem here))
  | hash once keys values ihKeys ihValues =>
      rw [equalHashIff once once]
      refine ⟨fun key => Iff.rfl, fun e inside other outside same => ?_⟩
      obtain rfl := List.inj_on_of_nodup_map once inside outside same
      exact ⟨ihKeys e inside, ihValues e inside⟩

theorem Proper.swap (h : a.Proper) (h' : b.Proper) (same : a.equal b) : b.equal a := by
  induction h generalizing b with
  | simple alone =>
      cases equalIff.mp same with
      | simple => exact same
      | function identity => exact equalIff.mpr (.function identity.symm)
      | _ => cases alone
  | returned inner ih =>
      obtain ⟨inner', rfl, equal⟩ := equalReturned same
      exact equalIff.mpr (.returned (ih h'.inReturned equal))
  | array each ih =>
      obtain ⟨others, rfl, equal⟩ := equalArray same
      obtain ⟨size, equal⟩ := equalListsIff.mp equal
      refine equalIff.mpr (.array size.symm fun i here there => ?_)
      exact ih _ (List.getElem_mem there) (h'.inArray _ (List.getElem_mem here)) (equal i there here)
  | hash once keys values ihKeys ihValues =>
      obtain ⟨others, rfl⟩ := equalHash same
      obtain ⟨once', inside'⟩ := h'.inHash
      rw [equalHashIff once once'] at same
      rw [equalHashIff once' once]
      refine ⟨fun key => (same.keys key).symm, fun other outside e inside here => ?_⟩
      obtain ⟨key, value⟩ := same.equal e inside other outside here.symm
      exact ⟨ihKeys e inside (inside' other outside).1 key, ihValues e inside (inside' other outside).2 value⟩

theorem Proper.through (h : a.Proper) (h' : b.Proper) (h'' : c.Proper) (first : a.equal b) (second : b.equal c) :
    a.equal c := by
  induction h generalizing b c with
  | simple alone =>
      cases equalIff.mp first with
      | simple => exact second
      | function identity =>
          cases equalIff.mp second with
          | simple => exact first
          | function identity' => exact equalIff.mpr (.function (identity.trans identity'))
      | _ => cases alone
  | returned inner ih =>
      obtain ⟨inner', rfl, equal⟩ := equalReturned first
      obtain ⟨inner'', rfl, equal'⟩ := equalReturned second
      exact equalIff.mpr (.returned (ih h'.inReturned h''.inReturned equal equal'))
  | array each ih =>
      obtain ⟨others, rfl, equal⟩ := equalArray first
      obtain ⟨others', rfl, equal'⟩ := equalArray second
      obtain ⟨size, equal⟩ := equalListsIff.mp equal
      obtain ⟨size', equal'⟩ := equalListsIff.mp equal'
      refine equalIff.mpr (.array (size.trans size') fun i here there => ?_)
      have between : i < others.length := size ▸ here
      exact ih _ (List.getElem_mem here) (h'.inArray _ (List.getElem_mem between))
        (h''.inArray _ (List.getElem_mem there)) (equal i here between) (equal' i between there)
  | hash once keys values ihKeys ihValues =>
      obtain ⟨others, rfl⟩ := equalHash first
      obtain ⟨others', rfl⟩ := equalHash second
      obtain ⟨once', inside'⟩ := h'.inHash
      obtain ⟨once'', inside''⟩ := h''.inHash
      rw [equalHashIff once once'] at first
      rw [equalHashIff once' once''] at second
      rw [equalHashIff once once'']
      refine ⟨fun key => (first.keys key).trans (second.keys key), fun e inside e'' inside₂ same => ?_⟩
      obtain ⟨e', between, here⟩ :=
        entryKeysMember.mp ((first.keys _).mp (entryKeysMember.mpr ⟨e, inside, rfl⟩))
      obtain ⟨key, value⟩ := first.equal e inside e' between here.symm
      obtain ⟨key', value'⟩ := second.equal e' between e'' inside₂ (here.trans same)
      exact ⟨ihKeys e inside (inside' e' between).1 (inside'' e'' inside₂).1 key key',
        ihValues e inside (inside' e' between).2 (inside'' e'' inside₂).2 value value'⟩

end Object

/- Hashes that are built of proper objects are proper. -/
theorem hashOfPairsProper {pairs : List (Object × Object)} (each : ∀ pair ∈ pairs, pair.1.Proper ∧ pair.2.Proper)
    {o : Object} (built : Object.hashOfPairs pairs = .ok o) : o.Proper := by
  obtain ⟨entries, put, rfl⟩ := hashOfPairsOk.mp built
  have collected := putPairsCollected put
  have inside : ∀ e ∈ entries, e.pair ∈ pairs := fun e member =>
    List.mem_reverse.mp (List.mem_of_find?_eq_some (collected.last e member))
  exact .hash collected.once (fun e member => (each _ (inside e member)).1)
    fun e member => (each _ (inside e member)).2

/- What a builtin makes of proper objects is proper. -/
theorem Builtin.resultProper (b : Builtin) {arguments : List Object} (each : ∀ o ∈ arguments, o.Proper) :
    (b.result arguments).Proper := by
  unfold Builtin.result
  split
  case h_1 argument => exact .simple (by cases argument <;> rfl)
  case h_3 elements =>
      have elementsProper := (each _ List.mem_cons_self).inArray
      cases elements with
      | nil => exact .simple rfl
      | cons o rest => exact elementsProper o List.mem_cons_self
  case h_4 elements =>
      have elementsProper := (each _ List.mem_cons_self).inArray
      cases found : elements.getLast? with
      | none => exact .simple rfl
      | some o => exact elementsProper o (List.mem_of_getLast? found)
  case h_6 elements =>
      exact .array fun o member => (each _ List.mem_cons_self).inArray o (List.mem_cons_of_mem _ member)
  case h_7 elements value =>
      refine .array fun o member => ?_
      rcases List.mem_append.mp member with old | new
      · exact (each _ List.mem_cons_self).inArray o old
      · exact each o (List.mem_cons_of_mem _ new)
  all_goals exact .simple rfl

/- How equality behaves on three objects. -/
structure EqualityLaws (a b c : Object) : Prop where
  self : a.equal a
  swap : a.equal b → b.equal a
  through : a.equal b → b.equal c → a.equal c
  kind : a.equal b → a.kind = b.kind
  truthy : a.equal b → a.isTruthy = b.isTruthy
  error : a.equal b → a.isError = b.isError
  hashKey : a.equal b → a.hashKey? = b.hashKey?
  functions : ∀ f g, a = .function f → b = .function g → (a.equal b ↔ f.identity = g.identity)
  builtins : ∀ f g, a = .builtin f → b = .builtin g → (a.equal b ↔ f.name = g.name)
  compiled : ∀ f g, a = .compiled f → b = .compiled g → (a.equal b ↔ f = g)
  hashes : ∀ entries others, a = .hash entries → b = .hash others → (a.equal b ↔ SameEntries entries others)

theorem Object.equalAspects {a b : Object} (same : a.equal b) :
    a.kind = b.kind ∧ a.isTruthy = b.isTruthy ∧ a.isError = b.isError ∧ a.hashKey? = b.hashKey? := by
  cases equalIff.mp same <;> exact ⟨rfl, rfl, rfl, rfl⟩

theorem Builtin.nameInjective {f g : Builtin} (same : f.name = g.name) : f = g := by
  have found := Builtin.ofNameName f
  rw [same, Builtin.ofNameName g] at found
  exact (Option.some.inj found).symm

theorem equalityLaws {a b c : Object} (first : a.Proper) (second : b.Proper) (third : c.Proper) :
    EqualityLaws a b c where
  self := first.self
  swap same := first.swap second same
  through same same' := first.through second third same same'
  kind same := (Object.equalAspects same).1
  truthy same := (Object.equalAspects same).2.1
  error same := (Object.equalAspects same).2.2.1
  hashKey same := (Object.equalAspects same).2.2.2
  functions f g here there := by
    subst here there
    simp [Object.equal]
  builtins f g here there := by
    subst here there
    simp only [Object.equal, beq_iff_eq]
    exact ⟨congrArg Builtin.name, Builtin.nameInjective⟩
  compiled f g here there := by
    subst here there
    simp [Object.equal]
  hashes entries others here there := by
    subst here there
    exact equalHashIff first.inHash.1 second.inHash.1

/- Two hashes of the same pairs that were built in different orders, pushed onto arrays. -/
theorem equalityLawsOrders :
    let pairs := [(Object.integer 1, Object.null), (.boolean true, .array [.builtin .len])]
    ∃ h h', Object.hashOfPairs pairs = .ok h ∧ Object.hashOfPairs pairs.reverse = .ok h' ∧
      let a := Builtin.push.result [.array [], h]
      let b := Builtin.push.result [.array [], h']
      a.Proper ∧ b.Proper ∧ a.equal b ∧ EqualityLaws a b a := by
  intro pairs
  have each : ∀ pair ∈ pairs, pair.1.Proper ∧ pair.2.Proper := by
    simp only [pairs, List.forall_mem_cons]
    exact ⟨⟨.simple rfl, .simple rfl⟩, ⟨.simple rfl, .array (by simpa using .simple rfl)⟩, by simp⟩
  have eachReversed : ∀ pair ∈ pairs.reverse, pair.1.Proper ∧ pair.2.Proper := fun pair member =>
    each pair (List.mem_reverse.mp member)
  have pushed : ∀ {h : Object}, h.Proper → (Builtin.push.result [.array [], h]).Proper := fun proper =>
    Builtin.push.resultProper (by simpa using ⟨.array (by simp), proper⟩)
  have first := pushed (hashOfPairsProper each rfl)
  have second := pushed (hashOfPairsProper eachReversed rfl)
  refine ⟨_, _, rfl, rfl, first, second, ?_, equalityLaws first second first⟩
  simp [Builtin.result, Object.equal, equalLists, entriesWithin, Entry.foundIn, findEntry?, putEntry, integerKey,
    booleanKey]

end ClosureCode
