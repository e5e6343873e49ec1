import ClosureCode.Object.Equality
import Mathlib.Data.List.Dedup

/-! What a hash that was built from pairs holds. Its entries go by hash keys alone, and these tell
integers and booleans apart but strings only as far as their fingerprints do. -/
namespace ClosureCode

/- The kinds of which a value can be a key. -/
def Kind.isKey : Kind → Bool
  | .integer | .boolean | .string => true
  | _ => false

theorem hashKeyKnown {o : Object} (h : o.kind.isKey) : ∃ key, o.hashKey? = some key := by
  cases o <;> first | exact ⟨_, rfl⟩ | cases h

/- Two texts among the keys that have the same fingerprint are the same. -/
def Separated (keys : List Object) : Prop :=
  ∀ s t, .string s ∈ keys → .string t ∈ keys → fingerprint (utf8 s) = fingerprint (utf8 t) → s = t

theorem Separated.within {keys more : List Object} (h : Separated more) (inside : ∀ k ∈ keys, k ∈ more) :
    Separated keys := fun s t first second => h s t (inside _ first) (inside _ second)

theorem hashKeyInteger {o : Object} {n : Int64} : o.hashKey? = some (integerKey n) ↔ o = .integer n := by
  constructor
  · intro same
    have kind := Object.hashKeyKind same
    cases o <;> cases kind
    have word := congrArg HashKey.value (Option.some.inj same)
    rw [← Int64.toInt64_toUInt64 n]
    exact congrArg Object.integer ((Int64.toInt64_toUInt64 _).symm.trans (congrArg UInt64.toInt64 word))
  · rintro rfl
    rfl

theorem hashKeyBoolean {o : Object} {b : Bool} : o.hashKey? = some (booleanKey b) ↔ o = .boolean b := by
  constructor
  · intro same
    have kind := Object.hashKeyKind same
    cases o <;> cases kind
    rename_i a
    cases a <;> cases b <;> first | rfl | cases same
  · rintro rfl
    rfl

theorem hashKeyString {o : Object} {s : String} :
    o.hashKey? = some (stringKey s) ↔ ∃ t, o = .string t ∧ fingerprint (utf8 t) = fingerprint (utf8 s) := by
  constructor
  · intro same
    have kind := Object.hashKeyKind same
    cases o <;> cases kind
    exact ⟨_, rfl, congrArg HashKey.value (Option.some.inj same)⟩
  · rintro ⟨t, rfl, same⟩
    simp [Object.hashKey?, stringKey, same]

/- Equal keys have the same hash key, and others have different ones unless they are texts with the
same fingerprint. -/
theorem hashKeyEqual {keys : List Object} (separated : Separated keys) {a b : Object} (first : a ∈ keys)
    (second : b ∈ keys) {key : HashKey} (known : b.hashKey? = some key) :
    a.hashKey? = some key ↔ a.equal b := by
  cases b with
  | integer n =>
      cases known
      rw [hashKeyInteger]
      cases a <;> simp [Object.equal]
  | boolean b =>
      cases known
      rw [hashKeyBoolean]
      cases a <;> simp [Object.equal]
  | string s =>
      cases known
      rw [hashKeyString]
      constructor
      · rintro ⟨t, rfl, same⟩
        simp [Object.equal, separated t s first second same]
      · intro same
        cases a <;> simp [Object.equal] at same
        exact ⟨s, by rw [same], rfl⟩
  | null | error | returned | function | builtin | array | hash | compiled => cases known

/- The value of the last of the pairs whose key is of some sort. -/
def lastWhere (sort : Object → Bool) (pairs : List (Object × Object)) : Option Object :=
  (pairs.reverse.find? fun pair => sort pair.1).map Prod.snd

theorem lastWhereCons (sort : Object → Bool) (k v : Object) (rest : List (Object × Object)) :
    lastWhere sort ((k, v) :: rest) = (lastWhere sort rest).or (if sort k then some v else none) := by
  unfold lastWhere
  rw [List.reverse_cons, List.find?_append]
  cases rest.reverse.find? fun pair => sort pair.1 with
  | some pair => rfl
  | none => by_cases here : sort k <;> simp [here]

theorem lastWhereCongr {sort sort' : Object → Bool} {pairs : List (Object × Object)}
    (same : ∀ pair ∈ pairs, sort pair.1 = sort' pair.1) : lastWhere sort pairs = lastWhere sort' pairs := by
  induction pairs with
  | nil => rfl
  | cons pair rest ih =>
      obtain ⟨k, v⟩ := pair
      rw [lastWhereCons, lastWhereCons, same (k, v) List.mem_cons_self,
        ih fun pair member => same pair (List.mem_cons_of_mem _ member)]

/- One of each of the keys that are equal. -/
def distinct (keys : List Object) : List Object := keys.pwFilter fun a b => a.equal b = false

theorem distinctKeys {keys : List Object} (separated : Separated keys) (usable : ∀ k ∈ keys, k.kind.isKey) :
    (distinct keys).map Object.hashKey? = (keys.map Object.hashKey?).dedup := by
  induction keys with
  | nil => rfl
  | cons k rest ih =>
      have later := ih (separated.within fun _ member => List.mem_cons_of_mem k member)
        fun o member => usable o (List.mem_cons_of_mem k member)
      have equal : ∀ o ∈ distinct rest, (k.hashKey? = o.hashKey? ↔ k.equal o) := by
        intro o member
        have inside : o ∈ k :: rest := List.mem_cons_of_mem k (List.pwFilter_subset _ member)
        obtain ⟨key, known⟩ := hashKeyKnown (usable o inside)
        rw [known]
        exact hashKeyEqual separated List.mem_cons_self inside known
      unfold distinct at later equal ⊢
      by_cases again : k.hashKey? ∈ rest.map Object.hashKey?
      · rw [List.map_cons, List.dedup_cons_of_mem again, ← later]
        rw [← List.mem_dedup, ← later, List.mem_map] at again
        obtain ⟨o, member, same⟩ := again
        rw [List.pwFilter_cons_of_neg]
        intro others
        have other := others o member
        rw [(equal o member).mp same.symm] at other
        cases other
      · rw [List.map_cons, List.dedup_cons_of_notMem again, ← later]
        rw [← List.mem_dedup, ← later, List.mem_map] at again
        rw [List.pwFilter_cons_of_pos]
        · rfl
        · intro o member
          rw [Bool.eq_false_iff]
          exact fun same => again ⟨o, member, ((equal o member).mpr same).symm⟩

/- The value under a hash key. -/
def valueAt (key : HashKey) (entries : List Entry) : Option Object := Option.map Entry.value <| findEntry? key entries

theorem valueAtPut (entry : Entry) (key : HashKey) (entries : List Entry) :
    valueAt key (putEntry entry entries) = if entry.hashKey = key then some entry.value else valueAt key entries := by
  unfold valueAt
  rw [findEntryPutEntry]
  split <;> rfl

def entryKeys (entries : List Entry) : List HashKey := entries.map Entry.hashKey

theorem putEntryKeys (entry : Entry) (entries : List Entry) (key : HashKey) :
    key ∈ entryKeys (putEntry entry entries) ↔ key = entry.hashKey ∨ key ∈ entryKeys entries := by
  induction entries with
  | nil => simp [putEntry, entryKeys]
  | cons e rest ih =>
      unfold putEntry
      split
      · rename_i same
        simp [entryKeys, same]
      · simp only [entryKeys, List.map_cons, List.mem_cons] at ih ⊢
        rw [ih]
        exact or_left_comm

theorem putEntryOnce (entry : Entry) {entries : List Entry} (once : (entryKeys entries).Nodup) :
    (entryKeys (putEntry entry entries)).Nodup := by
  induction entries with
  | nil => simp [putEntry, entryKeys]
  | cons e rest ih =>
      obtain ⟨new, others⟩ := List.nodup_cons.mp once
      unfold putEntry
      split
      · rename_i same
        exact List.nodup_cons.mpr ⟨same ▸ new, others⟩
      · rename_i other
        refine List.nodup_cons.mpr ⟨fun member => ?_, ih others⟩
        rcases (putEntryKeys entry rest e.hashKey).mp member with same | old
        · exact other same
        · exact new old

theorem putPairsHold {pairs : List (Object × Object)} (usable : ∀ pair ∈ pairs, pair.1.kind.isKey)
    (entries : List Entry) (once : (entryKeys entries).Nodup) :
    ∃ entries', putPairs entries pairs = .ok entries' ∧ (entryKeys entries').Nodup ∧
      (∀ key, key ∈ entryKeys entries' ↔ key ∈ entryKeys entries ∨ some key ∈ pairs.map (·.1.hashKey?)) ∧
      ∀ key, valueAt key entries' =
        (lastWhere (·.hashKey? = some key) pairs).or (valueAt key entries) := by
  induction pairs generalizing entries with
  | nil => exact ⟨entries, rfl, once, by simp, fun key => rfl⟩
  | cons pair rest ih =>
      obtain ⟨k, v⟩ := pair
      obtain ⟨key, known⟩ := hashKeyKnown (usable (k, v) List.mem_cons_self)
      obtain ⟨entries', built, once', keys, values⟩ :=
        ih (fun pair member => usable pair (List.mem_cons_of_mem _ member)) _ (putEntryOnce ⟨key, k, v⟩ once)
      refine ⟨entries', ?_, once', fun other => ?_, fun other => ?_⟩
      · simp only [putPairs, known]
        exact built
      · rw [keys, putEntryKeys, List.map_cons, List.mem_cons, known, Option.some.injEq, or_assoc]
        exact or_left_comm
      · rw [values, valueAtPut, lastWhereCons, known]
        by_cases here : key = other <;> simp [here]

structure HoldsPairs (pairs : List (Object × Object)) (entries : List Entry) : Prop where
  /- A key finds the last pair whose key has the same hash key. -/
  found : ∀ (k : Object) (key : HashKey), k.hashKey? = some key →
    valueAt key entries = lastWhere (·.hashKey? = some key) pairs
  size : entries.length = (pairs.map (·.1.hashKey?)).dedup.length
  /- Where texts are told apart, a key finds the last pair with an equal key. -/
  foundEqual : ∀ k : Object, k.kind.isKey → Separated (k :: pairs.map Prod.fst) → ∃ key, k.hashKey? = some key ∧
    valueAt key entries = lastWhere (·.equal k) pairs
  sizeDistinct : Separated (pairs.map Prod.fst) → entries.length = (distinct (pairs.map Prod.fst)).length

theorem hashOfPairsHolds {pairs : List (Object × Object)} (usable : ∀ pair ∈ pairs, pair.1.kind.isKey) :
    ∃ entries, Object.hashOfPairs pairs = .ok (.hash entries) ∧ HoldsPairs pairs entries := by
  obtain ⟨entries, built, once, keys, values⟩ := putPairsHold usable [] List.nodup_nil
  have found : ∀ key, valueAt key entries = lastWhere (·.hashKey? = some key) pairs := by
    intro key
    rw [values]
    exact Option.or_none
  have size : entries.length = (pairs.map (·.1.hashKey?)).dedup.length := by
    have same : ((entryKeys entries).map some).Perm (pairs.map (·.1.hashKey?)).dedup := by
      rw [List.perm_ext_iff_of_nodup (once.map fun _ _ => Option.some.inj) (List.nodup_dedup _)]
      intro key
      cases key with
      | none =>
          have known : none ∉ pairs.map (·.1.hashKey?) := by
            intro absent
            obtain ⟨pair, member, unknown⟩ := List.mem_map.mp absent
            obtain ⟨key, known⟩ := hashKeyKnown (usable pair member)
            cases known.symm.trans unknown
          simp [known]
      | some key =>
          have held : key ∈ entryKeys entries ↔ some key ∈ pairs.map (·.1.hashKey?) := by
            simpa [entryKeys] using keys key
          rw [List.mem_dedup, ← held]
          simp
    have length := same.length_eq
    simpa [entryKeys] using length
  refine ⟨entries, by simp [Object.hashOfPairs, built, Except.map], fun k key _ => found key, size, ?_, ?_⟩
  · intro k isKey separated
    obtain ⟨key, known⟩ := hashKeyKnown isKey
    refine ⟨key, known, (found key).trans (lastWhereCongr fun pair member => ?_)⟩
    have inside : pair.1 ∈ k :: pairs.map Prod.fst := List.mem_cons_of_mem _ (List.mem_map_of_mem member)
    rw [Bool.eq_iff_iff, decide_eq_true_iff]
    exact hashKeyEqual separated inside List.mem_cons_self known
  · intro separated
    have all := distinctKeys separated (by simpa using fun k v member => usable (k, v) member)
    rw [size, ← List.length_map (f := Object.hashKey?), all, List.map_map]
    rfl

theorem hashOfPairsHoldsMixed :
    let pairs := [(Object.string "a", Object.integer 1), (.string "b", .null), (.integer 2, .null),
      (.string "a", .boolean true)]
    (∀ pair ∈ pairs, pair.1.kind.isKey) ∧ Separated (pairs.map Prod.fst) ∧
      ∃ entries, Object.hashOfPairs pairs = .ok (.hash entries) ∧ HoldsPairs pairs entries := by
  intro pairs
  have usable : ∀ pair ∈ pairs, pair.1.kind.isKey := by simp [pairs, Object.kind, Kind.isKey]
  have different : fingerprint (utf8 "a") ≠ fingerprint (utf8 "b") := by decide +kernel
  have separated : Separated (pairs.map Prod.fst) := by
    intro s t first second same
    simp only [pairs, List.map_cons, List.map_nil, List.mem_cons, Object.string.injEq, reduceCtorEq, List.not_mem_nil,
      or_false, false_or] at first second
    grind
  exact ⟨usable, separated, hashOfPairsHolds usable⟩

/- Different texts of one length may have the same fingerprint. -/
theorem sharedFingerprint : fingerprint (utf8 "8yn0iYCKYHlIj4-BwPqk") = fingerprint (utf8 "GReLUrM4wMqfg9yzV3KQ") := by
  decide +kernel

/- A key of the pairs finds the value of another, and one of two entries is lost. -/
theorem hashConfusesTexts :
    let k := Object.string "8yn0iYCKYHlIj4-BwPqk"
    let k' := Object.string "GReLUrM4wMqfg9yzV3KQ"
    let pairs := [(k, Object.integer 1), (k', Object.integer 2)]
    k.equal k' = false ∧ ∃ entries key, Object.hashOfPairs pairs = .ok (.hash entries) ∧ k.hashKey? = some key ∧
      valueAt key entries = some (.integer 2) ∧
      lastWhere (·.equal k) pairs = some (.integer 1) ∧
      entries.length = 1 ∧ (distinct (pairs.map Prod.fst)).length = 2 := by
  intro k k' pairs
  let key := stringKey "GReLUrM4wMqfg9yzV3KQ"
  have other : k.equal k' = false := by simp [k, k', Object.equal]
  have found : k'.hashKey? = some key := rfl
  have shared : k.hashKey? = some key := by simp [k, key, Object.hashKey?, stringKey, sharedFingerprint]
  have built : Object.hashOfPairs pairs = .ok (.hash [⟨key, k', .integer 2⟩]) := by
    simp [Object.hashOfPairs, pairs, putPairs, shared, found, putEntry, Except.map]
  refine ⟨other, _, key, built, shared, ?_, ?_, rfl, ?_⟩
  · simp [valueAt, findEntry?]
  · simp [lastWhere, pairs, k, k', Object.equal]
  · simp [distinct, pairs, List.pwFilter, other]

end ClosureCode
