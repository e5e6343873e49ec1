import ClosureCode.Proofs.HashEntries

/-! The order of the entries of a hash that was built from pairs. A hash key stands where it first came,
with the key and the value that came last. -/
namespace ClosureCode

theorem isKeyHashKey (o : Object) : o.kind.isKey = o.hashKey?.isSome := by
  cases o <;> rfl

/- Keys in the order in which they first come. -/
def firstKeys (pairs : List (Object × Object)) : List HashKey :=
  (pairs.filterMap fun pair => pair.1.hashKey?).eraseDups

def lastPair (key : HashKey) (pairs : List (Object × Object)) : Option (Object × Object) :=
  pairs.reverse.find? fun pair => pair.1.hashKey? = some key

def Entry.pair (e : Entry) : Object × Object := (e.key, e.value)

/- The kind of the first key that is none. -/
def badKind (pairs : List (Object × Object)) : Option Kind :=
  (pairs.map fun pair => pair.1.kind).find? fun kind => !kind.isKey

section Order
variable {pairs : List (Object × Object)} {entries : List Entry} {k v : Object} {key : HashKey}

theorem firstKeysBehind (known : k.hashKey? = some key) :
    firstKeys (pairs ++ [(k, v)]) = if key ∈ firstKeys pairs then firstKeys pairs else firstKeys pairs ++ [key] := by
  unfold firstKeys
  rw [List.filterMap_append, List.eraseDups_append]
  by_cases old : key ∈ pairs.filterMap fun pair => pair.1.hashKey?
  · simp [known, old, List.removeAll]
  · simp [known, old, List.removeAll, List.eraseDups_cons]

theorem lastPairBehind (known : k.hashKey? = some key) (other : HashKey) :
    lastPair other (pairs ++ [(k, v)]) = if key = other then some (k, v) else lastPair other pairs := by
  unfold lastPair
  rw [List.reverse_append, List.reverse_singleton, List.singleton_append]
  by_cases same : key = other <;> simp [known, same]

theorem putEntryOrder (entry : Entry) (entries : List Entry) :
    entryKeys (putEntry entry entries) =
      if entry.hashKey ∈ entryKeys entries then entryKeys entries else entryKeys entries ++ [entry.hashKey] := by
  induction entries with
  | nil => rfl
  | cons e rest ih =>
      unfold putEntry
      by_cases same : e.hashKey = entry.hashKey
      · simp [entryKeys, same]
      · unfold entryKeys at ih ⊢
        rw [if_neg same, List.map_cons, ih]
        by_cases old : entry.hashKey ∈ rest.map Entry.hashKey <;> simp [old, Ne.symm same]

theorem putEntryNew {entry : Entry} (new : entry.hashKey ∉ entryKeys entries) :
    putEntry entry entries = entries ++ [entry] := by
  induction entries with
  | nil => rfl
  | cons e rest ih =>
      rw [entryKeys, List.map_cons, List.mem_cons, not_or] at new
      rw [putEntry, if_neg (Ne.symm new.1), ih new.2, List.cons_append]

/- Nothing is left under the hash key that was put but the new entry. -/
theorem putEntryMember (once : (entryKeys entries).Nodup) {entry e : Entry} (member : e ∈ putEntry entry entries) :
    e = entry ∨ (e ∈ entries ∧ entry.hashKey ≠ e.hashKey) := by
  induction entries with
  | nil => exact .inl (List.mem_singleton.mp member)
  | cons first rest ih =>
      obtain ⟨new, others⟩ := List.nodup_cons.mp once
      unfold putEntry at member
      split at member
      · rename_i same
        rcases List.mem_cons.mp member with here | later
        · exact .inl here
        · refine .inr ⟨List.mem_cons_of_mem _ later, fun again => new ?_⟩
          rw [same, again]
          exact List.mem_map_of_mem later
      · rename_i other
        rcases List.mem_cons.mp member with rfl | later
        · exact .inr ⟨List.mem_cons_self, Ne.symm other⟩
        · rcases ih others later with here | ⟨old, apart⟩
          · exact .inl here
          · exact .inr ⟨List.mem_cons_of_mem _ old, apart⟩

/- What the entries are when all of the pairs have been put. -/
structure Collected (pairs : List (Object × Object)) (entries : List Entry) : Prop where
  once : (entryKeys entries).Nodup
  order : entryKeys entries = firstKeys pairs
  last : ∀ e ∈ entries, lastPair e.hashKey pairs = some e.pair
  keyed : ∀ e ∈ entries, e.key.hashKey? = some e.hashKey

theorem Collected.empty : Collected [] [] where
  once := .nil
  order := rfl
  last _ member := by cases member
  keyed _ member := by cases member

theorem Collected.put (h : Collected pairs entries) (known : k.hashKey? = some key) :
    Collected (pairs ++ [(k, v)]) (putEntry ⟨key, k, v⟩ entries) where
  once := putEntryOnce _ h.once
  order := by rw [putEntryOrder, firstKeysBehind known, h.order]
  last e member := by
    rw [lastPairBehind known]
    rcases putEntryMember h.once member with rfl | ⟨old, other⟩
    · exact if_pos rfl
    · rw [if_neg other, h.last e old]
  keyed e member := by
    rcases putEntryMember h.once member with rfl | ⟨old, -⟩
    · exact known
    · exact h.keyed e old

theorem Collected.putPairs (h : Collected pairs entries) {more : List (Object × Object)} {entries' : List Entry}
    (built : putPairs entries more = .ok entries') : Collected (pairs ++ more) entries' := by
  induction more generalizing pairs entries with
  | nil =>
      cases built
      rwa [List.append_nil]
  | cons pair rest ih =>
      obtain ⟨k, v⟩ := pair
      cases known : k.hashKey? with
      | none =>
          simp only [ClosureCode.putPairs, known] at built
          cases built
      | some key =>
          simp only [ClosureCode.putPairs, known] at built
          have later := ih (h.put known) built
          rwa [List.append_assoc, List.singleton_append] at later

theorem putPairsFails (entries : List Entry) (pairs : List (Object × Object)) (kind : Kind) :
    putPairs entries pairs = .error kind ↔ badKind pairs = some kind := by
  induction pairs generalizing entries with
  | nil => exact ⟨fun failed => (by cases failed), fun found => (by cases found)⟩
  | cons pair rest ih =>
      obtain ⟨k, v⟩ := pair
      have usable := isKeyHashKey k
      rw [putPairs, badKind, List.map_cons, List.find?_cons]
      cases known : k.hashKey? with
      | none =>
          rw [known] at usable
          simp [usable]
      | some key =>
          rw [known] at usable
          simp only [usable, Option.isSome_some, Bool.not_true]
          exact ih _

theorem putPairsAppend (entries : List Entry) (pairs more : List (Object × Object)) :
    putPairs entries (pairs ++ more) = (putPairs entries pairs).bind fun entries' => putPairs entries' more := by
  induction pairs generalizing entries with
  | nil => rfl
  | cons pair rest ih =>
      obtain ⟨k, v⟩ := pair
      rw [List.cons_append, putPairs, putPairs]
      cases k.hashKey? with
      | none => rfl
      | some key => exact ih _

/- Entries that are put again one after the other come to stand as they stood. -/
theorem putPairsAgain (entries : List Entry) {more : List Entry} (once : (entryKeys (entries ++ more)).Nodup)
    (keyed : ∀ e ∈ more, e.key.hashKey? = some e.hashKey) :
    putPairs entries (more.map Entry.pair) = .ok (entries ++ more) := by
  induction more generalizing entries with
  | nil => rw [List.append_nil]; rfl
  | cons e rest ih =>
      obtain ⟨key, k, v⟩ := e
      have known : k.hashKey? = some key := keyed _ List.mem_cons_self
      have new : key ∉ entryKeys entries := by
        intro old
        rw [entryKeys, List.map_append, List.map_cons] at once
        exact (List.nodup_append.mp once).2.2 _ old _ List.mem_cons_self rfl
      have put : putEntry ⟨key, k, v⟩ entries = entries ++ [⟨key, k, v⟩] := putEntryNew new
      rw [← List.singleton_append, ← List.append_assoc] at once ⊢
      have later := ih _ once fun e member => keyed e (List.mem_cons_of_mem _ member)
      simp only [List.singleton_append, List.map_cons, Entry.pair, putPairs, known, put]
      exact later

theorem badKindNone : badKind pairs = none ↔ ∀ pair ∈ pairs, pair.1.kind.isKey := by
  simp [badKind]

theorem putPairsSucceeds (entries : List Entry) (pairs : List (Object × Object)) :
    (∃ entries', putPairs entries pairs = .ok entries') ↔ ∀ pair ∈ pairs, pair.1.kind.isKey := by
  rw [← badKindNone]
  cases result : putPairs entries pairs with
  | error kind =>
      rw [putPairsFails] at result
      simp [result]
  | ok entries' =>
      refine ⟨fun _ => Option.eq_none_iff_forall_ne_some.mpr fun kind bad => ?_, fun _ => ⟨entries', rfl⟩⟩
      rw [← putPairsFails entries, result] at bad
      cases bad

theorem hashOfPairsError {kind : Kind} :
    Object.hashOfPairs pairs = .error kind ↔ putPairs [] pairs = .error kind := by
  unfold Object.hashOfPairs
  cases putPairs [] pairs <;> simp [Except.map]

theorem hashOfPairsOk {o : Object} :
    Object.hashOfPairs pairs = .ok o ↔ ∃ entries, putPairs [] pairs = .ok entries ∧ .hash entries = o := by
  unfold Object.hashOfPairs
  cases putPairs [] pairs <;> simp [Except.map]

theorem hashOfPairsHash : Object.hashOfPairs pairs = .ok (.hash entries) ↔ putPairs [] pairs = .ok entries := by
  simp [hashOfPairsOk]

theorem hashOfPairsAppend (built : putPairs [] pairs = .ok entries) (more : List (Object × Object)) :
    Object.hashOfPairs (pairs ++ more) = (putPairs entries more).map .hash := by
  rw [Object.hashOfPairs, putPairsAppend, built]
  rfl

theorem putPairsCollected (built : putPairs [] pairs = .ok entries) : Collected pairs entries :=
  Collected.empty.putPairs built

theorem putPairsRebuilt (built : putPairs [] pairs = .ok entries) : putPairs [] (entries.map Entry.pair) = .ok entries :=
  putPairsAgain [] (putPairsCollected built).once (putPairsCollected built).keyed

end Order

/- What comes of some pairs: the kind of the first key that is none, or a hash of the pairs. -/
structure Builds (pairs : List (Object × Object)) (result : Except Kind Object) : Prop where
  fails : ∀ kind, result = .error kind ↔ badKind pairs = some kind
  succeeds : (∃ entries, result = .ok (.hash entries)) ↔ ∀ pair ∈ pairs, pair.1.kind.isKey
  order : ∀ entries, result = .ok (.hash entries) → entryKeys entries = firstKeys pairs
  last : ∀ entries, result = .ok (.hash entries) → ∀ e ∈ entries, lastPair e.hashKey pairs = some (e.key, e.value)
  keyed : ∀ entries, result = .ok (.hash entries) → ∀ e ∈ entries, e.key.hashKey? = some e.hashKey
  /- The entries stand for the pairs, alone and with more behind them. -/
  again : ∀ entries, result = .ok (.hash entries) → Object.hashOfPairs (entries.map Entry.pair) = .ok (.hash entries)
  further : ∀ entries, result = .ok (.hash entries) → ∀ more,
    Object.hashOfPairs (pairs ++ more) = Object.hashOfPairs (entries.map Entry.pair ++ more)

theorem hashOfPairsBuilds (pairs : List (Object × Object)) : Builds pairs (Object.hashOfPairs pairs) where
  fails kind := by rw [hashOfPairsError, putPairsFails]
  succeeds := by simp only [hashOfPairsHash, putPairsSucceeds]
  order _ built := (putPairsCollected (hashOfPairsHash.mp built)).order
  last _ built := (putPairsCollected (hashOfPairsHash.mp built)).last
  keyed _ built := (putPairsCollected (hashOfPairsHash.mp built)).keyed
  again _ built := hashOfPairsHash.mpr (putPairsRebuilt (hashOfPairsHash.mp built))
  further _ built more := by
    rw [hashOfPairsHash] at built
    rw [hashOfPairsAppend built, hashOfPairsAppend (putPairsRebuilt built)]

/- The key that comes again keeps its place and gets its new value. -/
example : Object.hashOfPairs [(.integer 1, .null), (.boolean true, .null), (.integer 1, .string "x")] =
    .ok (.hash [⟨integerKey 1, .integer 1, .string "x"⟩, ⟨booleanKey true, .boolean true, .null⟩]) := rfl

end ClosureCode
