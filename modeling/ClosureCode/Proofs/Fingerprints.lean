import ClosureCode.Object
import Mathlib.Logic.ExistsUnique

/-! Which byte strings a fingerprint tells apart. Two of one length can have the same fingerprint, but
not if they differ in a single byte. -/
namespace ClosureCode

/- The prime is odd, so a multiplication by it can be undone. -/
def primeInverse : UInt64 := 0xce965057aff6957b

/- The state before a byte was absorbed. -/
def unabsorb (state : UInt64) (byte : UInt8) : UInt64 := state * primeInverse ^^^ byte.toUInt64

theorem primeUnit : fingerprintPrime * primeInverse = 1 := by decide

theorem timesPrimeUndone (word : UInt64) : word * fingerprintPrime * primeInverse = word := by
  rw [UInt64.mul_assoc, primeUnit, UInt64.mul_one]

theorem unabsorbAbsorb (state : UInt64) (byte : UInt8) : unabsorb (absorb state byte) byte = state := by
  rw [unabsorb, absorb, timesPrimeUndone, UInt64.xor_assoc, UInt64.xor_self, UInt64.xor_zero]

theorem absorbState {a b : UInt64} {byte : UInt8} : absorb a byte = absorb b byte ↔ a = b := by
  constructor
  · intro same
    rw [← unabsorbAbsorb a byte, same, unabsorbAbsorb]
  · rintro rfl
    rfl

theorem absorbByte {state : UInt64} {x y : UInt8} : absorb state x = absorb state y ↔ x = y := by
  constructor
  · intro same
    have words := congrArg (· * primeInverse) same
    simp only [absorb, timesPrimeUndone] at words
    exact UInt8.toUInt64_inj.mp ((UInt64.xor_right_inj state).mp words)
  · rintro rfl
    rfl

theorem absorbBytes {a b : UInt64} (bytes : Bytes) : bytes.foldl absorb a = bytes.foldl absorb b ↔ a = b := by
  induction bytes generalizing a b with
  | nil => rfl
  | cons byte rest ih => rw [List.foldl_cons, List.foldl_cons, ih, absorbState]

theorem fingerprintSuffix (a b suffix : Bytes) :
    fingerprint (a ++ suffix) = fingerprint (b ++ suffix) ↔ fingerprint a = fingerprint b := by
  rw [fingerprintAppend, fingerprintAppend, absorbBytes]

theorem fingerprintByte (before after : Bytes) {x y : UInt8} :
    fingerprint (before ++ [x] ++ after) = fingerprint (before ++ [y] ++ after) ↔ x = y := by
  rw [fingerprintSuffix, fingerprintAppend, fingerprintAppend]
  exact absorbByte

theorem takeEqual {a b : Bytes} {i : Nat} (equal : ∀ j < i, a[j]? = b[j]?) : a.take i = b.take i := by
  apply List.ext_getElem?
  intro j
  rw [List.getElem?_take, List.getElem?_take]
  split
  · rename_i front
    exact equal j front
  · rfl

theorem dropEqual {a b : Bytes} {i : Nat} (equal : ∀ j, i ≤ j → a[j]? = b[j]?) : a.drop i = b.drop i := by
  apply List.ext_getElem?
  intro j
  rw [List.getElem?_drop, List.getElem?_drop]
  exact equal (i + j) (Nat.le_add_right i j)

theorem bytesAround {a : Bytes} {i : Nat} (inside : i < a.length) : a = a.take i ++ [a[i]] ++ a.drop (i + 1) := by
  rw [List.append_assoc, List.singleton_append, List.getElem_cons_drop, List.take_append_drop]

/- Of one length, and different at exactly one position. -/
def DifferOnce (a b : Bytes) : Prop := a.length = b.length ∧ ∃! i : Nat, a[i]? ≠ b[i]?

theorem DifferOnce.split {a b : Bytes} (h : DifferOnce a b) :
    ∃ before x y after, a = before ++ [x] ++ after ∧ b = before ++ [y] ++ after ∧ x ≠ y := by
  obtain ⟨length, i, differ, only⟩ := h
  have equal : ∀ j, j ≠ i → a[j]? = b[j]? := fun j other => Classical.not_not.mp fun differ => other (only j differ)
  have inside : i < a.length := by
    refine Nat.lt_of_not_le fun outside => ?_
    have nothing : a[i]? = none := List.getElem?_eq_none outside
    have nothing' : b[i]? = none := List.getElem?_eq_none (length ▸ outside)
    exact differ (nothing.trans nothing'.symm)
  have inside' : i < b.length := length ▸ inside
  have before : a.take i = b.take i := takeEqual fun j front => equal j (Nat.ne_of_lt front)
  have after : a.drop (i + 1) = b.drop (i + 1) := dropEqual fun j behind => equal j (Nat.ne_of_gt behind)
  refine ⟨a.take i, a[i], b[i], a.drop (i + 1), bytesAround inside, ?_, fun same => differ ?_⟩
  · rw [before, after]
    exact bytesAround inside'
  · rw [List.getElem?_eq_getElem inside, List.getElem?_eq_getElem inside', same]

theorem DifferOnce.fingerprints {a b : Bytes} (h : DifferOnce a b) : fingerprint a ≠ fingerprint b := by
  obtain ⟨before, x, y, after, rfl, rfl, differ⟩ := h.split
  exact fun same => differ ((fingerprintByte before after).mp same)

theorem fingerprintsSeparate :
    (∀ a b suffix : Bytes, fingerprint (a ++ suffix) = fingerprint (b ++ suffix) ↔ fingerprint a = fingerprint b) ∧
      (∀ (before after : Bytes) (x y : UInt8), x ≠ y →
        fingerprint (before ++ [x] ++ after) ≠ fingerprint (before ++ [y] ++ after)) ∧
      ∀ s t : String, DifferOnce (utf8 s) (utf8 t) → (Object.string s).hashKey? ≠ (Object.string t).hashKey? := by
  refine ⟨fingerprintSuffix, ?_, ?_⟩
  · intro before after x y differ same
    exact differ ((fingerprintByte before after).mp same)
  · intro s t once same
    have words := congrArg HashKey.value (Option.some.inj same)
    exact once.fingerprints words

/- The accented letters are two bytes long and differ in the second. -/
theorem fingerprintsSeparateAccents :
    DifferOnce (utf8 "pré") (utf8 "prè") ∧ (Object.string "pré").hashKey? ≠ (Object.string "prè").hashKey? := by
  have acute : utf8 "pré" = [112, 114, 195, 169] := by decide +kernel
  have grave : utf8 "prè" = [112, 114, 195, 168] := by decide +kernel
  have once : DifferOnce (utf8 "pré") (utf8 "prè") := by
    rw [acute, grave]
    refine ⟨rfl, 3, by decide, ?_⟩
    intro i differ
    match i with
    | 3 => rfl
    | 0 | 1 | 2 | _ + 4 => exact absurd rfl differ
  exact ⟨once, fingerprintsSeparate.2.2 _ _ once⟩

end ClosureCode
