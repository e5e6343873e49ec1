import ClosureCode.Builtin.Call

/-! Arrays as lists. A program without loops builds them by `push` and walks them by `rest`, and reads them by
`first`, `last` and `len`. What builtins make of arguments that are too few, too many or of a wrong kind comes first. -/
namespace ClosureCode

namespace Builtin

/- How many arguments a builtin takes; `puts` takes any number. -/
def arity? : Builtin → Option Nat
  | puts => none
  | push => some 2
  | len | first | last | rest => some 1

/- The kinds that its first argument may have. -/
def Accepts : Builtin → Kind → Prop
  | puts, _ => True
  | len, kind => kind = .string ∨ kind = .array
  | first, kind | last, kind | rest, kind | push, kind => kind = .array

def complaint : Builtin → Kind → String
  | len, kind => "argument to `len` not supported, got " ++ kind.name
  | b, kind => "argument to `" ++ b.name ++ "` must be ARRAY, got " ++ kind.name

/- What the builtins on arrays have in common: they look at the number of arguments, then at the kind of the first. -/
def onArray (b : Builtin) (want count : Nat) (argument? : Nat → Option Object) (value : List Object → Option Object) :
    Option Object :=
  if count = want then do
    match ← argument? 0 with
    | .array elements => value elements
    | other => some (notAnArray b other)
  else some (wrongCount count want)

/- The value of a call that knows the number of its arguments and asks for each by its place. It has no value if it
asks for one that is not there. -/
def answer (b : Builtin) (count : Nat) (argument? : Nat → Option Object) : Option Object :=
  match b with
  | len => if count = 1 then (argument? 0).map length else some (wrongCount count 1)
  | puts => some .null
  | first => onArray first 1 count argument? fun elements => some (elements.head?.getD .null)
  | last => onArray last 1 count argument? fun elements => some (elements.getLast?.getD .null)
  | rest => onArray rest 1 count argument? fun
    | [] => some .null
    | _ :: elements => some (.array elements)
  | push => onArray push 2 count argument? fun elements => (argument? 1).map fun value => .array (elements ++ [value])

section Arguments
variable {b : Builtin} {want count : Nat} {argument? : Nat → Option Object}

/- With a wrong number of arguments none of them is asked for, whatever they are. -/
theorem answerCount (takes : b.arity? = some want) (wrong : count ≠ want) :
    b.answer count argument? = some (wrongCount count want) := by
  cases b with
  | puts => cases takes
  | len | first | last | rest | push =>
      cases takes
      exact if_neg wrong

theorem onArrayKind {value : List Object → Option Object} {argument : Object} (here : argument? 0 = some argument)
    (other : argument.kind ≠ .array) :
    onArray b want want argument? value = some (notAnArray b argument) := by
  unfold onArray
  rw [if_pos rfl, here]
  cases argument with
  | array _ => exact absurd rfl other
  | _ => rfl

/- With an unsupported first argument no other one is asked for. -/
theorem answerKind (takes : b.arity? = some want) {argument : Object} (here : argument? 0 = some argument)
    (refused : ¬ b.Accepts argument.kind) : b.answer want argument? = some (.error (b.complaint argument.kind)) := by
  cases b with
  | puts => cases takes
  | len =>
      cases takes
      unfold answer
      rw [if_pos rfl, here, Option.map_some]
      cases argument with
      | string _ => exact absurd (.inl rfl) refused
      | array _ => exact absurd (.inr rfl) refused
      | _ => rfl
  | first | last | rest | push =>
      cases takes
      exact onArrayKind here refused

/- A call asks for no argument that is not there, and its value is the one it has on the list of its arguments. -/
theorem answerResult (b : Builtin) (arguments : List Object) :
    b.answer arguments.length (arguments[·]?) = some (b.result arguments) := by
  match arguments with
  | [] => cases b <;> rfl
  | argument :: more =>
      rcases more with _ | ⟨value, _ | ⟨other, more⟩⟩ <;> cases argument with
      | array elements => cases elements <;> cases b <;> rfl
      | _ => cases b <;> rfl

end Arguments

/- The values that there are after some calls, each of which takes its arguments from those before. -/
inductive Calls (values : List Object) : List Object → Prop where
  | none : Calls values values
  | call {made arguments} (before : Calls values made) (b : Builtin) (places : List Nat)
      (taken : places.mapM (made[·]?) = some arguments) : Calls values (made ++ [b.result arguments])

theorem Calls.kept {values made : List Object} (calls : Calls values made) : values <+: made := by
  induction calls with
  | none => exact List.prefix_rfl
  | call before b places taken ih => exact ih.trans (List.prefix_append _ _)

/- What a builtin does with its arguments before it works on them. -/
structure Answers (b : Builtin) (arguments : List Object) : Prop where
  inside : b.answer arguments.length (arguments[·]?) = some (b.result arguments)
  count : ∀ want, b.arity? = some want → arguments.length ≠ want →
    b.result arguments =
      .error ("wrong number of arguments. got=" ++ toString arguments.length ++ ", want=" ++ toString want) ∧
    ∀ argument?, b.answer arguments.length argument? = some (b.result arguments)
  kind : ∀ want, b.arity? = some want → ∀ argument more, arguments = argument :: more → arguments.length = want →
    ¬ b.Accepts argument.kind → b.result arguments = .error (b.complaint argument.kind) ∧
    ∀ argument?, argument? 0 = some argument → b.answer arguments.length argument? = some (b.result arguments)
  kept : ∀ made, Calls arguments made → arguments <+: made

theorem answers (b : Builtin) (arguments : List Object) : b.Answers arguments where
  inside := answerResult b arguments
  count want takes wrong := by
    have told : b.result arguments = wrongCount arguments.length want :=
      Option.some.inj ((answerResult b arguments).symm.trans (answerCount takes wrong))
    exact ⟨told, fun argument? => told ▸ answerCount takes wrong⟩
  kind want takes argument more same count refused := by
    have here : arguments[0]? = some argument := by rw [same, List.getElem?_cons_zero]
    have told : b.result arguments = .error (b.complaint argument.kind) :=
      Option.some.inj ((answerResult b arguments).symm.trans (count ▸ answerKind takes here refused))
    exact ⟨told, fun argument? here => by rw [told, count, answerKind takes here refused]⟩
  kept made calls := calls.kept

/- `rest`, some times in turn. -/
def walk : Nat → Object → Object
  | 0, array => array
  | k + 1, array => rest.result [walk k array]

theorem pushAll (xs ys : List Object) :
    xs.foldl (fun array x => push.result [array, x]) (.array ys) = .array (ys ++ xs) := by
  induction xs generalizing ys with
  | nil => rw [List.foldl_nil, List.append_nil]
  | cons x xs ih => rw [List.foldl_cons, result, ih, List.append_assoc, List.singleton_append]

theorem restArray {xs : List Object} (some : xs ≠ []) : rest.result [.array xs] = .array (xs.drop 1) := by
  cases xs with
  | nil => exact absurd rfl some
  | cons x xs => rfl

theorem walkArray {xs : List Object} {k : Nat} (inside : k ≤ xs.length) :
    walk k (.array xs) = .array (xs.drop k) := by
  induction k with
  | zero => rfl
  | succ k ih =>
      have more : xs.drop k ≠ [] := fun none => by
        have := List.drop_eq_nil_iff.mp none
        omega
      rw [walk, ih (Nat.le_of_succ_le inside), restArray more, List.drop_drop]

theorem walkBeyond (xs : List Object) : walk (xs.length + 1) (.array xs) = .null := by
  rw [walk, walkArray (Nat.le_refl _), List.drop_length]
  rfl

example : walk 3 (.array [.null, .error "e", .array []]) = .array [] := rfl

/- `rest` of what is no array is no array. -/
theorem restOther {o : Object} (other : o.kind ≠ .array) : (rest.result [o]).kind ≠ .array := by
  cases o with
  | array _ => exact absurd rfl other
  | _ => exact fun same => by cases same

theorem walkFurther (xs : List Object) (k : Nat) : (walk (xs.length + 1 + k) (.array xs)).kind ≠ .array := by
  induction k with
  | zero =>
      rw [Nat.add_zero, walkBeyond]
      exact fun same => by cases same
  | succ k ih => exact restOther ih

/- The walk comes to the empty array once. -/
theorem walkEmpty (xs : List Object) (k : Nat) : walk k (.array xs) = .array [] ↔ k = xs.length := by
  constructor
  · intro empty
    rcases Nat.lt_or_ge xs.length k with beyond | inside
    · obtain ⟨j, rfl⟩ := Nat.exists_eq_add_of_le beyond
      exact absurd (congrArg Object.kind empty) (walkFurther xs j)
    · rw [walkArray inside] at empty
      have none := List.drop_eq_nil_iff.mp (Object.array.inj empty)
      omega
  · intro same
    rw [same, walkArray (Nat.le_refl _), List.drop_length]

end Builtin

open Builtin

/- The builtins on the array of some elements, as operations on the list of them. -/
structure ListLaws (xs : List Object) : Prop where
  pushes : xs.foldl (fun array x => push.result [array, x]) (.array []) = .array xs
  walks : ∀ k ≤ xs.length, walk k (.array xs) = .array (xs.drop k)
  stops : walk (xs.length + 1) (.array xs) = .null
  steps : ∀ k, walk k (.array xs) = .array [] ↔ k = xs.length
  first : ∀ k (inside : k < xs.length), first.result [walk k (.array xs)] = xs[k]
  last : ∀ k (inside : k < xs.length), last.result [walk k (.array xs)] = xs[xs.length - 1]
  len : ∀ k ≤ xs.length, ∃ n, len.result [walk k (.array xs)] = .integer n ∧
    n = Int64.ofNat (xs.length - k) ∧ (xs.length ≤ Int64.maxValue.toInt → n.toInt = xs.length - k)
  exchange : xs ≠ [] → ∀ x,
    rest.result [push.result [.array xs, x]] = push.result [rest.result [.array xs], x]

theorem arraysAreLists (xs : List Object) (b : Builtin) (arguments : List Object) :
    ListLaws xs ∧ b.Answers arguments := by
  refine ⟨?_, b.answers arguments⟩
  constructor
  case pushes => exact pushAll xs []
  case walks => exact fun k inside => walkArray inside
  case stops => exact walkBeyond xs
  case steps => exact walkEmpty xs
  case first =>
    intro k inside
    rw [walkArray (Nat.le_of_lt inside), result, List.head?_drop, List.getElem?_eq_getElem inside]
    rfl
  case last =>
    intro k inside
    have behind : ¬ xs.length ≤ k := Nat.not_le_of_lt inside
    rw [walkArray (Nat.le_of_lt inside), result, List.getLast?_drop, if_neg behind, List.getLast?_eq_getElem?,
      List.getElem?_eq_getElem]
    rfl
  case len =>
    intro k inside
    refine ⟨Int64.ofNat (xs.length - k), ?_, rfl, fun small => ?_⟩
    · rw [walkArray inside, result, length, List.length_drop]
    · have most : Int64.maxValue.toInt = 2 ^ 63 - 1 := rfl
      have fits : xs.length - k < 2 ^ 63 := by omega
      rw [Int64.toInt_ofNat_of_lt fits, Int.ofNat_sub inside]
  case exchange =>
    intro some x
    rw [restArray some, result, result, restArray (List.append_ne_nil_of_left_ne_nil some _)]
    cases xs with
    | nil => exact absurd rfl some
    | cons y ys => rfl

end ClosureCode
