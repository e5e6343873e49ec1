import ClosureCode.Proofs.Disassembly
import ClosureCode.Proofs.Renaming

/-! The text of an expression shows its tree: two expressions of names, numbers, truth values, operators, calls,
arrays, hashes and indexing with the same text differ in spans alone. A text is read from the left; what stands behind
an expression tells where it ends. -/
namespace ClosureCode

/- Every name is kept. -/
def Renaming.none : Renaming := ⟨id, Function.injective_id, fun _ => rfl⟩

/- The two differ in spans alone. -/
abbrev SameTree : Expr → Expr → Prop := RenamedExpr .none

/- A name as it can stand in a program. -/
structure IsName (name : String) : Prop where
  nonempty : name.toList ≠ []
  letters : ∀ c ∈ name.toList, c.isAlpha ∨ c = '_'
  notTrue : name ≠ "true"
  notFalse : name ≠ "false"

/- Expressions without strings, conditionals and functions. -/
inductive Legible : Expr → Prop where
  | name {name span} (isName : IsName name) : Legible (.name name span)
  | integer {value span} : Legible (.integer value span)
  | boolean {value span} : Legible (.boolean value span)
  | unary {op e span} (operand : Legible e) : Legible (.unary op e span)
  | binary {op e f span} (left : Legible e) (right : Legible f) : Legible (.binary op e f span)
  | call {f es span} (callee : Legible f) (arguments : ∀ e ∈ es, Legible e) : Legible (.call f es span)
  | array {es span} (elements : ∀ e ∈ es, Legible e) : Legible (.array es span)
  | hash {ps span} (keys : ∀ p ∈ ps, Legible p.1) (values : ∀ p ∈ ps, Legible p.2) : Legible (.hash ps span)
  | index {e f span} (collection : Legible e) (position : Legible f) : Legible (.index e f span)

def Expr.text (e : Expr) : List Char := e.render.toList

def pairText (pair : Expr × Expr) : List Char := pair.1.text ++ ':' :: pair.2.text

section Texts
variable {α : Type} (item : α → List Char)

/- Further items, with a comma before each. -/
def following (xs : List α) : List Char := xs.flatMap fun x => ',' :: ' ' :: item x

def enumerated : List α → List Char
  | [] => []
  | x :: xs => item x ++ following item xs

theorem intercalateText (texts : List String) :
    (", ".intercalate texts).toList = enumerated String.toList texts := by
  cases texts with
  | nil => rfl
  | cons text texts =>
      induction texts generalizing text with
      | nil => simp [enumerated, following]
      | cons other texts ih =>
          rw [String.intercalate_cons_cons, String.toList_append, String.toList_append, ih]
          simp [enumerated, following]

theorem enumeratedMap {β : Type} (f : β → α) (xs : List β) :
    enumerated item (xs.map f) = enumerated (fun x => item (f x)) xs := by
  cases xs with
  | nil => rfl
  | cons x xs => simp [enumerated, following, List.flatMap_map]

variable (u : List Char) (span : Span)

theorem truthText (value : Bool) :
    (Expr.boolean value span).text = if value then ['t', 'r', 'u', 'e'] else ['f', 'a', 'l', 's', 'e'] := by
  rw [Expr.text, Expr.render]
  cases value <;> decide

theorem textUnary (op : UnaryOp) (e : Expr) :
    (Expr.unary op e span).text ++ u = '(' :: (op.symbol.toList ++ (e.text ++ ')' :: u)) := by
  simp [Expr.text, Expr.render]

theorem textBinary (op : BinaryOp) (e f : Expr) :
    (Expr.binary op e f span).text ++ u =
      '(' :: (e.text ++ ' ' :: (op.symbol.toList ++ ' ' :: (f.text ++ ')' :: u))) := by
  simp [Expr.text, Expr.render]

theorem textIndex (e f : Expr) :
    (Expr.index e f span).text ++ u = '(' :: (e.text ++ '[' :: (f.text ++ ']' :: ')' :: u)) := by
  simp [Expr.text, Expr.render]

theorem itemsText (es : List Expr) : (", ".intercalate (es.map Expr.render)).toList = enumerated Expr.text es := by
  rw [intercalateText, enumeratedMap]
  rfl

theorem pairsText (ps : List (Expr × Expr)) :
    (", ".intercalate (ps.map renderPair)).toList = enumerated pairText ps := by
  have pairs : (fun pair => (renderPair pair).toList) = pairText := by
    funext pair
    simp [renderPair, pairText, Expr.text]
  rw [intercalateText, enumeratedMap, pairs]

theorem textCall (e : Expr) (es : List Expr) :
    (Expr.call e es span).text ++ u = e.text ++ '(' :: (enumerated Expr.text es ++ ')' :: u) := by
  simp only [Expr.text, Expr.render, writeItemsJoined, String.toList_append, itemsText]
  simp

theorem textArray (es : List Expr) :
    (Expr.array es span).text ++ u = '[' :: (enumerated Expr.text es ++ ']' :: u) := by
  simp only [Expr.text, Expr.render, writeItemsJoined, String.toList_append, itemsText]
  simp

theorem textHash (ps : List (Expr × Expr)) :
    (Expr.hash ps span).text ++ u = '\x7b' :: (enumerated pairText ps ++ '\x7d' :: u) := by
  simp only [Expr.text, Expr.render, writePairsJoined, String.toList_append, pairsText]
  simp

end Texts

/- Where a word or a number ends. -/
def ends : List Char → Bool
  | [] => true
  | c :: _ => !(c.isAlphanum || c == '_')

/- Where an expression ends: it would go on with the arguments of a call, too. -/
def stops : List Char → Bool
  | [] => true
  | c :: _ => !(c.isAlphanum || c == '_' || c == '(')

theorem stopsEnds {u : List Char} (h : stops u) : ends u := by
  cases u with
  | nil => rfl
  | cons c u =>
      simp only [stops, ends, Bool.not_or, Bool.and_eq_true] at h ⊢
      exact h.1

/- Words that are read to their ends are the same. -/
theorem wordsAgree {a b u v : List Char} (word : ∀ c ∈ a, c.isAlphanum || c == '_')
    (word' : ∀ c ∈ b, c.isAlphanum || c == '_') (end' : ends u) (end'' : ends v) (same : a ++ u = b ++ v) :
    a = b ∧ u = v := by
  induction a generalizing b with
  | nil =>
      cases b with
      | nil => exact ⟨rfl, same⟩
      | cons d b =>
          rw [List.nil_append] at same
          rw [same, List.cons_append, ends, word' d List.mem_cons_self] at end'
          cases end'
  | cons c a ih =>
      cases b with
      | nil =>
          rw [List.nil_append] at same
          rw [← same, List.cons_append, ends, word c List.mem_cons_self] at end''
          cases end''
      | cons d b =>
          obtain ⟨rfl, later⟩ := List.cons.inj same
          obtain ⟨rfl, behind⟩ := ih (fun c member => word c (List.mem_cons_of_mem _ member))
            (fun c member => word' c (List.mem_cons_of_mem _ member)) later
          exact ⟨rfl, behind⟩

/- What an expression without calls begins as. -/
inductive Form where
  | word
  | number
  | group
  | array
  | hash
  deriving DecidableEq

def formOf? (c : Char) : Option Form :=
  if c.isAlpha || c == '_' then some .word
  else if c.isDigit || c == '-' then some .number
  else if c == '(' then some .group
  else if c == '[' then some .array
  else if c == '\x7b' then some .hash
  else none

namespace Expr

def form? : Expr → Option Form
  | .name .. | .boolean .. => some .word
  | .integer .. => some .number
  | .unary .. | .binary .. | .index .. => some .group
  | .array .. => some .array
  | .hash .. => some .hash
  | .string .. | .conditional .. | .function .. | .call .. => none

/- What is called in the end, and the arguments of one call after the other. -/
def head : Expr → Expr
  | .call callee _ _ => callee.head
  | e => e

def calls : Expr → List (List Expr)
  | .call callee arguments _ => callee.calls ++ [arguments]
  | _ => []

end Expr

def callsText (calls : List (List Expr)) : List Char :=
  calls.flatMap fun es => '(' :: (enumerated Expr.text es ++ [')'])

theorem textSpine (e : Expr) (u : List Char) : e.text ++ u = e.head.text ++ (callsText e.calls ++ u) := by
  match e with
  | .call callee arguments span =>
      rw [textCall, textSpine callee]
      simp [Expr.head, Expr.calls, callsText]
  | .name .. | .integer .. | .string .. | .boolean .. | .unary .. | .binary .. | .conditional .. | .function ..
  | .array .. | .hash .. | .index .. => rfl

namespace Legible

theorem head {e : Expr} (h : Legible e) : Legible e.head := by
  induction h with
  | call callee arguments ih => exact ih
  | name isName => exact .name isName
  | integer => exact .integer
  | boolean => exact .boolean
  | unary operand => exact .unary operand
  | binary left right => exact .binary left right
  | array elements => exact .array elements
  | hash keys values => exact .hash keys values
  | index collection position => exact .index collection position

theorem calls {e : Expr} (h : Legible e) : ∀ es ∈ e.calls, ∀ a ∈ es, Legible a := by
  induction h with
  | call callee arguments ih =>
      intro es member
      rcases List.mem_append.mp member with early | last
      · exact ih es early
      · rw [List.mem_singleton.mp last]
        exact arguments
  | _ => exact fun es member => by cases member

end Legible

section Numbers

def numeral (n : Nat) : List Char := (toString n).toList

theorem numeralWord (n : Nat) : ∀ c ∈ numeral n, c.isAlphanum || c == '_' := by
  intro c member
  simp [Char.isAlphanum, numeralDigits n c member]

theorem numeralOpens (n : Nat) : ∃ c rest, numeral n = c :: rest ∧ c.isDigit := by
  cases digits : numeral n with
  | nil =>
      rw [numeral, Nat.toString_eq_ofList_toDigits, String.toList_ofList] at digits
      exact absurd digits Nat.toDigits_ne_nil
  | cons c rest => exact ⟨c, rest, rfl, numeralDigits n c (by rw [← numeral, digits]; exact List.mem_cons_self)⟩

/- The digits of a number, with a sign in front if it is negative. -/
theorem integerText (value : Int64) (span : Span) :
    (∃ m : Nat, (Expr.integer value span).text = numeral m ∧ value.toInt = m) ∨
      ∃ m : Nat, (Expr.integer value span).text = '-' :: numeral m ∧ value.toInt = -m := by
  cases number : value.toInt with
  | ofNat m => exact .inl ⟨m, by rw [Expr.text, Expr.render, number]; rfl, rfl⟩
  | negSucc m =>
      refine .inr ⟨m + 1, ?_, rfl⟩
      rw [Expr.text, Expr.render, number]
      exact String.toList_append

theorem numeralSigned {m : Nat} {u v : List Char} : numeral m ++ u ≠ '-' :: v := by
  intro same
  obtain ⟨c, rest, digits, digit⟩ := numeralOpens m
  rw [digits] at same
  rw [(List.cons.inj same).1] at digit
  cases digit

theorem numeralAgree {m k : Nat} {u v : List Char} (hu : ends u) (hv : ends v)
    (same : numeral m ++ u = numeral k ++ v) : m = k ∧ u = v := by
  obtain ⟨digits, behind⟩ := wordsAgree (numeralWord m) (numeralWord k) hu hv same
  exact ⟨numeralInjective (String.toList_inj.mp digits), behind⟩

theorem integersAgree {a b : Int64} {s t : Span} {u v : List Char} (hu : ends u) (hv : ends v)
    (same : (Expr.integer a s).text ++ u = (Expr.integer b t).text ++ v) : a = b ∧ u = v := by
  rcases integerText a s with ⟨m, text, value⟩ | ⟨m, text, value⟩ <;>
    rcases integerText b t with ⟨k, text', value'⟩ | ⟨k, text', value'⟩ <;> rw [text, text'] at same
  · obtain ⟨rfl, behind⟩ := numeralAgree hu hv same
    exact ⟨Int64.toInt_inj.mp (value.trans value'.symm), behind⟩
  · exact absurd same numeralSigned
  · exact absurd same.symm numeralSigned
  · obtain ⟨rfl, behind⟩ := numeralAgree hu hv (List.cons.inj same).2
    exact ⟨Int64.toInt_inj.mp (value.trans value'.symm), behind⟩

theorem digitNoLetter {c : Char} (digit : c.isDigit) : (c.isAlpha || c == '_') = false := by
  have below : c.val ≤ '9'.val := of_decide_eq_true ((Bool.and_eq_true _ _).mp digit).2
  have far : ∀ d : Char, '9'.val < d.val → ¬ d.val ≤ c.val := fun d above reached =>
    UInt32.not_le.mpr above (UInt32.le_trans reached below)
  refine Bool.eq_false_iff.mpr fun letter => ?_
  rcases (Bool.or_eq_true _ _).mp letter with letter | same
  · rcases (Bool.or_eq_true _ _).mp letter with upper | lower
    · exact far 'A' (by decide) (of_decide_eq_true upper).1
    · exact far 'a' (by decide) (of_decide_eq_true ((Bool.and_eq_true _ _).mp lower).1)
  · exact far '_' (by decide) (eq_of_beq same ▸ UInt32.le_refl _)

theorem numberForm {c : Char} (digit : c.isDigit) : formOf? c = some .number := by
  rw [formOf?, digitNoLetter digit, digit]
  rfl

end Numbers

/- The first character tells the form. -/
theorem Legible.opens {e : Expr} (h : Legible e) : ∃ c rest, e.head.text = c :: rest ∧ formOf? c = e.head.form? ∧
    e.head.form?.isSome := by
  have first : ∀ {text : List Char} {c rest}, text ++ [] = c :: rest → text = c :: rest :=
    fun h => (List.append_nil _).symm.trans h
  induction h with
  | call callee arguments ih => exact ih
  | @name name span isName =>
      obtain ⟨c, rest, letters⟩ := List.exists_cons_of_ne_nil isName.nonempty
      refine ⟨c, rest, letters, ?_, rfl⟩
      have letter := isName.letters c (letters ▸ List.mem_cons_self)
      have word : (c.isAlpha || c == '_') = true := by simpa using letter
      rw [formOf?, if_pos word]
      rfl
  | @integer value span =>
      rcases integerText value span with ⟨m, text, -⟩ | ⟨m, text, -⟩
      · obtain ⟨c, rest, digits, digit⟩ := numeralOpens m
        exact ⟨c, rest, text.trans digits, numberForm digit, rfl⟩
      · exact ⟨'-', numeral m, text, rfl, rfl⟩
  | @boolean value span =>
      cases value with
      | true => exact ⟨'t', ['r', 'u', 'e'], truthText span true, rfl, rfl⟩
      | false => exact ⟨'f', ['a', 'l', 's', 'e'], truthText span false, rfl, rfl⟩
  | @unary op e span operand => exact ⟨'(', _, first (textUnary [] span op e), rfl, rfl⟩
  | @binary op e f span left right => exact ⟨'(', _, first (textBinary [] span op e f), rfl, rfl⟩
  | @array es span elements => exact ⟨'[', _, first (textArray [] span es), rfl, rfl⟩
  | @hash ps span keys values => exact ⟨'\x7b', _, first (textHash [] span ps), rfl, rfl⟩
  | @index e f span collection position => exact ⟨'(', _, first (textIndex [] span e f), rfl, rfl⟩

/- In texts shorter than `n`, an item is told from what stands behind it. -/
structure ReadsItems {α : Type} (n : Nat) (item : α → List Char) (known : α → Prop) (same : α → α → Prop) : Prop where
  read : ∀ {x y u v}, known x → known y → stops u → stops v → (item x ++ u).length < n → item x ++ u = item y ++ v →
    same x y ∧ u = v

abbrev Reads (n : Nat) : Prop := ReadsItems n Expr.text Legible SameTree

section Lists
variable {α : Type} {n : Nat} {item : α → List Char} {known : α → Prop} {same : α → α → Prop} {xs ys : List α}
  {close : Char} {u v : List Char}

/- Brackets that end a list. -/
def closes (c : Char) : Bool := c == ')' || c == ']' || c == '\x7d'

theorem followingCons (item : α → List Char) (x : α) (xs : List α) (u : List Char) :
    following item (x :: xs) ++ u = ',' :: ' ' :: (item x ++ (following item xs ++ u)) := by
  simp [following]

theorem enumeratedCons (item : α → List Char) (x : α) (xs : List α) (u : List Char) :
    enumerated item (x :: xs) ++ u = item x ++ (following item xs ++ u) := List.append_assoc _ _ _

theorem followingStops (h : closes close) : stops (following item xs ++ close :: u) := by
  cases xs with
  | cons x xs => rfl
  | nil =>
      simp only [closes, Bool.or_eq_true, beq_iff_eq] at h
      rcases h with (rfl | rfl) | rfl <;> rfl

/- The next item of a list, and what is left of it. -/
theorem ReadsItems.next (reads : ReadsItems n item known same) (h : closes close) {x y : α}
    (hx : known x) (hy : known y)
    (small : (item x ++ (following item xs ++ close :: u)).length < n)
    (text : item x ++ (following item xs ++ close :: u) = item y ++ (following item ys ++ close :: v)) :
    same x y ∧ following item xs ++ close :: u = following item ys ++ close :: v ∧
      (following item xs ++ close :: u).length < n := by
  obtain ⟨first, behind⟩ := reads.read hx hy (followingStops h) (followingStops h) small text
  rw [List.length_append] at small
  exact ⟨first, behind, by omega⟩

theorem ReadsItems.following (reads : ReadsItems n item known same) (h : closes close) (knows : ∀ x ∈ xs, known x)
    (knows' : ∀ y ∈ ys, known y) (small : (following item xs ++ close :: u).length < n)
    (text : following item xs ++ close :: u = following item ys ++ close :: v) : List.Forall₂ same xs ys ∧ u = v := by
  have noComma : close ≠ ',' := fun comma => by rw [comma] at h; cases h
  induction xs generalizing ys with
  | nil =>
      cases ys with
      | nil => exact ⟨.nil, (List.cons.inj text).2⟩
      | cons y ys => exact absurd (List.cons.inj text).1 noComma
  | cons x xs ih =>
      cases ys with
      | nil => exact absurd (List.cons.inj text).1.symm noComma
      | cons y ys =>
          obtain ⟨knowsFirst, knowsRest⟩ := List.forall_mem_cons.mp knows
          obtain ⟨knowsFirst', knowsRest'⟩ := List.forall_mem_cons.mp knows'
          rw [followingCons, followingCons, List.cons_inj_right, List.cons_inj_right] at text
          rw [followingCons, List.length_cons, List.length_cons] at small
          obtain ⟨first, behind, shorter⟩ := reads.next h knowsFirst knowsFirst' (by omega) text
          obtain ⟨rest, later⟩ := ih knowsRest knowsRest' shorter behind
          exact ⟨.cons first rest, later⟩

/- A list in brackets, if no item begins with a bracket that closes. -/
theorem ReadsItems.enumerated (reads : ReadsItems n item known same) (h : closes close)
    (opens : ∀ x, known x → ∃ c rest, item x = c :: rest ∧ closes c = false) (knows : ∀ x ∈ xs, known x)
    (knows' : ∀ y ∈ ys, known y) (small : (enumerated item xs ++ close :: u).length < n)
    (text : enumerated item xs ++ close :: u = enumerated item ys ++ close :: v) : List.Forall₂ same xs ys ∧ u = v := by
  have notEmpty : ∀ x u v, known x → close :: u ≠ item x ++ v := by
    intro x u v knowsFirst text
    obtain ⟨c, rest, first, other⟩ := opens x knowsFirst
    rw [first] at text
    rw [← (List.cons.inj text).1, h] at other
    cases other
  cases xs with
  | nil =>
      cases ys with
      | nil => exact ⟨.nil, (List.cons.inj text).2⟩
      | cons y ys =>
          rw [enumeratedCons] at text
          exact absurd text (notEmpty y _ _ (knows' y List.mem_cons_self))
  | cons x xs =>
      cases ys with
      | nil =>
          rw [enumeratedCons] at text
          exact absurd text.symm (notEmpty x _ _ (knows x List.mem_cons_self))
      | cons y ys =>
          obtain ⟨knowsFirst, knowsRest⟩ := List.forall_mem_cons.mp knows
          obtain ⟨knowsFirst', knowsRest'⟩ := List.forall_mem_cons.mp knows'
          rw [enumeratedCons, enumeratedCons] at text
          rw [enumeratedCons] at small
          obtain ⟨first, behind, shorter⟩ := reads.next h knowsFirst knowsFirst' small text
          obtain ⟨rest, later⟩ := reads.following h knowsRest knowsRest' shorter behind
          exact ⟨.cons first rest, later⟩

end Lists

theorem Legible.begins {e : Expr} (h : Legible e) : ∃ c rest, e.text = c :: rest ∧ (formOf? c).isSome := by
  obtain ⟨c, rest, first, form, some⟩ := h.opens
  have spine := textSpine e []
  rw [List.append_nil, first] at spine
  exact ⟨c, _, spine, form ▸ some⟩

theorem formCloses {c : Char} (h : (formOf? c).isSome) : closes c = false := by
  cases closing : closes c with
  | false => rfl
  | true =>
      simp only [closes, Bool.or_eq_true, beq_iff_eq] at closing
      rcases closing with (rfl | rfl) | rfl <;> cases h

theorem Legible.beginsOpen {e : Expr} (h : Legible e) : ∃ c rest, e.text = c :: rest ∧ closes c = false := by
  obtain ⟨c, rest, first, form⟩ := h.begins
  exact ⟨c, rest, first, formCloses form⟩

section Readings
variable {n : Nat} {x y : Expr} {u v : List Char}

theorem itemsAlike {es es' : List Expr} (h : List.Forall₂ SameTree es es') : RenamedExprs .none es es' := by
  induction h with
  | nil => exact .nil
  | cons first rest ih => exact .cons first ih

/- A key and its value. -/
def PairsAlike (p q : Expr × Expr) : Prop := SameTree p.1 q.1 ∧ SameTree p.2 q.2

theorem pairsAlike {ps ps' : List (Expr × Expr)} (h : List.Forall₂ PairsAlike ps ps') : RenamedPairs .none ps ps' := by
  induction h with
  | nil => exact .nil
  | cons first rest ih => exact .cons first.1 first.2 ih

theorem Reads.pairs (reads : Reads n) :
    ReadsItems n pairText (fun p => Legible p.1 ∧ Legible p.2) PairsAlike := by
  constructor
  intro p q u v known known' hu hv small text
  rw [pairText, pairText, List.append_assoc, List.append_assoc, List.cons_append, List.cons_append] at text
  rw [pairText, List.append_assoc, List.cons_append] at small
  obtain ⟨key, behind⟩ := reads.read known.1 known'.1 rfl rfl small text
  have shorter : (p.2.text ++ u).length < n := by
    rw [List.length_append, List.length_cons] at small
    omega
  obtain ⟨value, later⟩ := reads.read known.2 known'.2 hu hv shorter (List.cons.inj behind).2
  exact ⟨⟨key, value⟩, later⟩

/- The arguments of calls, up to what calls no more. -/
theorem Reads.calls (reads : Reads n) {calls calls' : List (List Expr)} (known : ∀ es ∈ calls, ∀ e ∈ es, Legible e)
    (known' : ∀ es ∈ calls', ∀ e ∈ es, Legible e) (hu : stops u) (hv : stops v)
    (small : (callsText calls ++ u).length ≤ n) (text : callsText calls ++ u = callsText calls' ++ v) :
    List.Forall₂ (List.Forall₂ SameTree) calls calls' ∧ u = v := by
  have next : ∀ es more w, callsText (es :: more) ++ w =
      '(' :: (enumerated Expr.text es ++ ')' :: (callsText more ++ w)) := fun es more w => by simp [callsText]
  induction calls generalizing calls' with
  | nil =>
      cases calls' with
      | nil => exact ⟨.nil, text⟩
      | cons es' more' =>
          rw [next] at text
          rw [show u = _ from text] at hu
          cases hu
  | cons es more ih =>
      cases calls' with
      | nil =>
          rw [next] at text
          rw [← show _ = v from text] at hv
          cases hv
      | cons es' more' =>
          obtain ⟨knownFirst, knownRest⟩ := List.forall_mem_cons.mp known
          obtain ⟨knownFirst', knownRest'⟩ := List.forall_mem_cons.mp known'
          rw [next, next, List.cons_inj_right] at text
          rw [next, List.length_cons] at small
          obtain ⟨first, behind⟩ := reads.enumerated rfl (fun e h => h.beginsOpen) knownFirst knownFirst'
            (by omega) text
          have shorter : (callsText more ++ u).length ≤ n := by
            rw [List.length_append, List.length_cons] at small
            omega
          obtain ⟨rest, later⟩ := ih knownRest knownRest' shorter behind
          exact ⟨.cons first rest, later⟩

theorem noCalls (e : Expr) : e.calls = [] ∧ e.head = e ∨ ∃ f es span, e = .call f es span := by
  cases e with
  | call f es span => exact .inr ⟨f, es, span, rfl⟩
  | _ => exact .inl ⟨rfl, rfl⟩

/- What is called in the end and the arguments of each call make up an expression. -/
theorem sameSpine (x y : Expr) (heads : SameTree x.head y.head)
    (calls : List.Forall₂ (List.Forall₂ SameTree) x.calls y.calls) : SameTree x y := by
  match x with
  | .call f es span =>
      have backwards := List.forall₂_reverse_iff.mpr calls
      rcases noCalls y with ⟨none, -⟩ | ⟨g, es', span', rfl⟩
      · rw [none, Expr.calls, List.reverse_append] at backwards
        cases backwards
      · simp only [Expr.calls, List.reverse_append, List.reverse_cons, List.reverse_nil, List.nil_append,
          List.singleton_append, List.forall₂_cons, List.forall₂_reverse_iff] at backwards
        exact .call (sameSpine f g heads backwards.2) (itemsAlike backwards.1)
  | .name .. | .integer .. | .string .. | .boolean .. | .unary .. | .binary .. | .conditional .. | .function ..
  | .array .. | .hash .. | .index .. =>
      rcases noCalls y with ⟨-, same⟩ | ⟨g, es', span', rfl⟩
      · rw [same] at heads
        exact heads
      · have none := List.forall₂_nil_left_iff.mp calls
        exact absurd none (List.append_ne_nil_of_right_ne_nil _ (List.cons_ne_nil _ _))

theorem Legible.word (h : Legible x) (form : x.form? = some .word) : ∀ c ∈ x.text, c.isAlphanum || c == '_' := by
  intro c member
  cases h with
  | name isName =>
      rcases isName.letters c member with letter | rfl
      · simp [Char.isAlphanum, letter]
      · rfl
  | @boolean value span =>
      rw [truthText] at member
      have letters : (if value then ['t', 'r', 'u', 'e'] else ['f', 'a', 'l', 's', 'e']).all
          fun c => c.isAlphanum || c == '_' := by
        cases value <;> rfl
      exact List.all_eq_true.mp letters c member
  | _ => cases form

theorem truthName {name : String} {value : Bool} {s t : Span} (isName : IsName name) :
    (Expr.name name s).text ≠ (Expr.boolean value t).text := by
  intro text
  have same : name = toString value := String.toList_inj.mp text
  cases value with
  | true => exact isName.notTrue same
  | false => exact isName.notFalse same

theorem sameWord (hx : Legible x) (hy : Legible y) (form : x.form? = some .word) (form' : y.form? = some .word)
    (text : x.text = y.text) : SameTree x y := by
  cases hx with
  | name isName =>
      cases hy with
      | name isName' =>
          cases String.toList_inj.mp text
          exact .name
      | boolean => exact absurd text (truthName isName)
      | _ => cases form'
  | @boolean value span =>
      cases hy with
      | name isName' => exact absurd text.symm (truthName isName')
      | @boolean value' span' =>
          rw [truthText, truthText] at text
          cases value <;> cases value' <;> first | exact .boolean | cases text
      | _ => cases form'
  | _ => cases form

theorem numberTree (form : x.form? = some .number) : ∃ value span, x = .integer value span := by
  cases x with
  | integer value span => exact ⟨value, span, rfl⟩
  | _ => cases form

theorem unarySymbols {op op' : UnaryOp} {a b : List Char} (text : op.symbol.toList ++ a = op'.symbol.toList ++ b) :
    op = op' ∧ a = b := by
  cases op <;> cases op' <;> obtain ⟨first, rest⟩ := List.cons.inj text
  · exact ⟨rfl, rest⟩
  · cases first
  · cases first
  · exact ⟨rfl, rest⟩

theorem BinaryOp.symbolInjective {op op' : BinaryOp} (same : op.symbol = op'.symbol) : op = op' := by
  have distinct : ([add, subtract, multiply, divide, equal, notEqual, less, greater].map BinaryOp.symbol).Nodup := by
    decide
  exact List.inj_on_of_nodup_map distinct (by cases op <;> decide) (by cases op' <;> decide) same

theorem binarySymbols {op op' : BinaryOp} {a b : List Char}
    (text : op.symbol.toList ++ ' ' :: a = op'.symbol.toList ++ ' ' :: b) : op = op' ∧ a = b := by
  have plain : ∀ op : BinaryOp, ' ' ∉ op.symbol.toList := fun op => by cases op <;> decide
  obtain ⟨symbol, behind⟩ := cutInjective (plain op) (plain op') text
  exact ⟨BinaryOp.symbolInjective (String.toList_inj.mp symbol), behind⟩

theorem callsEnd {calls : List (List Expr)} (hu : stops u) : ends (callsText calls ++ u) := by
  cases calls with
  | nil => exact stopsEnds hu
  | cons es more => rfl

/- The sign of a negative number is no operator: the bracket behind the operand would be read as part of the number's
continuation, which goes on with something else. -/
theorem Reads.signApart (reads : Reads n) (hx : Legible x) (hy : Legible y) {c : Char} (stop : stops (c :: v))
    (other : c ≠ ')') (small : (x.text ++ ')' :: u).length ≤ n) :
    '-' :: (x.text ++ ')' :: u) ≠ y.text ++ c :: v := by
  intro text
  rw [textSpine y] at text
  rw [textSpine x] at text small
  obtain ⟨d, rest, first, form, -⟩ := hy.opens
  rw [first, List.cons_append] at text
  obtain ⟨sign, text⟩ := List.cons.inj text
  rw [← sign] at first form
  obtain ⟨value, span, integer⟩ := numberTree form.symm
  rw [integer] at first
  rcases integerText value span with ⟨m, digits, -⟩ | ⟨m, digits, -⟩
  · rw [digits] at first
    exact numeralSigned ((List.append_nil _).trans first)
  · rw [digits] at first
    rw [← (List.cons.inj first).2] at text
    obtain ⟨e, more, opens, form', -⟩ := hx.opens
    obtain ⟨e', more', opens', digit⟩ := numeralOpens m
    have same : e = e' := by
      rw [opens, opens'] at text
      exact (List.cons.inj text).1
    rw [same, numberForm digit] at form'
    obtain ⟨value', span', integer'⟩ := numberTree form'.symm
    rw [integer'] at opens text small
    rcases integerText value' span' with ⟨k, digits', -⟩ | ⟨k, digits', -⟩
    · rw [digits'] at text small
      obtain ⟨-, behind⟩ := numeralAgree (callsEnd rfl) (callsEnd stop) text
      have shorter : (callsText x.calls ++ ')' :: u).length ≤ n := by
        rw [List.length_append] at small
        omega
      exact other (List.cons.inj (reads.calls hx.calls hy.calls rfl stop shorter behind).2).1.symm
    · rw [digits'] at text
      exact numeralSigned text.symm

/- An operator in front is never the beginning of what another bracket holds. -/
theorem Reads.unaryApart (reads : Reads n) (op : UnaryOp) (hx : Legible x) (hy : Legible y) {c : Char}
    (stop : stops (c :: v)) (other : c ≠ ')') (small : (x.text ++ ')' :: u).length ≤ n) :
    op.symbol.toList ++ (x.text ++ ')' :: u) ≠ y.text ++ c :: v := by
  cases op with
  | negate => exact reads.signApart hx hy stop other small
  | not =>
      intro text
      obtain ⟨d, rest, first, form⟩ := hy.begins
      rw [first] at text
      rw [← (List.cons.inj text).1] at form
      cases form

/- Whatever opens a group and goes on with an expression goes on with the same one. -/
theorem Reads.first (reads : Reads n) (hx : Legible x) (hy : Legible y) {c d : Char} (hu : stops (c :: u))
    (hv : stops (d :: v)) (small : ('(' :: (x.text ++ c :: u)).length ≤ n)
    (text : '(' :: (x.text ++ c :: u) = '(' :: (y.text ++ d :: v)) :
    SameTree x y ∧ c = d ∧ u = v ∧ u.length + 1 < n := by
  rw [List.length_cons] at small
  obtain ⟨same, behind⟩ := reads.read hx hy hu hv small (List.cons.inj text).2
  rw [List.length_append, List.length_cons] at small
  exact ⟨same, (List.cons.inj behind).1, (List.cons.inj behind).2, by omega⟩

theorem Reads.groups (reads : Reads n) (hx : Legible x) (hy : Legible y) (form : x.form? = some .group)
    (form' : y.form? = some .group) (small : (x.text ++ u).length ≤ n) (text : x.text ++ u = y.text ++ v) :
    SameTree x y ∧ u = v := by
  cases hx with
  | @unary op e s operand =>
      rw [textUnary] at text small
      have inner : (e.text ++ ')' :: u).length < n := by
        rw [List.length_cons, List.length_append] at small
        omega
      cases hy with
      | @unary op' e' s' operand' =>
          rw [textUnary, List.cons_inj_right] at text
          obtain ⟨rfl, behind⟩ := unarySymbols text
          obtain ⟨same, later⟩ := reads.read operand operand' rfl rfl inner behind
          exact ⟨.unary same, (List.cons.inj later).2⟩
      | binary left right =>
          rw [textBinary, List.cons_inj_right] at text
          exact absurd text (reads.unaryApart op operand left rfl (by decide) (Nat.le_of_lt inner))
      | index collection position =>
          rw [textIndex, List.cons_inj_right] at text
          exact absurd text (reads.unaryApart op operand collection rfl (by decide) (Nat.le_of_lt inner))
      | _ => cases form'
  | @binary op e f s left right =>
      cases hy with
      | @unary op' e' s' operand' =>
          rw [text, textUnary, List.length_cons, List.length_append] at small
          rw [textBinary, textUnary, List.cons_inj_right] at text
          exact absurd text.symm (reads.unaryApart op' operand' left rfl (by decide) (by omega))
      | @binary op' e' f' s' left' right' =>
          rw [textBinary] at text small
          rw [textBinary] at text
          obtain ⟨first, -, behind, shorter⟩ := reads.first left left' rfl rfl small text
          obtain ⟨rfl, behind'⟩ := binarySymbols behind
          have inner : (f.text ++ ')' :: u).length < n := by
            rw [List.length_append, List.length_cons] at shorter
            omega
          obtain ⟨second, later⟩ := reads.read right right' rfl rfl inner behind'
          exact ⟨.binary first second, (List.cons.inj later).2⟩
      | index collection position =>
          rw [textBinary] at text small
          rw [textIndex] at text
          exact absurd (reads.first left collection rfl rfl small text).2.1 (by decide)
      | _ => cases form'
  | @index e f s collection position =>
      cases hy with
      | @unary op' e' s' operand' =>
          rw [text, textUnary, List.length_cons, List.length_append] at small
          rw [textIndex, textUnary, List.cons_inj_right] at text
          exact absurd text.symm (reads.unaryApart op' operand' collection rfl (by decide) (by omega))
      | binary left right =>
          rw [textIndex] at text small
          rw [textBinary] at text
          exact absurd (reads.first collection left rfl rfl small text).2.1 (by decide)
      | @index e' f' s' collection' position' =>
          rw [textIndex] at text small
          rw [textIndex] at text
          obtain ⟨first, -, behind, shorter⟩ := reads.first collection collection' rfl rfl small text
          have inner : (f.text ++ ']' :: ')' :: u).length < n := by omega
          obtain ⟨second, later⟩ := reads.read position position' rfl rfl inner behind
          exact ⟨.index first second, (List.cons.inj (List.cons.inj later).2).2⟩
      | _ => cases form'
  | _ => cases form

/- Two expressions that begin alike, without the arguments behind them. -/
theorem Reads.heads (reads : Reads n) (hx : Legible x) (hy : Legible y) {form : Form} (formX : x.form? = some form)
    (formY : y.form? = some form) (hu : ends u) (hv : ends v) (small : (x.text ++ u).length ≤ n)
    (text : x.text ++ u = y.text ++ v) : SameTree x y ∧ u = v := by
  cases form with
  | word =>
      obtain ⟨word, behind⟩ := wordsAgree (hx.word formX) (hy.word formY) hu hv text
      exact ⟨sameWord hx hy formX formY word, behind⟩
  | number =>
      obtain ⟨value, s, rfl⟩ := numberTree formX
      obtain ⟨value', s', rfl⟩ := numberTree formY
      obtain ⟨rfl, behind⟩ := integersAgree hu hv text
      exact ⟨.integer, behind⟩
  | group => exact reads.groups hx hy formX formY small text
  | array =>
      cases hx with
      | array elements =>
          cases hy with
          | array elements' =>
              rw [textArray] at text small
              rw [textArray] at text
              obtain ⟨same, behind⟩ := reads.enumerated rfl (fun e h => h.beginsOpen) elements elements' small
                (List.cons.inj text).2
              exact ⟨.array (itemsAlike same), behind⟩
          | _ => cases formY
      | _ => cases formX
  | hash =>
      cases hx with
      | hash keys values =>
          cases hy with
          | hash keys' values' =>
              rw [textHash] at text small
              rw [textHash] at text
              have opens : ∀ p : Expr × Expr, Legible p.1 ∧ Legible p.2 →
                  ∃ c rest, pairText p = c :: rest ∧ closes c = false := by
                intro p known
                obtain ⟨c, rest, first, other⟩ := known.1.beginsOpen
                exact ⟨c, _, congrArg (· ++ ':' :: p.2.text) first, other⟩
              obtain ⟨same, behind⟩ := reads.pairs.enumerated rfl opens (fun p h => ⟨keys p h, values p h⟩)
                (fun p h => ⟨keys' p h, values' p h⟩) small (List.cons.inj text).2
              exact ⟨.hash (pairsAlike same), behind⟩
          | _ => cases formY
      | _ => cases formX

/- A text one character longer: first what is called in the end, then the arguments of its calls. -/
theorem Reads.longer (reads : Reads n) : Reads (n + 1) := by
  constructor
  intro x y u v hx hy hu hv small text
  rw [textSpine x, textSpine y] at text
  rw [textSpine x] at small
  obtain ⟨c, rest, first, form, some⟩ := hx.opens
  obtain ⟨d, rest', first', form', -⟩ := hy.opens
  have same : c = d := by
    rw [first, first'] at text
    exact (List.cons.inj text).1
  obtain ⟨kind, isKind⟩ := Option.isSome_iff_exists.mp some
  have isKind' : y.head.form? = Option.some kind := by rw [← form', ← same, form, isKind]
  obtain ⟨heads, behind⟩ := reads.heads hx.head hy.head isKind isKind' (callsEnd hu) (callsEnd hv) (by omega) text
  have shorter : (callsText x.calls ++ u).length ≤ n := by
    rw [List.length_append] at small
    omega
  obtain ⟨calls, later⟩ := reads.calls hx.calls hy.calls hu hv shorter behind
  exact ⟨sameSpine x y heads calls, later⟩

theorem reads (n : Nat) : Reads n := by
  -- The bound is on the text with what stands behind it, as this is what gets shorter when a part is read.
  induction n with
  | zero => exact ⟨fun _ _ _ _ small => absurd small (Nat.not_lt_zero _)⟩
  | succ n ih => exact ih.longer

end Readings

/- The text of an expression tells grouping, operators and argument lists. -/
theorem textTellsTree {x y : Expr} (hx : Legible x) (hy : Legible y) (text : x.render = y.render) : SameTree x y := by
  have same : x.text ++ [] = y.text ++ [] := congrArg (·.toList ++ []) text
  exact ((reads _).read hx hy rfl rfl (Nat.lt_succ_self _) same).1

/- A call on a negative number, indexed by a hash. -/
def bracketed (span : Span) : Expr :=
  .index (.call (.integer (-5) span) [.name "x" span, .unary .negate (.integer 5 span) span] span)
    (.hash [(.name "y" span, .array [.boolean true span] span)] span) span

theorem bracketedLegible (span : Span) : Legible (bracketed span) := by
  have letter : ∀ {name : String}, name = "x" ∨ name = "y" → IsName name := by
    rintro name (rfl | rfl) <;>
      refine ⟨by decide, fun c member => .inl ?_, by decide, by decide⟩ <;>
      exact List.all_eq_true.mp (by rfl) c member
  refine .index (.call .integer ?_) (.hash ?_ ?_)
  · simp only [List.forall_mem_cons, List.not_mem_nil, IsEmpty.forall_iff, implies_true, and_true]
    exact ⟨.name (letter (.inl rfl)), .unary .integer⟩
  · simp only [List.forall_mem_singleton]
    exact .name (letter (.inr rfl))
  · simp only [List.forall_mem_singleton]
    exact .array (by simp only [List.forall_mem_singleton]; exact .boolean)

theorem textTellsTreeBracketed : (bracketed ⟨0, 24, 1, 1⟩).render = "(-5(x, (-5))[\x7by:[true]\x7d])" ∧
    SameTree (bracketed ⟨0, 24, 1, 1⟩) (bracketed ⟨7, 31, 2, 1⟩) := by
  have text : ∀ span, (bracketed span).render = "(-5(x, (-5))[\x7by:[true]\x7d])" := by
    intro span
    simp [bracketed, Expr.render, writeItemsJoined, writePairsJoined, renderPair, UnaryOp.symbol]
    decide
  exact ⟨text _, textTellsTree (bracketedLegible _) (bracketedLegible _) ((text _).trans (text _).symm)⟩

end ClosureCode
