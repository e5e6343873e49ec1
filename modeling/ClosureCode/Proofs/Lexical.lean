import ClosureCode.Builtin
import ClosureCode.Proofs.Fragment

/-! What names mean in the text. The text knows nothing of captures: each function has a
frame of names, and a name means the latest binding in the first frame, from the innermost
outward, that has it. -/
namespace ClosureCode

/- How a function holds a name: as a parameter or a `let`, or as the name of the function itself. -/
inductive Place where
  | slot (index : Nat)
  | self

/- Functions are told apart by their level: one more than that of the function around them. -/
inductive Home where
  | builtin (index : Nat)
  | global (slot : Nat)
  | inner (level : Nat) (place : Place)

/- The parameters of a function and the `let`s passed so far, latest first. -/
structure LexicalFrame where
  name : Option String
  bound : List String

def slotOf? (name : String) : List String → Option Nat
  | [] => none
  | latest :: earlier => if latest = name then some earlier.length else slotOf? name earlier

def LexicalFrame.find? (frame : LexicalFrame) (name : String) : Option Place :=
  match slotOf? name frame.bound with
  | some slot => some (.slot slot)
  | none => if frame.name = some name then some .self else none

def Place.home : Nat → Place → Home
  | 0, .slot k => .global k
  | level, place => .inner level place

def builtinHome? (name : String) : Option Home :=
  (Builtin.all.findIdx? (·.name == name)).map .builtin

/- The meaning of a name inside the given frames, the innermost first, that of the top level last. -/
def lexical : List LexicalFrame → String → Option Home
  | [], name => builtinHome? name
  | frame :: outer, name =>
    match frame.find? name with
    | some place => some (place.home outer.length)
    | none => lexical outer name

def topFrame : LexicalFrame := ⟨none, []⟩

def functionFrame (name : Option String) (parameters : List String) : LexicalFrame := ⟨name, parameters.reverse⟩

def bindIn (name : String) : List LexicalFrame → List LexicalFrame
  | [] => []
  | frame :: outer => { frame with bound := name :: frame.bound } :: outer

def Event.after (frames : List LexicalFrame) : Event → List LexicalFrame
  | .bind name => bindIn name frames
  | .use _ | .function .. => frames

def framesAfter (frames : List LexicalFrame) (events : List Event) : List LexicalFrame :=
  events.foldl Event.after frames

@[simp] theorem framesAfterNil (frames : List LexicalFrame) : framesAfter frames [] = frames := rfl

@[simp] theorem framesAfterCons (frames : List LexicalFrame) (e : Event) (rest : List Event) :
    framesAfter frames (e :: rest) = framesAfter (e.after frames) rest := rfl

@[simp] theorem framesAfterAppend (frames : List LexicalFrame) (a b : List Event) :
    framesAfter frames (a ++ b) = framesAfter (framesAfter frames a) b := List.foldl_append

/- The names bound outside nested functions, in order. -/
def lets (events : List Event) : List String :=
  events.filterMap fun | .bind name => some name | _ => none

/- Names are bound in the innermost frame only. -/
theorem framesAfterFrame (frame : LexicalFrame) (frames : List LexicalFrame) (events : List Event) :
    framesAfter (frame :: frames) events =
      { frame with bound := (lets events).reverse ++ frame.bound } :: frames := by
  induction events generalizing frame with
  | nil => rfl
  | cons e rest ih => cases e <;> simp [framesAfterCons, Event.after, bindIn, lets, ih]

theorem LexicalFrame.findBind (frame : LexicalFrame) (name other : String) :
    ({ frame with bound := name :: frame.bound } : LexicalFrame).find? other =
      if name = other then some (.slot frame.bound.length) else frame.find? other := by
  by_cases same : name = other
  · simp [LexicalFrame.find?, slotOf?, same]
  · simp [LexicalFrame.find?, slotOf?, same]

section Meaning
variable {frame : LexicalFrame} {frames : List LexicalFrame} {name other : String}

theorem lexicalOwn {place : Place} (own : frame.find? name = some place) :
    lexical (frame :: frames) name = some (place.home frames.length) := by
  simp [lexical, own]

theorem lexicalOther (absent : frame.find? name = none) : lexical (frame :: frames) name = lexical frames name := by
  simp [lexical, absent]

/- Inside a function. -/
theorem Place.homeInner (level : Nat) (place : Place) : place.home (level + 1) = .inner (level + 1) place := by
  cases place <;> rfl

theorem Place.homeInjective {level : Nat} {place place' : Place} (same : place.home level = place'.home level) :
    place = place' := by
  cases level <;> cases place <;> cases place' <;> simp_all [Place.home]

theorem slotOfLt {bound : List String} {slot : Nat} (h : slotOf? name bound = some slot) : slot < bound.length := by
  induction bound with
  | nil => cases h
  | cons latest earlier ih =>
      unfold slotOf? at h
      split at h
      · cases h
        exact Nat.lt_succ_self _
      · exact Nat.lt_succ_of_lt (ih h)

theorem slotOfInjective {bound : List String} {slot : Nat} (h : slotOf? name bound = some slot)
    (h' : slotOf? other bound = some slot) : name = other := by
  induction bound with
  | nil => cases h
  | cons latest earlier ih =>
      unfold slotOf? at h h'
      split at h <;> split at h'
      · rename_i here here'
        rw [← here, ← here']
      · cases h
        exact absurd (slotOfLt h') (Nat.lt_irrefl _)
      · cases h'
        exact absurd (slotOfLt h) (Nat.lt_irrefl _)
      · exact ih h h'

theorem LexicalFrame.findSlot {slot : Nat} (h : frame.find? name = some (.slot slot)) :
    slotOf? name frame.bound = some slot := by
  unfold LexicalFrame.find? at h
  split at h
  · rename_i k found
    cases h
    exact found
  · split at h <;> cases h

theorem LexicalFrame.findSelf (h : frame.find? name = some .self) : frame.name = some name := by
  unfold LexicalFrame.find? at h
  split at h
  · cases h
  · split at h
    · assumption
    · cases h

theorem LexicalFrame.findInjective {place : Place} (h : frame.find? name = some place)
    (h' : frame.find? other = some place) :
    name = other := by
  cases place with
  | slot k => exact slotOfInjective (LexicalFrame.findSlot h) (LexicalFrame.findSlot h')
  | self => exact Option.some.inj ((LexicalFrame.findSelf h).symm.trans (LexicalFrame.findSelf h'))

theorem lexicalLevel {level : Nat} {place : Place} (h : lexical frames name = some (.inner level place)) :
    level < frames.length := by
  induction frames with
  | nil => simp [lexical, builtinHome?] at h
  | cons frame rest ih =>
      cases here : frame.find? name with
      | none =>
          rw [lexicalOther here] at h
          exact Nat.lt_succ_of_lt (ih h)
      | some place' =>
          rw [lexicalOwn here] at h
          cases depth : rest.length <;> cases place' <;> simp_all [Place.home]

/- What a frame holds has no meaning further out. -/
theorem lexicalBelow (place : Place) : lexical frames name ≠ some (place.home frames.length) := by
  intro h
  cases frames with
  | nil => cases place <;> simp [lexical, builtinHome?, Place.home] at h
  | cons frame rest =>
      rw [List.length_cons, Place.homeInner] at h
      exact absurd (lexicalLevel h) (Nat.lt_irrefl _)

theorem builtinHomeInjective {home : Home} (h : builtinHome? name = some home) (h' : builtinHome? other = some home) :
    name = other := by
  unfold builtinHome? at h h'
  obtain ⟨index, found, rfl⟩ := Option.map_eq_some_iff.mp h
  obtain ⟨index', found', same⟩ := Option.map_eq_some_iff.mp h'
  cases same
  obtain ⟨_, named, -⟩ := List.findIdx?_eq_some_iff_getElem.mp found
  obtain ⟨_, named', -⟩ := List.findIdx?_eq_some_iff_getElem.mp found'
  exact (eq_of_beq named).symm.trans (eq_of_beq named')

/- At one point of the text, two names mean two things. -/
theorem lexicalInjective {home : Home} (h : lexical frames name = some home) (h' : lexical frames other = some home) :
    name = other := by
  induction frames with
  | nil => exact builtinHomeInjective h h'
  | cons frame rest ih =>
      cases here : frame.find? name with
      | none =>
          rw [lexicalOther here] at h
          cases here' : frame.find? other with
          | none =>
              rw [lexicalOther here'] at h'
              exact ih h h'
          | some place' =>
              rw [lexicalOwn here'] at h'
              cases h'
              exact absurd h (lexicalBelow place')
      | some place =>
          rw [lexicalOwn here] at h
          cases h
          cases here' : frame.find? other with
          | none =>
              rw [lexicalOther here'] at h'
              exact absurd h' (lexicalBelow place)
          | some place' =>
              rw [lexicalOwn here'] at h'
              obtain rfl := Place.homeInjective (Option.some.inj h')
              exact LexicalFrame.findInjective here here'

/- The name belongs to a function around that of the given level. -/
def isOutside (level : Nat) (frames : List LexicalFrame) (name : String) : Bool :=
  match lexical frames name with
  | some (.inner home _) => home < level
  | _ => false

theorem outsideHome {level : Nat} {name : String} :
    isOutside level frames name ↔ ∃ home place, lexical frames name = some (.inner home place) ∧ home < level := by
  unfold isOutside
  split
  · rename_i home place same
    simp [same]
  · rename_i other
    simp only [Bool.false_eq_true, false_iff]
    rintro ⟨home, place, same, -⟩
    exact other home place same

theorem notOutside {level : Nat} {name : String}
    (other : ∀ home place, lexical frames name ≠ some (.inner home place)) :
    isOutside level frames name = false := by
  rw [Bool.eq_false_iff]
  intro outside
  obtain ⟨home, place, same, -⟩ := outsideHome.mp outside
  exact other home place same

theorem outsideOther {frame : LexicalFrame} {name : String} (absent : frame.find? name = none) (level : Nat) :
    isOutside level (frame :: frames) name = isOutside level frames name := by
  rw [isOutside, isOutside, lexicalOther absent]

end Meaning

/- The names that the functions around the given level hold and that the events use. -/
mutual

def Event.outerNames (level : Nat) (frames : List LexicalFrame) : Event → List String
  | .use name => if isOutside level frames name then [name] else []
  | .bind _ => []
  | .function name parameters body => ClosureCode.outerNames level (functionFrame name parameters :: frames) body

def outerNames (level : Nat) (frames : List LexicalFrame) : List Event → List String
  | [] => []
  | e :: rest => e.outerNames level frames ++ outerNames level (e.after frames) rest

end

theorem outerNamesAppend (level : Nat) (frames : List LexicalFrame) (a b : List Event) :
    outerNames level frames (a ++ b) = outerNames level frames a ++ outerNames level (framesAfter frames a) b := by
  induction a generalizing frames with
  | nil => simp [outerNames]
  | cons e rest ih => simp [outerNames, ih]

/- What a frame holds does not belong to a function around it. -/
theorem outsideOwn {level : Nat} {frame : LexicalFrame} {frames : List LexicalFrame} {name : String}
    (le : level ≤ frames.length)
    (outside : isOutside level (frame :: frames) name) : frame.find? name = none := by
  cases here : frame.find? name with
  | none => rfl
  | some place =>
      obtain ⟨home, place', means, lt⟩ := outsideHome.mp outside
      rw [lexicalOwn here] at means
      cases depth : frames.length with
      | zero => omega
      | succ n =>
          rw [depth, Place.homeInner] at means
          cases means
          omega

theorem outsideMono {level level' : Nat} (le : level ≤ level') {frames : List LexicalFrame} {name : String}
    (outside : isOutside level frames name) : isOutside level' frames name := by
  obtain ⟨home, place, means, lt⟩ := outsideHome.mp outside
  exact outsideHome.mpr ⟨home, place, means, by omega⟩

theorem usedOutside {level : Nat} {frames : List LexicalFrame} {used name : String} :
    name ∈ (Event.use used).outerNames level frames ↔ name = used ∧ isOutside level frames used := by
  unfold Event.outerNames
  cases outside : isOutside level frames used <;> simp

mutual

theorem Event.outerNamesMono {level level' : Nat} (le : level ≤ level') {frames : List LexicalFrame} {name : String} :
    (e : Event) → name ∈ e.outerNames level frames → name ∈ e.outerNames level' frames
  | .use used, member => by
      obtain ⟨same, outside⟩ := usedOutside.mp member
      exact usedOutside.mpr ⟨same, outsideMono le outside⟩
  | .bind _, member => member
  | .function _ _ body, member => ClosureCode.outerNamesMono le body member

theorem outerNamesMono {level level' : Nat} (le : level ≤ level') {frames : List LexicalFrame} {name : String} :
    (events : List Event) → name ∈ outerNames level frames events → name ∈ outerNames level' frames events
  | [], member => member
  | e :: rest, member => by
      unfold outerNames at member ⊢
      exact List.mem_append.mpr ((List.mem_append.mp member).imp (e.outerNamesMono le) (outerNamesMono le rest))

end

/- Names from outside mean the same throughout the function that uses them. -/
mutual

theorem Event.outerNamesOutside {level : Nat} {frame : LexicalFrame} {frames : List LexicalFrame}
    (le : level ≤ frames.length)
    {name : String} : (e : Event) → name ∈ e.outerNames level (frame :: frames) → isOutside level frames name
  | .use used, member => by
      obtain ⟨rfl, outside⟩ := usedOutside.mp member
      rwa [outsideOther (outsideOwn le outside)] at outside
  | .bind _, member => by cases member
  | .function own parameters body, member => by
      have outside := ClosureCode.outerNamesOutside (Nat.le_succ_of_le le) body member
      rwa [outsideOther (outsideOwn le outside)] at outside

theorem outerNamesOutside {level : Nat} {frame : LexicalFrame} {frames : List LexicalFrame}
    (le : level ≤ frames.length)
    {name : String} : (events : List Event) → name ∈ outerNames level (frame :: frames) events →
    isOutside level frames name
  | [], member => by cases member
  | e :: rest, member => by
      unfold outerNames at member
      rcases List.mem_append.mp member with here | later
      · exact e.outerNamesOutside le here
      · cases e with
        | use used => exact outerNamesOutside le rest later
        | bind bound => exact outerNamesOutside le rest later
        | function own parameters body => exact outerNamesOutside le rest later

end

end ClosureCode
