import ClosureCode.Proofs.ClosureConversion

/-! What compiled code refers to is there: constants, functions, slots, captured variables,
globals and builtins. Every constant of the pool is referred to once. -/
namespace ClosureCode

section Meaning
variable {frame : LexicalFrame} {frames : List LexicalFrame} {name : String}

def globals : List LexicalFrame → Nat
  | [] => 0
  | [top] => top.bound.length
  | _ :: next :: rest => globals (next :: rest)

theorem globalsCons (frame : LexicalFrame) (inside : frames ≠ []) : globals (frame :: frames) = globals frames := by
  cases frames with
  | nil => exact absurd rfl inside
  | cons next rest => rfl

theorem lexicalGlobal {slot : Nat} (h : lexical frames name = some (.global slot)) : slot < globals frames := by
  induction frames with
  | nil => simp [lexical, builtinHome?] at h
  | cons frame rest ih =>
      cases here : frame.find? name with
      | none =>
          rw [lexicalOther here] at h
          cases rest with
          | nil => simp [lexical, builtinHome?] at h
          | cons next rest => exact ih h
      | some place =>
          rw [lexicalOwn here] at h
          cases rest with
          | cons next rest =>
              rw [List.length_cons, Place.homeInner] at h
              cases h
          | nil =>
              cases place with
              | self => cases h
              | slot k =>
                  cases h
                  exact slotOfLt (LexicalFrame.findSlot here)

theorem lexicalBuiltin {index : Nat} (h : lexical frames name = some (.builtin index)) :
    index < Builtin.all.length := by
  induction frames with
  | nil =>
      obtain ⟨k, found, same⟩ := Option.map_eq_some_iff.mp h
      cases same
      exact (List.findIdx?_eq_some_iff_getElem.mp found).1
  | cons frame rest ih =>
      cases here : frame.find? name with
      | none =>
          rw [lexicalOther here] at h
          exact ih h
      | some place =>
          rw [lexicalOwn here] at h
          cases depth : rest.length <;> cases place <;> simp_all [Place.home]

/- What belongs to the function at hand is in its frame. -/
theorem lexicalHere {level : Nat} {place : Place} (h : lexical (frame :: frames) name = some (.inner level place))
    (here : level = frames.length) : frame.find? name = some place := by
  cases found : frame.find? name with
  | none =>
      rw [lexicalOther found] at h
      have := lexicalLevel h
      omega
  | some place' =>
      rw [lexicalOwn found] at h
      cases depth : frames.length with
      | zero => cases place' <;> simp_all [Place.home]
      | succ n =>
          rw [depth, Place.homeInner] at h
          cases h
          rfl

end Meaning

/- Where an instruction stands: inside a function or not, and how much there is to refer to. -/
structure Room where
  inner : Bool
  named : Bool
  locals : Nat
  captured : Nat
  globals : Nat
  slots : Nat

def Code.instructions (code : Code) : List Instruction := (Instruction.decodeAll code.toList).toOption.getD []

/- The captured variables that some code uses are the first `n`. -/
def UsesCaptured (code : List Instruction) (n : Nat) : Prop :=
  ∀ operands, ⟨.getFree, operands⟩ ∈ code ↔ ∃ index < n, operands = [index]

inductive Refers (pool : List Object) (room : Room) : Instruction → Prop where
  | nothing {i : Instruction} (silent : i.opcode.isSilent) : Refers pool room i
  | constant {slot object} (constant : pool[slot]? = some object) (literal : object.isLiteral)
    (lt : slot < room.slots) :
      Refers pool room ⟨.constant, [slot]⟩
  | getGlobal {slot} (lt : slot < room.globals) : Refers pool room ⟨.getGlobal, [slot]⟩
  | setGlobal {slot} (top : room.inner = false) (lt : slot < room.globals) : Refers pool room ⟨.setGlobal, [slot]⟩
  | getLocal {slot} (inner : room.inner) (lt : slot < room.locals) : Refers pool room ⟨.getLocal, [slot]⟩
  | setLocal {slot} (inner : room.inner) (lt : slot < room.locals) : Refers pool room ⟨.setLocal, [slot]⟩
  | getBuiltin {index} (lt : index < Builtin.all.length) : Refers pool room ⟨.getBuiltin, [index]⟩
  | getFree {index} (inner : room.inner) (lt : index < room.captured) : Refers pool room ⟨.getFree, [index]⟩
  | currentClosure (inner : room.inner) (named : room.named) : Refers pool room ⟨.currentClosure, []⟩
  | closure {slot n} {f : CompiledFunction} (function : pool[slot]? = some (.compiled f))
      (uses : UsesCaptured f.code.instructions n) (lt : slot < room.slots) (captures : room.inner = false → n = 0) :
      Refers pool room ⟨.closure, [slot, n]⟩

structure Room.Within (room room' : Room) : Prop where
  inner : room.inner = room'.inner
  named : room.named = room'.named
  captured : room.captured = room'.captured
  locals : room.locals ≤ room'.locals
  globals : room.globals ≤ room'.globals
  slots : room.slots ≤ room'.slots

theorem Room.Within.trans {a b c : Room} (first : a.Within b) (second : b.Within c) : a.Within c := by
  obtain ⟨i, n, c, l, g, s⟩ := first
  obtain ⟨i', n', c', l', g', s'⟩ := second
  exact ⟨i.trans i', n.trans n', c.trans c', Nat.le_trans l l', Nat.le_trans g g', Nat.le_trans s s'⟩

theorem Refers.within {pool : List Object} {room room' : Room} {i : Instruction} (h : Refers pool room i)
    (within : room.Within room') : Refers pool room' i := by
  obtain ⟨inner, named, captured, locals, globals, slots⟩ := within
  cases h with
  | nothing silent => exact .nothing silent
  | constant constant literal lt => exact .constant constant literal (by omega)
  | getGlobal lt => exact .getGlobal (by omega)
  | setGlobal top lt => exact .setGlobal (inner ▸ top) (by omega)
  | getLocal here lt => exact .getLocal (inner ▸ here) (by omega)
  | setLocal here lt => exact .setLocal (inner ▸ here) (by omega)
  | getBuiltin lt => exact .getBuiltin lt
  | getFree here lt => exact .getFree (inner ▸ here) (by omega)
  | currentClosure here own => exact .currentClosure (inner ▸ here) (named ▸ own)
  | closure function uses lt captures => exact .closure function uses (by omega) (inner ▸ captures)

section Inversion
variable {pool : List Object} {room : Room} {i : Instruction}

theorem refersConstant (h : Refers pool room i) (op : i.opcode = .constant) :
    ∃ slot object, i.operands = [slot] ∧ pool[slot]? = some object ∧ object.isLiteral := by
  cases h with
  | constant constant literal lt => exact ⟨_, _, rfl, constant, literal⟩
  | nothing silent => rw [op] at silent; cases silent
  | _ => cases op

theorem refersClosure (h : Refers pool room i) (op : i.opcode = .closure) :
    ∃ slot n f, i.operands = [slot, n] ∧ pool[slot]? = some (.compiled f) ∧ UsesCaptured f.code.instructions n ∧
      slot < room.slots ∧ (room.inner = false → n = 0) := by
  cases h with
  | closure function uses lt captures => exact ⟨_, _, _, rfl, function, uses, lt, captures⟩
  | nothing silent => rw [op] at silent; cases silent
  | _ => cases op

theorem refersLocal (h : Refers pool room i) (op : i.opcode = .getLocal ∨ i.opcode = .setLocal) :
    ∃ slot, i.operands = [slot] ∧ slot < room.locals := by
  cases h with
  | getLocal inner lt => exact ⟨_, rfl, lt⟩
  | setLocal inner lt => exact ⟨_, rfl, lt⟩
  | nothing silent => rcases op with op | op <;> rw [op] at silent <;> cases silent
  | _ => rcases op with op | op <;> cases op

theorem refersCurrent (h : Refers pool room i) (op : i.opcode = .currentClosure) : room.named := by
  cases h with
  | currentClosure inner named => exact named
  | nothing silent => rw [op] at silent; cases silent
  | _ => cases op

theorem refersGlobal (h : Refers pool room i) (op : i.opcode = .getGlobal) :
    ∃ slot, i.operands = [slot] ∧ slot < room.globals := by
  cases h with
  | getGlobal lt => exact ⟨_, rfl, lt⟩
  | nothing silent => rw [op] at silent; cases silent
  | _ => cases op

theorem refersBuiltin (h : Refers pool room i) (op : i.opcode = .getBuiltin) :
    ∃ index, i.operands = [index] ∧ index < Builtin.all.length := by
  cases h with
  | getBuiltin lt => exact ⟨_, rfl, lt⟩
  | nothing silent => rw [op] at silent; cases silent
  | _ => cases op

theorem refersOutside (h : Refers pool room i) (top : room.inner = false) :
    i.opcode ∉ [.getLocal, .setLocal, .getFree, .currentClosure] := by
  cases h with
  | nothing silent =>
      intro member
      simp only [List.mem_cons, List.not_mem_nil, or_false] at member
      rcases member with op | op | op | op <;> rw [op] at silent <;> cases silent
  | getLocal inner lt => rw [top] at inner; cases inner
  | setLocal inner lt => rw [top] at inner; cases inner
  | getFree inner lt => rw [top] at inner; cases inner
  | currentClosure inner named => rw [top] at inner; cases inner
  | _ => simp

end Inversion

def roomOf (frames : List LexicalFrame) (outer : List (List Instruction)) (slots : Nat) : Room :=
  let own := frames.headD topFrame
  ⟨!outer.isEmpty, own.name.isSome, own.bound.length, (outer.headD []).length, globals frames, slots⟩

section Rooms
variable {pool : List Object} {frames : List LexicalFrame} {outer : List (List Instruction)}

theorem roomBind (frames : List LexicalFrame) (outer : List (List Instruction)) (name : String) (slots : Nat) :
    (roomOf frames outer slots).Within (roomOf (bindIn name frames) outer slots) := by
  cases frames with
  | nil => exact ⟨rfl, rfl, rfl, Nat.le_refl _, Nat.le_refl _, Nat.le_refl _⟩
  | cons frame rest =>
      refine ⟨rfl, rfl, rfl, Nat.le_succ _, ?_, Nat.le_refl _⟩
      cases rest with
      | nil => exact Nat.le_succ _
      | cons next rest => exact Nat.le_refl _

theorem roomAfter (frames : List LexicalFrame) (outer : List (List Instruction)) (events : List Event)
    {slots slots' : Nat}
    (le : slots ≤ slots') : (roomOf frames outer slots).Within (roomOf (framesAfter frames events) outer slots') := by
  induction events generalizing frames with
  | nil => exact ⟨rfl, rfl, rfl, Nat.le_refl _, Nat.le_refl _, le⟩
  | cons e rest ih =>
      cases e with
      | use name => exact ih frames
      | bind name => exact (roomBind frames outer name slots).trans (ih (bindIn name frames))
      | function name parameters body => exact ih frames

/- A load that reaches the meaning of a name refers to something. -/
theorem reachesRefers {name : String} {home : Home} {load : Instruction} (depth : frames.length = outer.length + 1)
    (means : lexical frames name = some home) (reaches : Reaches outer load home) (slots : Nat) :
    Refers pool (roomOf frames outer slots) load := by
  cases home with
  | builtin index =>
      rw [reachesBuiltin.mp reaches]
      exact .getBuiltin (lexicalBuiltin means)
  | global slot =>
      rw [reachesGlobal.mp reaches]
      exact .getGlobal (lexicalGlobal means)
  | inner level place =>
      cases outer with
      | nil => cases reaches
      | cons loads outer =>
          unfold Reaches at reaches
          split at reaches
          · rename_i here
            cases frames with
            | nil => cases depth
            | cons frame rest =>
                simp only [List.length_cons, Nat.add_right_cancel_iff] at depth
                have found := lexicalHere means (here.trans depth.symm)
                cases place with
                | slot k =>
                    rw [reaches]
                    exact .getLocal rfl (slotOfLt (LexicalFrame.findSlot found))
                | self =>
                    rw [reaches]
                    refine .currentClosure rfl ?_
                    simp [roomOf, LexicalFrame.findSelf found]
          · obtain ⟨index, load', rfl, at', -⟩ := reaches
            exact .getFree rfl (List.getElem?_eq_some_iff.mp at').1

theorem Realizes.slots {slot slot' : Nat} {events : List Event} {is : List Instruction}
    (h : Realizes pool frames outer slot events is slot') : slot ≤ slot' := by
  induction h with
  | done => exact Nat.le_refl _
  | silent silent rest ih => exact ih
  | constant constant literal rest ih => omega
  | use means reaches rest ih => exact ih
  | bind rest ih => exact ih
  | function captures inside constant decoded count rest ihInside ih => omega

theorem Captures.load {used : List String} {loads : List Instruction} (h : Captures frames outer used loads)
    {name : String}
    (member : name ∈ used) : ∃ load ∈ loads, ∃ home, lexical frames name = some home ∧ Reaches outer load home := by
  obtain ⟨names, -, exactly, reach⟩ := h
  obtain ⟨k, inside, rfl⟩ := List.getElem_of_mem ((exactly name).mpr member)
  have bound : k < loads.length := reach.length_eq ▸ inside
  exact ⟨loads[k], List.getElem_mem bound, reach.get inside bound⟩

theorem Captures.origin {used : List String} {loads : List Instruction} (h : Captures frames outer used loads)
    {load : Instruction} (member : load ∈ loads) :
    ∃ name ∈ used, ∃ home, lexical frames name = some home ∧ Reaches outer load home := by
  obtain ⟨names, -, exactly, reach⟩ := h
  obtain ⟨k, inside, rfl⟩ := List.getElem_of_mem member
  have bound : k < names.length := reach.length_eq ▸ inside
  exact ⟨names[k], (exactly _).mp (List.getElem_mem bound), reach.get bound inside⟩

theorem Captures.fromInside {frame : LexicalFrame} {events : List Event} {loads : List Instruction}
    (h : Captures frames outer (outerNames frames.length (frame :: frames) events) loads) {load : Instruction}
    (member : load ∈ loads) :
    outer ≠ [] ∧ load.opcode.loadsInner := by
  obtain ⟨name, used, home, means, reaches⟩ := h.origin member
  obtain ⟨level, place, means', -⟩ := outsideHome.mp (outerNamesOutside (Nat.le_refl _) events used)
  rw [means] at means'
  cases means'
  exact reachesInner reaches

theorem reachesNoClosure {home : Home} {load : Instruction} (reaches : Reaches outer load home) :
    load.opcode ≠ .constant ∧ load.opcode ≠ .closure := by
  cases home with
  | builtin index => rw [reachesBuiltin.mp reaches]; exact ⟨nofun, nofun⟩
  | global slot => rw [reachesGlobal.mp reaches]; exact ⟨nofun, nofun⟩
  | inner level place =>
      rcases (reachesInner reaches).2 with same | same | same <;> rw [same] <;> exact ⟨nofun, nofun⟩

theorem reachesOuter {frame : LexicalFrame} {loads : List Instruction} {name : String} {home : Home}
    {load : Instruction}
    (depth : frames.length = outer.length + 1) (outside : isOutside frames.length (frame :: frames) name)
    (means : lexical (frame :: frames) name = some home) (reaches : Reaches (loads :: outer) load home) :
    ∃ index load', load = ⟨.getFree, [index]⟩ ∧ loads[index]? = some load' ∧ lexical frames name = some home ∧
      Reaches outer load' home := by
  obtain ⟨level, place, means', lt⟩ := outsideHome.mp outside
  rw [means] at means'
  cases means'
  rw [lexicalOther (outsideOwn (Nat.le_refl _) outside)] at means
  unfold Reaches at reaches
  rw [if_neg (by omega)] at reaches
  obtain ⟨index, load', same, at', reaches⟩ := reaches
  exact ⟨index, load', same, at', means, reaches⟩

/- A name from outside is loaded in the function that uses it, be it only to build a closure. -/
theorem Realizes.loadsOuter {slot slot' : Nat} {events : List Event} {is : List Instruction}
    {inner : List LexicalFrame} {all : List (List Instruction)} (h : Realizes pool inner all slot events is slot') :
    ∀ {frame loads}, inner = frame :: frames → all = loads :: outer → frames.length = outer.length + 1 →
      ∀ name ∈ outerNames frames.length inner events, ∃ index load home, ⟨.getFree, [index]⟩ ∈ is ∧
        loads[index]? = some load ∧ lexical frames name = some home ∧ Reaches outer load home := by
  induction h with
  | done =>
      intro frame loads _ _ depth name member
      cases member
  | silent silent rest ih =>
      intro frame loads same same' depth name member
      obtain ⟨index, load, home, found, reached⟩ := ih same same' depth name member
      exact ⟨index, load, home, List.mem_cons_of_mem _ found, reached⟩
  | constant constant literal rest ih =>
      intro frame loads same same' depth name member
      obtain ⟨index, load, home, found, reached⟩ := ih same same' depth name member
      exact ⟨index, load, home, List.mem_cons_of_mem _ found, reached⟩
  | @use _ _ _ _ _ _ used home load means reaches rest ih =>
      intro frame loads same same' depth name member
      rcases List.mem_append.mp member with here | later
      · obtain ⟨rfl, outside⟩ := usedOutside.mp here
        subst same same'
        obtain ⟨index, load', rfl, reached⟩ := reachesOuter depth outside means reaches
        exact ⟨index, load', home, List.mem_cons_self, reached⟩
      · obtain ⟨index, load, home, found, reached⟩ := ih same same' depth name later
        exact ⟨index, load, home, List.mem_cons_of_mem _ found, reached⟩
  | bind rest ih =>
      intro frame loads same same' depth name member
      cases same
      obtain ⟨index, load, home, found, reached⟩ := ih rfl same' depth name member
      exact ⟨index, load, home, List.mem_cons_of_mem _ found, reached⟩
  | @function _ _ _ _ _ _ own parameters body _ _ _ _ captures inside constant decoded count rest ihInside ih =>
      intro frame loads same same' depth name member
      subst same same'
      rcases List.mem_append.mp member with here | later
      · have outside := outerNamesOutside (Nat.le_succ _) body here
        obtain ⟨load, among, home, means, reaches⟩ := captures.load (outerNamesMono (Nat.le_succ _) body here)
        obtain ⟨index, load', rfl, reached⟩ := reachesOuter depth outside means reaches
        exact ⟨index, load', home, List.mem_append_left _ among, reached⟩
      · obtain ⟨index, load, home, found, reached⟩ := ih rfl rfl depth name later
        exact ⟨index, load, home, List.mem_append_right _ (List.mem_cons_of_mem _ found), reached⟩

/- Each captured variable is used. -/
theorem Realizes.usesAll {frame : LexicalFrame} {loads is : List Instruction} {slot slot' : Nat} {events : List Event}
    (depth : frames.length = outer.length + 1)
    (captures : Captures frames outer (outerNames frames.length (frame :: frames) events) loads)
    (h : Realizes pool (frame :: frames) (loads :: outer) slot events is slot') {k : Nat} (lt : k < loads.length) :
    ⟨.getFree, [k]⟩ ∈ is := by
  obtain ⟨names, distinct, exactly, reach⟩ := captures
  have bound : k < names.length := reach.length_eq ▸ lt
  have used := (exactly names[k]).mp (List.getElem_mem bound)
  obtain ⟨index, load, home, found, at', means, reaches⟩ := h.loadsOuter rfl rfl depth names[k] used
  obtain ⟨inside, rfl⟩ := List.getElem?_eq_some_iff.mp at'
  have bound' : index < names.length := reach.length_eq ▸ inside
  obtain ⟨home', means', reaches'⟩ := reach.get bound' inside
  have inner : ∀ other (h : other < names.length), ∃ level place,
      lexical frames names[other] = some (.inner level place) := by
    intro other h
    have outside := outerNamesOutside (Nat.le_refl _) events ((exactly names[other]).mp (List.getElem_mem h))
    obtain ⟨level, place, means, -⟩ := outsideHome.mp outside
    exact ⟨level, place, means⟩
  obtain ⟨level, place, same⟩ := inner k bound
  obtain ⟨level', place', same'⟩ := inner index bound'
  rw [same] at means
  cases means
  rw [List.get_eq_getElem, same'] at means'
  cases means'
  obtain ⟨rfl, rfl⟩ := reachesInnerOnce reaches reaches'
  obtain rfl : k = index := (List.getElem_inj distinct).mp (lexicalInjective same same')
  exact found

theorem decodedInstructions {code : Code} {is : List Instruction}
    (decoded : Instruction.decodeAll code.toList = .ok is) :
    code.instructions = is := by
  simp [Code.instructions, decoded, Except.toOption]

/- What a function holds after some of its body. -/
theorem roomFunction (name : Option String) (parameters : List String) (body : List Event) (loads : List Instruction)
    (inside : frames ≠ []) (slots : Nat) :
    roomOf (framesAfter (functionFrame name parameters :: frames) body) (loads :: outer) slots =
      ⟨true, name.isSome, parameters.length + (lets body).length, loads.length, globals frames, slots⟩ := by
  rw [framesAfterFrame]
  simp [roomOf, functionFrame, globalsCons _ inside, Nat.add_comm]

theorem storeRefers {frame : LexicalFrame} (depth : (frame :: frames).length = outer.length + 1) (name : String)
    (slots : Nat) :
    Refers pool (roomOf (bindIn name (frame :: frames)) outer slots) (storeOf outer frame.bound.length) := by
  cases outer with
  | nil =>
      obtain rfl : frames = [] := List.length_eq_zero_iff.mp (Nat.succ.inj depth)
      exact .setGlobal rfl (Nat.lt_succ_self _)
  | cons loads outer => exact .setLocal rfl (Nat.lt_succ_self _)

theorem Realizes.usesCaptured {frame : LexicalFrame} {loads is : List Instruction} {slot slot' : Nat} {events : List Event}
    (h : Realizes pool (frame :: frames) (loads :: outer) slot events is slot') (depth : frames.length = outer.length + 1)
    (captures : Captures frames outer (outerNames frames.length (frame :: frames) events) loads) {room : Room}
    (count : room.captured = loads.length) (refers : ∀ i ∈ is, Refers pool room i) : UsesCaptured is loads.length := by
  intro operands
  constructor
  · intro free
    cases refers _ free with
    | nothing silent => cases silent
    | getFree _ lt => exact ⟨_, count ▸ lt, rfl⟩
  · rintro ⟨index, lt, rfl⟩
    exact h.usesAll depth captures lt

theorem Realizes.refers {slot slot' : Nat} {events : List Event} {is : List Instruction}
    (h : Realizes pool frames outer slot events is slot') (depth : frames.length = outer.length + 1) :
    ∀ i ∈ is, Refers pool (roomOf (framesAfter frames events) outer slot') i := by
  induction h with
  | done => intro i member; cases member
  | silent silent rest ih =>
      intro i member
      rcases List.mem_cons.mp member with rfl | later
      · exact .nothing silent
      · exact ih depth i later
  | constant constant literal rest ih =>
      intro i member
      rcases List.mem_cons.mp member with rfl | later
      · exact .constant constant literal rest.slots
      · exact ih depth i later
  | @use frames outer slot events is slot' name home load means reaches rest ih =>
      intro i member
      rcases List.mem_cons.mp member with rfl | later
      · exact (reachesRefers depth means reaches slot).within (roomAfter frames outer events rest.slots)
      · exact ih depth i later
  | @bind frame frames outer slot events is slot' name rest ih =>
      intro i member
      rcases List.mem_cons.mp member with rfl | later
      · exact (storeRefers depth name slot).within (roomAfter (bindIn name (frame :: frames)) outer events rest.slots)
      · exact ih depth i later
  | @function frames outer slot events is slot' name parameters body code loads own f captures inside constant decoded count
      rest ihInside ih =>
      intro i member
      rcases List.mem_append.mp member with load | later
      · obtain ⟨name, -, home, means, reaches⟩ := captures.origin load
        exact (reachesRefers depth means reaches slot).within
          (roomAfter frames outer events (Nat.le_trans inside.slots (Nat.le_trans (Nat.le_succ _) rest.slots)))
      · rcases List.mem_cons.mp later with rfl | later
        · have inner := ihInside (by simp [depth])
          rw [roomFunction name parameters body loads (fun none => by simp [none] at depth) own] at inner
          refine .closure constant ?_ rest.slots fun top => ?_
          · rw [decodedInstructions decoded]
            exact inside.usesCaptured depth captures rfl inner
          · cases loads with
            | nil => rfl
            | cons load more =>
                have inFunction := (captures.fromInside List.mem_cons_self).1
                simp only [roomOf, Bool.not_eq_false', List.isEmpty_iff] at top
                exact absurd top inFunction
        · exact ih depth i later

/- Before each closure stand the loads of what it captures. -/
def LoadsCaptures (is : List Instruction) : Prop :=
  ∀ before slot n after, is = before ++ ⟨.closure, [slot, n]⟩ :: after → ∃ earlier loads, before = earlier ++ loads ∧
    loads.length = n ∧ ∀ load ∈ loads, load.opcode.loadsInner

theorem loadsCapturesCons {i : Instruction} {is : List Instruction} (other : i.opcode ≠ .closure)
    (h : LoadsCaptures is) :
    LoadsCaptures (i :: is) := by
  intro before slot n after split
  cases before with
  | nil =>
      cases split
      exact absurd rfl other
  | cons first before =>
      obtain ⟨rfl, rfl⟩ := List.cons.inj split
      obtain ⟨earlier, loads, rfl, count, opcodes⟩ := h before slot n after rfl
      exact ⟨i :: earlier, loads, rfl, count, opcodes⟩

theorem loadsCapturesClosure {loads is : List Instruction} {slot : Nat} (h : LoadsCaptures is)
    (opcodes : ∀ load ∈ loads, load.opcode.loadsInner) :
    LoadsCaptures (loads ++ ⟨.closure, [slot, loads.length]⟩ :: is) := by
  intro before slot' n after split
  rcases List.append_eq_append_iff.mp split with ⟨gap, rfl, same⟩ | ⟨gap, rfl, same⟩
  · cases gap with
    | nil =>
        cases same
        exact ⟨[], loads, by simp, rfl, opcodes⟩
    | cons first gap =>
        obtain ⟨rfl, rfl⟩ := List.cons.inj same
        obtain ⟨earlier, loads', rfl, count, opcodes'⟩ := h gap slot' n after rfl
        exact ⟨loads ++ ⟨.closure, [slot, loads.length]⟩ :: earlier, loads', by simp, count, opcodes'⟩
  · cases gap with
    | nil =>
        cases same
        exact ⟨[], before, by simp, by simp, by simpa using opcodes⟩
    | cons first gap =>
        obtain ⟨rfl, -⟩ := List.cons.inj same
        rcases opcodes ⟨.closure, [slot', n]⟩ (by simp) with other | other | other <;> cases other

theorem Realizes.loadsCaptures {slot slot' : Nat} {events : List Event} {is : List Instruction}
    (h : Realizes pool frames outer slot events is slot') : LoadsCaptures is := by
  induction h with
  | done => intro before slot n after split; simp at split
  | silent silent rest ih =>
      refine loadsCapturesCons (fun same => ?_) ih
      rw [same] at silent
      cases silent
  | constant constant literal rest ih => exact loadsCapturesCons nofun ih
  | use means reaches rest ih => exact loadsCapturesCons (reachesNoClosure reaches).2 ih
  | @bind frame frames outer slot events is slot' name rest ih =>
      refine loadsCapturesCons ?_ ih
      cases outer <;> exact nofun
  | function captures inside constant decoded count rest ihInside ih =>
      exact loadsCapturesClosure ih fun load member => (captures.fromInside member).2

/- The slots from one to another. -/
def between (low high : Nat) : List Nat := List.range' low (high - low)

theorem betweenSplit {low middle high : Nat} (first : low ≤ middle) (second : middle ≤ high) :
    between low high = between low middle ++ between middle high := by
  unfold between
  rw [show high - low = (middle - low) + (high - middle) by omega, ← List.range'_append_1]
  congr 2
  omega

theorem betweenSelf (slot : Nat) : between slot slot = [] := by
  simp [between]

theorem betweenOne (slot : Nat) : between slot (slot + 1) = [slot] := by
  simp [between]

/- The slots that some code refers to. -/
def references (is : List Instruction) : List Nat :=
  is.filterMap fun i => if i.opcode = .constant ∨ i.opcode = .closure then i.operands.head? else none

def functionAt (pool : List Object) (slot : Nat) : Option (Nat × CompiledFunction) :=
  match pool[slot]? with
  | some (.compiled f) => some (slot, f)
  | _ => none

theorem functionAtLiteral {slot : Nat} {object : Object} (constant : pool[slot]? = some object)
    (literal : object.isLiteral) : functionAt pool slot = none := by
  cases object with
  | compiled f => cases literal
  | _ => simp [functionAt, constant]

theorem functionAtCompiled {slot : Nat} {f : CompiledFunction} (constant : pool[slot]? = some (.compiled f)) :
    functionAt pool slot = some (slot, f) := by
  simp [functionAt, constant]

theorem referencesAppend (a b : List Instruction) : references (a ++ b) = references a ++ references b :=
  List.filterMap_append

theorem referencesNone {i : Instruction} (none : i.opcode ≠ .constant ∧ i.opcode ≠ .closure) (is : List Instruction) :
    references (i :: is) = references is := by
  simp [references, none]

theorem silentRefersNone {i : Instruction} (silent : i.opcode.isSilent) :
    i.opcode ≠ .constant ∧ i.opcode ≠ .closure := by
  constructor
  · intro same
    rw [same] at silent
    cases silent
  · intro same
    rw [same] at silent
    cases silent

theorem loadsReferNone {loads : List Instruction}
    (none : ∀ load ∈ loads, load.opcode ≠ .constant ∧ load.opcode ≠ .closure) :
    references loads = [] := by
  induction loads with
  | nil => rfl
  | cons load more ih =>
      rw [referencesNone (none load List.mem_cons_self)]
      exact ih fun other member => none other (List.mem_cons_of_mem _ member)

/- What the functions in some slots refer to. -/
def functionReferences (pool : List Object) (slots : List Nat) : List Nat :=
  (slots.filterMap (functionAt pool)).flatMap fun g => references g.2.code.instructions

theorem functionReferencesAppend (a b : List Nat) :
    functionReferences pool (a ++ b) = functionReferences pool a ++ functionReferences pool b := by
  simp [functionReferences]

/- The code, with the functions in its part of the pool, refers to each slot of this part once. -/
theorem Realizes.references {slot slot' : Nat} {events : List Event} {is : List Instruction}
    (h : Realizes pool frames outer slot events is slot') :
    (ClosureCode.references is ++ functionReferences pool (between slot slot')).Perm (between slot slot') := by
  induction h with
  | @done frames outer slot => simp [betweenSelf, functionReferences, ClosureCode.references]
  | silent silent rest ih => rwa [referencesNone (silentRefersNone silent)]
  | @constant frames outer slot events is slot' object constant literal rest ih =>
      have none : functionReferences pool [slot] = [] := by
        simp [functionReferences, functionAtLiteral constant literal]
      rw [betweenSplit (Nat.le_add_right slot 1) rest.slots, betweenOne, functionReferencesAppend, none]
      exact ih.cons slot
  | use means reaches rest ih => rwa [referencesNone (reachesNoClosure reaches)]
  | @bind frame frames outer slot events is slot' name rest ih =>
      rwa [referencesNone (by cases outer <;> exact ⟨nofun, nofun⟩)]
  | @function frames outer slot events is slot' name parameters body code loads own f captures inside constant decoded count
      rest ihInside ih =>
      have none : ClosureCode.references loads = [] := loadsReferNone fun load member =>
        have ⟨_, _, _, _, reaches⟩ := captures.origin member
        reachesNoClosure reaches
      have here : functionReferences pool [own] = ClosureCode.references code := by
        simp [functionReferences, functionAtCompiled constant, decodedInstructions decoded]
      have closure : ClosureCode.references (⟨.closure, [own, loads.length]⟩ :: is) =
        own :: ClosureCode.references is := rfl
      rw [betweenSplit inside.slots (Nat.le_trans (Nat.le_add_right own 1) rest.slots),
        betweenSplit (Nat.le_add_right own 1) rest.slots,
        betweenOne, functionReferencesAppend, functionReferencesAppend, referencesAppend, none, here, closure]
      rw [List.perm_iff_count] at ihInside ih ⊢
      intro a
      have first := ihInside a
      have second := ih a
      simp only [List.nil_append, List.count_append, List.count_cons, List.count_nil] at first second ⊢
      omega

def Opcode.isStore : Opcode → Bool
  | .setGlobal | .setLocal => true
  | _ => false

theorem reachesNoStore {home : Home} {load : Instruction} (reaches : Reaches outer load home) :
    load.opcode.isStore = false := by
  cases home with
  | builtin index => rw [reachesBuiltin.mp reaches]; rfl
  | global slot => rw [reachesGlobal.mp reaches]; rfl
  | inner level place => rcases (reachesInner reaches).2 with same | same | same <;> rw [same] <;> rfl

/- The `let`s of a function take one slot after the other. -/
theorem Realizes.stores {slot slot' : Nat} {events : List Event} {is : List Instruction}
    (h : Realizes pool frames outer slot events is slot') :
    is.filter (·.opcode.isStore) =
      (List.range' (frames.headD topFrame).bound.length (lets events).length).map (storeOf outer) := by
  induction h with
  | done => rfl
  | @silent frames outer slot events is slot' i silent rest ih =>
      have none : i.opcode.isStore = false := by
        cases op : i.opcode <;> first | rfl | (rw [op] at silent; cases silent)
      simpa [none] using ih
  | constant constant literal rest ih => simpa [Opcode.isStore] using ih
  | use means reaches rest ih => simpa [reachesNoStore reaches, lets] using ih
  | @bind frame frames outer slot events is slot' name rest ih =>
      have here : (storeOf outer frame.bound.length :: is).filter (·.opcode.isStore) =
          storeOf outer frame.bound.length :: is.filter (·.opcode.isStore) := by
        cases outer <;> rfl
      have count : (lets (.bind name :: events)).length = (lets events).length + 1 := rfl
      rw [here, ih, count, List.range'_succ]
      rfl
  | @function frames outer slot events is slot' name parameters body code loads own f captures inside constant decoded count
      rest ihInside ih =>
      have none : loads.filter (·.opcode.isStore) = [] := by
        rw [List.filter_eq_nil_iff]
        intro load member
        obtain ⟨_, _, _, _, reaches⟩ := captures.origin member
        simp [reachesNoStore reaches]
      rw [List.filter_append, none]
      simpa [Opcode.isStore, lets] using ih

end Rooms

/- The function literals, each after those inside it. -/
mutual

def Event.literals : Event → List (Option String × List String)
  | .use _ | .bind _ => []
  | .function name parameters body => ClosureCode.literals body ++ [(name, parameters)]

def literals : List Event → List (Option String × List String)
  | [] => []
  | e :: rest => e.literals ++ literals rest

end

structure ValidFunction (pool : List Object) (globals : Nat) (literal : Option String × List String)
    (g : Nat × CompiledFunction) : Prop where
  decodes : ∃ is, Instruction.decodeAll g.2.code.toList = .ok is
  parameters : g.2.parameters = literal.2.length
  locals : g.2.parameters ≤ g.2.locals
  refers : ∃ captured, ∀ i ∈ g.2.code.instructions,
    Refers pool ⟨true, literal.1.isSome, g.2.locals, captured, globals, g.1⟩ i
  loads : LoadsCaptures g.2.code.instructions

theorem ValidFunction.within {pool : List Object} {globals globals' : Nat} {literal : Option String × List String}
    {g : Nat × CompiledFunction} (h : ValidFunction pool globals literal g) (le : globals ≤ globals') :
    ValidFunction pool globals' literal g := by
  obtain ⟨captured, refers⟩ := h.refers
  exact ⟨h.decodes, h.parameters, h.locals,
    ⟨captured, fun i member => (refers i member).within ⟨rfl, rfl, rfl, Nat.le_refl _, le, Nat.le_refl _⟩⟩, h.loads⟩

theorem Realizes.functions {pool : List Object} {frames : List LexicalFrame} {outer : List (List Instruction)}
    {slot slot' : Nat}
    {events : List Event} {is : List Instruction} (h : Realizes pool frames outer slot events is slot')
    (depth : frames.length = outer.length + 1) :
    List.Forall₂ (ValidFunction pool (globals (framesAfter frames events))) (literals events)
      ((between slot slot').filterMap (functionAt pool)) := by
  induction h with
  | done => simp [literals, betweenSelf]
  | silent silent rest ih => exact ih depth
  | @constant frames outer slot events is slot' object constant literal rest ih =>
      rw [betweenSplit (Nat.le_add_right slot 1) rest.slots, betweenOne, List.filterMap_append]
      simpa [functionAtLiteral constant literal] using ih depth
  | use means reaches rest ih => exact ih depth
  | bind rest ih => exact ih depth
  | @function frames outer slot events is slot' name parameters body code loads own f captures inside constant decoded count
      rest ihInside ih =>
      have nonempty : frames ≠ [] := fun none => by simp [none] at depth
      have deeper : (functionFrame name parameters :: frames).length = (loads :: outer).length + 1 := by simp [depth]
      have grown : globals frames ≤ globals (framesAfter frames events) :=
        (roomAfter frames outer events (Nat.le_refl 0)).globals
      have nested := ihInside deeper
      rw [framesAfterFrame, globalsCons _ nonempty] at nested
      have refers := inside.refers deeper
      rw [roomFunction name parameters body loads nonempty own, ← count.2] at refers
      have valid : ValidFunction pool (globals frames) (name, parameters) (own, f) := by
        have same := decodedInstructions decoded
        have le : f.parameters ≤ f.locals := by omega
        exact ⟨⟨code, decoded⟩, count.1, le, ⟨loads.length, same ▸ refers⟩, same ▸ inside.loadsCaptures⟩
      rw [betweenSplit inside.slots (Nat.le_trans (Nat.le_add_right own 1) rest.slots),
        betweenSplit (Nat.le_add_right own 1) rest.slots, betweenOne, List.filterMap_append, List.filterMap_append]
      have here : [own].filterMap (functionAt pool) = [(own, f)] := by simp [functionAtCompiled constant]
      rw [here, literals, Event.literals, List.append_assoc]
      refine List.rel_append (nested.imp fun literal g valid => valid.within grown) ?_
      exact List.rel_append (.cons (valid.within grown) .nil) (ih depth)

/- The functions of the pool, with their slots. -/
def Bytecode.functions (b : Bytecode) : List (Nat × CompiledFunction) :=
  (List.range b.constants.size).filterMap (functionAt b.constants.toList)

def Bytecode.streams (b : Bytecode) : List (List Instruction) :=
  b.code.instructions :: b.functions.map fun g => g.2.code.instructions

structure ValidReferences (program : Program) (b : Bytecode) : Prop where
  decodes : (∃ is, Instruction.decodeAll b.code.toList = .ok is) ∧
    ∀ g ∈ b.functions, ∃ is, Instruction.decodeAll g.2.code.toList = .ok is
  constants : ∀ is ∈ b.streams, ∀ i ∈ is, i.opcode = .constant →
    ∃ slot object, i.operands = [slot] ∧ b.constants[slot]? = some object ∧ object.isLiteral
  closures : ∀ is ∈ b.streams, ∀ i ∈ is, i.opcode = .closure →
    ∃ slot n f, i.operands = [slot, n] ∧ b.constants[slot]? = some (.compiled f) ∧ UsesCaptured f.code.instructions n
  once : (b.streams.flatMap references).Perm (List.range b.constants.size)
  earlier : ∀ g ∈ b.functions, ∀ i ∈ g.2.code.instructions, i.opcode = .closure →
    ∃ slot n, i.operands = [slot, n] ∧ slot < g.1
  loads : ∀ is ∈ b.streams, LoadsCaptures is
  locals : ∀ g ∈ b.functions, g.2.parameters ≤ g.2.locals ∧
    ∀ i ∈ g.2.code.instructions, i.opcode = .getLocal ∨ i.opcode = .setLocal → ∃ slot, i.operands = [slot] ∧
      slot < g.2.locals
  top : ∀ i ∈ b.code.instructions, i.opcode ∉ [.getLocal, .setLocal, .getFree, .currentClosure] ∧
    (i.opcode = .closure → ∃ slot, i.operands = [slot, 0])
  named : List.Forall₂ (fun literal g => g.2.parameters = literal.2.length ∧
    ∀ i ∈ g.2.code.instructions, i.opcode = .currentClosure → literal.1.isSome) (literals program.events) b.functions
  globals : ∀ is ∈ b.streams, ∀ i ∈ is, i.opcode = .getGlobal →
    ∃ slot, i.operands = [slot] ∧ ⟨.setGlobal, [slot]⟩ ∈ b.code.instructions
  builtins : ∀ is ∈ b.streams, ∀ i ∈ is, i.opcode = .getBuiltin →
    ∃ index, i.operands = [index] ∧ index < Builtin.all.length

section Whole
variable {b : Bytecode} {events : List Event}
  (realizes : Realizes b.constants.toList [topFrame] [] 0 events b.code.instructions b.constants.size)
include realizes

theorem topRefers :
    ∀ i ∈ b.code.instructions,
      Refers b.constants.toList ⟨false, false, (lets events).length, 0, (lets events).length, b.constants.size⟩ i := by
  have refers := realizes.refers rfl
  rw [framesAfterFrame] at refers
  simpa [roomOf, globals, topFrame] using refers

theorem functionsValid :
    List.Forall₂ (ValidFunction b.constants.toList (lets events).length) (literals events) b.functions := by
  have functions := realizes.functions rfl
  have slots : between 0 b.constants.size = List.range b.constants.size := List.range_eq_range'.symm
  have count : globals (framesAfter [topFrame] events) = (lets events).length := by
    simp [framesAfterFrame, globals, topFrame]
  rwa [slots, count] at functions

theorem functionValid {g : Nat × CompiledFunction} (member : g ∈ b.functions) :
    ∃ literal, ValidFunction b.constants.toList (lets events).length literal g := by
  have functions := functionsValid realizes
  obtain ⟨k, bound, rfl⟩ := List.getElem_of_mem member
  have bound' : k < (literals events).length := functions.length_eq ▸ bound
  exact ⟨_, functions.get bound' bound⟩

theorem streamRefers {is : List Instruction} (stream : is ∈ b.streams) :
    ∃ room, room.globals = (lets events).length ∧ ∀ i ∈ is, Refers b.constants.toList room i := by
  rcases List.mem_cons.mp stream with rfl | function
  · exact ⟨_, rfl, topRefers realizes⟩
  · obtain ⟨g, member, rfl⟩ := List.mem_map.mp function
    obtain ⟨literal, valid⟩ := functionValid realizes member
    obtain ⟨captured, all⟩ := valid.refers
    exact ⟨_, rfl, all⟩

theorem streamLoads {is : List Instruction} (stream : is ∈ b.streams) : LoadsCaptures is := by
  rcases List.mem_cons.mp stream with rfl | function
  · exact realizes.loadsCaptures
  · obtain ⟨g, member, rfl⟩ := List.mem_map.mp function
    obtain ⟨literal, valid⟩ := functionValid realizes member
    exact valid.loads

theorem referencesOnce :
    (b.streams.flatMap references).Perm (List.range b.constants.size) := by
  have once := realizes.references
  have slots : between 0 b.constants.size = List.range b.constants.size := List.range_eq_range'.symm
  have split : b.streams.flatMap references =
      references b.code.instructions ++ functionReferences b.constants.toList (List.range b.constants.size) := by
    simp [Bytecode.streams, functionReferences, Bytecode.functions, List.flatMap_map]
  rwa [slots, ← split] at once

theorem globalStored {slot : Nat} (lt : slot < (lets events).length) : ⟨.setGlobal, [slot]⟩ ∈ b.code.instructions := by
  have stored : storeOf [] slot ∈ b.code.instructions.filter (·.opcode.isStore) := by
    rw [realizes.stores]
    exact List.mem_map_of_mem (List.mem_range'_1.mpr ⟨Nat.zero_le _, (Nat.zero_add _).symm ▸ lt⟩)
  exact (List.mem_filter.mp stored).1

end Whole

theorem validReferences {program : Program} {b : Bytecode} (compiled : program.compile = .ok b) :
    ValidReferences program b := by
  obtain ⟨l, lower, assembled⟩ := lowered compiled
  obtain ⟨s, fragment⟩ := program.fragment lower
  obtain ⟨code, decoded, realizes⟩ := assembledRealizes fragment assembled
  obtain rfl := decodedInstructions decoded
  refine ⟨⟨⟨_, decoded⟩, ?_⟩, ?_, ?_, referencesOnce realizes, ?_, fun is => streamLoads realizes, ?_, ?_, ?_, ?_, ?_⟩
  · intro g member
    obtain ⟨literal, valid⟩ := functionValid realizes member
    exact valid.decodes
  · intro is stream i member op
    obtain ⟨room, -, all⟩ := streamRefers realizes stream
    simpa using refersConstant (all i member) op
  · intro is stream i member op
    obtain ⟨room, -, all⟩ := streamRefers realizes stream
    obtain ⟨slot, n, f, operands, function, uses, -⟩ := refersClosure (all i member) op
    exact ⟨slot, n, f, operands, by simpa using function, uses⟩
  · intro g member i inside op
    obtain ⟨literal, valid⟩ := functionValid realizes member
    obtain ⟨captured, all⟩ := valid.refers
    obtain ⟨slot, n, f, operands, -, -, lt, -⟩ := refersClosure (all i inside) op
    exact ⟨slot, n, operands, lt⟩
  · intro g member
    obtain ⟨literal, valid⟩ := functionValid realizes member
    obtain ⟨captured, all⟩ := valid.refers
    exact ⟨valid.locals, fun i inside op => refersLocal (all i inside) op⟩
  · intro i member
    have refers := topRefers realizes i member
    refine ⟨refersOutside refers rfl, fun op => ?_⟩
    obtain ⟨slot, n, f, operands, -, -, -, none⟩ := refersClosure refers op
    rw [none rfl] at operands
    exact ⟨slot, operands⟩
  · exact (functionsValid realizes).imp fun literal g valid => ⟨valid.parameters, fun i inside op => by
      obtain ⟨captured, all⟩ := valid.refers
      exact refersCurrent (all i inside) op⟩
  · intro is stream i member op
    obtain ⟨room, count, all⟩ := streamRefers realizes stream
    obtain ⟨slot, operands, lt⟩ := refersGlobal (all i member) op
    exact ⟨slot, operands, globalStored realizes (count ▸ lt)⟩
  · intro is stream i member op
    obtain ⟨room, -, all⟩ := streamRefers realizes stream
    exact refersBuiltin (all i member) op

theorem validReferencesNested : ∃ b, Program.nested.compile = .ok b ∧ ValidReferences Program.nested b := by
  obtain ⟨b, compiled⟩ := nestedCompiles
  exact ⟨b, compiled, validReferences compiled⟩

end ClosureCode
