import ClosureCode.Heap
import Std.Data.TreeMap.Lemmas

/-! Frames under every history of their operations. A frame shares those around it with others, and a name
stands in it for what was last set in the nearest of them. -/
namespace ClosureCode

inductive FrameStep where
  | new
  | inside (outer : Nat)
  | set (frame : Nat) (name : String) (value : Object)
  | function (parameters : List Binder) (body : Block) (frame : Nat)

/- The heap after a history in which every step is about frames that are there. -/
inductive Performed : List FrameStep → Heap → Prop where
  | start : Performed [] .empty
  | new {history heap} (before : Performed history heap) : Performed (history ++ [.new]) heap.newFrame.2
  | inside {history heap outer} (before : Performed history heap) (valid : outer < heap.size) :
      Performed (history ++ [.inside outer]) (heap.newFrameIn outer valid).2
  | set {history heap frame} (before : Performed history heap) (valid : frame < heap.size) (name : String)
      (value : Object) : Performed (history ++ [.set frame name value]) (heap.set frame name value)
  | function {history heap frame} (before : Performed history heap) (valid : frame < heap.size)
      (parameters : List Binder) (body : Block) :
      Performed (history ++ [.function parameters body frame]) (heap.makeFunction parameters body frame).2

/- Of a step that makes a frame, what that is inside of. -/
def FrameStep.outer? : FrameStep → Option (Option Nat)
  | .new => some none
  | .inside outer => some (some outer)
  | .set .. | .function .. => none

def FrameStep.value? (frame : Nat) (name : String) : FrameStep → Option Object
  | .set frame' name' value => if frame' = frame ∧ name' = name then some value else none
  | .new | .inside _ | .function .. => none

/- Of each frame in the order of their making, what it is inside of. -/
def outers (history : List FrameStep) : List (Option Nat) := history.filterMap FrameStep.outer?

def outerOf (history : List FrameStep) (frame : Nat) : Option Nat := (outers history)[frame]?.join

/- What was last set for the name in this very frame. -/
def lastSet (history : List FrameStep) (name : String) (frame : Nat) : Option Object :=
  history.reverse.findSome? (FrameStep.value? frame name)

/- The frame itself and those around it, out to one that is inside of none. -/
inductive OuterChain (history : List FrameStep) : Nat → List Nat → Prop where
  | root {frame} (alone : outerOf history frame = none) : OuterChain history frame [frame]
  | inside {frame outer chain} (around : outerOf history frame = some outer)
      (further : OuterChain history outer chain) : OuterChain history frame (frame :: chain)

/- The frame is on the chain, and none that is nearer has the name. -/
def Nearest (history : List FrameStep) (name : String) (chain : List Nat) (frame : Nat) : Prop :=
  ∃ near far, chain = near ++ frame :: far ∧ ∀ other ∈ near, lastSet history name other = none

namespace Heap
variable {heap : Heap}

def outer? (heap : Heap) (frame : Nat) : Option Nat := heap.frames[frame]?.bind Frame.outer

def own? (heap : Heap) (name : String) (frame : Nat) : Option Object :=
  heap.frames[frame]?.bind fun f => f.bindings[name]?

theorem outerBelow {frame outer : Nat} (around : heap.outer? frame = some outer) : outer < frame := by
  obtain ⟨f, there, inside⟩ := Option.bind_eq_some_iff.mp around
  obtain ⟨valid, rfl⟩ := Array.getElem?_eq_some_iff.mp there
  exact heap.outerOlder frame valid outer inside

theorem findOutward (heap : Heap) (name : String) (frame : Nat) :
    heap.find? name frame = (heap.own? name frame).or ((heap.outer? frame).bind (heap.find? name)) := by
  rw [find?]
  split
  · rename_i valid
    simp only [own?, outer?, Array.getElem?_eq_getElem valid, Option.bind_some]
    cases heap.frames[frame].bindings[name]? with
    | some value => rfl
    | none =>
        simp only [Option.none_or]
        split <;> rename_i around <;> simp only [around, Option.bind_none, Option.bind_some]
  · rename_i absent
    simp [own?, outer?, absent]

theorem madeOuter (heap : Heap) (functions : Nat) (outer : Option Nat) (older) (frame : Nat) :
    outer? ⟨heap.frames.push ⟨∅, outer⟩, functions, older⟩ frame =
      if frame = heap.size then outer else heap.outer? frame := by
  unfold outer? size
  rw [Array.getElem?_push]
  split <;> rfl

theorem madeOwn (heap : Heap) (functions : Nat) (outer : Option Nat) (older) (name : String) (frame : Nat) :
    own? ⟨heap.frames.push ⟨∅, outer⟩, functions, older⟩ name frame = heap.own? name frame := by
  unfold own?
  rw [Array.getElem?_push]
  split
  · rename_i last
    subst last
    simp
  · rfl

theorem setOuter (heap : Heap) (target : Nat) (name : String) (value : Object) (frame : Nat) :
    (heap.set target name value).outer? frame = heap.outer? frame := by
  simp only [outer?, set, Array.getElem?_modify]
  split
  · cases heap.frames[frame]? <;> rfl
  · rfl

theorem setOwn (heap : Heap) {target : Nat} (valid : target < heap.size) (name : String) (value : Object)
    (other : String) (frame : Nat) :
    (heap.set target name value).own? other frame =
      if target = frame ∧ name = other then some value else heap.own? other frame := by
  simp only [own?, set, Array.getElem?_modify]
  by_cases here : target = frame
  · subst here
    unfold size at valid
    simp [valid, Std.TreeMap.getElem?_insert]
  · simp [here]

end Heap

section History
variable {history : List FrameStep} {heap : Heap} {frame : Nat} {chain : List Nat}

theorem outersMade {step : FrameStep} {outer : Option Nat} (makes : step.outer? = some outer) :
    outers (history ++ [step]) = outers history ++ [outer] := by
  simp [outers, makes]

theorem outersKept {step : FrameStep} (makes : step.outer? = none) : outers (history ++ [step]) = outers history := by
  simp [outers, makes]

/- A new frame is the last. -/
theorem outerOfMade {step : FrameStep} {outer : Option Nat} (makes : step.outer? = some outer) (frame : Nat) :
    outerOf (history ++ [step]) frame = if frame = (outers history).length then outer else outerOf history frame := by
  unfold outerOf
  rw [outersMade makes]
  split
  · rename_i last
    subst last
    simp
  · rename_i other
    rcases Nat.lt_or_gt_of_ne other with old | beyond
    · rw [List.getElem?_append_left old]
    · rw [List.getElem?_eq_none (Nat.le_of_lt beyond), List.getElem?_eq_none]
      rw [List.length_append, List.length_singleton]
      exact beyond

theorem lastSetAppend (history : List FrameStep) (step : FrameStep) (name : String) (frame : Nat) :
    lastSet (history ++ [step]) name frame = (step.value? frame name).or (lastSet history name frame) := by
  rw [lastSet, List.reverse_append, List.reverse_singleton, List.singleton_append, List.findSome?_cons]
  cases step.value? frame name <;> rfl

/- The heap holds what the history says. -/
structure Recorded (history : List FrameStep) (heap : Heap) : Prop where
  size : (outers history).length = heap.size
  outer : ∀ frame, heap.outer? frame = outerOf history frame
  own : ∀ name frame, heap.own? name frame = lastSet history name frame

/- Nothing has been set in a new frame. -/
theorem Recorded.made (h : Recorded history heap) {step : FrameStep} {outer : Option Nat}
    (makes : step.outer? = some outer) (silent : ∀ frame name, step.value? frame name = none) (older) :
    Recorded (history ++ [step]) ⟨heap.frames.push ⟨∅, outer⟩, heap.functions, older⟩ where
  size := by
    rw [outersMade makes, List.length_append, h.size]
    exact (Array.size_push _).symm
  outer frame := by rw [Heap.madeOuter, h.outer, outerOfMade makes, h.size]
  own name frame := by rw [Heap.madeOwn, h.own, lastSetAppend, silent, Option.none_or]

theorem Recorded.set (h : Recorded history heap) {target : Nat} (valid : target < heap.size) (name : String)
    (value : Object) : Recorded (history ++ [.set target name value]) (heap.set target name value) where
  size := by
    rw [outersKept rfl, h.size]
    exact Array.size_modify.symm
  outer frame := by rw [Heap.setOuter, h.outer, outerOf, outerOf, outersKept rfl]
  own other frame := by
    rw [Heap.setOwn heap valid, h.own, lastSetAppend, FrameStep.value?]
    split <;> rfl

/- A step that neither makes a frame nor sets anything. -/
theorem Recorded.kept (h : Recorded history heap) {step : FrameStep} {heap' : Heap} (makes : step.outer? = none)
    (silent : ∀ frame name, step.value? frame name = none) (same : heap'.frames = heap.frames) :
    Recorded (history ++ [step]) heap' where
  size := by rw [outersKept makes, h.size, Heap.size, Heap.size, same]
  outer frame := by
    rw [outerOf, outersKept makes, Heap.outer?, same]
    exact h.outer frame
  own name frame := by
    rw [lastSetAppend, silent, Option.none_or, Heap.own?, same]
    exact h.own name frame

theorem Performed.recorded (performed : Performed history heap) : Recorded history heap := by
  induction performed with
  | start => exact ⟨rfl, fun _ => rfl, fun _ _ => rfl⟩
  | new before ih => exact ih.made rfl (fun _ _ => rfl) _
  | inside before valid ih => exact ih.made rfl (fun _ _ => rfl) _
  | set before valid name value ih => exact ih.set valid name value
  | function before valid parameters body ih => exact ih.kept rfl (fun _ _ => rfl) rfl

theorem Recorded.outerBelow (h : Recorded history heap) {outer : Nat} (around : outerOf history frame = some outer) :
    outer < frame :=
  Heap.outerBelow ((h.outer frame).trans around)

/- Each frame is older than the one before it, so that the way outward comes to an end. -/
theorem Recorded.ends (h : Recorded history heap) (frame : Nat) : ∃ chain, OuterChain history frame chain := by
  induction frame using Nat.strongRecOn with
  | ind frame ih =>
      cases around : outerOf history frame with
      | none => exact ⟨_, .root around⟩
      | some outer =>
          obtain ⟨chain, further⟩ := ih outer (h.outerBelow around)
          exact ⟨_, .inside around further⟩

theorem OuterChain.older (h : OuterChain history frame chain) (recorded : Recorded history heap) :
    ∀ other ∈ chain, other ≤ frame := by
  induction h with
  | root => simp
  | inside around further ih =>
      intro other member
      rcases List.mem_cons.mp member with rfl | outward
      · exact Nat.le_refl _
      · have := ih other outward
        have := recorded.outerBelow around
        omega

theorem OuterChain.descends (h : OuterChain history frame chain) (recorded : Recorded history heap) :
    chain.Pairwise (· > ·) := by
  induction h with
  | root => exact List.pairwise_singleton _ _
  | inside around further ih =>
      refine List.pairwise_cons.mpr ⟨fun other member => ?_, ih⟩
      exact Nat.lt_of_le_of_lt (further.older recorded other member) (recorded.outerBelow around)

theorem OuterChain.found (h : OuterChain history frame chain) (recorded : Recorded history heap) (name : String) :
    heap.find? name frame = chain.findSome? (lastSet history name) := by
  induction h with
  | root alone =>
      rw [Heap.findOutward, recorded.own, recorded.outer, alone, Option.bind_none, Option.or_none]
      simp
  | inside around further ih =>
      rw [Heap.findOutward, recorded.own, recorded.outer, around, Option.bind_some, ih, List.findSome?_cons]
      cases lastSet history name _ <;> rfl

/- What is set in a frame changes nothing in how the frames lie. -/
theorem OuterChain.set (h : OuterChain history frame chain) (target : Nat) (name : String) (value : Object) :
    OuterChain (history ++ [.set target name value]) frame chain := by
  have same : ∀ frame, outerOf (history ++ [.set target name value]) frame = outerOf history frame := by
    intro frame
    rw [outerOf, outersKept rfl, outerOf]
  induction h with
  | root alone => exact .root ((same _).trans alone)
  | inside around further ih => exact .inside ((same _).trans around) ih

theorem lastSetHere (target : Nat) (name : String) (value : Object) :
    lastSet (history ++ [.set target name value]) name target = some value := by
  rw [lastSetAppend, FrameStep.value?, if_pos ⟨rfl, rfl⟩, Option.some_or]

theorem lastSetElsewhere {target : Nat} {name other : String} (apart : ¬(target = frame ∧ name = other))
    (value : Object) : lastSet (history ++ [.set target name value]) other frame = lastSet history other frame := by
  rw [lastSetAppend, FrameStep.value?, if_neg apart, Option.none_or]

theorem findSomeCongr {frames : List Nat} {look look' : Nat → Option Object}
    (same : ∀ frame ∈ frames, look frame = look' frame) : frames.findSome? look = frames.findSome? look' := by
  induction frames with
  | nil => rfl
  | cons frame rest ih =>
      rw [List.findSome?_cons, List.findSome?_cons, same frame List.mem_cons_self,
        ih fun frame member => same frame (List.mem_cons_of_mem _ member)]

variable {target : Nat} {name other : String} {value : Object}

theorem OuterChain.setSeen (h : OuterChain history frame chain) (recorded : Recorded history heap)
    (valid : target < heap.size) (nearest : Nearest history name chain target) :
    (heap.set target name value).find? name frame = some value := by
  obtain ⟨near, far, rfl, none⟩ := nearest
  rw [(h.set target name value).found (recorded.set valid name value), List.findSome?_eq_some_iff]
  refine ⟨near, target, far, rfl, lastSetHere target name value, fun other member => ?_⟩
  -- No frame is twice on a chain, so the nearer ones are others than the one that was set.
  have apart : target < other := (List.pairwise_append.mp (h.descends recorded)).2.2 other member target List.mem_cons_self
  rw [lastSetElsewhere fun same => Nat.ne_of_lt apart same.1]
  exact none other member

theorem OuterChain.setUnseen (h : OuterChain history frame chain) (recorded : Recorded history heap)
    (valid : target < heap.size) (unseen : ¬(other = name ∧ Nearest history name chain target)) :
    (heap.set target name value).find? other frame = heap.find? other frame := by
  rw [(h.set target name value).found (recorded.set valid name value), h.found recorded]
  by_cases elsewhere : other = name ∧ target ∈ chain
  · obtain ⟨rfl, member⟩ := elsewhere
    obtain ⟨near, far, rfl, notNear⟩ := List.eq_append_cons_of_mem member
    have same : near.findSome? (lastSet (history ++ [.set target other value]) other) =
        near.findSome? (lastSet history other) := by
      refine findSomeCongr fun frame inside => lastSetElsewhere (fun here => notNear ?_) value
      exact here.1 ▸ inside
    rw [List.findSome?_append, List.findSome?_append, same]
    -- The value is hidden by a nearer frame, or else the frame was the nearest.
    cases sooner : near.findSome? (lastSet history other) with
    | none => exact absurd ⟨rfl, near, far, rfl, List.findSome?_eq_none_iff.mp sooner⟩ unseen
    | some v => rfl
  · refine findSomeCongr fun frame inside => lastSetElsewhere (fun here => elsewhere ?_) value
    exact ⟨here.2.symm, here.1 ▸ inside⟩

theorem OuterChain.starts (h : OuterChain history frame chain) : ∃ outward, chain = frame :: outward := by
  cases h with
  | root alone => exact ⟨_, rfl⟩
  | inside around further => exact ⟨_, rfl⟩

/- What is set in the frame around is seen where the name has no value of its own. -/
theorem Recorded.seenInside (recorded : Recorded history heap) (valid : frame < heap.size) {outer : Nat}
    (around : outerOf history frame = some outer) (own : lastSet history name frame = none) :
    (heap.set outer name value).find? name frame = some value := by
  obtain ⟨chain, further⟩ := recorded.ends outer
  obtain ⟨outward, rfl⟩ := further.starts
  have nearest : Nearest history name (frame :: outer :: outward) outer := ⟨[frame], outward, rfl, by simpa using own⟩
  exact (OuterChain.inside around further).setSeen recorded (Nat.lt_trans (recorded.outerBelow around) valid) nearest

theorem Recorded.unseenBeside (recorded : Recorded history heap) {first second outer : Nat}
    (valid : second < heap.size) (apart : first ≠ second) (around : outerOf history first = some outer)
    (around' : outerOf history second = some outer) :
    (heap.set second name value).find? other first = heap.find? other first := by
  obtain ⟨chain, further⟩ := recorded.ends outer
  refine (OuterChain.inside around further).setUnseen recorded valid fun ⟨_, near, far, split, _⟩ => ?_
  have member : second ∈ first :: chain := split ▸ List.mem_append_right near List.mem_cons_self
  rcases List.mem_cons.mp member with same | outward
  · exact apart same.symm
  · have := further.older recorded second outward
    have := recorded.outerBelow around'
    omega

/- What stands in the frames of a heap that was made by a history. -/
structure ScopedFrames (history : List FrameStep) (heap : Heap) : Prop where
  links : ∀ frame, heap.outer? frame = outerOf history frame
  /- The way outward ends. -/
  ends : ∀ frame, ∃ chain, OuterChain history frame chain ∧ chain.Pairwise (· > ·)
  found : ∀ frame chain, OuterChain history frame chain → ∀ name,
    heap.find? name frame = chain.findSome? (lastSet history name)
  changes : ∀ frame chain, OuterChain history frame chain → ∀ target, target < heap.size → ∀ name value other,
    (heap.set target name value).find? other frame ≠ heap.find? other frame →
      other = name ∧ Nearest history name chain target
  seen : ∀ frame chain, OuterChain history frame chain → ∀ target, target < heap.size → ∀ name value,
    Nearest history name chain target → (heap.set target name value).find? name frame = some value
  /- Frames inside of the same one see what is set in that, and nothing of each other. -/
  around : ∀ frame outer, frame < heap.size → outerOf history frame = some outer → ∀ name value,
    lastSet history name frame = none → (heap.set outer name value).find? name frame = some value
  beside : ∀ first second outer, second < heap.size → first ≠ second → outerOf history first = some outer →
    outerOf history second = some outer → ∀ name value other,
      (heap.set second name value).find? other first = heap.find? other first

theorem framesScoped (performed : Performed history heap) : ScopedFrames history heap where
  links := performed.recorded.outer
  ends frame := by
    obtain ⟨chain, outward⟩ := performed.recorded.ends frame
    exact ⟨chain, outward, outward.descends performed.recorded⟩
  found _ _ outward := outward.found performed.recorded
  changes _ _ outward _ valid _ _ _ changed :=
    Classical.not_not.mp fun unseen => changed (outward.setUnseen performed.recorded valid unseen)
  seen _ _ outward _ valid _ _ := outward.setSeen performed.recorded valid
  around _ _ valid around _ _ own := performed.recorded.seenInside valid around own
  beside _ _ _ valid apart around around' _ _ _ := performed.recorded.unseenBeside valid apart around around'

end History

/- Two frames inside of one, in which a name is set after they were made; one of them has it anew. -/
theorem framesScopedShared :
    let history := [.new, .inside 0, .inside 0, .set 0 "counter" (.integer 5), .set 1 "counter" .null]
    ∃ heap, Performed history heap ∧ ScopedFrames history heap ∧
      heap.find? "counter" 1 = some .null ∧ heap.find? "counter" 2 = some (.integer 5) := by
  intro history
  have one : Performed [.new] _ := .new .start
  have two : Performed [.new, .inside 0] _ := .inside one (by decide)
  have three : Performed [.new, .inside 0, .inside 0] _ := .inside two (by decide)
  have performed : Performed history _ := .set (.set three (by decide) _ _) (by decide) _ _
  have scopes := framesScoped performed
  refine ⟨_, performed, scopes, ?_, ?_⟩
  · rw [scopes.found 1 [1, 0] (.inside rfl (.root rfl))]
    simp [lastSet, FrameStep.value?, history]
  · rw [scopes.found 2 [2, 0] (.inside rfl (.root rfl))]
    simp [lastSet, FrameStep.value?, history]

end ClosureCode
