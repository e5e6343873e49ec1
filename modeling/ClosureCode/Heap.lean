import ClosureCode.Object
import Std.Data.TreeMap

/-! What run-time functions share: frames of variables, each inside an older one or
none, and the supply of identities that tells functions apart. -/
namespace ClosureCode

structure Frame where
  bindings : Std.TreeMap String Object := ∅
  outer : Option Nat := none

structure Heap where
  frames : Array Frame
  functions : Nat
  /- A frame is enclosed by an older one. -/
  outerOlder : ∀ (i : Nat) (valid : i < frames.size) (o : Nat), frames[i].outer = some o → o < i

namespace Heap

def empty : Heap := ⟨#[], 0, by simp⟩

instance : Inhabited Heap := ⟨empty⟩

def size (heap : Heap) : Nat := heap.frames.size

theorem pushOlder (heap : Heap) (outer : Option Nat) (older : ∀ o, outer = some o → o < heap.size)
    (i : Nat) (valid : i < (heap.frames.push ⟨∅, outer⟩).size) (o : Nat)
    (h : (heap.frames.push ⟨∅, outer⟩)[i].outer = some o) : o < i := by
  rw [Array.getElem_push] at h
  split at h
  · exact heap.outerOlder i _ o h
  · rename_i last
    have := older o h
    simp only [size, Array.size_push] at *
    omega

def newFrame (heap : Heap) : Nat × Heap :=
  (heap.size, ⟨heap.frames.push ⟨∅, none⟩, heap.functions, heap.pushOlder none (by simp)⟩)

/- A fresh frame inside `outer`, with its number. -/
def newFrameIn (heap : Heap) (outer : Nat) (valid : outer < heap.size) : Nat × Heap :=
  (heap.size, ⟨heap.frames.push ⟨∅, some outer⟩, heap.functions,
    heap.pushOlder (some outer) (by intro o h; cases h; exact valid)⟩)

/- The variable in the nearest frame that has it, going outward. -/
def find? (heap : Heap) (name : String) (frame : Nat) : Option Object :=
  if valid : frame < heap.frames.size then
    match heap.frames[frame].bindings[name]? with
    | some value => some value
    | none =>
      match enclosed : heap.frames[frame].outer with
      | none => none
      | some outer => heap.find? name outer
  else none
termination_by frame
decreasing_by exact heap.outerOlder frame valid outer enclosed

/- Sets the variable in this very frame. -/
def set (heap : Heap) (frame : Nat) (name : String) (value : Object) : Heap :=
  ⟨heap.frames.modify frame fun f => { f with bindings := f.bindings.insert name value },
    heap.functions, by
      intro i valid o h
      simp only [Array.getElem_modify] at h
      split at h <;> exact heap.outerOlder i (by simpa using valid) o h⟩

/- A function that differs from all made before it. -/
def makeFunction (heap : Heap) (parameters : List Binder) (body : Block) (frame : Nat) : Object × Heap :=
  (.function ⟨heap.functions, parameters, body, frame⟩, { heap with functions := heap.functions + 1 })

end Heap
end ClosureCode
