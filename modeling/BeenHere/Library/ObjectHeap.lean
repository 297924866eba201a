import Mathlib.Data.Nat.Notation
import Mathlib.Logic.Function.Basic

/-!
# A heap of mutable objects

Objects of a reference type live in a heap and are named by references. Two holders of one
reference see each other's writes; a freshly allocated object is seen by no earlier holder. The
lemmas say what a read returns after an allocation and after a write.
-/

set_option autoImplicit false
set_option relaxedAutoImplicit false

namespace ObjectHeap

/-- A reference to an object of a heap. -/
abbrev Ref := ℕ

/-- The objects allocated so far have the references below `next`. -/
structure Heap (Object : Type*) where
  read : Ref → Object
  next : Ref

namespace Heap

variable {Object : Type*} (heap : Heap Object) (ref other : Ref) (object : Object)

/-- Allocates an object; its reference is the old `heap.next`. -/
def alloc : Heap Object := ⟨Function.update heap.read heap.next object, heap.next + 1⟩

/-- Replaces the object at a reference. -/
def write : Heap Object := { heap with read := Function.update heap.read ref object }

@[simp] theorem next_write : (heap.write ref object).next = heap.next := rfl

@[simp] theorem read_alloc_next : (heap.alloc object).read heap.next = object :=
  Function.update_self ..

@[simp] theorem read_write_self : (heap.write ref object).read ref = object :=
  Function.update_self ..

/-- Writing the object just allocated is allocating what is written. -/
@[simp] theorem write_alloc_next (written : Object) :
    (heap.alloc object).write heap.next written = heap.alloc written := by
  simp only [alloc, write, Function.update_idem]

variable {ref other}

theorem read_alloc_of_ne (hne : ref ≠ heap.next) :
    (heap.alloc object).read ref = heap.read ref :=
  Function.update_of_ne hne ..

theorem read_alloc_of_lt (hlt : ref < heap.next) :
    (heap.alloc object).read ref = heap.read ref :=
  heap.read_alloc_of_ne object (Nat.ne_of_lt hlt)

theorem read_write_of_ne (hne : other ≠ ref) :
    (heap.write ref object).read other = heap.read other :=
  Function.update_of_ne hne ..

/-- A write that keeps what a view of objects shows of the object keeps what it shows of every
object. -/
theorem view_read_write {View : Type*} (view : Object → View)
    (hview : view object = view (heap.read ref)) (other : Ref) :
    view ((heap.write ref object).read other) = view (heap.read other) := by
  by_cases hother : other = ref
  · rw [hother, read_write_self, hview]
  · rw [heap.read_write_of_ne object hother]

/-- A property of the object written and of every object of the heap holds after the write. -/
theorem forall_read_write (property : Object → Prop) (hobject : property object)
    (hheap : ∀ other, property (heap.read other)) (other : Ref) :
    property ((heap.write ref object).read other) := by
  by_cases hother : other = ref
  · rw [hother, read_write_self]
    exact hobject
  · rw [heap.read_write_of_ne object hother]
    exact hheap other

/-- A property of the new object and of every object of the heap holds after the allocation. -/
theorem forall_read_alloc (property : Object → Prop) (hobject : property object)
    (hheap : ∀ other, property (heap.read other)) (other : Ref) :
    property ((heap.alloc object).read other) := by
  by_cases hother : other = heap.next
  · rw [hother, read_alloc_next]
    exact hobject
  · rw [heap.read_alloc_of_ne object hother]
    exact hheap other

end Heap

end ObjectHeap
