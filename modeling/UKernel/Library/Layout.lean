import Mathlib

/-! # The layout of C structures

Sizes and alignments of C types under natural alignment (`UKernel.Library.CType.struct`), and the
offsets of the members of a structure (`UKernel.Library.CType.offset`).
-/

namespace UKernel.Library

/-- What the layout of a structure needs of the type of a member. -/
structure CType where
  size : Nat
  align : Nat
  deriving DecidableEq, Repr

namespace CType

/-- An 8-bit integer. -/
def byte : CType := ⟨1, 1⟩

/-- A 16-bit integer. -/
def half : CType := ⟨2, 2⟩

/-- A 32-bit integer or an enumeration. -/
def word : CType := ⟨4, 4⟩

/-- A pointer of a 32-bit machine. -/
def pointer : CType := ⟨4, 4⟩

/-- An array. -/
def array (element : CType) (length : Nat) : CType :=
  ⟨element.size * length, element.align⟩

/-- The least multiple of an alignment from an offset on. -/
def alignUp (offset align : Nat) : Nat :=
  (offset + align - 1) / align * align

/-- The offset of a member among those laid out from an offset on; past the last member, the
end of the last. -/
def offsetFrom : Nat → List CType → Nat → Nat
  | offset, [], _ => offset
  | offset, member :: _, 0 => alignUp offset member.align
  | offset, member :: rest, index + 1 =>
      offsetFrom (alignUp offset member.align + member.size) rest index

/-- The end of the last member laid out from an offset on. -/
def endFrom : Nat → List CType → Nat
  | offset, [] => offset
  | offset, member :: rest => endFrom (alignUp offset member.align + member.size) rest

/-- The offset of a member of a structure. -/
def offset (members : List CType) (index : Nat) : Nat :=
  offsetFrom 0 members index

/-- The largest alignment of the members. -/
def maxAlign (members : List CType) : Nat :=
  members.foldr (fun member align => max member.align align) 1

/-- A structure with the given members. -/
def struct (members : List CType) : CType where
  size := alignUp (endFrom 0 members) (maxAlign members)
  align := maxAlign members

end CType

end UKernel.Library
