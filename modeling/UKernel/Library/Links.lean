import Mathlib

/-! # Doubly linked nodes

Nodes with a link to the node before and to the node behind. Nodes that are linked in a row can be
followed in both directions (`UKernel.Library.Links.Row.reverse`); a node is put between two nodes
of a row and taken out of it by changing four and two links
(`UKernel.Library.Links.Row.insert`, `UKernel.Library.Links.Row.remove`). Rows that share no node
do not touch each other (`UKernel.Library.Links.Row.congr`).
-/

namespace UKernel.Library

/-- The links of nodes to the nodes before and behind them. -/
@[ext] structure Links (Node : Type*) where
  prev : Node → Node
  next : Node → Node

namespace Links

variable {Node : Type*}

/-- Two nodes are linked, in both directions. -/
structure Joined (links : Links Node) (a b : Node) : Prop where
  next : links.next a = b
  prev : links.prev b = a

/-- Nodes that are linked in a row, each of them once. -/
structure Row (links : Links Node) (nodes : List Node) : Prop where
  joined : nodes.IsChain links.Joined
  once : nodes.Nodup

/-- The links in the other direction. -/
def flip (links : Links Node) : Links Node := ⟨links.next, links.prev⟩

variable {links links' : Links Node} {nodes front back : List Node} {a b node : Node}

theorem joined_flip : links.flip.Joined a b ↔ links.Joined b a :=
  ⟨fun joined => ⟨joined.prev, joined.next⟩, fun joined => ⟨joined.prev, joined.next⟩⟩

/-- A row can be followed backwards. -/
theorem Row.reverse (row : links.Row nodes) : links.flip.Row nodes.reverse where
  joined := by
    rw [List.isChain_reverse]
    exact row.joined.imp fun _ _ => joined_flip.mpr
  once := List.nodup_reverse.mpr row.once

/-- Neighbours in a row. -/
theorem Row.neighbours (row : links.Row (front ++ a :: b :: back)) : links.Joined a b :=
  (List.isChain_append_cons_cons.mp row.joined).2.1

/-- The first two nodes of a row. -/
theorem Row.first (row : links.Row (a :: b :: back)) : links.Joined a b :=
  (List.isChain_cons_cons.mp row.joined).1

/-- The row behind the first node. -/
theorem Row.tail (row : links.Row (a :: nodes)) : links.Row nodes :=
  ⟨row.joined.tail, (List.nodup_cons.mp row.once).2⟩

/-- A row depends on the links of its nodes. -/
theorem Row.congr (row : links.Row nodes)
    (same : ∀ node ∈ nodes, links'.next node = links.next node ∧
      links'.prev node = links.prev node) : links'.Row nodes where
  joined := by
    refine row.joined.imp_of_mem_imp fun a b inA inB joined => ?_
    exact ⟨(same a inA).1.trans joined.next, (same b inB).2.trans joined.prev⟩
  once := row.once

/-- The part of a row that ends with a node depends on the links behind the other nodes. -/
theorem isChain_before (chain : (front ++ [a]).IsChain links.Joined)
    (same : ∀ x ∈ front, ∀ y ∈ front ++ [a], links.Joined x y → links'.Joined x y) :
    (front ++ [a]).IsChain links'.Joined := by
  obtain ⟨low, -, last⟩ := List.isChain_append.mp chain
  refine List.isChain_append.mpr ⟨?_, List.isChain_singleton a, fun x inLast y inHead => ?_⟩
  · exact low.imp_of_mem_imp fun x y inX inY => same x inX y (List.mem_append_left _ inY)
  · cases inHead
    exact same x (List.mem_of_getLast? inLast) a (by simp) (last x inLast a rfl)

/-- The part of a row that begins with a node depends on the links before the other nodes. -/
theorem isChain_behind (chain : (b :: back).IsChain links.Joined)
    (same : ∀ x ∈ b :: back, ∀ y ∈ back, links.Joined x y → links'.Joined x y) :
    (b :: back).IsChain links'.Joined := by
  obtain ⟨first, high⟩ := List.isChain_cons.mp chain
  refine List.isChain_cons.mpr ⟨fun y inHead => ?_, ?_⟩
  · exact same b (by simp) y (List.mem_of_head? inHead) (first y inHead)
  · exact high.imp_of_mem_imp fun x y inX inY => same x (List.mem_cons_of_mem b inX) y inY

variable [DecidableEq Node]

/-- Put a node between two others. -/
def insert (links : Links Node) (a node b : Node) : Links Node where
  prev := Function.update (Function.update links.prev node a) b node
  next := Function.update (Function.update links.next a node) node b

/-- Link two nodes past what is between them. -/
def bypass (links : Links Node) (a b : Node) : Links Node where
  prev := Function.update links.prev b a
  next := Function.update links.next a b

theorem joined_insert {x y : Node} (notA : x ≠ a) (new : x ≠ node) (new' : y ≠ node)
    (notB : y ≠ b) (joined : links.Joined x y) : (links.insert a node b).Joined x y where
  next := by simp [insert, notA, new, joined.next]
  prev := by simp [insert, notB, new', joined.prev]

theorem joined_bypass {x y : Node} (notA : x ≠ a) (notB : y ≠ b) (joined : links.Joined x y) :
    (links.bypass a b).Joined x y where
  next := by simp [bypass, notA, joined.next]
  prev := by simp [bypass, notB, joined.prev]

omit [DecidableEq Node] in
/-- The nodes around two neighbours are others. -/
theorem neighbours_apart (once : (front ++ a :: b :: back).Nodup) :
    (∀ x ∈ front, x ≠ a ∧ x ≠ b) ∧ (∀ y ∈ back, y ≠ a ∧ y ≠ b) ∧ a ≠ b := by
  rw [List.nodup_append, List.nodup_cons, List.nodup_cons] at once
  obtain ⟨-, ⟨outside, outside', -⟩, disjoint⟩ := once
  refine ⟨fun x member => ⟨disjoint x member a (by simp), disjoint x member b (by simp)⟩,
    fun y member => ⟨?_, ?_⟩, ?_⟩
  · rintro rfl
    exact outside (List.mem_cons_of_mem b member)
  · rintro rfl
    exact outside' member
  · rintro rfl
    exact outside (by simp)

/-- A new node between two neighbours. -/
theorem Row.insert (row : links.Row (front ++ a :: b :: back))
    (new : node ∉ front ++ a :: b :: back) :
    (links.insert a node b).Row (front ++ a :: node :: b :: back) := by
  obtain ⟨low, -, high⟩ := List.isChain_append_cons_cons.mp row.joined
  obtain ⟨before, behind, other⟩ := neighbours_apart row.once
  have others : ∀ x ∈ front ++ a :: b :: back, x ≠ node := by
    rintro _ member rfl
    exact new member
  have notA : a ≠ node := others a (by simp)
  have notB : b ≠ node := others b (by simp)
  refine ⟨List.isChain_append_cons_cons.mpr ⟨?_, ?_, List.isChain_cons_cons.mpr ⟨?_, ?_⟩⟩, ?_⟩
  · refine isChain_before low fun x inX y inY => ?_
    have notB' : y ≠ b := by
      rcases List.mem_append.mp inY with inFront | isA
      · exact (before y inFront).2
      · rw [List.mem_singleton.mp isA]
        exact other
    exact joined_insert (before x inX).1 (others x (by simp [inX]))
      (others y (by simp at inY ⊢; tauto)) notB'
  · exact ⟨by simp [Links.insert, notA], by simp [Links.insert, notB.symm]⟩
  · exact ⟨by simp [Links.insert], by simp [Links.insert]⟩
  · refine isChain_behind high fun x inX y inY => ?_
    have notA' : x ≠ a := by
      rcases List.mem_cons.mp inX with rfl | inBack
      · exact other.symm
      · exact (behind x inBack).1
    exact joined_insert notA' (others x (by simp at inX ⊢; tauto)) (others y (by simp [inY]))
      (behind y inY).2
  · have perm : (front ++ a :: node :: b :: back).Perm (node :: (front ++ a :: b :: back)) := by
      have middle :
          (front ++ [a] ++ node :: b :: back).Perm (node :: (front ++ [a] ++ b :: back)) :=
        List.perm_middle
      simpa only [List.append_assoc, List.singleton_append] using middle
    exact perm.nodup_iff.mpr (List.nodup_cons.mpr ⟨new, row.once⟩)

/-- A node is taken out from between two others. -/
theorem Row.remove (row : links.Row (front ++ a :: node :: b :: back)) :
    (links.bypass a b).Row (front ++ a :: b :: back) := by
  obtain ⟨low, -, rest⟩ := List.isChain_append_cons_cons.mp row.joined
  obtain ⟨-, high⟩ := List.isChain_cons_cons.mp rest
  have once : (front ++ a :: b :: back).Nodup := by
    refine row.once.sublist (List.Sublist.append_left ?_ front)
    exact (List.sublist_cons_self node (b :: back)).cons_cons a
  obtain ⟨before, behind, other⟩ := neighbours_apart once
  refine ⟨List.isChain_append_cons_cons.mpr ⟨?_, ?_, ?_⟩, once⟩
  · refine isChain_before low fun x inX y inY => joined_bypass (before x inX).1 ?_
    rcases List.mem_append.mp inY with inFront | isA
    · exact (before y inFront).2
    · rw [List.mem_singleton.mp isA]
      exact other
  · exact ⟨by simp [bypass], by simp [bypass]⟩
  · refine isChain_behind high fun x inX y inY => joined_bypass ?_ (behind y inY).2
    rcases List.mem_cons.mp inX with rfl | inBack
    · exact other.symm
    · exact (behind x inBack).1

end Links

end UKernel.Library
