import UKernel.Library.Call
import UKernel.Library.Links
import UKernel.Library.Bytes

/-! # Lists

`list.c`: lists of elements that hold their own links, between a first and a last element that are
part of the list itself. The elements of all lists lie in one heap; a call for one list does to it
what its name says, and leaves the others alone (`UKernel.LinkedLists.list_calls`), so that any
number of lists is kept over any sequence of calls (`UKernel.LinkedLists.listRun_keeps`).
-/

namespace UKernel.LinkedLists

open UKernel.Library

/-! ## The heap -/

/-- `NULL`. -/
def null : Word := 0

/-- The links of the list elements, by their addresses, and whether interrupts are on. -/
structure ListHeap where
  links : Links Word
  intrOn : Bool

/-- A call on the list elements. -/
abbrev ListCall (α : Type) := Call ListHeap α

/-- `elem->prev`. -/
def readPrev (elem : Word) : ListCall Word := do
  if elem = null then
    throw .badPointer
  return (← get).links.prev elem

/-- `elem->next`. -/
def readNext (elem : Word) : ListCall Word := do
  if elem = null then
    throw .badPointer
  return (← get).links.next elem

/-- `elem->prev = prev`. -/
def writePrev (elem prev : Word) : ListCall Unit := do
  if elem = null then
    throw .badPointer
  modify fun h => { h with links.prev := Function.update h.links.prev elem prev }

/-- `elem->next = next`. -/
def writeNext (elem next : Word) : ListCall Unit := do
  if elem = null then
    throw .badPointer
  modify fun h => { h with links.next := Function.update h.links.next elem next }

/-- `intr_disable`. -/
def intrDisable : ListCall Bool := do
  let oldStatus := (← get).intrOn
  modify fun h => { h with intrOn := false }
  return oldStatus

/-- `intr_set_status`. -/
def intrSetStatus (status : Bool) : ListCall Unit :=
  modify fun h => { h with intrOn := status }

/-! ## The functions of the source -/

/-- `&plist->head`. -/
def head (plist : Word) : Word := plist

/-- `&plist->tail`, behind the two links of the first element. -/
def tail (plist : Word) : Word := plist + 8

/-- `list_init`. -/
def listInit (plist : Word) : ListCall Unit := do
  writePrev (head plist) null
  writeNext (head plist) (tail plist)
  writePrev (tail plist) (head plist)
  writeNext (tail plist) null

/-- `list_insert_before`. -/
def listInsertBefore (before elem : Word) : ListCall Unit := do
  let oldStatus ← intrDisable
  writeNext (← readPrev before) elem
  writePrev elem (← readPrev before)
  writeNext elem before
  writePrev before elem
  intrSetStatus oldStatus

/-- `list_push`. -/
def listPush (plist elem : Word) : ListCall Unit := do
  listInsertBefore (← readNext (head plist)) elem

/-- `list_append`. -/
def listAppend (plist elem : Word) : ListCall Unit :=
  listInsertBefore (tail plist) elem

/-- `list_remove`. -/
def listRemove (pelem : Word) : ListCall Unit := do
  let oldStatus ← intrDisable
  writeNext (← readPrev pelem) (← readNext pelem)
  writePrev (← readNext pelem) (← readPrev pelem)
  intrSetStatus oldStatus

/-- `list_pop`. -/
def listPop (plist : Word) : ListCall Word := do
  let elem ← readNext (head plist)
  listRemove elem
  return elem

/-- A loop over the elements from one on, that ends at the last element of the list, or where
`visit` gives a result. A loop that has not ended after as many rounds as there are addresses has
come to an element twice. -/
def walk {α : Type} (plist : Word) (visit : Word → Option α) (ended : Word → α) :
    Nat → Word → Word → ListCall α
  | 0, _, _ => throw .diverges
  | fuel + 1, length, elem =>
      if elem = tail plist then return ended length
      else match visit elem with
        | some result => return result
        | none => do walk plist visit ended fuel (length + 1) (← readNext elem)

/-- `elem_find`. -/
def elemFind (plist objElem : Word) : ListCall Bool := do
  walk plist (fun elem => if elem = objElem then some true else none) (fun _ => false) (2 ^ 32) 0
    (← readNext (head plist))

/-- `list_empty`. -/
def listEmpty (plist : Word) : ListCall Bool := do
  return (← readNext (head plist)) = tail plist

/-- `list_traversal`, with a function that changes nothing. -/
def listTraversal (plist : Word) (func : Word → Word → Bool) (arg : Word) : ListCall Word := do
  let elem ← readNext (head plist)
  if ← listEmpty plist then
    return null
  else
    walk plist (fun elem => if func elem arg then some elem else none) (fun _ => null) (2 ^ 32) 0
      elem

/-- `list_len`, which counts in 32 bits. -/
def listLen (plist : Word) : ListCall Word := do
  walk plist (fun _ => none) (fun length => length) (2 ^ 32) 0 (← readNext (head plist))

variable {h h' : ListHeap} {a b elem before plist : Word} {xs ys front back : List Word}

/-! ## Reading and writing links -/

theorem readPrev_runs (present : elem ≠ null) :
    (readPrev elem).run h = .ok (h.links.prev elem, h) := by
  rw [readPrev, if_neg present]
  rfl

theorem readNext_runs (present : elem ≠ null) :
    (readNext elem).run h = .ok (h.links.next elem, h) := by
  rw [readNext, if_neg present]
  rfl

theorem writePrev_runs (present : elem ≠ null) : (writePrev elem before).run h =
    .ok ((), { h with links.prev := Function.update h.links.prev elem before }) := by
  rw [writePrev, if_neg present]
  rfl

theorem writeNext_runs (present : elem ≠ null) : (writeNext elem before).run h =
    .ok ((), { h with links.next := Function.update h.links.next elem before }) := by
  rw [writeNext, if_neg present]
  rfl

/-- An element is put before another one. -/
theorem listInsertBefore_runs (joined : h.links.Joined a before) (presentA : a ≠ null)
    (present : elem ≠ null) (presentBefore : before ≠ null) :
    (listInsertBefore before elem).run h =
      .ok ((), { h with links := h.links.insert a elem before }) := by
  have disabled : intrDisable.run h = .ok (h.intrOn, { h with intrOn := false }) := rfl
  rw [listInsertBefore, call_bind_of disabled, call_bind_of (readPrev_runs presentBefore)]
  dsimp only
  rw [joined.prev, call_bind_of (writeNext_runs presentA),
    call_bind_of (readPrev_runs presentBefore)]
  dsimp only
  rw [joined.prev, call_bind_of (writePrev_runs present), call_bind_of (writeNext_runs present),
    call_bind_of (writePrev_runs presentBefore)]
  rfl

/-- An element is taken out. -/
theorem listRemove_runs (joined : h.links.Joined a elem) (joined' : h.links.Joined elem b)
    (presentA : a ≠ null) (present : elem ≠ null) (presentB : b ≠ null) (apart : elem ≠ a) :
    (listRemove elem).run h = .ok ((), { h with links := h.links.bypass a b }) := by
  have disabled : intrDisable.run h = .ok (h.intrOn, { h with intrOn := false }) := rfl
  rw [listRemove, call_bind_of disabled, call_bind_of (readPrev_runs present),
    call_bind_of (readNext_runs present)]
  dsimp only
  rw [joined.prev, joined'.next, call_bind_of (writeNext_runs presentA),
    call_bind_of (readNext_runs present), call_bind_of (readPrev_runs present)]
  dsimp only
  rw [Function.update_of_ne apart, joined.prev, joined'.next,
    call_bind_of (writePrev_runs presentB)]
  rfl

/-! ## Well-formed lists -/

/-- The elements of a list with its first and its last one. -/
def nodes (plist : Word) (xs : List Word) : List Word := head plist :: (xs ++ [tail plist])

/-- A well-formed list: its elements are linked in both directions, from the first to the last. -/
structure IsList (h : ListHeap) (plist : Word) (xs : List Word) : Prop where
  row : h.links.Row (nodes plist xs)
  present : ∀ elem ∈ nodes plist xs, elem ≠ null
  front : h.links.prev (head plist) = null
  back : h.links.next (tail plist) = null

/-- The list of the elements as it is followed backwards. -/
theorem IsList.reverse (isList : IsList h plist xs) :
    h.links.flip.Row (tail plist :: (xs.reverse ++ [head plist])) := by
  have row := isList.row.reverse
  rw [nodes, List.reverse_cons, List.reverse_append] at row
  exact row

/-- A list is not touched where the links of its elements are left alone. -/
theorem IsList.congr (isList : IsList h plist xs)
    (same : ∀ elem ∈ nodes plist xs, h'.links.next elem = h.links.next elem ∧
      h'.links.prev elem = h.links.prev elem) : IsList h' plist xs where
  row := isList.row.congr same
  present := isList.present
  front := (same _ List.mem_cons_self).2.trans isList.front
  back := (same (tail plist) (by simp [nodes])).1.trans isList.back

/-- The first and the last element lie around the others. -/
theorem nodes_ends (split : nodes plist xs = front ++ a :: b :: back) :
    head plist ∈ front ++ [a] ∧ tail plist ∈ b :: back := by
  constructor
  · cases front with
    | nil => simp [(List.cons.inj split).1]
    | cons x front => simp [(List.cons.inj split).1]
  · have last := congrArg List.getLast? split
    have isLast : (nodes plist xs).getLast? = some (tail plist) := by
      rw [nodes, ← List.cons_append, List.getLast?_concat]
    have isLast' : (front ++ a :: b :: back).getLast? = (b :: back).getLast? := by
      rw [List.getLast?_append_cons, List.getLast?_cons_cons]
    rw [isLast, isLast'] at last
    exact List.mem_of_getLast? last.symm

/-- The first element of a list is not behind two neighbours, and the last not before them. -/
theorem nodes_ends_apart (split : nodes plist xs = front ++ a :: b :: back)
    (once : (nodes plist xs).Nodup) : head plist ≠ b ∧ tail plist ≠ a := by
  obtain ⟨atFront, atBack⟩ := nodes_ends split
  rw [split] at once
  obtain ⟨before, behind, other⟩ := Links.neighbours_apart once
  constructor
  · rcases List.mem_append.mp atFront with inFront | isA
    · exact (before _ inFront).2
    · rw [List.mem_singleton.mp isA]
      exact other
  · rcases List.mem_cons.mp atBack with isB | inBack
    · rw [isB]
      exact other.symm
    · exact (behind _ inBack).1

/-- An element between two neighbours of a list. -/
theorem IsList.insert (isList : IsList h plist xs)
    (split : nodes plist xs = front ++ a :: b :: back) (new : elem ∉ nodes plist xs)
    (present : elem ≠ null) (split' : nodes plist ys = front ++ a :: elem :: b :: back) :
    IsList { h with links := h.links.insert a elem b } plist ys := by
  have row := isList.row
  have nonnull := isList.present
  obtain ⟨notB, notA⟩ := nodes_ends_apart split row.once
  have newHead : head plist ≠ elem := fun same => new (same ▸ List.mem_cons_self)
  have newTail : tail plist ≠ elem := fun same => new (same ▸ by simp [nodes])
  rw [split] at row nonnull
  constructor
  case row =>
    rw [split']
    exact row.insert (split ▸ new)
  case present =>
    intro x member
    rw [split'] at member
    by_cases isElem : x = elem
    · exact isElem ▸ present
    · exact nonnull x (by simp_all)
  case front => simp [Links.insert, notB, newHead, isList.front]
  case back => simp [Links.insert, notA, newTail, isList.back]

/-- An element is taken out of a list. -/
theorem IsList.remove (isList : IsList h plist xs)
    (split : nodes plist xs = front ++ a :: elem :: b :: back)
    (split' : nodes plist ys = front ++ a :: b :: back) :
    IsList { h with links := h.links.bypass a b } plist ys := by
  have row := isList.row
  have nonnull := isList.present
  rw [split] at row nonnull
  have rest := row.remove
  rw [← split'] at rest
  obtain ⟨notB, notA⟩ := nodes_ends_apart split' rest.once
  constructor
  case row => exact rest
  case present =>
    intro x member
    rw [split'] at member
    exact nonnull x (by simp at member ⊢; tauto)
  case front => simp [Links.bypass, notB, isList.front]
  case back => simp [Links.bypass, notA, isList.back]

/-! ## Any number of lists -/

section Lists

variable {ι : Type} {plists : ι → Word} {contents : ι → List Word} {i : ι}

/-- Well-formed lists in one heap, of which no two share an element. -/
structure Lists (h : ListHeap) (plists : ι → Word) (contents : ι → List Word) : Prop where
  each : ∀ i, IsList h (plists i) (contents i)
  apart : ∀ i j, i ≠ j → (nodes (plists i) (contents i)).Disjoint (nodes (plists j) (contents j))

/-- An element that is on none of the lists. -/
def Free (plists : ι → Word) (contents : ι → List Word) (elem : Word) : Prop :=
  elem ≠ null ∧ ∀ i, elem ∉ nodes (plists i) (contents i)

variable [DecidableEq ι]

/-- One list changes, and takes only elements that were on none. -/
theorem Lists.change (lists : Lists h plists contents) (isList : IsList h' (plists i) ys)
    (taken : ∀ elem ∈ nodes (plists i) ys,
      elem ∈ nodes (plists i) (contents i) ∨ Free plists contents elem)
    (others : ∀ elem, elem ∉ nodes (plists i) (contents i) → ¬ Free plists contents elem →
      h'.links.next elem = h.links.next elem ∧ h'.links.prev elem = h.links.prev elem) :
    Lists h' plists (Function.update contents i ys) := by
  have disjoint : ∀ j, j ≠ i → (nodes (plists i) ys).Disjoint (nodes (plists j) (contents j)) := by
    intro j other elem mine theirs
    rcases taken elem mine with own | free
    · exact lists.apart i j other.symm own theirs
    · exact free.2 j theirs
  refine ⟨fun j => ?_, fun j k apart => ?_⟩
  · by_cases same : j = i
    · subst same
      rw [Function.update_self]
      exact isList
    · rw [Function.update_of_ne same]
      refine (lists.each j).congr fun elem member => others elem ?_ fun free => free.2 j member
      exact fun mine => lists.apart i j (Ne.symm same) mine member
  · by_cases isJ : j = i
    · subst isJ
      rw [Function.update_self, Function.update_of_ne (Ne.symm apart)]
      exact disjoint k (Ne.symm apart)
    · rw [Function.update_of_ne isJ]
      by_cases isK : k = i
      · subst isK
        rw [Function.update_self]
        exact (disjoint j isJ).symm
      · rw [Function.update_of_ne isK]
        exact lists.apart j k apart

/-- A free element is put between two neighbours of a list. -/
theorem Lists.insert (lists : Lists h plists contents)
    (split : nodes (plists i) (contents i) = front ++ a :: b :: back)
    (free : Free plists contents elem)
    (split' : nodes (plists i) ys = front ++ a :: elem :: b :: back) :
    ∃ h', (listInsertBefore b elem).run h = .ok ((), h') ∧
      Lists h' plists (Function.update contents i ys) := by
  have isList := lists.each i
  have joined := isList.row
  rw [split] at joined
  have inA : a ∈ nodes (plists i) (contents i) := by simp [split]
  have inB : b ∈ nodes (plists i) (contents i) := by simp [split]
  refine ⟨_, listInsertBefore_runs joined.neighbours (isList.present a inA) free.1
    (isList.present b inB), lists.change (isList.insert split (free.2 i) free.1 split') ?_ ?_⟩
  · intro x member
    rw [split'] at member
    by_cases isElem : x = elem
    · exact .inr (isElem ▸ free)
    · exact .inl (by rw [split]; simp_all)
  · intro x outside notFree
    have notA : x ≠ a := fun same => outside (same ▸ inA)
    have notB : x ≠ b := fun same => outside (same ▸ inB)
    have other : x ≠ elem := fun same => notFree (same ▸ free)
    simp [Links.insert, notA, notB, other]

/-- An element is taken out of a list. -/
theorem Lists.remove (lists : Lists h plists contents)
    (split : nodes (plists i) (contents i) = front ++ a :: elem :: b :: back)
    (split' : nodes (plists i) ys = front ++ a :: b :: back) :
    ∃ h', (listRemove elem).run h = .ok ((), h') ∧
      Lists h' plists (Function.update contents i ys) := by
  have isList := lists.each i
  have row := isList.row
  rw [split] at row
  have inA : a ∈ nodes (plists i) (contents i) := by simp [split]
  have inB : b ∈ nodes (plists i) (contents i) := by simp [split]
  have inElem : elem ∈ nodes (plists i) (contents i) := by simp [split]
  have behind : h.links.Joined elem b := by
    have row' := row
    rw [List.append_cons] at row'
    exact row'.neighbours
  have apart : elem ≠ a := (Links.neighbours_apart row.once).2.2.symm
  refine ⟨_, listRemove_runs row.neighbours behind (isList.present a inA)
    (isList.present elem inElem) (isList.present b inB) apart,
    lists.change (isList.remove split split') ?_ ?_⟩
  · intro x member
    rw [split'] at member
    exact .inl (by rw [split]; simp at member ⊢; tauto)
  · intro x outside _
    have notA : x ≠ a := fun same => outside (same ▸ inA)
    have notB : x ≠ b := fun same => outside (same ▸ inB)
    simp [Links.bypass, notA, notB]

/-- The neighbours of the elements of a list. -/
theorem nodes_append (xs : List Word) : ∃ front a, nodes plist xs = front ++ [a, tail plist] ∧
    nodes plist (xs ++ [elem]) = front ++ [a, elem, tail plist] := by
  rcases List.eq_nil_or_concat xs with rfl | ⟨others, last, rfl⟩
  · exact ⟨[], head plist, rfl, rfl⟩
  · exact ⟨head plist :: others, last, by simp [nodes], by simp [nodes]⟩

/-- `list_push` puts an element at the front. -/
theorem listPush_conses (lists : Lists h plists contents) (free : Free plists contents elem) :
    ∃ h', (listPush (plists i) elem).run h = .ok ((), h') ∧
      Lists h' plists (Function.update contents i (elem :: contents i)) := by
  have isList := lists.each i
  have row := isList.row
  obtain ⟨b, back, rest⟩ : ∃ b back, contents i ++ [tail (plists i)] = b :: back :=
    List.exists_cons_of_ne_nil (by simp)
  have split : nodes (plists i) (contents i) = [] ++ head (plists i) :: b :: back := by
    rw [nodes, rest, List.nil_append]
  have split' : nodes (plists i) (elem :: contents i) =
      [] ++ head (plists i) :: elem :: b :: back := by
    rw [nodes, List.cons_append, rest, List.nil_append]
  rw [split] at row
  have first := row.neighbours
  rw [listPush, call_bind_of (readNext_runs (isList.present _ List.mem_cons_self)), first.next]
  exact lists.insert split free split'

/-- `list_append` puts an element at the back. -/
theorem listAppend_snocs (lists : Lists h plists contents) (free : Free plists contents elem) :
    ∃ h', (listAppend (plists i) elem).run h = .ok ((), h') ∧
      Lists h' plists (Function.update contents i (contents i ++ [elem])) := by
  obtain ⟨front, a, split, split'⟩ := nodes_append (contents i)
  exact lists.insert split free split'

/-- `list_remove` takes out an element of a list. -/
theorem listRemove_erases (lists : Lists h plists contents) (member : elem ∈ contents i) :
    ∃ h', (listRemove elem).run h = .ok ((), h') ∧
      Lists h' plists (Function.update contents i ((contents i).erase elem)) := by
  obtain ⟨before, behind, here⟩ := List.append_of_mem member
  have once := (lists.each i).row.once
  have notBefore : elem ∉ before := by
    intro member
    rw [nodes, here, List.nodup_cons, List.nodup_append, List.nodup_append] at once
    exact once.2.1.2.2 elem member elem (by simp) rfl
  have erased : (contents i).erase elem = before ++ behind := by
    rw [here, List.erase_append_right _ notBefore, List.erase_cons_head]
  rw [erased]
  obtain ⟨b, back, rest⟩ : ∃ b back, behind ++ [tail (plists i)] = b :: back :=
    List.exists_cons_of_ne_nil (by simp)
  rcases List.eq_nil_or_concat before with rfl | ⟨front, a, rfl⟩
  · have split : nodes (plists i) (contents i) = [] ++ head (plists i) :: elem :: b :: back := by
      simp [nodes, here, rest]
    refine lists.remove split ?_
    simp [nodes, rest]
  · have split : nodes (plists i) (contents i) =
        (head (plists i) :: front) ++ a :: elem :: b :: back := by
      simp [nodes, here, rest]
    refine lists.remove split ?_
    simp [nodes, rest]

/-- `list_pop` takes out and returns the first element. -/
theorem listPop_tails (lists : Lists h plists contents) (first : contents i = elem :: xs) :
    ∃ h', (listPop (plists i)).run h = .ok (elem, h') ∧
      Lists h' plists (Function.update contents i xs) := by
  have isList := lists.each i
  have row := isList.row
  have split : nodes (plists i) (contents i) =
      [] ++ head (plists i) :: elem :: (xs ++ [tail (plists i)]) := by
    rw [nodes, first, List.cons_append, List.nil_append]
  rw [split] at row
  have joined := row.neighbours
  obtain ⟨h', removed, lists'⟩ := listRemove_erases lists (first ▸ List.mem_cons_self)
  rw [first, List.erase_cons_head] at lists'
  refine ⟨h', ?_, lists'⟩
  rw [listPop, call_bind_of (readNext_runs (isList.present _ List.mem_cons_self)), joined.next,
    call_bind_of removed]
  rfl

end Lists

/-! ## Following a list -/

/-- A loop over the elements that are left. -/
theorem walk_runs {α : Type} {visit : Word → Option α} {ended : Word → α} {fuel : Nat}
    {length : Word} (row : h.links.Row (front ++ (ys ++ [tail plist])))
    (present : ∀ elem ∈ ys, elem ≠ null) (enough : ys.length < fuel)
    (here : (ys ++ [tail plist]).head? = some elem) :
    (walk plist visit ended fuel length elem).run h =
      .ok ((ys.findSome? visit).getD (ended (length + BitVec.ofNat 32 ys.length)), h) := by
  induction ys generalizing fuel front elem length with
  | nil =>
      obtain ⟨fuel, rfl⟩ := Nat.exists_eq_succ_of_ne_zero (Nat.ne_zero_of_lt enough)
      cases here
      rw [walk, if_pos rfl, List.length_nil, BitVec.add_zero]
      rfl
  | cons y ys ih =>
      obtain ⟨fuel, rfl⟩ := Nat.exists_eq_succ_of_ne_zero (Nat.ne_zero_of_lt enough)
      cases here
      have once := row.once
      rw [List.cons_append, List.nodup_append, List.nodup_cons] at once
      have apart : y ≠ tail plist := fun same => once.2.1.1 (same ▸ by simp)
      rw [walk, if_neg apart, List.findSome?_cons]
      cases visit y with
      | some result => rfl
      | none =>
          have count : 1 + BitVec.ofNat 32 ys.length = BitVec.ofNat 32 (ys.length + 1) := by
            rw [BitVec.ofNat_add, BitVec.add_comm]
            rfl
          obtain ⟨next, back, rest⟩ : ∃ next back, ys ++ [tail plist] = next :: back :=
            List.exists_cons_of_ne_nil (by simp)
          rw [List.cons_append, rest] at row
          have joined := row.neighbours
          rw [List.append_cons, ← rest] at row
          dsimp only
          rw [call_bind_of (readNext_runs (present y (by simp))), joined.next,
            ih row (fun elem member => present elem (List.mem_cons_of_mem y member))
              (by simpa using enough) (by rw [rest]; rfl),
            List.length_cons, BitVec.add_assoc, count]

/-- A list has fewer elements than there are addresses. -/
theorem IsList.short (isList : IsList h plist xs) : xs.length < 2 ^ 32 := by
  have once := isList.row.once.map (f := BitVec.toFin) fun a b same => BitVec.eq_of_toFin_eq same
  have bound := once.length_le_card
  rw [List.length_map, nodes, List.length_cons, List.length_append, Fintype.card_fin] at bound
  exact Nat.lt_of_lt_of_le (by simp) bound

/-- A loop over all elements of a list. -/
theorem IsList.walk {α : Type} {visit : Word → Option α} {ended : Word → α}
    (isList : IsList h plist xs) :
    ((do walk plist visit ended (2 ^ 32) 0 (← readNext (head plist))) : ListCall α).run h =
      .ok ((xs.findSome? visit).getD (ended (BitVec.ofNat 32 xs.length)), h) := by
  obtain ⟨b, back, rest⟩ : ∃ b back, xs ++ [tail plist] = b :: back :=
    List.exists_cons_of_ne_nil (by simp)
  have row := isList.row
  have joined : h.links.Joined (head plist) b := by
    rw [nodes, rest, ← List.nil_append (head plist :: b :: back)] at row
    exact row.neighbours
  have present : ∀ elem ∈ xs, elem ≠ null := fun elem member =>
    isList.present elem (by simp [nodes, member])
  rw [call_bind_of (readNext_runs (isList.present _ List.mem_cons_self)), joined.next]
  rw [nodes, ← List.singleton_append] at row
  rw [walk_runs row present isList.short (by rw [rest]; rfl), zero_add]

/-- What a loop returns that looks for an element, and what is made of it. -/
theorem findSome?_if {α : Type} {p : Word → Prop} [DecidablePred p] {f : Word → α} :
    xs.findSome? (fun elem => if p elem then some (f elem) else none) =
      (xs.find? fun elem => p elem).map f := by
  induction xs with
  | nil => rfl
  | cons x xs ih =>
      rw [List.findSome?_cons, List.find?_cons]
      by_cases holds : p x
      · simp [holds]
      · simp [holds, ih]

/-- `elem_find` finds the elements of a list. -/
theorem elemFind_runs (isList : IsList h plist xs) :
    (elemFind plist elem).run h = .ok (decide (elem ∈ xs), h) := by
  rw [elemFind, isList.walk, findSome?_if]
  by_cases member : elem ∈ xs
  · have found : (xs.find? fun x => x = elem).isSome = true :=
      List.find?_isSome.mpr ⟨elem, member, decide_eq_true rfl⟩
    obtain ⟨x, found⟩ := Option.isSome_iff_exists.mp found
    rw [found, decide_eq_true member]
    rfl
  · have missed : (xs.find? fun x => x = elem) = none := by
      rw [List.find?_eq_none]
      rintro x inXs isElem
      exact member (of_decide_eq_true isElem ▸ inXs)
    rw [missed, decide_eq_false member]
    rfl

/-- `list_len` counts the elements. -/
theorem listLen_runs (isList : IsList h plist xs) :
    (listLen plist).run h = .ok (BitVec.ofNat 32 xs.length, h) := by
  have none_ : xs.findSome? (fun _ => (none : Option Word)) = none := by simp
  rw [listLen, isList.walk, none_]
  rfl

/-- `list_empty`. -/
theorem listEmpty_runs (isList : IsList h plist xs) :
    (listEmpty plist).run h = .ok (decide (xs = []), h) := by
  have row := isList.row
  rw [listEmpty, call_bind_of (readNext_runs (isList.present _ List.mem_cons_self))]
  cases xs with
  | nil =>
      have pair : h.links.Row ([] ++ head plist :: tail plist :: []) := row
      rw [pair.neighbours.next]
      simp
  | cons x xs =>
      have joined : h.links.Joined (head plist) x := by
        rw [nodes, List.cons_append, ← List.nil_append (_ :: _)] at row
        exact row.neighbours
      have once := row.once
      rw [nodes, List.nodup_cons, List.cons_append, List.nodup_cons] at once
      have apart : x ≠ tail plist := fun same => once.2.1 (same ▸ by simp)
      rw [joined.next]
      simp [apart]

/-- `list_traversal` returns the first element for which the function returns true. -/
theorem listTraversal_runs (isList : IsList h plist xs) {func : Word → Word → Bool} {arg : Word} :
    (listTraversal plist func arg).run h =
      .ok ((xs.find? fun elem => func elem arg).getD null, h) := by
  have walked : ((do
      walk plist (fun elem => if func elem arg then some elem else none) (fun _ => null) (2 ^ 32) 0
        (← readNext (head plist))) : ListCall Word).run h = _ := isList.walk
  have read := readNext_runs (h := h) (isList.present _ List.mem_cons_self)
  rw [call_bind_of read, findSome?_if, Option.map_id'] at walked
  rw [listTraversal, call_bind_of read, call_bind_of (listEmpty_runs isList)]
  by_cases empty : xs = []
  · rw [decide_eq_true empty, if_pos rfl, empty]
    rfl
  · rw [decide_eq_false empty, if_neg Bool.false_ne_true, walked]
    simp

/-! ## The main results -/

section

variable {ι : Type} [DecidableEq ι] {plists : ι → Word} {contents : ι → List Word}

/-- **Lists.** In a heap of well-formed lists, a call for one list has the effect that it is named
after on that list, keeps it well formed, and leaves the others alone; and what it returns is
right. -/
theorem list_calls (lists : Lists h plists contents) (i : ι) :
    (∀ elem, Free plists contents elem → ∃ h', (listPush (plists i) elem).run h = .ok ((), h') ∧
      Lists h' plists (Function.update contents i (elem :: contents i))) ∧
    (∀ elem, Free plists contents elem → ∃ h', (listAppend (plists i) elem).run h = .ok ((), h') ∧
      Lists h' plists (Function.update contents i (contents i ++ [elem]))) ∧
    (∀ elem ∈ contents i, ∃ h', (listRemove elem).run h = .ok ((), h') ∧
      Lists h' plists (Function.update contents i ((contents i).erase elem))) ∧
    (∀ elem rest, contents i = elem :: rest → ∃ h', (listPop (plists i)).run h = .ok (elem, h') ∧
      Lists h' plists (Function.update contents i rest)) ∧
    (∀ elem, (elemFind (plists i) elem).run h = .ok (decide (elem ∈ contents i), h)) ∧
    (∀ func arg, (listTraversal (plists i) func arg).run h =
      .ok (((contents i).find? fun elem => func elem arg).getD null, h)) ∧
    (∃ length, (listLen (plists i)).run h = .ok (length, h) ∧
      length.toNat = (contents i).length) ∧
    (listEmpty (plists i)).run h = .ok (decide (contents i = []), h) := by
  have isList := lists.each i
  refine ⟨fun elem free => listPush_conses lists free,
    fun elem free => listAppend_snocs lists free,
    fun elem member => listRemove_erases lists member,
    fun elem rest first => listPop_tails lists first,
    fun elem => elemFind_runs isList, fun func arg => listTraversal_runs isList,
    ⟨_, listLen_runs isList, ?_⟩, listEmpty_runs isList⟩
  rw [BitVec.toNat_ofNat, Nat.mod_eq_of_lt isList.short]

/-! ### An example -/

/-- The addresses of two lists. -/
def twoPlists : Bool → Word
  | false => 0x100
  | true => 0x200

/-- The first list has three elements, the second one two. -/
def twoContents : Bool → List Word
  | false => [0x300, 0x310, 0x320]
  | true => [0x400, 0x410]

/-- The words behind one another. -/
def behind (nodes : List Word) (elem : Word) : Option Word :=
  ((nodes.zip nodes.tail).find? fun pair => pair.1 = elem).map Prod.snd

/-- Their elements. -/
def twoHeap : ListHeap where
  links :=
    { prev := fun elem => ((behind [0x108, 0x320, 0x310, 0x300, 0x100] elem).or
        (behind [0x208, 0x410, 0x400, 0x200] elem)).getD null
      next := fun elem => ((behind [0x100, 0x300, 0x310, 0x320, 0x108] elem).or
        (behind [0x200, 0x400, 0x410, 0x208] elem)).getD null }
  intrOn := true

theorem twoNodes : nodes (twoPlists false) (twoContents false) =
      [0x100, 0x300, 0x310, 0x320, 0x108] ∧
    nodes (twoPlists true) (twoContents true) = [0x200, 0x400, 0x410, 0x208] := ⟨rfl, rfl⟩

theorem twoNodes_disjoint : [(0x100 : Word), 0x300, 0x310, 0x320, 0x108].Disjoint
    [0x200, 0x400, 0x410, 0x208] := by
  simp

theorem twoHeap_lists : Lists twoHeap twoPlists twoContents where
  each i := by
    cases i with
    | false =>
        refine ⟨⟨?_, by simp [twoNodes]⟩, by simp [twoNodes, null], rfl, rfl⟩
        rw [twoNodes.1]
        exact List.isChain_cons_cons.mpr ⟨⟨rfl, rfl⟩, List.isChain_cons_cons.mpr ⟨⟨rfl, rfl⟩,
          List.isChain_cons_cons.mpr ⟨⟨rfl, rfl⟩, List.isChain_pair.mpr ⟨rfl, rfl⟩⟩⟩⟩
    | true =>
        refine ⟨⟨?_, by simp [twoNodes]⟩, by simp [twoNodes, null], rfl, rfl⟩
        rw [twoNodes.2]
        exact List.isChain_cons_cons.mpr ⟨⟨rfl, rfl⟩, List.isChain_cons_cons.mpr ⟨⟨rfl, rfl⟩,
          List.isChain_pair.mpr ⟨rfl, rfl⟩⟩⟩
  apart i j other := by
    cases i <;> cases j
    case false.true => exact twoNodes_disjoint
    case true.false => exact twoNodes_disjoint.symm
    all_goals exact absurd rfl other

/-- The first element is taken from the first list. -/
theorem list_calls_pop : ∃ h', (listPop 0x100).run twoHeap = .ok (0x300, h') ∧
    Lists h' twoPlists (Function.update twoContents false [0x310, 0x320]) :=
  (list_calls twoHeap_lists false).2.2.2.1 0x300 [0x310, 0x320] rfl

/-! ### Runs -/

/-- A call that changes a list. -/
inductive ListOp (ι : Type) where
  | push (i : ι) (elem : Word)
  | append (i : ι) (elem : Word)
  | remove (elem : Word)
  | pop (i : ι)

/-- Make a call. -/
def ListOp.exec (plists : ι → Word) : ListOp ι → ListCall Unit
  | push i elem => listPush (plists i) elem
  | append i elem => listAppend (plists i) elem
  | remove elem => listRemove elem
  | pop i => do let _ ← listPop (plists i)

/-- What a call does to the lists. -/
def ListOp.effect (contents : ι → List Word) : ListOp ι → ι → List Word
  | push i elem => Function.update contents i (elem :: contents i)
  | append i elem => Function.update contents i (contents i ++ [elem])
  | remove elem => fun i => (contents i).erase elem
  | pop i => Function.update contents i (contents i).tail

/-- When a call may be made. -/
def ListOp.Allowed (plists : ι → Word) (contents : ι → List Word) : ListOp ι → Prop
  | push _ elem => Free plists contents elem
  | append _ elem => Free plists contents elem
  | remove elem => ∃ i, elem ∈ contents i
  | pop i => contents i ≠ []

/-- Make calls one after the other. -/
def listRun (plists : ι → Word) : List (ListOp ι) → ListCall Unit
  | [] => pure ()
  | op :: ops => do
      op.exec plists
      listRun plists ops

/-- Each call may be made when it is. -/
def AllAllowed (plists : ι → Word) (contents : ι → List Word) : List (ListOp ι) → Prop
  | [] => True
  | op :: ops => op.Allowed plists contents ∧ AllAllowed plists (op.effect contents) ops

omit [DecidableEq ι] in
/-- An element is on one list only. -/
theorem Lists.once {i j : ι} (lists : Lists h plists contents) (inI : elem ∈ contents i)
    (inJ : elem ∈ contents j) : i = j := by
  by_contra other
  have mine : elem ∈ nodes (plists i) (contents i) := by simp [nodes, inI]
  exact lists.apart i j other mine (by simp [nodes, inJ])

/-- A call keeps the lists. -/
theorem Lists.step (lists : Lists h plists contents) {op : ListOp ι}
    (allowed : op.Allowed plists contents) :
    ∃ h', (op.exec plists).run h = .ok ((), h') ∧ Lists h' plists (op.effect contents) := by
  cases op with
  | push i elem => exact listPush_conses lists allowed
  | append i elem => exact listAppend_snocs lists allowed
  | remove elem =>
      obtain ⟨i, member⟩ := allowed
      obtain ⟨h', ran, lists'⟩ := listRemove_erases lists member
      refine ⟨h', ran, ?_⟩
      have same : Function.update contents i ((contents i).erase elem) =
          (ListOp.remove elem).effect contents := by
        funext j
        by_cases isI : j = i
        · subst isI
          rw [Function.update_self]
          rfl
        · have outside : elem ∉ contents j := fun inJ => isI (lists.once inJ member)
          rw [Function.update_of_ne isI]
          exact (List.erase_of_not_mem outside).symm
      exact same ▸ lists'
  | pop i =>
      obtain ⟨elem, rest, first⟩ := List.exists_cons_of_ne_nil allowed
      obtain ⟨h', ran, lists'⟩ := listPop_tails lists first
      refine ⟨h', ?_, ?_⟩
      · rw [ListOp.exec, call_bind_of ran]
        rfl
      · rw [ListOp.effect, first]
        exact lists'

/-- Any number of calls keeps the lists. -/
theorem listRun_keeps {ops : List (ListOp ι)} (lists : Lists h plists contents)
    (allowed : AllAllowed plists contents ops) : ∃ h', (listRun plists ops).run h = .ok ((), h') ∧
      Lists h' plists (ops.foldl ListOp.effect contents) := by
  induction ops generalizing h contents with
  | nil => exact ⟨h, rfl, lists⟩
  | cons op ops ih =>
      obtain ⟨now, later⟩ := allowed
      obtain ⟨h₁, ran, lists₁⟩ := lists.step now
      obtain ⟨h', rest, lists'⟩ := ih lists₁ later
      refine ⟨h', ?_, lists'⟩
      rw [listRun, call_bind_of ran]
      exact rest

end

end UKernel.LinkedLists
