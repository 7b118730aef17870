import Mathlib

/-! # Names in a tree of directories

Directories that map names to directories and files, and the resolution of a list of names from a
directory (`UKernel.Library.Resolves`). Two of the names may be links: one from each directory to
itself, and one to the directory that it lies in (`UKernel.Library.Linked`). In such a tree a list
of names can be freed of the links before it is resolved (`UKernel.Library.Linked.resolves_clean`),
and where each directory has one name, there is one such list for it
(`UKernel.Library.NamedOnce.names_unique`).

The names of a path are its parts between separators, without the empty ones
(`UKernel.Library.components`).
-/

namespace UKernel.Library

/-! ## Resolution -/

/-- What a name stands for. -/
inductive Target (Dir File : Type*) where
  | dir (d : Dir)
  | file (f : File)
  deriving DecidableEq, Repr

variable {Dir File Name : Type*}

/-- Names are followed one after the other; only the last may be one of a file. -/
inductive Resolves (entry : Dir → Name → Target Dir File → Prop) :
    Dir → List Name → Target Dir File → Prop where
  | here {d : Dir} : Resolves entry d [] (.dir d)
  | dir {d d' : Dir} {name : Name} {names : List Name} {target : Target Dir File} :
      entry d name (.dir d') → Resolves entry d' names target →
        Resolves entry d (name :: names) target
  | file {d : Dir} {name : Name} {f : File} :
      entry d name (.file f) → Resolves entry d [name] (.file f)

section

variable {entry : Dir → Name → Target Dir File → Prop} {root d d' : Dir} {name : Name}
  {names names' : List Name} {target target' : Target Dir File} {f : File}

theorem Resolves.nil_iff : Resolves entry d [] target ↔ target = .dir d := by
  constructor
  · intro resolves
    cases resolves
    rfl
  · rintro rfl
    exact .here

theorem Resolves.cons_iff : Resolves entry d (name :: names) target ↔
    (∃ d', entry d name (.dir d') ∧ Resolves entry d' names target) ∨
      ∃ f, entry d name (.file f) ∧ names = [] ∧ target = .file f := by
  constructor
  · intro resolves
    cases resolves with
    | dir named rest => exact .inl ⟨_, named, rest⟩
    | file named => exact .inr ⟨_, named, rfl, rfl⟩
  · rintro (⟨d', named, rest⟩ | ⟨f, named, rfl, rfl⟩)
    · exact .dir named rest
    · exact .file named

/-- A list of names in two parts, of which the first leads to a directory. -/
theorem Resolves.append (first : Resolves entry d names (.dir d'))
    (second : Resolves entry d' names' target) : Resolves entry d (names ++ names') target := by
  induction names generalizing d with
  | nil =>
      cases first
      exact second
  | cons name names ih =>
      rcases Resolves.cons_iff.mp first with ⟨middle, named, rest⟩ | ⟨f, -, -, wrong⟩
      · exact .dir named (ih rest)
      · cases wrong

/-- A list of names in two parts, of which the second is not empty. -/
theorem Resolves.split (nonempty : names' ≠ [])
    (resolves : Resolves entry d (names ++ names') target) :
    ∃ d', Resolves entry d names (.dir d') ∧ Resolves entry d' names' target := by
  induction names generalizing d with
  | nil => exact ⟨d, .here, resolves⟩
  | cons name names ih =>
      rcases Resolves.cons_iff.mp resolves with ⟨middle, named, rest⟩ | ⟨f, -, empty, -⟩
      · obtain ⟨d', first, second⟩ := ih rest
        exact ⟨d', .dir named first, second⟩
      · exact absurd (List.append_eq_nil_iff.mp empty).2 nonempty

/-- A directory that names lead to from the root. -/
def Reached (entry : Dir → Name → Target Dir File → Prop) (root d : Dir) : Prop :=
  ∃ names, Resolves entry root names (.dir d)

theorem Reached.start : Reached entry root root := ⟨[], .here⟩

theorem Reached.step (reached : Reached entry root d) (named : entry d name (.dir d')) :
    Reached entry root d' := by
  obtain ⟨names, resolves⟩ := reached
  exact ⟨names ++ [name], resolves.append (.dir named .here)⟩

/-- What holds of the root, and of the directories in a directory of which it holds. -/
theorem Reached.invariant {P : Dir → Prop} (reached : Reached entry root d) (start : P root)
    (step : ∀ d name d', P d → entry d name (.dir d') → P d') : P d := by
  obtain ⟨names, resolves⟩ := reached
  induction names generalizing root with
  | nil =>
      cases resolves
      exact start
  | cons name names ih =>
      rcases Resolves.cons_iff.mp resolves with ⟨d', named, rest⟩ | ⟨f, -, -, wrong⟩
      · exact ih (step _ _ _ start named) rest
      · cases wrong

/-- The directories that can be reached depend on the directories in directories that can. -/
theorem reached_congr {entry' : Dir → Name → Target Dir File → Prop}
    (same : ∀ d, Reached entry root d → ∀ name d',
      entry' d name (.dir d') ↔ entry d name (.dir d')) :
    Reached entry' root d ↔ Reached entry root d := by
  constructor
  · intro reached
    apply reached.invariant (P := Reached entry root) Reached.start
    intro d name d' before named
    exact before.step ((same d before name d').mp named)
  · intro reached
    apply And.right
    apply reached.invariant (P := fun d => Reached entry root d ∧ Reached entry' root d)
      ⟨Reached.start, Reached.start⟩
    intro d name d' before named
    exact ⟨before.1.step named, before.2.step ((same d before.1 name d').mpr named)⟩

/-- A name stands for one thing in a directory that can be reached. -/
def Deterministic (entry : Dir → Name → Target Dir File → Prop) (root : Dir) : Prop :=
  ∀ d name target target', Reached entry root d → entry d name target → entry d name target' →
    target = target'

/-- What a list of names stands for is determined. -/
theorem Resolves.unique (deterministic : Deterministic entry root) (reached : Reached entry root d)
    (first : Resolves entry d names target) (second : Resolves entry d names target') :
    target = target' := by
  induction names generalizing d with
  | nil =>
      cases first
      cases second
      rfl
  | cons name names ih =>
      rcases Resolves.cons_iff.mp first with ⟨d₁, named₁, rest₁⟩ | ⟨f₁, named₁, empty₁, rfl⟩
      · rcases Resolves.cons_iff.mp second with ⟨d₂, named₂, rest₂⟩ | ⟨f₂, named₂, -, -⟩
        · cases deterministic _ _ _ _ reached named₁ named₂
          exact ih (reached.step named₁) rest₁ rest₂
        · cases deterministic _ _ _ _ reached named₁ named₂
      · rcases Resolves.cons_iff.mp second with ⟨d₂, named₂, -⟩ | ⟨f₂, named₂, -, rfl⟩
        · cases deterministic _ _ _ _ reached named₁ named₂
        · exact deterministic _ _ _ _ reached named₁ named₂

end

/-! ## Links -/

/-- One name leads from each directory to itself, and another to the directory that it lies in, or
from the root to itself. -/
structure Linked (entry : Dir → Name → Target Dir File → Prop) (root : Dir) (stay up : Name) :
    Prop where
  deterministic : Deterministic entry root
  stay_of : ∀ d, Reached entry root d → entry d stay (.dir d)
  up_of : ∀ d name d', Reached entry root d → entry d name (.dir d') → name ≠ stay →
    name ≠ up → entry d' up (.dir d)
  up_root : entry root up (.dir root)

/-- Free a list of names of the links, after the names that are left of the list before it. -/
def clean [DecidableEq Name] (stay up : Name) (stack : List Name) : List Name → List Name
  | [] => stack
  | name :: names =>
      if name = up then clean stay up stack.dropLast names
      else if name = stay then clean stay up stack names
      else clean stay up (stack ++ [name]) names

section

variable {entry : Dir → Name → Target Dir File → Prop} {root d : Dir} {stay up name : Name}
  {names stack : List Name} {target : Target Dir File}

/-- The last of some names leads from the directory that the others lead to, and the link leads
back. -/
theorem Linked.last_link (linked : Linked entry root stay up) (notStay : name ≠ stay)
    (notUp : name ≠ up) (resolves : Resolves entry root (names ++ [name]) (.dir d)) :
    ∃ above, Resolves entry root names (.dir above) ∧ entry above name (.dir d) ∧
      entry d up (.dir above) := by
  obtain ⟨above, first, second⟩ := resolves.split (List.cons_ne_nil name [])
  rcases Resolves.cons_iff.mp second with ⟨d', named, rest⟩ | ⟨f, -, -, wrong⟩
  · cases rest
    exact ⟨above, first, named, linked.up_of above name d ⟨names, first⟩ named notStay notUp⟩
  · cases wrong

/-- The link to the directory above goes where the names before the last lead. -/
theorem Linked.up_of_stack (linked : Linked entry root stay up)
    (links : ∀ name ∈ stack, name ≠ stay ∧ name ≠ up)
    (resolves : Resolves entry root stack (.dir d)) :
    ∃ above, Resolves entry root stack.dropLast (.dir above) ∧ entry d up (.dir above) := by
  rcases List.eq_nil_or_concat stack with rfl | ⟨front, last, rfl⟩
  · cases resolves
    exact ⟨root, .here, linked.up_root⟩
  · rw [List.concat_eq_append] at links resolves ⊢
    obtain ⟨notStay, notUp⟩ := links last (by simp)
    obtain ⟨above, first, -, named⟩ := linked.last_link notStay notUp resolves
    rw [List.dropLast_concat]
    exact ⟨above, first, named⟩

variable [DecidableEq Name]

/-- What is left of a list that is freed of the links. -/
theorem clean_sublist : (clean stay up stack names).Sublist (stack ++ names) := by
  induction names generalizing stack with
  | nil => rw [clean, List.append_nil]
  | cons name names ih =>
      rw [clean]
      have skip : (stack ++ names).Sublist (stack ++ name :: names) :=
        (List.sublist_cons_self name names).append_left stack
      split
      case isTrue =>
          exact ih.trans (((List.dropLast_sublist stack).append_right names).trans skip)
      case isFalse =>
          split
          case isTrue => exact ih.trans skip
          case isFalse => simpa using @ih (stack ++ [name])

/-- A list that was freed of the links has none. -/
theorem clean_links (before : ∀ name ∈ stack, name ≠ stay ∧ name ≠ up) :
    ∀ name ∈ clean stay up stack names, name ≠ stay ∧ name ≠ up := by
  induction names generalizing stack with
  | nil => exact before
  | cons name names ih =>
      rw [clean]
      by_cases isUp : name = up
      · rw [if_pos isUp]
        exact ih fun name member => before name (List.mem_of_mem_dropLast member)
      · rw [if_neg isUp]
        by_cases isStay : name = stay
        · rw [if_pos isStay]
          exact ih before
        · rw [if_neg isStay]
          apply ih
          intro name' member
          rcases List.mem_append.mp member with earlier | last
          · exact before name' earlier
          · rw [List.mem_singleton.mp last]
            exact ⟨isStay, isUp⟩

/-- Names that are no links are kept. -/
theorem clean_plain (plain : ∀ name ∈ names, name ≠ stay ∧ name ≠ up) :
    clean stay up stack names = stack ++ names := by
  induction names generalizing stack with
  | nil => rw [clean, List.append_nil]
  | cons name names ih =>
      obtain ⟨⟨notStay, notUp⟩, others⟩ := List.forall_mem_cons.mp plain
      rw [clean, if_neg notUp, if_neg notStay, ih others, List.append_assoc]
      rfl

/-- **Links can be removed.** If names lead to a target step by step, then so do the names that are
left when the links are taken out of the list. -/
theorem Linked.resolves_clean (linked : Linked entry root stay up)
    (links : ∀ name ∈ stack, name ≠ stay ∧ name ≠ up)
    (first : Resolves entry root stack (.dir d)) (second : Resolves entry d names target) :
    Resolves entry root (clean stay up stack names) target := by
  induction names generalizing stack d with
  | nil =>
      cases second
      exact first
  | cons name names ih =>
      have reached : Reached entry root d := ⟨stack, first⟩
      rw [clean]
      by_cases isUp : name = up
      · rw [if_pos isUp]
        obtain ⟨above, shorter, named⟩ := linked.up_of_stack links first
        rcases Resolves.cons_iff.mp second with ⟨d', named', rest⟩ | ⟨f, named', -⟩
        · rw [isUp] at named'
          cases linked.deterministic _ _ _ _ reached named named'
          exact ih (fun name member => links name (List.mem_of_mem_dropLast member)) shorter rest
        · rw [isUp] at named'
          cases linked.deterministic _ _ _ _ reached named named'
      · rw [if_neg isUp]
        by_cases isStay : name = stay
        · rw [if_pos isStay]
          rcases Resolves.cons_iff.mp second with ⟨d', named, rest⟩ | ⟨f, named, -⟩
          · rw [isStay] at named
            cases linked.deterministic _ _ _ _ reached (linked.stay_of d reached) named
            exact ih links first rest
          · rw [isStay] at named
            cases linked.deterministic _ _ _ _ reached (linked.stay_of d reached) named
        · rw [if_neg isStay]
          rcases Resolves.cons_iff.mp second with ⟨d', named, rest⟩ | ⟨f, named, rfl, rfl⟩
          · refine ih ?_ (first.append (.dir named .here)) rest
            intro name' member
            rcases List.mem_append.mp member with before | last
            · exact links name' before
            · rw [List.mem_singleton.mp last]
              exact ⟨isStay, isUp⟩
          · exact first.append (.file named)

omit [DecidableEq Name] in
/-- Every directory has a link to one. -/
theorem Linked.up_exists (linked : Linked entry root stay up) (reached : Reached entry root d) :
    ∃ above, entry d up (.dir above) := by
  classical
  obtain ⟨names, resolves⟩ := reached
  have none_ : ∀ name ∈ ([] : List Name), name ≠ stay ∧ name ≠ up :=
    fun name member => absurd member List.not_mem_nil
  have cleaned := linked.resolves_clean none_ .here resolves
  obtain ⟨above, -, named⟩ := linked.up_of_stack (clean_links none_) cleaned
  exact ⟨above, named⟩

end

/-! ## Trees in which each directory has one name -/

/-- Links apart, a directory has one name in the directory that it lies in, and the root has
none. -/
structure NamedOnce (entry : Dir → Name → Target Dir File → Prop) (root : Dir)
    (stay up : Name) : Prop
    extends Linked entry root stay up where
  root_unnamed : ∀ d name, Reached entry root d → entry d name (.dir root) → name = stay ∨ name = up
  one_name : ∀ d name name' d', Reached entry root d → entry d name (.dir d') →
    entry d name' (.dir d') → name ≠ stay → name ≠ up → name' ≠ stay → name' ≠ up → name = name'

/-- None of the names is a link. -/
def LinkFree (stay up : Name) (names : List Name) : Prop :=
  ∀ name ∈ names, name ≠ stay ∧ name ≠ up

section

variable {entry : Dir → Name → Target Dir File → Prop} {root d above : Dir}
  {stay up name last : Name}
  {names names' : List Name}

theorem linkFree_snoc : LinkFree stay up (names ++ [last]) ↔
    LinkFree stay up names ∧ last ≠ stay ∧ last ≠ up := by
  unfold LinkFree
  rw [List.forall_mem_append, List.forall_mem_singleton]

/-- Names without links that lead to the root are none. -/
theorem NamedOnce.names_root (tree : NamedOnce entry root stay up) (free : LinkFree stay up names)
    (resolves : Resolves entry root names (.dir root)) : names = [] := by
  rcases List.eq_nil_or_concat names with rfl | ⟨front, last, rfl⟩
  · rfl
  · rw [List.concat_eq_append] at free resolves
    obtain ⟨-, notStay, notUp⟩ := linkFree_snoc.mp free
    obtain ⟨above, first, named, -⟩ := tree.last_link notStay notUp resolves
    rcases tree.root_unnamed above last ⟨front, first⟩ named with isStay | isUp
    · exact absurd isStay notStay
    · exact absurd isUp notUp

/-- **One path.** The names without links that lead to a directory are determined. -/
theorem NamedOnce.names_unique (tree : NamedOnce entry root stay up) (free : LinkFree stay up names)
    (free' : LinkFree stay up names') (first : Resolves entry root names (.dir d))
    (second : Resolves entry root names' (.dir d)) : names = names' := by
  induction names using List.reverseRecOn generalizing names' d with
  | nil =>
      cases first
      exact (tree.names_root free' second).symm
  | append_singleton front last ih =>
      rcases List.eq_nil_or_concat names' with rfl | ⟨front', last', rfl⟩
      · cases second
        exact tree.names_root free first
      · rw [List.concat_eq_append] at free' second ⊢
        obtain ⟨frontFree, notStay, notUp⟩ := linkFree_snoc.mp free
        obtain ⟨frontFree', notStay', notUp'⟩ := linkFree_snoc.mp free'
        obtain ⟨above, before, named, back⟩ := tree.last_link notStay notUp first
        obtain ⟨above', before', named', back'⟩ := tree.last_link notStay' notUp' second
        cases tree.deterministic d _ _ _ ⟨_, first⟩ back back'
        rw [ih frontFree frontFree' before before',
          tree.one_name above last last' d ⟨_, before⟩ named named' notStay notUp notStay' notUp']

end

/-! ## Paths -/

/-- The names of a path. -/
def components {α : Type*} [DecidableEq α] (sep : α) (path : List α) : List (List α) :=
  (path.splitOn sep).filter (· ≠ [])

section

variable {α : Type*} [DecidableEq α] {sep : α} {path rest name : List α} {names : List (List α)}

@[simp] theorem components_nil : components sep [] = [] := by
  simp [components]

@[simp] theorem components_sep : components sep (sep :: path) = components sep path := by
  simp [components, List.splitOn_cons_eq_if_modifyHead]

theorem components_append :
    components sep (path ++ sep :: rest) = components sep path ++ components sep rest := by
  rw [components, List.splitOn_append_cons_self, List.filter_append]
  rfl

theorem components_single (nonempty : name ≠ []) (free : sep ∉ name) :
    components sep name = [name] := by
  rw [components, List.splitOn_eq_singleton free]
  simp [nonempty]

/-- The names of a path that was put together from names. -/
theorem components_flatMap (each : ∀ name ∈ names, name ≠ [] ∧ sep ∉ name) :
    components sep (names.flatMap (sep :: ·)) = names := by
  induction names with
  | nil => simp
  | cons name names ih =>
      obtain ⟨⟨nonempty, free⟩, others⟩ := List.forall_mem_cons.mp each
      rw [List.flatMap_cons, List.cons_append, components_sep]
      cases names with
      | nil => rw [List.flatMap_nil, List.append_nil, components_single nonempty free]
      | cons next names =>
          have rest := ih others
          rw [List.flatMap_cons, List.cons_append, components_sep] at rest
          rw [List.flatMap_cons, List.cons_append, components_append,
            components_single nonempty free, rest]
          rfl

/-- Separators alone have no name between them. -/
theorem components_seps (all : ∀ c ∈ path, c = sep) : components sep path = [] := by
  induction path with
  | nil => exact components_nil
  | cons c cs ih =>
      obtain ⟨first, others⟩ := List.forall_mem_cons.mp all
      rw [first, components_sep, ih others]

theorem components_seps_append (all : ∀ c ∈ path, c = sep) :
    components sep (path ++ rest) = components sep rest := by
  induction path with
  | nil => rfl
  | cons c cs ih =>
      obtain ⟨first, others⟩ := List.forall_mem_cons.mp all
      rw [List.cons_append, first, components_sep, ih others]

omit [DecidableEq α] in
theorem dropWhile_stops {f : α → Bool} {l cs : List α} {c : α}
    (rest : l.dropWhile f = c :: cs) : f c = false := by
  have stops := List.head_dropWhile_not f (l := l) (by rw [rest]; exact List.cons_ne_nil c cs)
  simpa only [rest, List.head_cons] using stops

/-- What is in front of the first name of a path, the name, and what is behind it. -/
inductive FirstName (sep : α) : List α → Prop where
  | none {path : List α} (all : ∀ c ∈ path, c = sep) : FirstName sep path
  | last {seps name : List α} (all : ∀ c ∈ seps, c = sep) (nonempty : name ≠ [])
      (free : sep ∉ name) : FirstName sep (seps ++ name)
  | more {seps name rest : List α} (all : ∀ c ∈ seps, c = sep) (nonempty : name ≠ [])
      (free : sep ∉ name) : FirstName sep (seps ++ (name ++ sep :: rest))

theorem firstName (sep : α) (path : List α) : FirstName sep path := by
  have whole := List.takeWhile_append_dropWhile (p := (· = sep)) (l := path)
  have all : ∀ c ∈ path.takeWhile (· = sep), c = sep := fun c member => by
    simpa using List.mem_takeWhile_imp member
  cases begins : path.dropWhile (· = sep) with
  | nil =>
      rw [begins, List.append_nil] at whole
      exact .none (whole ▸ all)
  | cons c cs =>
      have stops := dropWhile_stops begins
      have other : c ≠ sep := of_decide_eq_false stops
      have parts := List.takeWhile_append_dropWhile (p := (· ≠ sep)) (l := c :: cs)
      have nonempty : (c :: cs).takeWhile (· ≠ sep) ≠ [] := by
        rw [List.takeWhile_cons_of_pos (by simpa using other)]
        exact List.cons_ne_nil c _
      have free : sep ∉ (c :: cs).takeWhile (· ≠ sep) := fun member => by
        simpa using List.mem_takeWhile_imp member
      cases ends : (c :: cs).dropWhile (· ≠ sep) with
      | nil =>
          rw [ends, List.append_nil] at parts
          rw [begins, ← parts] at whole
          exact whole ▸ .last all nonempty free
      | cons d rest =>
          have stops := dropWhile_stops ends
          have isSep : d = sep := not_not.mp (of_decide_eq_false stops)
          rw [ends, isSep] at parts
          rw [begins, ← parts] at whole
          exact whole ▸ .more all nonempty free

/-- A path without names is one of separators only. -/
theorem components_eq_nil (nothing : components sep path = []) : ∀ c ∈ path, c = sep := by
  cases firstName sep path with
  | none all => exact all
  | last all nonempty free =>
      rw [components_seps_append all, components_single nonempty free] at nothing
      cases nothing
  | more all nonempty free =>
      rw [components_seps_append all, components_append, components_single nonempty free] at nothing
      cases nothing

/-- The parts of a path between separators contain none. -/
theorem not_mem_splitOn : ∀ name ∈ path.splitOn sep, sep ∉ name := by
  induction path with
  | nil => simp
  | cons c cs ih =>
      intro name member
      rw [List.splitOn_cons_eq_if_modifyHead] at member
      split at member
      case isTrue =>
          rcases List.mem_cons.mp member with rfl | later
          · simp
          · exact ih name later
      case isFalse other =>
          cases parts : cs.splitOn sep with
          | nil => exact absurd parts (List.splitOn_ne_nil _ _)
          | cons first others =>
              rw [parts, List.modifyHead_cons] at member
              rcases List.mem_cons.mp member with rfl | later
              · have here := ih first (parts ▸ List.mem_cons_self)
                intro inside
                rcases List.mem_cons.mp inside with same | inside
                · exact other (by simp [same])
                · exact here inside
              · exact ih name (parts ▸ List.mem_cons_of_mem _ later)

theorem mem_components (member : name ∈ components sep path) : name ≠ [] ∧ sep ∉ name := by
  obtain ⟨part, nonempty⟩ := List.mem_filter.mp member
  exact ⟨by simpa using nonempty, not_mem_splitOn name part⟩

/-- Each name takes its characters and a separator of the path. -/
theorem length_components :
    ((components sep path).map fun name => name.length + 1).sum ≤ path.length + 1 := by
  have whole : ((path.splitOn sep).map fun name => name.length + 1).sum = path.length + 1 := by
    induction path with
    | nil => simp
    | cons c cs ih =>
        rw [List.splitOn_cons_eq_if_modifyHead]
        split
        case isTrue =>
            rw [List.map_cons, List.sum_cons, ih]
            simp only [List.length_nil, List.length_cons]
            omega
        case isFalse =>
            cases parts : cs.splitOn sep with
            | nil => exact absurd parts (List.splitOn_ne_nil _ _)
            | cons first others =>
                rw [parts, List.map_cons, List.sum_cons] at ih
                rw [List.modifyHead_cons, List.map_cons, List.sum_cons, List.length_cons,
                  List.length_cons]
                omega
  rw [← whole]
  exact ((List.filter_sublist (l := path.splitOn sep)).map _).sum_le_sum fun _ _ => Nat.zero_le _

end

end UKernel.Library
