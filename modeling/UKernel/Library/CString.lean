import UKernel.Library.Bytes

/-! # Strings in memory

The bytes that lie at an address (`UKernel.Library.Memory.Holds`), and strings that end with a zero
byte (`UKernel.Library.Memory.StringAt`). Bytes in two parts lie behind each other
(`UKernel.Library.Memory.holds_append`), and a store elsewhere leaves them alone
(`UKernel.Library.Memory.Holds.update`).
-/

namespace UKernel.Library

namespace Memory

/-- Bytes lie at an address. -/
def Holds (m : Memory) (p : Nat) (bytes : List Byte) : Prop :=
  ∀ i (small : i < bytes.length), m (p + i) = bytes[i]

/-- A string lies at an address: its characters and a zero byte. -/
structure StringAt (m : Memory) (p : Nat) (s : List Byte) : Prop where
  bytes : m.Holds p (s ++ [0])
  clean : 0 ∉ s

section

variable {m m' : Memory} {p q : Nat} {c : Byte} {bytes bytes' s s' : List Byte}

@[simp] theorem holds_nil : m.Holds p [] := fun i small => absurd small (Nat.not_lt_zero i)

theorem holds_cons : m.Holds p (c :: bytes) ↔ m p = c ∧ m.Holds (p + 1) bytes := by
  constructor
  · intro holds
    refine ⟨holds 0 (by simp), fun i small => ?_⟩
    rw [Nat.add_assoc, Nat.add_comm 1 i]
    exact holds (i + 1) (by simpa using small)
  · rintro ⟨first, rest⟩ i small
    cases i with
    | zero => exact first
    | succ i =>
        have here := rest i (by simpa using small)
        rw [Nat.add_assoc, Nat.add_comm 1 i] at here
        exact here

theorem holds_append : m.Holds p (bytes ++ bytes') ↔
    m.Holds p bytes ∧ m.Holds (p + bytes.length) bytes' := by
  induction bytes generalizing p with
  | nil => simp
  | cons c bytes ih =>
      rw [List.cons_append, holds_cons, holds_cons, ih, List.length_cons, and_assoc,
        Nat.add_assoc p 1, Nat.add_comm 1]

/-- Bytes depend on the memory in which they lie. -/
theorem Holds.congr (holds : m.Holds p bytes)
    (same : ∀ i, p ≤ i → i < p + bytes.length → m' i = m i) : m'.Holds p bytes := by
  intro i small
  rw [same (p + i) (Nat.le_add_right p i) (Nat.add_lt_add_left small p)]
  exact holds i small

/-- A store elsewhere. -/
theorem Holds.update (holds : m.Holds p bytes) (apart : q < p ∨ p + bytes.length ≤ q) :
    Memory.Holds (Function.update m q c) p bytes := by
  refine holds.congr fun i low high => ?_
  rw [Function.update_of_ne (by omega)]

/-- A store behind bytes. -/
theorem Holds.snoc (holds : m.Holds p bytes) (here : q = p + bytes.length) :
    Memory.Holds (Function.update m q c) p (bytes ++ [c]) := by
  subst here
  refine holds_append.mpr ⟨holds.update (.inr (Nat.le_refl _)), ?_⟩
  exact holds_cons.mpr ⟨Function.update_self .., holds_nil⟩

theorem shift_holds : (m.shift p).Holds q bytes ↔ m.Holds (p + q) bytes := by
  unfold Holds shift
  simp only [Nat.add_assoc]

theorem shift_stringAt : (m.shift p).StringAt q s ↔ m.StringAt (p + q) s :=
  ⟨fun at_ => ⟨shift_holds.mp at_.bytes, at_.clean⟩, fun at_ =>
    ⟨shift_holds.mpr at_.bytes, at_.clean⟩⟩

namespace StringAt

/-- The end of a string. -/
theorem ends (at_ : m.StringAt p s) : m (p + s.length) = 0 :=
  (holds_cons.mp (holds_append.mp at_.bytes).2).1

theorem holds (at_ : m.StringAt p s) : m.Holds p s := (holds_append.mp at_.bytes).1

theorem of_parts (holds : m.Holds p s) (ends : m (p + s.length) = 0) (clean : 0 ∉ s) :
    m.StringAt p s :=
  ⟨holds_append.mpr ⟨holds, holds_cons.mpr ⟨ends, holds_nil⟩⟩, clean⟩

/-- The characters of a string are not zero. -/
theorem ne_zero (at_ : m.StringAt p s) {i : Nat} (small : i < s.length) : m (p + i) ≠ 0 := by
  rw [at_.holds i small]
  intro zero
  exact at_.clean (zero ▸ List.getElem_mem small)

@[simp] theorem nil_iff : m.StringAt p [] ↔ m p = 0 :=
  ⟨fun at_ => at_.ends, fun zero => of_parts holds_nil zero (List.not_mem_nil)⟩

theorem cons_iff : m.StringAt p (c :: s) ↔ m p = c ∧ c ≠ 0 ∧ m.StringAt (p + 1) s := by
  constructor
  · intro at_
    have clean := at_.clean
    rw [List.mem_cons, not_or] at clean
    obtain ⟨first, rest⟩ := holds_cons.mp at_.bytes
    exact ⟨first, Ne.symm clean.1, rest, clean.2⟩
  · rintro ⟨first, nonzero, rest⟩
    refine ⟨holds_cons.mpr ⟨first, rest.bytes⟩, ?_⟩
    rw [List.mem_cons, not_or]
    exact ⟨Ne.symm nonzero, rest.clean⟩

/-- The rest of a string. -/
theorem drop (at_ : m.StringAt p (s ++ s')) : m.StringAt (p + s.length) s' := by
  refine ⟨?_, fun member => at_.clean (List.mem_append_right s member)⟩
  have bytes := at_.bytes
  rw [List.append_assoc] at bytes
  exact (holds_append.mp bytes).2

/-- A string is cut where a zero byte is stored. -/
theorem cut (at_ : m.StringAt p (s ++ s')) :
    Memory.StringAt (Function.update m (p + s.length) 0) p s := by
  have bytes := at_.bytes
  rw [List.append_assoc] at bytes
  refine ⟨(holds_append.mp bytes).1.snoc rfl, ?_⟩
  exact fun member => at_.clean (List.mem_append_left s' member)

theorem congr (at_ : m.StringAt p s) (same : ∀ i, p ≤ i → i ≤ p + s.length → m' i = m i) :
    m'.StringAt p s := by
  refine ⟨at_.bytes.congr fun i low high => same i low ?_, at_.clean⟩
  rw [List.length_append, List.length_singleton] at high
  omega

/-- There is one string at an address. -/
theorem unique (at_ : m.StringAt p s) (at_' : m.StringAt p s') : s = s' := by
  induction s generalizing p s' with
  | nil =>
      cases s' with
      | nil => rfl
      | cons c s' => exact absurd (nil_iff.mp at_) ((cons_iff.mp at_').1 ▸ (cons_iff.mp at_').2.1)
  | cons c s ih =>
      obtain ⟨first, nonzero, rest⟩ := cons_iff.mp at_
      cases s' with
      | nil => exact absurd (first.symm.trans (nil_iff.mp at_')) nonzero
      | cons c' s' =>
          obtain ⟨first', -, rest'⟩ := cons_iff.mp at_'
          rw [← first, ← first', ih rest rest']

end StringAt

end

end Memory

end UKernel.Library
