import UKernel.Library.CString
import UKernel.Library.Fault

/-! # The string functions

`string.c`, on objects of their own: a function that reads a string is given the memory as it is
seen from the pointer, and one that writes is given the object and returns it. A loop that looks
for the end of a string is bounded by `fuel`; where there is an end, any number greater than the
length of the string is enough.
-/

namespace UKernel.Strings

open UKernel.Library

/-- The loop of `strlen`. -/
def strlenLoop (str : Memory) : Nat → Nat → Except Fault Nat
  | 0, _ => throw .diverges
  | fuel + 1, i => if str i = 0 then return i else strlenLoop str fuel (i + 1)

/-- `strlen`. -/
def strlen (fuel : Nat) (str : Memory) : Except Fault Nat := strlenLoop str fuel 0

/-- The loop of `strcpy`. -/
def strcpyLoop (src : Memory) : Nat → Memory → Nat → Nat → Except Fault Memory
  | 0, _, _, _ => throw .diverges
  | fuel + 1, dst, p, i =>
      if src i = 0 then
        return Function.update dst p (src i)
      else
        strcpyLoop src fuel (Function.update dst p (src i)) (p + 1) (i + 1)

/-- `strcpy`, to the place `p` of an object. -/
def strcpy (fuel : Nat) (dst : Memory) (p : Nat) (src : Memory) : Except Fault Memory :=
  strcpyLoop src fuel dst p 0

/-- `strcat`. -/
def strcat (fuel : Nat) (dst src : Memory) : Except Fault Memory := do
  let str ← strlenLoop dst fuel 0
  strcpyLoop src fuel dst str 0

/-- The loop of `strcmp`; characters are signed. -/
def strcmpLoop (a b : Memory) : Nat → Nat → Except Fault Int
  | 0, _ => throw .diverges
  | fuel + 1, i =>
      if a i ≠ 0 ∧ a i = b i then
        strcmpLoop a b fuel (i + 1)
      else
        return if (a i).toInt < (b i).toInt then -1 else if (a i).toInt > (b i).toInt then 1 else 0

/-- `strcmp`. -/
def strcmp (fuel : Nat) (a b : Memory) : Except Fault Int := strcmpLoop a b fuel 0

/-- The loop of `strchr`. -/
def strchrLoop (str : Memory) (ch : Byte) : Nat → Nat → Except Fault (Option Nat)
  | 0, _ => throw .diverges
  | fuel + 1, i =>
      if str i = 0 then return none
      else if str i = ch then return some i
      else strchrLoop str ch fuel (i + 1)

/-- `strchr`: how far the character is from the start; `none` is the result `NULL`. -/
def strchr (fuel : Nat) (str : Memory) (ch : Byte) : Except Fault (Option Nat) :=
  strchrLoop str ch fuel 0

/-- The loop of `strrchr`. -/
def strrchrLoop (str : Memory) (ch : Byte) : Nat → Nat → Option Nat → Except Fault (Option Nat)
  | 0, _, _ => throw .diverges
  | fuel + 1, i, lastChar =>
      if str i = 0 then return lastChar
      else strrchrLoop str ch fuel (i + 1) (if str i = ch then some i else lastChar)

/-- `strrchr`. -/
def strrchr (fuel : Nat) (str : Memory) (ch : Byte) : Except Fault (Option Nat) :=
  strrchrLoop str ch fuel 0 none

/-- `memset`, from the place `p` of an object on. -/
def memset (dst : Memory) (p : Nat) (value : Byte) : Nat → Memory
  | 0 => dst
  | size + 1 => memset (Function.update dst p value) (p + 1) value size

/-- A string constant. -/
def literal (s : List Byte) : Memory := fun i => s.getD i 0

/-! ## What they do -/

section

variable {m str src dst a b : Memory} {p i fuel : Nat} {s t before behind : List Byte} {ch : Byte}

theorem literal_stringAt (clean : 0 ∉ s) : (literal s).StringAt 0 s := by
  refine .of_parts (fun i small => ?_) ?_ clean
  · rw [Nat.zero_add]
    simp [literal, small]
  · simp [literal]

theorem strlenLoop_runs (at_ : str.StringAt i s) (enough : s.length < fuel) :
    strlenLoop str fuel i = .ok (i + s.length) := by
  induction s generalizing i fuel with
  | nil =>
      obtain ⟨fuel, rfl⟩ := Nat.exists_eq_succ_of_ne_zero (Nat.ne_zero_of_lt enough)
      rw [strlenLoop, if_pos (Memory.StringAt.nil_iff.mp at_)]
      rfl
  | cons c s ih =>
      obtain ⟨fuel, rfl⟩ := Nat.exists_eq_succ_of_ne_zero (Nat.ne_zero_of_lt enough)
      obtain ⟨first, nonzero, rest⟩ := Memory.StringAt.cons_iff.mp at_
      rw [strlenLoop, if_neg (first ▸ nonzero), ih rest (by simpa using enough), List.length_cons]
      congr 1
      omega

/-- `strlen` counts the characters. -/
theorem strlen_runs (at_ : str.StringAt 0 s) (enough : s.length < fuel) :
    strlen fuel str = .ok s.length := by
  rw [strlen, strlenLoop_runs at_ enough, Nat.zero_add]

theorem strcpyLoop_runs (at_ : src.StringAt i s) (enough : s.length < fuel) :
    ∃ dst', strcpyLoop src fuel dst p i = .ok dst' ∧ dst'.StringAt p s ∧
      ∀ j, j < p ∨ p + s.length < j → dst' j = dst j := by
  induction s generalizing i fuel dst p with
  | nil =>
      obtain ⟨fuel, rfl⟩ := Nat.exists_eq_succ_of_ne_zero (Nat.ne_zero_of_lt enough)
      have zero := Memory.StringAt.nil_iff.mp at_
      refine ⟨Function.update dst p 0, by rw [strcpyLoop, if_pos zero, zero]; rfl, ?_, ?_⟩
      · exact Memory.StringAt.nil_iff.mpr (Function.update_self ..)
      · intro j outside
        rw [List.length_nil] at outside
        exact Function.update_of_ne (by omega) ..
  | cons c s ih =>
      obtain ⟨fuel, rfl⟩ := Nat.exists_eq_succ_of_ne_zero (Nat.ne_zero_of_lt enough)
      obtain ⟨first, nonzero, rest⟩ := Memory.StringAt.cons_iff.mp at_
      obtain ⟨dst', ran, copied, same⟩ : ∃ dst',
          strcpyLoop src fuel (Function.update dst p c) (p + 1) (i + 1) = .ok dst' ∧
            dst'.StringAt (p + 1) s ∧ ∀ j, j < p + 1 ∨ p + 1 + s.length < j →
              dst' j = Function.update dst p c j :=
        ih rest (by simpa using enough)
      refine ⟨dst', by rw [strcpyLoop, first, if_neg nonzero, ran], ?_, fun j outside => ?_⟩
      · refine Memory.StringAt.cons_iff.mpr ⟨?_, nonzero, copied⟩
        rw [same p (.inl (Nat.lt_succ_self p)), Function.update_self]
      · rw [List.length_cons] at outside
        rw [same j (by omega), Function.update_of_ne (by omega)]

/-- `strcpy` copies a string, and changes nothing around it. -/
theorem strcpy_runs (at_ : src.StringAt 0 s) (enough : s.length < fuel) :
    ∃ dst', strcpy fuel dst p src = .ok dst' ∧ dst'.StringAt p s ∧
      ∀ j, j < p ∨ p + s.length < j → dst' j = dst j :=
  strcpyLoop_runs at_ enough

/-- `strcpy` to the end of a string appends to it. -/
theorem strcpy_appends (at_ : dst.StringAt 0 t) (at_' : src.StringAt 0 s)
    (enough : s.length < fuel) :
    ∃ dst', strcpy fuel dst t.length src = .ok dst' ∧ dst'.StringAt 0 (t ++ s) := by
  obtain ⟨dst', ran, copied, same⟩ : ∃ dst', strcpy fuel dst t.length src = .ok dst' ∧
      dst'.StringAt t.length s ∧ ∀ j, j < t.length ∨ t.length + s.length < j → dst' j = dst j :=
    strcpy_runs at_' enough
  have kept : dst'.Holds 0 t := at_.holds.congr fun i _ high => same i (.inl (by omega))
  refine ⟨dst', ran, ?_, ?_⟩
  · rw [List.append_assoc]
    exact Memory.holds_append.mpr ⟨kept, by rw [Nat.zero_add]; exact copied.bytes⟩
  · rw [List.mem_append, not_or]
    exact ⟨at_.clean, copied.clean⟩

/-- `strcat` appends a string. -/
theorem strcat_runs (at_ : dst.StringAt 0 t) (at_' : src.StringAt 0 s) (enough : t.length < fuel)
    (enough' : s.length < fuel) :
    ∃ dst', strcat fuel dst src = .ok dst' ∧ dst'.StringAt 0 (t ++ s) := by
  obtain ⟨dst', ran, appended⟩ : ∃ dst', strcpyLoop src fuel dst t.length 0 = .ok dst' ∧
      dst'.StringAt 0 (t ++ s) := strcpy_appends at_ at_' enough'
  refine ⟨dst', ?_, appended⟩
  rw [strcat, strlenLoop_runs at_ enough, Nat.zero_add]
  exact ran

/-- The result where the strings end or differ. -/
theorem sign_eq_zero {x y : Byte} :
    ((if x.toInt < y.toInt then -1 else if x.toInt > y.toInt then 1 else 0 : Int) = 0) ↔ x = y := by
  constructor
  · intro zero
    split_ifs at zero with less more
    · cases zero
    · exact BitVec.eq_of_toInt_eq (by omega)
  · rintro rfl
    simp

theorem strcmpLoop_runs (atA : a.StringAt i s) (atB : b.StringAt i t) (enough : s.length < fuel) :
    ∃ result, strcmpLoop a b fuel i = .ok result ∧ (result = 0 ↔ s = t) := by
  induction s generalizing i fuel t with
  | nil =>
      obtain ⟨fuel, rfl⟩ := Nat.exists_eq_succ_of_ne_zero (Nat.ne_zero_of_lt enough)
      have zero := Memory.StringAt.nil_iff.mp atA
      refine ⟨_, by rw [strcmpLoop, if_neg (by simp [zero])]; rfl, ?_⟩
      rw [sign_eq_zero, zero]
      cases t with
      | nil => simp [Memory.StringAt.nil_iff.mp atB]
      | cons c t =>
          obtain ⟨first, nonzero, -⟩ := Memory.StringAt.cons_iff.mp atB
          rw [first]
          exact iff_of_false (Ne.symm nonzero) (List.cons_ne_nil c t).symm
  | cons c s ih =>
      obtain ⟨fuel, rfl⟩ := Nat.exists_eq_succ_of_ne_zero (Nat.ne_zero_of_lt enough)
      obtain ⟨first, nonzero, rest⟩ := Memory.StringAt.cons_iff.mp atA
      by_cases same : c = b i
      · cases t with
        | nil => exact absurd (same.trans (Memory.StringAt.nil_iff.mp atB)) nonzero
        | cons c' t =>
            obtain ⟨first', -, rest'⟩ := Memory.StringAt.cons_iff.mp atB
            obtain ⟨result, ran, zero⟩ := ih rest rest' (by simpa using enough)
            refine ⟨result, by rw [strcmpLoop, if_pos ⟨first ▸ nonzero, first.trans same⟩, ran], ?_⟩
            rw [zero, List.cons.injEq, same, first']
            simp
      · refine ⟨_, by rw [strcmpLoop, if_neg (fun both => same (first.symm.trans both.2))]; rfl, ?_⟩
        rw [sign_eq_zero, first]
        refine iff_of_false same ?_
        rintro rfl
        exact same (Memory.StringAt.cons_iff.mp atB).1.symm

/-- `strcmp` returns zero for equal strings only. -/
theorem strcmp_runs (atA : a.StringAt 0 s) (atB : b.StringAt 0 t) (enough : s.length < fuel) :
    ∃ result, strcmp fuel a b = .ok result ∧ (result = 0 ↔ s = t) :=
  strcmpLoop_runs atA atB enough

theorem strchrLoop_runs (at_ : str.StringAt i s) (enough : s.length < fuel) :
    strchrLoop str ch fuel i = .ok (if ch ∈ s then some (i + s.idxOf ch) else none) := by
  induction s generalizing i fuel with
  | nil =>
      obtain ⟨fuel, rfl⟩ := Nat.exists_eq_succ_of_ne_zero (Nat.ne_zero_of_lt enough)
      rw [strchrLoop, if_pos (Memory.StringAt.nil_iff.mp at_)]
      rfl
  | cons c s ih =>
      obtain ⟨fuel, rfl⟩ := Nat.exists_eq_succ_of_ne_zero (Nat.ne_zero_of_lt enough)
      obtain ⟨first, nonzero, rest⟩ := Memory.StringAt.cons_iff.mp at_
      rw [strchrLoop, if_neg (first ▸ nonzero), first]
      by_cases here : c = ch
      · simp [here]
      · rw [if_neg here, ih rest (by simpa using enough)]
        simp only [List.mem_cons, Ne.symm here, false_or, List.idxOf_cons_ne s here]
        congr 3
        omega

/-- `strchr` finds the first place of a character. -/
theorem strchr_runs (at_ : str.StringAt 0 s) (enough : s.length < fuel) :
    strchr fuel str ch = .ok (if ch ∈ s then some (s.idxOf ch) else none) := by
  rw [strchr, strchrLoop_runs at_ enough, Nat.zero_add]

theorem strrchrLoop_none (at_ : str.StringAt i s) (enough : s.length < fuel) (missing : ch ∉ s)
    (lastChar : Option Nat) : strrchrLoop str ch fuel i lastChar = .ok lastChar := by
  induction s generalizing i fuel with
  | nil =>
      obtain ⟨fuel, rfl⟩ := Nat.exists_eq_succ_of_ne_zero (Nat.ne_zero_of_lt enough)
      rw [strrchrLoop, if_pos (Memory.StringAt.nil_iff.mp at_)]
      rfl
  | cons c s ih =>
      obtain ⟨fuel, rfl⟩ := Nat.exists_eq_succ_of_ne_zero (Nat.ne_zero_of_lt enough)
      obtain ⟨first, nonzero, rest⟩ := Memory.StringAt.cons_iff.mp at_
      rw [List.mem_cons, not_or] at missing
      rw [strrchrLoop, if_neg (first ▸ nonzero), first, if_neg (Ne.symm missing.1)]
      exact ih rest (by simpa using enough) missing.2

theorem strrchrLoop_runs (at_ : str.StringAt i (before ++ ch :: behind))
    (enough : (before ++ ch :: behind).length < fuel) (last : ch ∉ behind) (lastChar : Option Nat) :
    strrchrLoop str ch fuel i lastChar = .ok (some (i + before.length)) := by
  induction before generalizing i fuel lastChar with
  | nil =>
      obtain ⟨fuel, rfl⟩ := Nat.exists_eq_succ_of_ne_zero (Nat.ne_zero_of_lt enough)
      obtain ⟨first, nonzero, rest⟩ := Memory.StringAt.cons_iff.mp at_
      rw [strrchrLoop, if_neg (first ▸ nonzero), if_pos first]
      exact strrchrLoop_none rest (by simpa using enough) last _
  | cons c before ih =>
      obtain ⟨fuel, rfl⟩ := Nat.exists_eq_succ_of_ne_zero (Nat.ne_zero_of_lt enough)
      obtain ⟨first, nonzero, rest⟩ := Memory.StringAt.cons_iff.mp at_
      rw [strrchrLoop, if_neg (first ▸ nonzero), ih rest (by simpa using enough), List.length_cons]
      congr 2
      omega

/-- `strrchr` finds the last place of a character. -/
theorem strrchr_runs (at_ : str.StringAt 0 (before ++ ch :: behind))
    (enough : (before ++ ch :: behind).length < fuel) (last : ch ∉ behind) :
    strrchr fuel str ch = .ok (some before.length) := by
  rw [strrchr, strrchrLoop_runs at_ enough last, Nat.zero_add]

/-- `memset` sets the bytes from a place on. -/
theorem memset_apply {value : Byte} {size : Nat} : memset dst p value size i =
    if p ≤ i ∧ i < p + size then value else dst i := by
  induction size generalizing dst p with
  | zero => rw [memset, if_neg (by omega)]
  | succ size ih =>
      rw [memset, ih]
      by_cases here : i = p
      · rw [if_neg (by omega), if_pos (by omega), here, Function.update_self]
      · rw [Function.update_of_ne here]
        exact if_congr (by omega) rfl rfl

end

end UKernel.Strings
