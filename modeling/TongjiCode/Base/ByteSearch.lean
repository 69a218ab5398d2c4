import Mathlib.Algebra.Order.Ring.Int
import Mathlib.Data.List.Basic

/-!
# Searching bytes

`binaryIndexOf` of `buffer.ts`, the search of Boyer, Moore and Horspool.  It finds the first occurrence from the offset on, except
that the shortcuts for needles of no byte and of one byte leave the offset aside (`binaryIndexOf_first_iff`).
-/

open List

namespace TongjiCode

variable (haystack needle : List UInt8)

/-- The stores into the table for the bytes of the needle.  A `Uint8Array` keeps what is stored modulo 256. -/
def storeSkips (table : UInt8 → UInt8) : List UInt8 → UInt8 → UInt8
  | [] => table
  | byte :: rest => storeSkips (Function.update table byte (UInt8.ofNat rest.length)) rest

/-- The table of skips: filled with the length of the needle, then one store for each of its bytes. -/
def indexOfTable : UInt8 → UInt8 := storeSkips (fun _ => UInt8.ofNat needle.length) needle

/-- The loop, with the cursors `i` in the haystack and `j` in the needle. -/
def binaryIndexOfLoop : Nat → Nat → Nat → Option Int
  | 0, _, _ => none
  | fuel + 1, i, j =>
    match haystack[i]? with
    | none => some (-1)
    | some byte =>
      if some byte = needle[j]? then
        if j = 0 then some i else binaryIndexOfLoop fuel (i - 1) (j - 1)
      else
        binaryIndexOfLoop fuel (i + max (needle.length - j) (indexOfTable needle byte).toNat) (needle.length - 1)

/-- `haystack.indexOf(byte)` -/
def indexOfByte (byte : UInt8) : Int := if byte ∈ haystack then haystack.idxOf byte else -1

/-- `none` would stand for a loop that goes on. -/
def binaryIndexOf (offset : Nat) : Option Int :=
  match needle with
  | [] => some 0
  | [byte] => some (indexOfByte haystack byte)
  | needle =>
    if needle.length > haystack.length - offset then some (-1)
    else
      binaryIndexOfLoop haystack needle (haystack.length * needle.length + needle.length + 1)
        (offset + needle.length - 1) (offset + needle.length - 1)

def OccursAt (p : Nat) : Prop := ∀ k < needle.length, haystack[p + k]? = needle[k]?

/-- The naive search: the smallest position from the offset on, or -1. -/
def IsFirstIndex (offset : Nat) (result : Int) : Prop :=
  (∃ p : Nat, result = p ∧ offset ≤ p ∧ OccursAt haystack needle p ∧ ∀ q, offset ≤ q → OccursAt haystack needle q → p ≤ q) ∨
  (result = -1 ∧ ∀ q, offset ≤ q → ¬OccursAt haystack needle q)

variable {haystack needle}

variable {offset : Nat}

theorem IsFirstIndex.unique {result result' : Int} (h : IsFirstIndex haystack needle offset result)
    (h' : IsFirstIndex haystack needle offset result') : result = result' := by
  rcases h with ⟨p, rfl, hp, hoccurs, hfirst⟩ | ⟨rfl, hnone⟩
  · rcases h' with ⟨p', rfl, hp', hoccurs', hfirst'⟩ | ⟨rfl, hnone'⟩
    · exact congrArg Int.ofNat (Nat.le_antisymm (hfirst p' hp' hoccurs') (hfirst' p hp hoccurs))
    · exact absurd hoccurs (hnone' p hp)
  · rcases h' with ⟨p', rfl, hp', hoccurs', -⟩ | ⟨rfl, -⟩
    · exact absurd hoccurs' (hnone p' hp')
    · rfl

theorem OccursAt.le_length {p : Nat} (hne : needle ≠ []) (h : OccursAt haystack needle p) :
    p + needle.length ≤ haystack.length := by
  have hpos := length_pos_iff.mpr hne
  have hlast := h (needle.length - 1) (by omega)
  rw [getElem?_eq_getElem (Nat.sub_lt hpos Nat.one_pos)] at hlast
  have hlt := (List.getElem?_eq_some_iff.mp hlast).1
  omega

/-! ## The table -/

variable {byte : UInt8}

theorem storeSkips_le {bound : Nat} : ∀ {bytes : List UInt8} {table : UInt8 → UInt8},
    (table byte).toNat ≤ bound → bytes.length ≤ bound → (storeSkips table bytes byte).toNat ≤ bound := by
  intro bytes
  induction bytes with
  | nil => exact fun htable _ => htable
  | cons b rest ih =>
    intro table htable hle
    rw [length_cons] at hle
    refine ih ?_ (by omega)
    by_cases hb : byte = b
    · rw [hb, Function.update_self, UInt8.toNat_ofNat']
      have := Nat.mod_le rest.length (2 ^ 8)
      omega
    · rw [Function.update_of_ne hb]
      exact htable

theorem storeSkips_occurrence (byte : UInt8) (back : List UInt8) :
    ∀ (front : List UInt8) (table : UInt8 → UInt8), (storeSkips table (front ++ byte :: back) byte).toNat ≤ back.length := by
  intro front
  induction front with
  | nil =>
    intro table
    rw [nil_append, storeSkips]
    apply storeSkips_le _ (Nat.le_refl _)
    rw [Function.update_self, UInt8.toNat_ofNat']
    exact Nat.mod_le _ _
  | cons b front ih => exact fun table => ih _

theorem indexOfTable_le (byte : UInt8) : (indexOfTable needle byte).toNat ≤ needle.length := by
  apply storeSkips_le _ (Nat.le_refl _)
  rw [UInt8.toNat_ofNat']
  exact Nat.mod_le _ _

theorem indexOfTable_occurrence {k : Nat} (h : needle[k]? = some byte) :
    k + (indexOfTable needle byte).toNat < needle.length := by
  obtain ⟨hlt, heq⟩ := List.getElem?_eq_some_iff.mp h
  have hsplit : needle = needle.take k ++ byte :: needle.drop (k + 1) := by
    rw [← heq, ← drop_eq_getElem_cons hlt, take_append_drop]
  have hle := storeSkips_occurrence byte (needle.drop (k + 1)) (needle.take k) fun _ => UInt8.ofNat needle.length
  rw [← hsplit, length_drop] at hle
  unfold indexOfTable
  omega

/-- The bound that the byte at `i` sets for the occurrences that cover it. -/
theorem OccursAt.skip_le {i q : Nat} (h : OccursAt haystack needle q) (hle : q ≤ i) (hlt : i < q + needle.length)
    (hbyte : haystack[i]? = some byte) : i + (indexOfTable needle byte).toNat < q + needle.length := by
  have hk := h (i - q) (by omega)
  rw [Nat.add_sub_cancel' hle, hbyte] at hk
  have := indexOfTable_occurrence hk.symm
  omega

/-! ## The loop -/

/-- The search stands at the window that starts at `i - j`: there is no occurrence in front of it, and what is behind `j`
matches. -/
structure Searching (haystack needle : List UInt8) (offset i j : Nat) : Prop where
  le : j ≤ i
  lt : j < needle.length
  start : offset ≤ i - j
  before : ∀ q, offset ≤ q → OccursAt haystack needle q → i - j ≤ q
  behind : ∀ k, j < k → k < needle.length → haystack[i - j + k]? = needle[k]?

theorem Searching.skip {offset i p skip : Nat} (hpos : 0 < needle.length) (hp : offset ≤ p) (hle : p ≤ i)
    (hlt : i < p + needle.length) (hbyte : haystack[i]? = some byte)
    (hbefore : ∀ q, offset ≤ q → OccursAt haystack needle q → p ≤ q) (hnext : p + needle.length ≤ i + skip + 1)
    (hskip : i + skip + 1 ≤ p + 1 + needle.length ∧ ¬OccursAt haystack needle p ∨ skip ≤ (indexOfTable needle byte).toNat) :
    Searching haystack needle offset (i + skip) (needle.length - 1) := by
  have hwindow : i + skip - (needle.length - 1) = i + skip + 1 - needle.length := by omega
  refine ⟨by omega, by omega, by omega, ?_, fun k hk hk' => by omega⟩
  intro q hq hoccurs
  have hpq := hbefore q hq hoccurs
  rw [hwindow]
  by_cases hcover : q ≤ i
  · rcases hskip with ⟨hone, hnot⟩ | hskip
    · have hne : q ≠ p := fun heq => hnot (heq ▸ hoccurs)
      omega
    · have := hoccurs.skip_le hcover (by omega) hbyte
      omega
  · have : (indexOfTable needle byte).toNat ≤ needle.length := indexOfTable_le byte
    omega

theorem binaryIndexOfLoop_first : ∀ {fuel i j : Nat}, Searching haystack needle offset i j →
    (haystack.length - (i - j)) * needle.length + j < fuel →
    ∃ result, binaryIndexOfLoop haystack needle fuel i j = some result ∧ IsFirstIndex haystack needle offset result := by
  intro fuel
  induction fuel with
  | zero => exact fun _ hfuel => absurd hfuel (Nat.not_lt_zero _)
  | succ fuel ih =>
    intro i j h hfuel
    obtain ⟨hle, hlt, hstart, hbefore, hbehind⟩ := h
    rw [binaryIndexOfLoop]
    cases hbyte : haystack[i]? with
    | none =>
      refine ⟨-1, rfl, .inr ⟨rfl, fun q hq hoccurs => ?_⟩⟩
      have hend := hoccurs.le_length (ne_nil_of_length_pos (by omega))
      have := hbefore q hq hoccurs
      have := getElem?_eq_none_iff.mp hbyte
      omega
    | some byte =>
      dsimp only
      by_cases hmatch : some byte = needle[j]?
      · rw [if_pos hmatch]
        have hat : haystack[i - j + j]? = needle[j]? := by rw [Nat.sub_add_cancel hle, hbyte, hmatch]
        have hbehind' : ∀ k, j ≤ k → k < needle.length → haystack[i - j + k]? = needle[k]? := by
          intro k hk hk'
          rcases Nat.lt_or_eq_of_le hk with hlt | rfl
          · exact hbehind k hlt hk'
          · exact hat
        by_cases hzero : j = 0
        · subst hzero
          rw [if_pos rfl]
          exact ⟨i, rfl, .inl ⟨i, rfl, hstart, fun k hk => hbehind' k (Nat.zero_le k) hk, hbefore⟩⟩
        · rw [if_neg hzero]
          have hsame : i - 1 - (j - 1) = i - j := by omega
          refine ih ⟨by omega, by omega, by omega, ?_, ?_⟩ (by rw [hsame]; omega)
          · rw [hsame]
            exact hbefore
          · rw [hsame]
            exact fun k hk hk' => hbehind' k (by omega) hk'
      · rw [if_neg hmatch]
        have hnot : ¬OccursAt haystack needle (i - j) := by
          intro hoccurs
          have hat := hoccurs j hlt
          rw [Nat.sub_add_cancel hle, hbyte] at hat
          exact hmatch hat
        have hend : i < haystack.length := (List.getElem?_eq_some_iff.mp hbyte).1
        refine ih (Searching.skip (p := i - j) (by omega) hstart (by omega) (by omega) hbyte hbefore (by omega) ?_) ?_
        · rcases Nat.le_total (indexOfTable needle byte).toNat (needle.length - j) with hless | hmore
          · exact .inl ⟨by omega, hnot⟩
          · omega
        · -- the window has moved on by one position at least
          have hmoved := Nat.mul_le_mul_right needle.length
            (show haystack.length - (i + max (needle.length - j) (indexOfTable needle byte).toNat - (needle.length - 1)) + 1 ≤
              haystack.length - (i - j) by omega)
          rw [Nat.succ_mul] at hmoved
          omega

theorem binaryIndexOf_long (h : 2 ≤ needle.length) (offset : Nat) :
    ∃ result, binaryIndexOf haystack needle offset = some result ∧ IsFirstIndex haystack needle offset result := by
  match needle, h with
  | a :: b :: rest, h =>
    generalize hneedle : a :: b :: rest = needle at h ⊢
    have hunfold : binaryIndexOf haystack needle offset = if needle.length > haystack.length - offset then some (-1) else
        binaryIndexOfLoop haystack needle (haystack.length * needle.length + needle.length + 1)
          (offset + needle.length - 1) (offset + needle.length - 1) := by rw [← hneedle]; rfl
    rw [hunfold]
    by_cases hlong : needle.length > haystack.length - offset
    · rw [if_pos hlong]
      refine ⟨-1, rfl, .inr ⟨rfl, fun q hq hoccurs => ?_⟩⟩
      have := hoccurs.le_length (ne_nil_of_length_pos (by omega))
      omega
    · rw [if_neg hlong]
      by_cases hzero : offset = 0
      · subst hzero
        refine binaryIndexOfLoop_first ⟨Nat.le_refl _, by omega, by omega, fun q _ _ => by omega, fun k hk hk' => by omega⟩ ?_
        rw [Nat.sub_self, Nat.sub_zero]
        omega
      · -- the first comparison reads behind the needle
        have hlt : offset + needle.length - 1 < haystack.length := by omega
        have hbyte := List.getElem?_eq_getElem hlt
        rw [binaryIndexOfLoop, hbyte]
        dsimp only
        rw [getElem?_eq_none (by omega : needle.length ≤ offset + needle.length - 1), if_neg (Option.some_ne_none _),
          Nat.sub_eq_zero_of_le (by omega : needle.length ≤ offset + needle.length - 1), Nat.zero_max]
        refine binaryIndexOfLoop_first (Searching.skip (p := offset) (by omega) (Nat.le_refl _) (by omega) (by omega) hbyte
          (fun q hq _ => hq) (by omega) (.inr (Nat.le_refl _))) ?_
        have := Nat.mul_le_mul_right needle.length (Nat.sub_le haystack.length
          (offset + needle.length - 1 + (indexOfTable needle (haystack[offset + needle.length - 1])).toNat - (needle.length - 1)))
        omega

/-! ## The shortcuts -/

theorem isFirstIndex_nil (offset : Nat) : IsFirstIndex haystack [] offset offset :=
  .inl ⟨offset, rfl, Nat.le_refl _, fun _ hk => absurd hk (Nat.not_lt_zero _), fun _ hq _ => hq⟩

theorem occursAt_byte {p : Nat} : OccursAt haystack [byte] p ↔ haystack[p]? = some byte := by
  constructor
  · exact fun h => h 0 Nat.one_pos
  · intro h k hk
    obtain rfl : k = 0 := Nat.lt_one_iff.mp hk
    exact h

theorem indexOfByte_first_iff :
    IsFirstIndex haystack [byte] offset (indexOfByte haystack byte) ↔ byte ∉ haystack.take offset := by
  unfold indexOfByte
  by_cases hmem : byte ∈ haystack
  · have hat : haystack[haystack.idxOf byte]? = some byte := getElem?_idxOf hmem
    rw [if_pos hmem, mem_take_iff_idxOf_lt hmem, Nat.not_lt]
    constructor
    · rintro (⟨p, hp, hle, -⟩ | ⟨heq, -⟩)
      · omega
      · omega
    · intro hle
      refine .inl ⟨_, rfl, hle, occursAt_byte.mpr hat, fun q _ hoccurs => ?_⟩
      rw [occursAt_byte] at hoccurs
      obtain ⟨hlt, heq⟩ := List.getElem?_eq_some_iff.mp hoccurs
      refine Nat.le_of_not_lt fun hfront => ?_
      have hin : byte ∈ haystack.take (q + 1) := mem_of_getElem? (i := q) (by rw [getElem?_take_of_lt (by omega), hoccurs])
      have := (mem_take_iff_idxOf_lt hmem).mp hin
      omega
  · rw [if_neg hmem]
    have hnone : byte ∉ haystack.take offset := fun hin => hmem (mem_of_mem_take hin)
    refine iff_of_true (.inr ⟨rfl, fun q _ hoccurs => hmem ?_⟩) hnone
    exact mem_of_getElem? (occursAt_byte.mp hoccurs)

/-- The search finds the first occurrence from the offset on, except for a single byte that also stands in front of the offset,
and for no byte at an offset. -/
theorem binaryIndexOf_first_iff (haystack needle : List UInt8) (offset : Nat) :
    (∃ result, binaryIndexOf haystack needle offset = some result ∧ IsFirstIndex haystack needle offset result) ↔
      2 ≤ needle.length ∨ (needle = [] ∧ offset = 0) ∨ ∃ byte, needle = [byte] ∧ byte ∉ haystack.take offset := by
  match needle with
  | [] =>
    constructor
    · rintro ⟨result, hresult, hfirst⟩
      obtain rfl := Option.some.inj hresult
      have := hfirst.unique (isFirstIndex_nil offset)
      exact .inr (.inl ⟨rfl, by omega⟩)
    · rintro (h | ⟨-, rfl⟩ | ⟨byte, h, -⟩)
      · exact absurd h (by simp)
      · exact ⟨0, rfl, isFirstIndex_nil 0⟩
      · cases h
  | [byte] =>
    constructor
    · rintro ⟨result, hresult, hfirst⟩
      obtain rfl := Option.some.inj hresult
      exact .inr (.inr ⟨byte, rfl, indexOfByte_first_iff.mp hfirst⟩)
    · rintro (h | ⟨h, -⟩ | ⟨byte', h, hnot⟩)
      · exact absurd h (by simp)
      · cases h
      · cases h
        exact ⟨_, rfl, indexOfByte_first_iff.mpr hnot⟩
  | a :: b :: rest =>
    exact iff_of_true (binaryIndexOf_long (by simp) offset) (.inl (by simp))

/-- The byte at the offset 2 is looked for from the offset 1 on. -/
theorem binaryIndexOf_before_offset :
    binaryIndexOf [1, 0, 1] [1] 1 = some 0 ∧ ¬IsFirstIndex [1, 0, 1] [1] 1 0 := by
  refine ⟨by decide, ?_⟩
  rintro (⟨p, hp, hle, -⟩ | ⟨heq, -⟩)
  · omega
  · cases heq

end TongjiCode
