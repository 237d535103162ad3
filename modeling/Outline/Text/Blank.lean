/-!
# White space

The characters with the Unicode property `White_Space`. They are skipped around configured values
and inside loosely written times.

Main results:

* `exists_eq_trim` — trimming takes off blanks on both sides;
* `trim_append` — and all of them, up to a character that is none.
-/

namespace Outline.Text

/-- The ranges of the property, ends included. -/
def blankRanges : List (Nat × Nat) :=
  [(0x09, 0x0D), (0x20, 0x20), (0x85, 0x85), (0xA0, 0xA0), (0x1680, 0x1680), (0x2000, 0x200A),
    (0x2028, 0x2029), (0x202F, 0x202F), (0x205F, 0x205F), (0x3000, 0x3000)]

def isBlank (c : Char) : Bool :=
  blankRanges.any fun r => r.1 ≤ c.toNat && c.toNat ≤ r.2

def trimStart (cs : List Char) : List Char :=
  cs.dropWhile isBlank

def trim (cs : List Char) : List Char :=
  (trimStart (trimStart cs).reverse).reverse

theorem isBlank_of_isDigit {c : Char} (h : c.isDigit = true) : isBlank c = false := by
  simp only [Char.isDigit, Bool.and_eq_true, decide_eq_true_eq, ge_iff_le] at h
  have hlow : 48 ≤ c.toNat := by simpa [UInt32.le_iff_toNat_le] using h.1
  have hhigh : c.toNat ≤ 57 := by simpa [UInt32.le_iff_toNat_le] using h.2
  -- the digits lie between two ranges of blanks
  simp only [isBlank, blankRanges, List.any_cons, List.any_nil, Bool.or_false,
    Bool.or_eq_false_iff, Bool.and_eq_false_iff, decide_eq_false_iff_not]
  omega

/-! ## Trimming -/

theorem trimStart_cons {c : Char} {rest : List Char} (h : isBlank c = false) :
    trimStart (c :: rest) = c :: rest := by
  simp [trimStart, h]

theorem exists_eq_trimStart (cs : List Char) :
    ∃ before, cs = before ++ trimStart cs ∧ ∀ c ∈ before, isBlank c = true :=
  ⟨cs.takeWhile isBlank, List.takeWhile_append_dropWhile.symm,
    fun _ => List.all_eq_true.1 List.all_takeWhile _⟩

theorem trimStart_append {before rest : List Char} (hbefore : ∀ c ∈ before, isBlank c = true)
    (hrest : ∀ c ∈ rest.head?, isBlank c = false) : trimStart (before ++ rest) = rest := by
  rw [trimStart, List.dropWhile_append_of_pos hbefore]
  cases rest with
  | nil => rfl
  | cons c rest => exact trimStart_cons (hrest c rfl)

/-- Only blanks are taken off. -/
theorem exists_eq_trim (cs : List Char) :
    ∃ before after, cs = before ++ (trim cs ++ after) ∧
      (∀ c ∈ before, isBlank c = true) ∧ ∀ c ∈ after, isBlank c = true := by
  obtain ⟨before, hcs, hbefore⟩ := exists_eq_trimStart cs
  obtain ⟨after, hrev, hafter⟩ := exists_eq_trimStart (trimStart cs).reverse
  have hkept : trimStart cs = trim cs ++ after.reverse := by
    rw [trim, ← List.reverse_append, ← hrev, List.reverse_reverse]
  refine ⟨before, after.reverse, ?_, hbefore, fun c hc => hafter c (List.mem_reverse.1 hc)⟩
  rw [← hkept]
  exact hcs

/-- All blanks are taken off around a text that has none. -/
theorem trim_append {before text after : List Char} (hbefore : ∀ c ∈ before, isBlank c = true)
    (hafter : ∀ c ∈ after, isBlank c = true) (hne : text ≠ [])
    (htext : ∀ c ∈ text, isBlank c = false) : trim (before ++ (text ++ after)) = text := by
  have hstart : trimStart (before ++ (text ++ after)) = text ++ after := by
    refine trimStart_append hbefore fun c hc => htext c ?_
    cases text with
    | nil => exact absurd rfl hne
    | cons first rest =>
      cases hc
      exact List.mem_cons_self
  rw [trim, hstart, List.reverse_append,
    trimStart_append (fun c hc => hafter c (List.mem_reverse.1 hc)), List.reverse_reverse]
  exact fun c hc => htext c (List.mem_reverse.1 (List.mem_of_mem_head? hc))

end Outline.Text
