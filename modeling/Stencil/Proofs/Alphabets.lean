import Stencil.Text.Name
import Stencil.Text.White

/-! # The characters of names

What is read as a name depends on the characters of identifiers, and little of them counts: the marks that
stand between names, and white space, are none of them. A name at the front of a text is the longest there is.
-/
namespace Stencil.Text

/-! ## Alphabets -/

/-- The characters of ASCII that stand in no name. -/
def isMark (c : Char) : Bool :=
  decide (c.toNat < 128) && !c.isAlphanum && c != '_' && c != '-'

/-- What may begin an identifier may also go on with one, and so may the low line; marks and white space
may not. -/
class Alphabet.Lawful [Alphabet] : Prop where
  continues_of_begins : ∀ c, Alphabet.begins c = true → Alphabet.continues c = true
  continues_lowLine : Alphabet.continues '_' = true
  not_continues_of_isMark : ∀ c, isMark c = true → Alphabet.continues c = false
  not_continues_of_isWhite : ∀ c, isWhite c = true → Alphabet.continues c = false

/-- The characters that are white space. -/
def whiteCodes : List Nat := whiteRanges.flatMap fun r => List.range' r.1 (r.2 + 1 - r.1)

theorem exists_of_inRanges {ranges : List (Nat × Nat)} {n : Nat} (h : inRanges ranges n = true) :
    ∃ r ∈ ranges, r.1 ≤ n ∧ n ≤ r.2 := by
  induction ranges with
  | nil => cases h
  | cons r ranges ih =>
    rw [inRanges] at h
    split at h
    · cases h
    · split at h
      · exact ⟨r, List.mem_cons_self, by omega, by omega⟩
      · obtain ⟨r', hr', hn⟩ := ih h
        exact ⟨r', List.mem_cons_of_mem _ hr', hn⟩

/-- What holds of the characters of these codes, one by one, holds of each of them. -/
theorem of_mem_codes {P : Char → Prop} {codes : List Nat} (h : ∀ n ∈ codes, P (Char.ofNat n)) {c : Char}
    (hc : c.toNat ∈ codes) : P c := by
  have hp := h _ hc
  rwa [Char.ofNat_toNat] at hp

theorem mem_whiteCodes {c : Char} (h : isWhite c = true) : c.toNat ∈ whiteCodes := by
  obtain ⟨r, hr, hlo, hhi⟩ := exists_of_inRanges h
  exact List.mem_flatMap.2 ⟨r, hr, by simp only [List.mem_range'_1]; omega⟩

instance unicode_lawful : Alphabet.Lawful where
  continues_of_begins _ h := isIdentifierContinue_of_start h
  continues_lowLine := by decide
  not_continues_of_isMark c h := by
    have hlt : c.toNat < 128 := by
      simp only [isMark, Bool.and_eq_true, decide_eq_true_eq] at h
      exact h.1.1.1
    have hall : ∀ n ∈ List.range 128, isMark (Char.ofNat n) = true →
        isIdentifierContinue (Char.ofNat n) = false := by decide +kernel
    exact of_mem_codes (P := fun c => isMark c = true → isIdentifierContinue c = false) hall
      (List.mem_range.2 hlt) h
  not_continues_of_isWhite c h := by
    have hall : ∀ n ∈ whiteCodes, isIdentifierContinue (Char.ofNat n) = false := by decide +kernel
    exact of_mem_codes (P := fun c => isIdentifierContinue c = false) hall (mem_whiteCodes h)

/-! ## Names at the front of a text -/

section

variable [Alphabet] {cs name rest front : List Char} {c : Char}

theorem leadingName_eq_nil_iff :
    leadingName cs = [] ↔ ∀ c ∈ cs.head?, beginsName c = false := by
  cases cs with
  | nil => simp [leadingName]
  | cons c cs => cases hc : beginsName c <;> simp [leadingName, hc]

theorem leadingName_ne_nil (hc : beginsName c = true) (cs : List Char) :
    leadingName (c :: cs) ≠ [] := by
  simp [leadingName, hc]

theorem isName_leadingName (h : leadingName cs ≠ []) : isName (leadingName cs) = true := by
  cases cs with
  | nil => exact absurd rfl h
  | cons c cs =>
    cases hc : beginsName c with
    | false => simp [leadingName, hc] at h
    | true =>
      rw [leadingName, if_pos hc, isName, hc, Bool.true_and]
      exact List.all_takeWhile

theorem isName_leadingName_cons (hc : beginsName c = true) :
    isName (leadingName (c :: cs)) = true :=
  isName_leadingName (leadingName_ne_nil hc cs)

/-- The name at the front does not go on behind its end. -/
theorem not_continuesName_afterName (h : leadingName cs ≠ []) :
    ∀ c ∈ (afterName cs).head?, continuesName c = false := by
  intro d hd
  cases cs with
  | nil => exact absurd rfl h
  | cons c cs =>
    cases hc : beginsName c with
    | false => simp [leadingName, hc] at h
    | true =>
      rw [afterName, if_pos hc] at hd
      have hnot := List.head?_dropWhile_not continuesName cs
      rw [Option.mem_def.1 hd] at hnot
      exact hnot

theorem leadingName_append (hname : isName name = true)
    (hrest : ∀ c ∈ rest.head?, continuesName c = false) : leadingName (name ++ rest) = name := by
  cases name with
  | nil => cases hname
  | cons c name =>
    obtain ⟨hc, hcs⟩ := (Bool.and_eq_true _ _).mp hname
    rw [List.cons_append, leadingName, if_pos hc,
      List.takeWhile_append_of_pos (List.all_eq_true.1 hcs)]
    cases rest with
    | nil => simp
    | cons d rest => simp [hrest d (by simp)]

theorem afterName_append (hname : isName name = true)
    (hrest : ∀ c ∈ rest.head?, continuesName c = false) : afterName (name ++ rest) = rest := by
  have hcut := leadingName_append_afterName (name ++ rest)
  rw [leadingName_append hname hrest] at hcut
  exact List.append_cancel_left hcut

/-- No name at the front is longer. -/
theorem isPrefix_leadingName (hfront : isName front = true) (hle : front <+: cs) :
    front <+: leadingName cs := by
  cases front with
  | nil => cases hfront
  | cons c front =>
    obtain ⟨rest, rfl⟩ := hle
    obtain ⟨hc, hcs⟩ := (Bool.and_eq_true _ _).mp hfront
    rw [List.cons_append, leadingName, if_pos hc,
      List.takeWhile_append_of_pos (List.all_eq_true.1 hcs)]
    exact List.prefix_append (c :: front) _

theorem leadingName_ne_nil_iff :
    leadingName cs ≠ [] ↔ ∃ front, front ≠ [] ∧ front <+: cs ∧ isName front = true := by
  constructor
  · intro h
    refine ⟨leadingName cs, h, ⟨afterName cs, leadingName_append_afterName cs⟩, isName_leadingName h⟩
  · rintro ⟨front, hne, hle, hfront⟩ hnil
    exact hne (List.prefix_nil.1 (hnil ▸ isPrefix_leadingName hfront hle))

/-- A text is a name if nothing is left behind the name at its front. -/
theorem isName_iff_afterName : isName cs = true ↔ cs ≠ [] ∧ afterName cs = [] := by
  have hcut := leadingName_append_afterName cs
  constructor
  · intro h
    have hafter : afterName (cs ++ []) = [] := afterName_append h (by simp)
    rw [List.append_nil] at hafter
    refine ⟨?_, hafter⟩
    rintro rfl
    cases h
  · rintro ⟨hne, hafter⟩
    rw [hafter, List.append_nil] at hcut
    rw [← hcut] at hne
    have hname := isName_leadingName hne
    rwa [hcut] at hname

end

/-! ## Characters that stand in no name -/

section

variable [Alphabet] [Alphabet.Lawful] {cs : List Char} {c mark : Char}

theorem continuesName_of_beginsName (h : beginsName c = true) : continuesName c = true := by
  rw [continuesName, Bool.or_eq_true]
  rcases (Bool.or_eq_true _ _).mp h with h | h
  · rw [eq_of_beq h]
    exact .inr Alphabet.Lawful.continues_lowLine
  · exact .inr (Alphabet.Lawful.continues_of_begins c h)

theorem continuesName_of_isName (h : isName cs = true) (hc : c ∈ cs) : continuesName c = true := by
  cases cs with
  | nil => simp at hc
  | cons d cs =>
    obtain ⟨hd, hcs⟩ := (Bool.and_eq_true _ _).mp h
    rcases List.mem_cons.1 hc with rfl | hc
    · exact continuesName_of_beginsName hd
    · exact List.all_eq_true.1 hcs c hc

/-- A character that no name goes on with stands in no name. -/
theorem not_mem_of_isName (h : isName cs = true) (hc : continuesName c = false) : c ∉ cs := by
  intro hmem
  rw [continuesName_of_isName h hmem] at hc
  cases hc

theorem not_continuesName_of_isMark (h : isMark c = true) : continuesName c = false := by
  rw [continuesName, Alphabet.Lawful.not_continues_of_isMark c h, Bool.or_false, beq_eq_false_iff_ne]
  rintro rfl
  revert h
  decide

theorem not_mem_of_isMark (h : isName cs = true) (hmark : isMark mark = true) : mark ∉ cs :=
  not_mem_of_isName h (not_continuesName_of_isMark hmark)

/-- No mark begins a name. -/
theorem ne_of_isMark (hc : beginsName c = true) (hmark : isMark mark = true) : c ≠ mark := by
  rintro rfl
  have hnot := not_continuesName_of_isMark hmark
  rw [continuesName_of_beginsName hc] at hnot
  cases hnot

theorem not_continuesName_of_isWhite (h : isWhite c = true) : continuesName c = false := by
  rw [continuesName, Alphabet.Lawful.not_continues_of_isWhite c h, Bool.or_false, beq_eq_false_iff_ne]
  rintro rfl
  revert h
  decide

theorem not_isWhite_of_continuesName (h : continuesName c = true) : isWhite c = false := by
  cases hw : isWhite c with
  | false => rfl
  | true => rw [not_continuesName_of_isWhite hw] at h; cases h

end
end Stencil.Text
