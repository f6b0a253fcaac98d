import Mathlib.Data.List.DropRight
import Stencil.Proofs.Spelling

/-! # Words between commas

A text is trimmed, cut at its commas, and each piece is read word by word. So what counts of it are its
phrases, the words of each piece, and white space around the text belongs to none of them.
-/
namespace Stencil.Text

variable {cs w : List Char} {c : Char}

/-! ## Trimming -/

theorem trimEnd_concat_of_white (hc : isWhite c = true) (cs : List Char) :
    trimEnd (cs ++ [c]) = trimEnd cs := List.rdropWhile_concat_pos isWhite cs c hc

theorem trimEnd_concat_of_not_white (hc : isWhite c = false) (cs : List Char) :
    trimEnd (cs ++ [c]) = cs ++ [c] := List.rdropWhile_concat_neg isWhite cs c (by simp [hc])

theorem trimStart_concat (hc : isWhite c = false) (cs : List Char) :
    trimStart (cs ++ [c]) = trimStart cs ++ [c] := by
  rw [trimStart, trimStart, List.dropWhile_append]
  split
  · rename_i hnil
    rw [List.isEmpty_iff.1 hnil]
    simp [hc]
  · rfl

theorem trim_concat (hc : isWhite c = false) (cs : List Char) :
    trim (cs ++ [c]) = trimStart cs ++ [c] := by
  rw [trim, trimStart_concat hc, trimEnd_concat_of_not_white hc]

theorem mem_of_mem_trim (h : c ∈ trim cs) : c ∈ cs :=
  (List.dropWhile_suffix isWhite).subset ((List.rdropWhile_prefix isWhite (trimStart cs)).subset h)

/-- Trimming takes only white space away. -/
theorem mem_trim (hc : c ∈ cs) (hwhite : isWhite c = false) : c ∈ trim cs := by
  have hdrop {ds : List Char} (hd : c ∈ ds) : c ∈ ds.dropWhile isWhite := by
    rw [← List.takeWhile_append_dropWhile (p := isWhite) (l := ds)] at hd
    refine (List.mem_append.1 hd).resolve_left fun htake => ?_
    rw [List.all_eq_true.1 List.all_takeWhile c htake] at hwhite
    cases hwhite
  rw [trim, trimEnd, dropEndWhile, List.mem_reverse]
  exact hdrop (List.mem_reverse.2 (hdrop hc))

/-- A character that is neither white space nor part of a name stands in nothing that trims to one. -/
theorem not_mem_of_isName_trim [Alphabet] [Alphabet.Lawful] (h : isName (trim cs) = true)
    (hname : continuesName c = false) (hwhite : isWhite c = false) : c ∉ cs :=
  fun hc => not_mem_of_isName h hname (mem_trim hc hwhite)

/-- Behind a word white space is trimmed off up to the word. -/
theorem trimEnd_append (hw : IsWord w) (rest : List Char) :
    trimEnd (w ++ rest) = w ++ trimEnd rest := by
  induction rest using List.reverseRecOn with
  | nil =>
    obtain ⟨front, c, rfl⟩ := (List.eq_nil_or_concat' w).resolve_left hw.1
    rw [List.append_nil, trimEnd_concat_of_not_white (hw.2 c (by simp))]
    exact (List.append_nil _).symm
  | append_singleton rest c ih =>
    rw [← List.append_assoc]
    cases hc : isWhite c with
    | true => rw [trimEnd_concat_of_white hc, trimEnd_concat_of_white hc, ih]
    | false => rw [trimEnd_concat_of_not_white hc, trimEnd_concat_of_not_white hc, List.append_assoc]

/-- It does not matter which end is trimmed first. -/
theorem trimStart_trimEnd (cs : List Char) : trimStart (trimEnd cs) = trimEnd (trimStart cs) := by
  induction cs using List.reverseRecOn with
  | nil => rfl
  | append_singleton cs c ih =>
    cases hc : isWhite c with
    | true =>
      have hstart : trimEnd (trimStart (cs ++ [c])) = trimEnd (trimStart cs) := by
        rw [trimStart, List.dropWhile_append]
        split
        · rename_i hnil
          rw [trimStart, List.isEmpty_iff.1 hnil, List.dropWhile_cons_of_pos hc]
          rfl
        · exact trimEnd_concat_of_white hc _
      rw [trimEnd_concat_of_white hc, ih, hstart]
    | false =>
      rw [trimEnd_concat_of_not_white hc, trimStart_concat hc, trimEnd_concat_of_not_white hc]

theorem trim_trimEnd (cs : List Char) : trim (trimEnd cs) = trim cs := by
  rw [trim, trimStart_trimEnd]
  exact List.rdropWhile_idempotent isWhite _

theorem trim_trim (cs : List Char) : trim (trim cs) = trim cs := by
  have hstart : trimStart (trimStart cs) = trimStart cs := List.dropWhile_idempotent isWhite cs
  rw [show trim (trim cs) = trim (trimEnd (trimStart cs)) from rfl, trim_trimEnd, trim, hstart, trim]

/-- What white space at both ends does not change, trimming does not change. -/
theorem apply_trimStart {α : Type} {f : List Char → α}
    (hstart : ∀ {c cs}, isWhite c = true → f (c :: cs) = f cs) (cs : List Char) :
    f (trimStart cs) = f cs := by
  induction cs with
  | nil => rfl
  | cons c cs ih =>
    by_cases hc : isWhite c = true
    · rw [hstart hc, ← ih, trimStart, List.dropWhile_cons_of_pos hc, trimStart]
    · rw [trimStart, List.dropWhile_cons_of_neg hc]

theorem apply_trimEnd {α : Type} {f : List Char → α}
    (hend : ∀ {c cs}, isWhite c = true → f (cs ++ [c]) = f cs) (cs : List Char) :
    f (trimEnd cs) = f cs := by
  induction cs using List.reverseRecOn with
  | nil => rfl
  | append_singleton cs c ih =>
    cases hc : isWhite c with
    | true => rw [hend hc, ← ih, trimEnd_concat_of_white hc]
    | false => rw [trimEnd_concat_of_not_white hc]

/-! ## Words and phrases -/

theorem words_concat_white (hc : isWhite c = true) (cs : List Char) :
    words (cs ++ [c]) = words cs := by
  induction cs with
  | nil => simp [words, hc]
  | cons d cs ih =>
    have hnext : (cs ++ [c]).head?.all isWhite = cs.head?.all isWhite := by
      cases cs <;> simp [hc]
    rw [List.cons_append, words, words, ih, hnext]

theorem words_trim (cs : List Char) : words (trim cs) = words cs := by
  have hstart {c : Char} {cs : List Char} (hc : isWhite c = true) : words (c :: cs) = words cs := by
    rw [words, if_pos hc]
  rw [trim, apply_trimEnd (fun hc => words_concat_white hc _), apply_trimStart hstart]

/-- The words of each piece between commas. -/
def phrases (cs : List Char) : List (List (List Char)) := (splitAt ',' cs).map words

theorem splitAt_eq_singleton {sep : Char} (h : sep ∉ cs) : splitAt sep cs = [cs] := by
  induction cs with
  | nil => rfl
  | cons c cs ih =>
    rw [List.mem_cons, not_or] at h
    rw [splitAt, if_neg (Ne.symm h.1), ih h.2]
    rfl

theorem splitAt_append {sep : Char} (h : sep ∉ cs) (rest : List Char) :
    splitAt sep (cs ++ sep :: rest) = cs :: splitAt sep rest := by
  induction cs with
  | nil => rw [List.nil_append, splitAt, if_pos rfl]
  | cons c cs ih =>
    rw [List.mem_cons, not_or] at h
    rw [List.cons_append, splitAt, if_neg (Ne.symm h.1), ih h.2]
    rfl

/-- A character behind a text that does not cut it goes to the last piece. -/
theorem splitAt_concat {sep : Char} (hc : c ≠ sep) (cs : List Char) :
    ∃ front last, splitAt sep cs = front ++ [last] ∧
      splitAt sep (cs ++ [c]) = front ++ [last ++ [c]] := by
  induction cs with
  | nil => exact ⟨[], [], rfl, by simp [splitAt, hc, joinWord]⟩
  | cons d cs ih =>
    obtain ⟨front, last, hcs, hconcat⟩ := ih
    rw [List.cons_append, splitAt, splitAt, hcs, hconcat]
    by_cases hd : d = sep
    · exact ⟨[] :: front, last, by simp [hd], by simp [hd]⟩
    · rw [if_neg hd, if_neg hd]
      cases front with
      | nil => exact ⟨[], d :: last, rfl, rfl⟩
      | cons piece front => exact ⟨(d :: piece) :: front, last, rfl, rfl⟩

theorem phrases_of_not_mem (h : ',' ∉ cs) : phrases cs = [words cs] := by
  rw [phrases, splitAt_eq_singleton h, List.map_singleton]

theorem phrases_append (h : ',' ∉ cs) (rest : List Char) :
    phrases (cs ++ ',' :: rest) = words cs :: phrases rest := by
  rw [phrases, splitAt_append h, List.map_cons, phrases]

theorem ne_comma_of_white (hc : isWhite c = true) : c ≠ ',' := by
  rintro rfl
  revert hc
  decide

theorem phrases_cons_white (hc : isWhite c = true) (cs : List Char) :
    phrases (c :: cs) = phrases cs := by
  obtain ⟨piece, pieces, hpieces⟩ := List.exists_cons_of_ne_nil (splitAt_ne_nil ',' cs)
  rw [phrases, phrases, splitAt, if_neg (ne_comma_of_white hc), hpieces, joinWord, List.map_cons,
    List.map_cons, words, if_pos hc]

theorem phrases_concat_white (hc : isWhite c = true) (cs : List Char) :
    phrases (cs ++ [c]) = phrases cs := by
  obtain ⟨front, last, hcs, hconcat⟩ := splitAt_concat (ne_comma_of_white hc) cs
  rw [phrases, phrases, hcs, hconcat, List.map_append, List.map_append, List.map_singleton,
    List.map_singleton, words_concat_white hc]

theorem phrases_trimStart (cs : List Char) : phrases (trimStart cs) = phrases cs :=
  apply_trimStart (fun hc => phrases_cons_white hc _) cs

theorem phrases_trimEnd (cs : List Char) : phrases (trimEnd cs) = phrases cs :=
  apply_trimEnd (fun hc => phrases_concat_white hc _) cs

theorem phrases_trim (cs : List Char) : phrases (trim cs) = phrases cs := by
  rw [trim, phrases_trimEnd, phrases_trimStart]

theorem not_mem_intercalate {sep : List Char} {texts : List (List Char)} (hsep : c ∉ sep)
    (h : ∀ cs ∈ texts, c ∉ cs) : c ∉ sep.intercalate texts := by
  induction texts with
  | nil => simp
  | cons cs texts ih =>
    have hcs : c ∉ cs := h cs List.mem_cons_self
    cases texts with
    | nil => rwa [List.intercalate_singleton]
    | cons ds texts =>
      rw [List.intercalate_cons_cons, List.mem_append, List.mem_append]
      rintro ((hmem | hmem) | hmem)
      · exact hcs hmem
      · exact hsep hmem
      · exact ih (fun es hes => h es (List.mem_cons_of_mem cs hes)) hmem

/-- Texts without commas, joined by commas with a space behind each, are the phrases again. -/
theorem phrases_intercalate {texts : List (List Char)} (hne : texts ≠ [])
    (h : ∀ cs ∈ texts, ',' ∉ cs) : phrases ([',', ' '].intercalate texts) = texts.map words := by
  induction texts with
  | nil => contradiction
  | cons cs texts ih =>
    have hcs : ',' ∉ cs := h cs List.mem_cons_self
    cases texts with
    | nil => rw [List.intercalate_singleton, phrases_of_not_mem hcs, List.map_singleton]
    | cons ds texts =>
      have hspace : isWhite ' ' = true := by decide
      rw [List.intercalate_cons_cons, List.append_assoc, List.cons_append, phrases_append hcs,
        List.singleton_append, phrases_cons_white hspace,
        ih (by simp) fun es hes => h es (List.mem_cons_of_mem cs hes)]
      rfl

end Stencil.Text
