import Stencil.Content.Reference
import Stencil.Proofs.Phrases

/-! # References inside of references

A text is read from left to right, and where a reference has been read the scan goes on behind it. So a
reference is found wherever it stands, unless a reference that gives a value begins before it and has
not been closed: its value goes on up to the same parenthesis.
-/
namespace Stencil

namespace Text

variable {sep c : Char} {cs before after name rest : List Char}

theorem cutAt_append (h : sep ∉ before) (after : List Char) :
    cutAt sep (before ++ sep :: after) = some (before, after) := by
  induction before with
  | nil => simp [cutAt]
  | cons c before ih =>
    rw [List.mem_cons, not_or] at h
    rw [List.cons_append, cutAt, if_neg (Ne.symm h.1), ih h.2]
    rfl

theorem cutAt_eq_none_iff : cutAt sep cs = none ↔ sep ∉ cs := by
  induction cs with
  | nil => simp [cutAt]
  | cons c cs ih =>
    rw [cutAt, List.mem_cons, not_or]
    split
    · rename_i hc
      simp [hc]
    · rename_i hc
      rw [Option.map_eq_none_iff, ih]
      exact ⟨fun h => ⟨Ne.symm hc, h⟩, fun h => h.2⟩

/-- What stands before the first separator holds none. -/
theorem not_mem_of_cutAt (h : cutAt sep cs = some (before, after)) : sep ∉ before := by
  induction cs generalizing before with
  | nil => cases h
  | cons c cs ih =>
    rw [cutAt] at h
    split at h
    · cases h
      simp
    · rename_i hc
      obtain ⟨⟨b, a⟩, hb, hab⟩ := Option.map_eq_some_iff.1 h
      cases hab
      rw [List.mem_cons, not_or]
      exact ⟨Ne.symm hc, ih hb⟩

/-- Whether a name is under way behind a text, where `inWord` tells whether one is before it. -/
def endsInWord (inWord : Bool) : List Char → Bool
  | [] => inWord
  | c :: cs => endsInWord (continuesName c) cs

theorem endsInWord_append (inWord : Bool) (cs ds : List Char) :
    endsInWord inWord (cs ++ ds) = endsInWord (endsInWord inWord cs) ds := by
  induction cs generalizing inWord with
  | nil => rfl
  | cons c cs ih => exact ih (continuesName c)

theorem endsInWord_of_getLast? (h : ∀ c ∈ cs.getLast?, continuesName c = false) :
    endsInWord false cs = false := by
  rcases List.eq_nil_or_concat cs with rfl | ⟨front, c, rfl⟩
  · rfl
  · rw [List.concat_eq_append, endsInWord_append]
    exact h c (by simp)

end Text

namespace Reference

open Text

/-- `group(inner)` has the shape of a reference. -/
structure Shaped (group inner : List Char) : Prop where
  group : isName group = true
  closed : ')' ∉ inner
  key : isName (splitInner inner).1 = true

/-- The reference that `group(inner)` is. -/
def ofParts (group inner : List Char) : Reference :=
  ⟨String.ofList group, String.ofList (splitInner inner).1, (splitInner inner).2.map String.ofList⟩

def written (group inner : List Char) : List Char := group ++ '(' :: inner ++ [')']

/-- Behind `front` a reference `outer(key = value` begins that gives a value, and the text breaks off
inside of that value. -/
structure Opens (inWord : Bool) (text front outer key value : List Char) : Prop where
  eq : text = front ++ outer ++ '(' :: key ++ '=' :: value
  word : endsInWord inWord front = false
  outer : isName outer = true
  key : isName (trim key) = true
  closed : ')' ∉ value

/-- The text breaks off inside of the value of a reference. -/
def IsOpen (inWord : Bool) (text : List Char) : Prop :=
  ∃ front outer key value, Opens inWord text front outer key value

theorem not_continuesName_paren : continuesName '(' = false := by decide

theorem splitInner_of_cut {inner key value : List Char} (h : cutAt '=' inner = some (key, value)) :
    splitInner inner = (trim key, some (trim value)) := by
  rw [splitInner, h]

theorem splitInner_of_not_mem {inner : List Char} (h : '=' ∉ inner) :
    splitInner inner = (trim inner, none) := by
  rw [splitInner, cutAt_eq_none_iff.2 h]

/-- A parenthesis before the first equals sign spoils the key. -/
theorem not_isName_key {front back : List Char} (hfront : '=' ∉ front) :
    ¬ isName (splitInner (front ++ '(' :: back)).1 = true := by
  have hspoilt {key : List Char} (hmem : '(' ∈ key) : ¬ isName (trim key) = true :=
    fun h => not_mem_of_isName_trim h not_continuesName_paren (by decide) hmem
  cases hcut : cutAt '=' (front ++ '(' :: back) with
  | none =>
    rw [splitInner, hcut]
    exact hspoilt (by simp)
  | some parts =>
    obtain ⟨key, value⟩ := parts
    rw [splitInner_of_cut hcut]
    refine hspoilt ?_
    have heq := eq_of_cutAt hcut
    rcases List.append_eq_append_iff.1 heq with ⟨more, hkey, hback⟩ | ⟨more, hfront', hback⟩
    · cases more with
      | nil => simp at hback
      | cons c more =>
        obtain ⟨rfl, -⟩ := List.cons.inj hback
        simp [hkey]
    · cases more with
      | nil => simp at hback
      | cons c more =>
        obtain ⟨rfl, -⟩ := List.cons.inj hback
        exact absurd (by simp [hfront']) hfront

theorem readArgument_closed {inner : List Char} (h : ')' ∉ inner) (rest : List Char) :
    readArgument ('(' :: inner ++ ')' :: rest) =
      if isName (splitInner inner).1 then
        some ⟨(splitInner inner).1, (splitInner inner).2, inner, rest⟩
      else none := by
  rw [List.cons_append, readArgument, cutAt_append h _]

theorem readArgument_of_shaped {group inner : List Char} (h : Shaped group inner)
    (rest : List Char) : readArgument ('(' :: inner ++ ')' :: rest) =
      some ⟨(splitInner inner).1, (splitInner inner).2, inner, rest⟩ := by
  rw [readArgument_closed h.closed, if_pos h.key]

/-- What is read as an argument is read so whatever follows it. -/
theorem readArgument_append {cs : List Char} {a : Argument} (h : readArgument cs = some a)
    (rest : List Char) :
    readArgument (cs ++ rest) = some ⟨a.key, a.override, a.inner, a.rest ++ rest⟩ := by
  unfold readArgument at h
  split at h
  · split at h
    · cases h
    · rename_i inner back hcut
      simp only [Option.ite_none_right_eq_some, Option.some.injEq] at h
      obtain ⟨hkey, rfl⟩ := h
      have hclosed := readArgument_closed (not_mem_of_cutAt hcut) (back ++ rest)
      rw [if_pos hkey] at hclosed
      rw [eq_of_cutAt hcut, ← hclosed]
      simp
  · cases h

/-- The text in front of a reference is no argument with the reference either, unless it ends in an
open value. -/
theorem readArgument_append_eq_none {group inner outer cs : List Char} (h : Shaped group inner)
    (hne : cs ≠ []) (hread : readArgument cs = none) (houter : isName outer = true)
    (hopen : ¬ IsOpen false (outer ++ cs)) (after : List Char) :
    readArgument (cs ++ (written group inner ++ after)) = none := by
  obtain ⟨c, ds, rfl⟩ := List.exists_cons_of_ne_nil hne
  by_cases hc : c = '('
  · subst hc
    cases hcut : cutAt ')' ds with
    | some parts =>
      -- The argument is closed before the reference begins, so its key is no name in either case.
      obtain ⟨own, back⟩ := parts
      have hclosed := readArgument_closed (not_mem_of_cutAt hcut)
      have hkey : ¬ isName (splitInner own).1 = true := by
        intro hname
        rw [eq_of_cutAt hcut, ← List.cons_append, hclosed, if_pos hname] at hread
        cases hread
      have hnone := hclosed (back ++ (written group inner ++ after))
      rw [if_neg hkey] at hnone
      rw [← hnone, eq_of_cutAt hcut]
      simp
    | none =>
      have hshut : ')' ∉ ds ++ group ++ '(' :: inner := by
        simp only [List.mem_append, List.mem_cons, not_or]
        exact ⟨⟨cutAt_eq_none_iff.1 hcut, not_mem_of_isName h.group (by decide)⟩, by decide, h.closed⟩
      have hkey : ¬ isName (splitInner (ds ++ group ++ '(' :: inner)).1 = true := by
        cases hequals : cutAt '=' ds with
        | none =>
          apply not_isName_key
          rw [List.mem_append, not_or]
          exact ⟨cutAt_eq_none_iff.1 hequals, not_mem_of_isName h.group (by decide)⟩
        | some parts =>
          obtain ⟨key, value⟩ := parts
          have heq := eq_of_cutAt hequals
          rw [heq, List.append_assoc, List.append_assoc, List.cons_append,
            splitInner_of_cut (cutAt_append (not_mem_of_cutAt hequals) _)]
          refine fun hname => hopen ⟨[], outer, key, value, ?_, rfl, houter, hname, fun hmem => ?_⟩
          · simp [heq]
          · exact cutAt_eq_none_iff.1 hcut (by simp [heq, hmem])
      have hclosed := readArgument_closed hshut after
      rw [if_neg hkey] at hclosed
      rw [← hclosed]
      simp [written]
  · rw [List.cons_append]
    unfold readArgument
    split
    · rename_i heq
      exact absurd (List.cons.inj heq).1 hc
    · rfl

end Reference

namespace ValuePiece

open Text Reference

variable {inWord : Bool} {c : Char} {cs group inner rest : List Char} {a : Argument}

/-! ## The scan, piece by piece -/

theorem scan_within (h : (inWord || !beginsName c) = true) :
    scan inWord (c :: cs) = plain [c] :: scan (continuesName c) cs := by
  rw [scan, dif_pos h]

/-- A name that is not the group of a reference is plain text. -/
theorem scan_unread (hgroup : isName group = true)
    (hrest : ∀ c ∈ rest.head?, continuesName c = false) (ha : readArgument rest = none) :
    scan false (group ++ rest) = plain group :: scan true rest := by
  have hleading := leadingName_append hgroup hrest
  have hafter := afterName_append hgroup hrest
  cases group with
  | nil => cases hgroup
  | cons c cs =>
    have hc : beginsName c = true := ((Bool.and_eq_true _ _).mp hgroup).1
    rw [List.cons_append] at hleading hafter ⊢
    rw [scan, dif_neg (by simp [hc])]
    split
    · simp only [hleading, hafter]
    · rename_i a ha'
      rw [hafter, ha] at ha'
      cases ha'

theorem scan_read (hgroup : isName group = true)
    (hrest : ∀ c ∈ rest.head?, continuesName c = false) (ha : readArgument rest = some a) :
    scan false (group ++ rest) =
      reference ⟨String.ofList group, String.ofList a.key, a.override.map String.ofList⟩
        (written group a.inner) :: scan false a.rest := by
  have hleading := leadingName_append hgroup hrest
  have hafter := afterName_append hgroup hrest
  cases group with
  | nil => cases hgroup
  | cons c cs =>
    have hc : beginsName c = true := ((Bool.and_eq_true _ _).mp hgroup).1
    rw [List.cons_append] at hleading hafter ⊢
    rw [scan, dif_neg (by simp [hc])]
    split
    · rename_i ha'
      rw [hafter, ha] at ha'
      cases ha'
    · rename_i a' ha'
      rw [hafter, ha] at ha'
      obtain rfl := Option.some.inj ha'
      simp only [hleading, written]

/-- A reference at the front of a text is read. -/
theorem scan_written (h : Shaped group inner) (after : List Char) :
    scan false (written group inner ++ after) =
      reference (ofParts group inner) (written group inner) :: scan false after := by
  have heq : written group inner ++ after = group ++ ('(' :: inner ++ ')' :: after) := by
    simp [written]
  rw [heq]
  exact scan_read h.group (by simp [not_continuesName_paren]) (readArgument_of_shaped h after)

/-! ## The scan up to a reference -/

variable {before after : List Char}

/-- What stands behind a name that is under way is open only if all of it is. -/
theorem isOpen_append (cs : List Char) (hword : endsInWord inWord cs = inWord')
    (h : IsOpen inWord' before) : IsOpen inWord (cs ++ before) := by
  obtain ⟨front, outer, key, value, h⟩ := h
  refine ⟨cs ++ front, outer, key, value, ?_, ?_, h.outer, h.key, h.closed⟩
  · rw [h.eq]
    simp
  · rw [endsInWord_append, hword]
    exact h.word

theorem endsInWord_of_isName (hgroup : isName group = true) : endsInWord inWord group = true := by
  have hall : ∀ c ∈ group, continuesName c = true := fun c => continuesName_of_isName hgroup
  cases group with
  | nil => cases hgroup
  | cons c cs =>
    rw [endsInWord, hall c List.mem_cons_self]
    have hcs : ∀ d ∈ cs, continuesName d = true := fun d hd => hall d (List.mem_cons_of_mem _ hd)
    clear hall hgroup
    induction cs with
    | nil => rfl
    | cons d cs ih =>
      rw [endsInWord, hcs d List.mem_cons_self]
      exact ih fun e he => hcs e (List.mem_cons_of_mem _ he)

/-- A text that begins with a name and its argument begins with a reference. -/
theorem eq_written_append {cs : List Char} (h : readArgument (afterName cs) = some a) :
    cs = written (leadingName cs) a.inner ++ a.rest := by
  have hcut := leadingName_append_afterName cs
  rw [eq_of_readArgument h] at hcut
  simpa [written] using hcut.symm

/-- Behind a reference no name is under way. -/
theorem endsInWord_written (inWord : Bool) (before group inner : List Char) :
    endsInWord inWord (before ++ written group inner) = false := by
  rw [written, ← List.append_assoc, endsInWord_append]
  rfl

/-- A text that is not open is scanned as if nothing followed, and then the reference behind it is
read. -/
theorem scan_append_written (h : Shaped group inner) (after : List Char)
    (hword : endsInWord inWord before = false) (hopen : ¬ IsOpen inWord before) :
    scan inWord (before ++ (written group inner ++ after)) =
      scan inWord before ++ reference (ofParts group inner) (written group inner) ::
        scan false after := by
  fun_induction scan inWord before with
  | case1 inWord =>
    obtain rfl : inWord = false := hword
    exact scan_written h after
  | case2 inWord c cs hc ih =>
    rw [List.cons_append, scan_within hc, ih hword fun hcs => hopen (isOpen_append [c] rfl hcs)]
    rfl
  | case3 inWord c cs hc group' hlt hread ih =>
    obtain ⟨rfl, hbegins⟩ : inWord = false ∧ beginsName c = true := by simpa using hc
    have hgroup : isName group' = true := isName_leadingName_cons hbegins
    have hcut : c :: cs = group' ++ afterName (c :: cs) :=
      (leadingName_append_afterName (c :: cs)).symm
    have hhead := not_continuesName_afterName (leadingName_ne_nil hbegins cs)
    generalize afterName (c :: cs) = rest at *
    rw [hcut] at hword hopen ⊢
    rw [endsInWord_append, endsInWord_of_isName hgroup] at hword
    have hne : rest ≠ [] := by
      rintro rfl
      cases hword
    rw [List.append_assoc, scan_unread hgroup, ih hword]
    · rfl
    · exact fun hrest => hopen (isOpen_append _ (endsInWord_of_isName hgroup) hrest)
    · obtain ⟨d, rest, rfl⟩ := List.exists_cons_of_ne_nil hne
      exact hhead
    · exact readArgument_append_eq_none h hne hread hgroup hopen after
  | case4 inWord c cs hc group' hlt a hread hlt' ih =>
    obtain ⟨rfl, hbegins⟩ : inWord = false ∧ beginsName c = true := by simpa using hc
    have hgroup : isName group' = true := isName_leadingName_cons hbegins
    have hcut : c :: cs = written group' a.inner ++ a.rest := eq_written_append hread
    have hclosed : endsInWord false (written group' a.inner) = false :=
      endsInWord_written false [] group' a.inner
    rw [hcut] at hword hopen
    rw [endsInWord_append, hclosed] at hword
    have hscan := scan_read hgroup ?_ (readArgument_append hread (written group inner ++ after))
    · rw [← List.append_assoc, leadingName_append_afterName] at hscan
      rw [hscan, ih hword fun hrest => hopen (isOpen_append _ hclosed hrest)]
      rfl
    · rw [eq_of_readArgument hread]
      simp [not_continuesName_paren]

end ValuePiece

namespace Reference

open Text ValuePiece

variable {before group inner after front outer key value : List Char}
  {v : String}

/-- The text with its references replaced by the values that `lookup` has for them. -/
def substituted (lookup : Reference → Option String) (text : List Char) : String :=
  Id.run (replaceAll (fun r => pure (lookup r)) (String.ofList text))

/-- What a piece of a text becomes. -/
def substitutedPiece (lookup : Reference → Option String) : ValuePiece → List Char
  | .plain text => text
  | .reference r source => ((lookup r).getD (String.ofList source)).toList

theorem substituted_eq (lookup : Reference → Option String) (text : List Char) :
    substituted lookup text =
      String.ofList ((scan false text).flatMap (substitutedPiece lookup)) := by
  have hpiece (p : ValuePiece) :
      Id.run (replaceIn (fun r => pure (lookup r)) p) = substitutedPiece lookup p := by
    cases p with
    | plain text => rfl
    | reference r source => cases h : lookup r <;> simp [replaceIn, substitutedPiece, h]
  have hmap (ps : List ValuePiece) : Id.run (ps.mapM (replaceIn fun r => pure (lookup r))) =
      ps.map (substitutedPiece lookup) := by
    induction ps with
    | nil => rfl
    | cons p ps ih => simp [List.mapM_cons, hpiece, ih]
  simp [substituted, replaceAll, hmap, List.flatMap_def]

/-- A reference behind a text that is not open is replaced by its value, and is left as it is written
if it has none. -/
theorem substituted_append (lookup : Reference → Option String) (h : Shaped group inner)
    (hword : endsInWord false before = false) (hopen : ¬ IsOpen false before) (after : List Char) :
    substituted lookup (before ++ (written group inner ++ after)) =
      substituted lookup before ++
        (lookup (ofParts group inner)).getD (String.ofList (written group inner)) ++
          substituted lookup after := by
  rw [substituted_eq, scan_append_written h after hword hopen, List.flatMap_append,
    List.flatMap_cons, substituted_eq, substituted_eq]
  simp [substitutedPiece, String.append_assoc]

/-- Of the open references around a place one is the outermost. -/
theorem Opens.exists_outermost {inWord : Bool} {text front outer key value : List Char}
    (h : Opens inWord text front outer key value) :
    ∃ front outer key value, Opens inWord text front outer key value ∧ ¬ IsOpen inWord front := by
  by_cases hfront : IsOpen inWord front
  · obtain ⟨front', outer', key', value', h'⟩ := hfront
    have hlt : front'.length < front.length := by
      simp only [h'.eq, List.length_append, List.length_cons]
      omega
    have hkey : ')' ∉ key := not_mem_of_isName_trim h.key (by decide) (by decide)
    have houter : ')' ∉ outer := not_mem_of_isName h.outer (by decide)
    -- The value of the outer one runs through the beginning of the inner one.
    have hall : Opens inWord text front' outer' key' (value' ++ outer ++ '(' :: key ++ '=' :: value) := by
      refine ⟨?_, h'.word, h'.outer, h'.key, ?_⟩
      · rw [h.eq, h'.eq]
        simp
      · simpa [houter, hkey, h.closed] using h'.closed
    exact hall.exists_outermost
  · exact ⟨front, outer, key, value, h, hfront⟩
termination_by front.length

theorem Opens.shaped {inWord : Bool} {text front outer key value rest : List Char}
    (h : Opens inWord text front outer key value) (hrest : ')' ∉ rest) :
    Shaped outer (key ++ '=' :: (value ++ rest)) ∧
      ofParts outer (key ++ '=' :: (value ++ rest)) =
        ⟨String.ofList outer, String.ofList (trim key),
          some (String.ofList (trim (value ++ rest)))⟩ := by
  have hequals : '=' ∉ key := not_mem_of_isName_trim h.key (by decide) (by decide)
  have hkey : ')' ∉ key := not_mem_of_isName_trim h.key (by decide) (by decide)
  have hsplit := splitInner_of_cut (cutAt_append hequals (value ++ rest))
  refine ⟨⟨h.outer, ?_, ?_⟩, ?_⟩
  · simp [hkey, h.closed, hrest]
  · rw [hsplit]
    exact h.key
  · rw [ofParts, hsplit]
    rfl

/-- Between the words of the text before it, `group(inner)` is a reference that gives no value. -/
structure Occurs (before group inner : List Char) : Prop where
  word : ∀ c ∈ before.getLast?, continuesName c = false
  group : isName group = true
  closed : ')' ∉ inner
  key : isName (trim inner) = true

/-- Wherever a reference stands for which there is a value, the value takes its place, unless it stands
in the value of another reference. Then the outermost of those is what is read there: its own value takes
the place of all of it, and if it has none, all of it is left as it is written. -/
theorem substituted_occurrence (lookup : Reference → Option String)
    {before group inner : List Char} {v : String} (h : Occurs before group inner)
    (hv : lookup ⟨String.ofList group, String.ofList (trim inner), none⟩ = some v)
    (after : List Char) :
    (¬ IsOpen false before ∧
      substituted lookup (before ++ group ++ '(' :: inner ++ ')' :: after) =
        substituted lookup before ++ v ++ substituted lookup after) ∨
    ∃ front outer key value, Opens false before front outer key value ∧ ¬ IsOpen false front ∧
      substituted lookup (before ++ group ++ '(' :: inner ++ ')' :: after) =
        substituted lookup front ++
          (lookup ⟨String.ofList outer, String.ofList (trim key),
              some (String.ofList (trim (value ++ group ++ '(' :: inner)))⟩).getD
            (String.ofList (outer ++ '(' :: key ++ '=' :: value ++ group ++ '(' :: inner ++ [')'])) ++
          substituted lookup after := by
  by_cases hopen : IsOpen false before
  · obtain ⟨_, _, _, _, hopen⟩ := hopen
    obtain ⟨front, outer, key, value, hopens, hfront⟩ := hopen.exists_outermost
    refine .inr ⟨front, outer, key, value, hopens, hfront, ?_⟩
    have hrest : ')' ∉ group ++ '(' :: inner := by
      simp [not_mem_of_isName h.group (c := ')') (by decide), h.closed]
    obtain ⟨hshaped, hparts⟩ := hopens.shaped hrest
    have hsub := substituted_append lookup hshaped hopens.word hfront after
    rw [hparts] at hsub
    simpa [hopens.eq, written] using hsub
  · have hequals : '=' ∉ inner := not_mem_of_isName_trim h.key (by decide) (by decide)
    have hsplit := splitInner_of_not_mem hequals
    have hshaped : Shaped group inner := ⟨h.group, h.closed, by rw [hsplit]; exact h.key⟩
    have hsub := substituted_append lookup hshaped (endsInWord_of_getLast? h.word) hopen after
    rw [ofParts, hsplit] at hsub
    refine .inl ⟨hopen, ?_⟩
    simpa [written, hv] using hsub

/-- A value of four pixels for the gap of the theme. -/
def gap (r : Reference) : Option String :=
  if r = ⟨"Theme", "gap", none⟩ then some "4px" else none

/-- Neither a reference without a value nor a function around the place hides the gap. -/
theorem substituted_occurrence_calc :
    Occurs "calc(Theme(top) + min(2px, ".toList "Theme".toList " gap ".toList ∧
      gap ⟨"Theme", "gap", none⟩ = some "4px" ∧
      substituted gap "calc(Theme(top) + min(2px, Theme( gap )))".toList =
        "calc(Theme(top) + min(2px, 4px))" := by
  have h : Occurs "calc(Theme(top) + min(2px, ".toList "Theme".toList " gap ".toList :=
    ⟨by rintro _ ⟨rfl⟩; decide, by decide, by decide, by decide⟩
  refine ⟨h, by decide, ?_⟩
  rcases substituted_occurrence gap (v := "4px") h (by decide) "))".toList with
    ⟨-, hsub⟩ | ⟨front, outer, key, value, hopens, -⟩
  · have hfront : substituted gap "calc(Theme(top) + min(2px, ".toList =
        "calc(Theme(top) + min(2px, " := by decide +kernel
    have hback : substituted gap "))".toList = "))" := by decide +kernel
    rw [hfront, hback] at hsub
    exact hsub
  · -- There is no equals sign that could give a value.
    have hequals : '=' ∈ "calc(Theme(top) + min(2px, ".toList := by simp [hopens.eq]
    revert hequals
    decide

/-- In what looks like the value of a variable the gap is left as it is written, although there is no
value that it could be a part of. -/
theorem substituted_hidden :
    Occurs "alpha(opacity = ".toList "Theme".toList "gap".toList ∧
      gap ⟨"Theme", "gap", none⟩ = some "4px" ∧
      gap ⟨"alpha", "opacity", some "Theme(gap"⟩ = none ∧
      substituted gap "alpha(opacity = Theme(gap))".toList = "alpha(opacity = Theme(gap))" :=
  ⟨⟨by rintro _ ⟨rfl⟩; decide, by decide, by decide, by decide⟩, by decide, by decide, by decide +kernel⟩

end Reference

end Stencil
