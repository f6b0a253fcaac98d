import Stencil.Content.Selector
import Stencil.Proofs.Nesting
import Stencil.Proofs.Scanning
import Stencil.Proofs.Session

/-! # Selectors and anchors are read as they are written

A selector is a tag, which may be left out, and classes and an id behind it in any order. It is written with
the id at the end, and what is written is read as the same selector; so is an anchor, with the number of a
place in brackets. Both are read by byte offsets that never lie inside of a character.
-/
namespace Stencil

namespace Text

variable {cs : List Char}

/-- A text without white space is not trimmed. -/
theorem trim_of_not_white (h : ∀ c ∈ cs, isWhite c = false) : trim cs = cs := by
  have hdrop {ds : List Char} (hd : ∀ c ∈ ds, isWhite c = false) : ds.dropWhile isWhite = ds := by
    cases ds with
    | nil => rfl
    | cons c ds => simp [hd c List.mem_cons_self]
  rw [trim, trimStart, hdrop h, trimEnd, dropEndWhile, hdrop (by simpa using h), List.reverse_reverse]

/-! ## Decimal numbers -/

theorem digitValue_of_isDigit {c : Char} (h : c.isDigit = true) :
    digitValue c = some (c.toNat - '0'.toNat) := by
  obtain ⟨hlow, hhigh⟩ := (Bool.and_eq_true _ _).mp h
  exact if_pos ⟨of_decide_eq_true hlow, of_decide_eq_true hhigh⟩

theorem not_isWhite_of_isDigit {c : Char} (h : c.isDigit = true) : isWhite c = false := by
  obtain ⟨hlow, hhigh⟩ : 48 ≤ c.toNat ∧ c.toNat ≤ 57 := Char.isDigit_iff_toNat.1 h
  have hranges : ∀ r ∈ whiteRanges, r.2 < 48 ∨ 57 < r.1 := by decide
  rw [← Bool.not_eq_true]
  intro hwhite
  obtain ⟨r, hr, hmem⟩ := exists_of_inRanges hwhite
  have hapart := hranges r hr
  omega

theorem digitsValue_of_isDigit (h : ∀ c ∈ cs, c.isDigit = true) (acc : Nat) :
    digitsValue acc cs = some (Nat.ofDigitChars 10 cs acc) := by
  induction cs generalizing acc with
  | nil => rfl
  | cons c cs ih =>
    rw [digitsValue, digitValue_of_isDigit (h c List.mem_cons_self), Option.bind_some,
      ih fun d hd => h d (List.mem_cons_of_mem _ hd)]
    rfl

theorem isDigit_of_mem_toString {n : Nat} {c : Char} (h : c ∈ (toString n).toList) :
    c.isDigit = true := by
  rw [Nat.toString_eq_repr, Nat.toList_repr] at h
  exact Nat.isDigit_of_mem_toDigits (by decide) (by decide) h

/-- A number is read as it is written. -/
theorem readNat64_toString {n : Nat} (h : n < limit64) : readNat64 (toString n).toList = some n := by
  have hdigits (c : Char) : c ∈ (toString n).toList → c.isDigit = true := isDigit_of_mem_toString
  have hplus : ¬ (toString n).toList.head? = some '+' := by
    intro hhead
    have hplus := hdigits _ (List.mem_of_head? hhead)
    revert hplus
    decide
  have hne : (toString n).toList ≠ [] := by
    rw [Nat.toString_eq_repr, Nat.toList_repr]
    exact Nat.toDigits_ne_nil
  have hvalue : digitsValue 0 (toString n).toList = some n := by
    rw [digitsValue_of_isDigit hdigits, Nat.toString_eq_repr, Nat.toList_repr,
      Nat.ofDigitChars_ten_toDigits]
  simp only [readNat64, if_neg hplus, List.isEmpty_iff, if_neg hne, hvalue]
  exact Option.filter_some_pos (decide_eq_true h)

/-- What is read fits into 64 bits. -/
theorem lt_of_readNat64 {n : Nat} (h : readNat64 cs = some n) : n < limit64 := by
  simp only [readNat64, Option.ite_none_left_eq_some] at h
  simpa using (Option.filter_eq_some_iff.1 h.2).2

end Text
namespace Selector

open Text

/-! ## Parts -/

/-- What may stand behind the tag. -/
inductive Part where
  | ofClass (name : String)
  | ofId (name : String)

namespace Part

def mark : Part → Char
  | ofClass _ => '.'
  | ofId _ => '#'

def name : Part → String
  | ofClass name => name
  | ofId name => name

def class? : Part → Option String
  | ofClass name => some name
  | ofId _ => none

def id? : Part → Option String
  | ofClass _ => none
  | ofId name => some name

/-- A part as it is written. -/
def source (p : Part) : List Char := p.mark :: p.name.toList

theorem mark_eq (p : Part) : p.mark = '.' ∨ p.mark = '#' := by
  cases p with
  | ofClass _ => exact .inl rfl
  | ofId _ => exact .inr rfl

theorem exists_of_mark {c : Char} (h : c = '.' ∨ c = '#') (name : String) :
    ∃ p : Part, p.mark = c ∧ p.name = name := by
  rcases h with rfl | rfl
  · exact ⟨ofClass name, rfl, rfl⟩
  · exact ⟨ofId name, rfl, rfl⟩

end Part

variable {s s' : Selector} {p : Part} {parts : List Part} {text rest : List Char} {first : Bool}

/-- Adds a part, unless it is a second id. -/
def add (s : Selector) (p : Part) : Option Selector := s.addPart false p.mark p.name

theorem addPart_mark (s : Selector) (first : Bool) (p : Part) :
    s.addPart first p.mark p.name = s.add p := by
  cases p <;> rfl

/-- Parts that can be added give their classes in order, and the one id among them. -/
theorem foldlM_add_eq_some_iff : parts.foldlM add s = some s' ↔ s'.tag = s.tag ∧
    s'.classes = s.classes ++ parts.filterMap Part.class? ∧
    s'.id.toList = s.id.toList ++ parts.filterMap Part.id? := by
  induction parts generalizing s with
  | nil =>
    obtain ⟨tag, classes, id⟩ := s
    obtain ⟨tag', classes', id'⟩ := s'
    cases id <;> cases id' <;> simp [eq_comm]
  | cons p parts ih =>
    rw [List.foldlM_cons]
    cases p with
    | ofClass name =>
      change parts.foldlM add { s with classes := s.classes ++ [name] } = some s' ↔ _
      rw [ih]
      simp [Part.class?, Part.id?, List.filterMap_cons]
    | ofId name =>
      cases hid : s.id with
      | none =>
        have hadd : s.add (.ofId name) = some { s with id := some name } := by
          simp [add, addPart, Part.mark, Part.name, hid]
        rw [hadd]
        change parts.foldlM add { s with id := some name } = some s' ↔ _
        rw [ih]
        simp [Part.class?, Part.id?, List.filterMap_cons]
      | some other =>
        have hadd : s.add (.ofId name) = none := by
          simp [add, addPart, Part.mark, hid]
        rw [hadd]
        cases hid' : s'.id <;> simp [Part.id?]

/-- A part is only added behind its mark. -/
theorem exists_of_addPart {mark : Char} {name : String} (h : s.addPart false mark name = some s') :
    ∃ p : Part, p.mark = mark ∧ p.name = name ∧ s.add p = some s' := by
  by_cases hmark : mark = '.' ∨ mark = '#'
  · obtain ⟨p, rfl, rfl⟩ := Part.exists_of_mark hmark name
    exact ⟨p, rfl, rfl, h⟩
  · obtain ⟨hdot, hhash⟩ := not_or.1 hmark
    simp [addPart, hdot, hhash] at h

/-- The parts in the order in which they are written. -/
def writtenParts (s : Selector) : List Part := s.classes.map .ofClass ++ s.id.toList.map .ofId

theorem parts_eq_nil (hclasses : parts.filterMap Part.class? = [])
    (hid : parts.filterMap Part.id? = []) : parts = [] := by
  cases parts with
  | nil => rfl
  | cons p parts => cases p <;> simp [Part.class?, Part.id?, List.filterMap_cons] at hclasses hid

theorem toList_render (s : Selector) :
    s.render.toList = (s.tag.getD "").toList ++ s.writtenParts.flatMap Part.source := by
  have hclass (c : String) : ("." ++ c).toList = (Part.ofClass c).source := String.toList_append
  have hid (i : String) : ("#" ++ i).toList = (Part.ofId i).source := String.toList_append
  rw [render, writtenParts, List.flatMap_append, List.flatMap_map, String.toList_append,
    String.toList_append, String.toList_join, List.flatMap_map, List.append_assoc]
  simp only [hclass]
  cases s.id with
  | none => rfl
  | some i => simp [hid]

/-! ## Reading parts -/

section

variable [Alphabet]

theorem exists_parts_of_parseParts (h : parseParts s first text = .ok s') (hfirst : first = false) :
    ∃ parts : List Part, text = parts.flatMap Part.source ∧
      (∀ p ∈ parts, isName p.name.toList = true) ∧ parts.foldlM add s = some s' := by
  fun_induction parseParts s first text with
  | case1 s first => exact ⟨[], rfl, by simp, congrArg some (Except.ok.inj h)⟩
  | case2 => cases h
  | case3 => cases h
  | case4 s first mark rest part hne hlt mid hadd ih =>
    subst hfirst
    obtain ⟨p, rfl, hname, hadd⟩ := exists_of_addPart hadd
    obtain ⟨parts, hparts, hnames, hadds⟩ := ih h rfl
    have hunmarked : unmarked (p.mark :: rest) = rest := by
      rcases p.mark_eq with h | h <;> simp [unmarked, h]
    have hpart : p.name.toList = part := by rw [hname, String.toList_ofList]
    refine ⟨p :: parts, ?_, ?_, ?_⟩
    · rw [List.flatMap_cons, Part.source, hpart, ← hparts, hunmarked, List.cons_append]
      simp only [part, hunmarked, leadingName_append_afterName]
    · rintro q (_ | ⟨_, hq⟩)
      · rw [hpart]
        exact isName_leadingName hne
      · exact hnames q hq
    · rw [List.foldlM_cons, hadd]
      exact hadds

theorem parseParts_marked {mark : Char} (h : mark = '.' ∨ mark = '#') (s : Selector)
    (rest : List Char) : parseParts s true (mark :: rest) = parseParts s false (mark :: rest) := by
  have hadd (name : String) : s.addPart true mark name = s.addPart false mark name := by
    obtain ⟨p, rfl, rfl⟩ := Part.exists_of_mark h name
    rw [addPart_mark, addPart_mark]
  rw [parseParts, parseParts]
  simp only [hadd]

/-- The text is the tag of the selector, if it has one, and behind it the parts, which give its classes in
order and its id. -/
structure SpelledBy (s : Selector) (text : List Char) (parts : List Part) : Prop where
  text_eq : text = (s.tag.getD "").toList ++ parts.flatMap Part.source
  tag : ∀ t ∈ s.tag, isName t.toList = true
  names : ∀ p ∈ parts, isName p.name.toList = true
  classes : s.classes = parts.filterMap Part.class?
  id : s.id.toList = parts.filterMap Part.id?

/-- Its parts are names, and it has any. -/
structure Proper (s : Selector) : Prop where
  nonempty : s ≠ empty
  tag : ∀ t ∈ s.tag, isName t.toList = true
  classes : ∀ c ∈ s.classes, isName c.toList = true
  id : ∀ i ∈ s.id, isName i.toList = true

theorem Proper.spelledBy (h : s.Proper) : s.SpelledBy s.render.toList s.writtenParts where
  text_eq := toList_render s
  tag := h.tag
  names p hp := by
    rcases List.mem_append.1 hp with hp | hp
    · obtain ⟨c, hc, rfl⟩ := List.mem_map.1 hp
      exact h.classes c hc
    · obtain ⟨i, hi, rfl⟩ := List.mem_map.1 hp
      exact h.id i (Option.mem_toList.1 hi)
  classes := by
    have hclasses : (s.classes.map Part.ofClass).filterMap Part.class? = s.classes :=
      List.filterMap_map.trans List.filterMap_some
    have hids : (s.id.toList.map Part.ofId).filterMap Part.class? = [] :=
      List.filterMap_map.trans (List.filterMap_eq_nil_iff.2 fun _ _ => rfl)
    rw [writtenParts, List.filterMap_append, hclasses, hids, List.append_nil]
  id := by
    have hclasses : (s.classes.map Part.ofClass).filterMap Part.id? = [] :=
      List.filterMap_map.trans (List.filterMap_eq_nil_iff.2 fun _ _ => rfl)
    have hids : (s.id.toList.map Part.ofId).filterMap Part.id? = s.id.toList :=
      List.filterMap_map.trans List.filterMap_some
    rw [writtenParts, List.filterMap_append, hclasses, hids, List.nil_append]

variable [Alphabet.Lawful]

/-- No name goes on with the mark of a part. -/
theorem not_continuesName_parts (parts : List Part) :
    ∀ c ∈ (parts.flatMap Part.source).head?, continuesName c = false := by
  cases parts with
  | nil => simp
  | cons p parts =>
    rintro _ ⟨rfl⟩
    rcases p.mark_eq with h | h <;> rw [h] <;> exact not_continuesName_of_isMark (by decide)

theorem parseParts_part (hname : isName p.name.toList = true)
    (hrest : ∀ c ∈ rest.head?, continuesName c = false) (s : Selector) (first : Bool) :
    parseParts s first (p.source ++ rest) =
      match s.add p with
      | none => .error (.unexpected (String.ofList (p.source ++ rest)))
      | some s => parseParts s false rest := by
  have hunmarked : unmarked (p.source ++ rest) = p.name.toList ++ rest := by
    rcases p.mark_eq with h | h <;> simp [Part.source, unmarked, h]
  have hleading := leadingName_append hname hrest
  have hafter := afterName_append hname hrest
  have hne : p.name.toList ≠ [] := (isWord_of_isName hname).1
  rw [Part.source, List.cons_append] at hunmarked ⊢
  rw [parseParts]
  cases hadd : s.add p <;> simp [hunmarked, hleading, hafter, hne, addPart_mark, hadd]

/-- Behind the tag exactly the texts of parts are read. -/
theorem parseParts_eq_ok_iff : parseParts s false text = .ok s' ↔ ∃ parts : List Part,
    text = parts.flatMap Part.source ∧ (∀ p ∈ parts, isName p.name.toList = true) ∧
      parts.foldlM add s = some s' := by
  refine ⟨fun h => exists_parts_of_parseParts h rfl, ?_⟩
  rintro ⟨parts, rfl, hnames, hadds⟩
  induction parts generalizing s with
  | nil =>
    obtain rfl := Option.some.inj hadds
    rw [List.flatMap_nil, parseParts]
  | cons p parts ih =>
    obtain ⟨mid, hmid, hadds⟩ := Option.bind_eq_some_iff.1 hadds
    rw [List.flatMap_cons, parseParts_part (hnames p List.mem_cons_self) (not_continuesName_parts parts),
      hmid]
    exact ih (fun p hp => hnames p (List.mem_cons_of_mem _ hp)) hadds

/-! ## The tag -/

theorem parseParts_tag {tag : List Char} (htag : isName tag = true)
    (hrest : ∀ c ∈ rest.head?, continuesName c = false) :
    parseParts empty true (tag ++ rest) =
      parseParts { empty with tag := some (String.ofList tag) } false rest := by
  have hleading := leadingName_append htag hrest
  have hafter := afterName_append htag hrest
  cases tag with
  | nil => cases htag
  | cons mark tag =>
    have hbegins : beginsName mark = true := ((Bool.and_eq_true _ _).mp htag).1
    have hdot : mark ≠ '.' := ne_of_isMark hbegins (by decide)
    have hhash : mark ≠ '#' := ne_of_isMark hbegins (by decide)
    have hunmarked : unmarked (mark :: (tag ++ rest)) = mark :: (tag ++ rest) := by
      simp [unmarked, hdot, hhash]
    rw [List.cons_append] at hleading hafter ⊢
    rw [parseParts]
    simp [hunmarked, hleading, hafter, addPart, hdot, hhash]

/-- What is read behind a tag, or where there is none, is spelled together with it. -/
theorem parseParts_behind_eq_ok_iff (tag : Option String) (htag : ∀ t ∈ tag, isName t.toList = true) :
    parseParts { empty with tag := tag } false rest = .ok s ↔
      s.tag = tag ∧ ∃ parts, s.SpelledBy ((tag.getD "").toList ++ rest) parts := by
  constructor
  · intro h
    obtain ⟨parts, rfl, hnames, hadds⟩ := parseParts_eq_ok_iff.1 h
    obtain ⟨hs, hclasses, hid⟩ := foldlM_add_eq_some_iff.1 hadds
    obtain rfl : s.tag = tag := hs
    exact ⟨rfl, parts, rfl, htag, hnames, hclasses, hid⟩
  · rintro ⟨rfl, parts, h⟩
    have hadds : parts.foldlM add { empty with tag := s.tag } = some s :=
      foldlM_add_eq_some_iff.2 ⟨rfl, h.classes, h.id⟩
    exact parseParts_eq_ok_iff.2 ⟨parts, List.append_cancel_left h.text_eq, h.names, hadds⟩

theorem exists_spelledBy_of_parseParts (hne : text ≠ []) (h : parseParts empty true text = .ok s) :
    ∃ parts, s.SpelledBy text parts := by
  obtain ⟨mark, rest, rfl⟩ := List.exists_cons_of_ne_nil hne
  by_cases hmark : mark = '.' ∨ mark = '#'
  · rw [parseParts_marked hmark] at h
    exact ((parseParts_behind_eq_ok_iff none nofun).1 h).2
  · obtain ⟨hdot, hhash⟩ := not_or.1 hmark
    have hbegins : beginsName mark = true := by
      rw [← Bool.not_eq_false]
      intro hbegins
      have hnone : leadingName (mark :: rest) = [] := by simp [leadingName, hbegins]
      rw [parseParts] at h
      simp [unmarked, hdot, hhash, hnone] at h
    have hname : isName (leadingName (mark :: rest)) = true := isName_leadingName_cons hbegins
    have hhead := not_continuesName_afterName (leadingName_ne_nil hbegins rest)
    rw [← leadingName_append_afterName (mark :: rest), parseParts_tag hname hhead] at h
    obtain ⟨-, hparts⟩ := (parseParts_behind_eq_ok_iff (some _) (by simpa using hname)).1 h
    simpa using hparts

theorem SpelledBy.parseParts_eq (h : s.SpelledBy text parts) (hne : text ≠ []) :
    parseParts empty true text = .ok s := by
  have hbehind := (parseParts_behind_eq_ok_iff s.tag h.tag).2 ⟨rfl, parts, h.text_eq ▸ h⟩
  cases hs : s.tag with
  | none =>
    have htext : text = parts.flatMap Part.source := by simpa [hs] using h.text_eq
    rw [hs, ← htext] at hbehind
    cases parts with
    | nil => exact absurd htext hne
    | cons p parts =>
      have hcons : text = p.mark :: (p.name.toList ++ parts.flatMap Part.source) := by
        simpa [Part.source] using htext
      rw [hcons, parseParts_marked p.mark_eq, ← hcons]
      exact hbehind
  | some t =>
    rw [h.text_eq, hs, Option.getD_some, parseParts_tag (h.tag t hs) (not_continuesName_parts parts),
      String.ofList_toList, ← hs]
    exact hbehind

/-- A text is read as a selector if, without the white space around it, it is spelled so. -/
theorem parse_eq_ok_iff : parse text = .ok s ↔ trim text ≠ [] ∧ ∃ parts, s.SpelledBy (trim text) parts := by
  by_cases hne : trim text = []
  · simp [parse, hne]
  · have hread : parse text = parseParts empty true (trim text) := by simp [parse, hne]
    rw [hread]
    refine ⟨fun h => ⟨hne, exists_spelledBy_of_parseParts hne h⟩, ?_⟩
    rintro ⟨-, parts, h⟩
    exact h.parseParts_eq hne

/-- Something is read if, without the white space around it, the text is a tag or none and parts behind
it, of which one at most is an id. -/
theorem exists_parse_eq_ok_iff : (∃ s, parse text = .ok s) ↔
    trim text ≠ [] ∧ ∃ (tag : Option String) (parts : List Part),
      trim text = (tag.getD "").toList ++ parts.flatMap Part.source ∧
        (∀ t ∈ tag, isName t.toList = true) ∧ (∀ p ∈ parts, isName p.name.toList = true) ∧
          (parts.filterMap Part.id?).length ≤ 1 := by
  constructor
  · rintro ⟨s, hs⟩
    obtain ⟨hne, parts, h⟩ := parse_eq_ok_iff.1 hs
    refine ⟨hne, s.tag, parts, h.text_eq, h.tag, h.names, ?_⟩
    rw [← h.id]
    exact Option.length_toList_le
  · rintro ⟨hne, tag, parts, htext, htag, hnames, hid⟩
    refine ⟨⟨tag, parts.filterMap Part.class?, (parts.filterMap Part.id?).head?⟩,
      parse_eq_ok_iff.2 ⟨hne, parts, htext, htag, hnames, rfl, ?_⟩⟩
    match parts.filterMap Part.id?, hid with
    | [], _ => rfl
    | [_], _ => rfl

/-! ## What is written -/

/-- Only the empty selector is spelled by the empty text. -/
theorem SpelledBy.eq_nil_iff (h : s.SpelledBy text parts) : text = [] ↔ s = empty := by
  constructor
  · rintro rfl
    obtain ⟨htext, hsources⟩ := List.append_eq_nil_iff.1 h.text_eq.symm
    have hparts : parts = [] := by
      cases parts with
      | nil => rfl
      | cons p parts => cases hsources
    have htag : s.tag = none := by
      cases htag : s.tag with
      | none => rfl
      | some t =>
        rw [htag] at htext
        exact absurd htext (isWord_of_isName (h.tag t htag)).1
    have hclasses := h.classes
    have hid := h.id
    obtain ⟨tag, classes, id⟩ := s
    cases id <;> simp_all [empty]
  · rintro rfl
    have hparts := parts_eq_nil h.classes.symm h.id.symm
    simpa [hparts, empty] using h.text_eq

theorem SpelledBy.proper (h : s.SpelledBy text parts) (hne : text ≠ []) : s.Proper where
  nonempty hempty := hne (h.eq_nil_iff.2 hempty)
  tag := h.tag
  classes c hc := by
    rw [h.classes] at hc
    obtain ⟨p, hp, hclass⟩ := List.mem_filterMap.1 hc
    cases p with
    | ofClass name => exact Option.some.inj hclass ▸ h.names _ hp
    | ofId name => cases hclass
  id i hi := by
    have hi : i ∈ parts.filterMap Part.id? := by rwa [← h.id, Option.mem_toList]
    obtain ⟨p, hp, hid⟩ := List.mem_filterMap.1 hi
    cases p with
    | ofClass name => cases hid
    | ofId name => exact Option.some.inj hid ▸ h.names _ hp

/-- Only names and marks are written. -/
theorem SpelledBy.continuesName (h : s.SpelledBy text parts) {c : Char} (hc : c ∈ text) :
    continuesName c = true ∨ c = '.' ∨ c = '#' := by
  rw [h.text_eq] at hc
  rcases List.mem_append.1 hc with hc | hc
  · cases htag : s.tag with
    | none => simp [htag] at hc
    | some t =>
      rw [htag] at hc
      exact .inl (continuesName_of_isName (h.tag t htag) hc)
  · obtain ⟨p, hp, hc⟩ := List.mem_flatMap.1 hc
    rcases List.mem_cons.1 hc with rfl | hc
    · exact .inr p.mark_eq
    · exact .inl (continuesName_of_isName (h.names p hp) hc)

theorem SpelledBy.not_isWhite (h : s.SpelledBy text parts) : ∀ c ∈ text, isWhite c = false := by
  intro c hc
  rcases h.continuesName hc with hc | rfl | rfl
  · exact not_isWhite_of_continuesName hc
  · decide
  · decide

theorem Proper.render_ne_nil (h : s.Proper) : s.render.toList ≠ [] :=
  fun hnil => h.nonempty (h.spelledBy.eq_nil_iff.1 hnil)

theorem parse_render (h : s.Proper) : parse s.render.toList = .ok s := by
  rw [parse_eq_ok_iff, trim_of_not_white h.spelledBy.not_isWhite]
  exact ⟨h.render_ne_nil, _, h.spelledBy⟩

theorem proper_of_parse (h : parse text = .ok s) : s.Proper := by
  obtain ⟨hne, parts, hspelled⟩ := parse_eq_ok_iff.1 h
  exact hspelled.proper hne

end

/-! ## Reading by byte offsets -/

section

variable {front cs : List Char} {mark : Char} {pos stop : Nat}

/-- Where the name of a part begins that stands at a byte offset. -/
def nameStart (mark : Char) (pos : Nat) : Nat := if mark = '.' || mark = '#' then pos + 1 else pos

theorem le_nameStart (mark : Char) (pos : Nat) : pos ≤ nameStart mark pos := by
  rw [nameStart]
  split
  · exact Nat.le_succ pos
  · exact Nat.le_refl pos

theorem exists_nameStart (front : List Char) (mark : Char) (cs : List Char) :
    ∃ before, front ++ mark :: cs = before ++ unmarked (mark :: cs) ∧
      nameStart mark (byteLength front) = byteLength before := by
  by_cases hmark : (mark = '.' || mark = '#') = true
  · have hsize : mark.utf8Size = 1 := by
      rcases (Bool.or_eq_true _ _).mp hmark with h | h <;> rw [of_decide_eq_true h] <;> rfl
    exact ⟨front ++ [mark], by simp [unmarked, hmark], by simp [nameStart, hmark, hsize]⟩
  · exact ⟨front, by simp [unmarked, hmark], by simp [nameStart, hmark]⟩

variable [Alphabet]

/-- One step of reading at a byte offset: where the part ends that stands there, with the selector it is
added to, or nothing at the end of the text. There is no answer if the step comes upon an offset inside of a
character. -/
def partAt (text : List Char) (s : Selector) (pos : Nat) :
    Option (Option (Except Misspelling (Selector × Nat))) := do
  match ← dropBytes pos text with
  | [] => return none
  | mark :: rest =>
    let start := nameStart mark pos
    let stop ← nameEnd text start
    if stop = start then return some (.error (.invalid (String.ofList (mark :: rest))))
    let part ← slice text start stop
    match s.addPart (pos = 0) mark (String.ofList part) with
    | none => return some (.error (.unexpected (String.ofList (mark :: rest))))
    | some s => return some (.ok (s, stop))

/-- Reading gets further with each part. -/
theorem lt_of_partAt (h : partAt text s pos = some (some (.ok (s', stop)))) :
    pos < stop ∧ pos < byteLength text := by
  obtain ⟨rest, hrest, h⟩ := Option.bind_eq_some_iff.1 h
  obtain ⟨front, rfl, rfl⟩ := dropBytes_eq_some_iff.1 hrest
  cases rest with
  | nil => cases h
  | cons mark cs =>
    refine ⟨?_, ?_⟩
    · obtain ⟨stop', hstop, h⟩ := Option.bind_eq_some_iff.1 h
      have hstart := le_nameStart mark (byteLength front)
      have hle := le_of_nameEnd hstop
      split at h
      · cases h
      · obtain ⟨part, -, h⟩ := Option.bind_eq_some_iff.1 h
        split at h
        · cases h
        · cases h
          omega
    · have hpos := byteLength_cons_pos mark cs
      rw [byteLength_append]
      omega

/-- Reads the parts of a selector from a byte offset on, one after the other. -/
def partsFrom (text : List Char) (s : Selector) (pos : Nat) : Option (Except Misspelling Selector) :=
  match h : partAt text s pos with
  | none => none
  | some none => some (.ok s)
  | some (some (.error e)) => some (.error e)
  | some (some (.ok (s, stop))) =>
    have := lt_of_partAt h
    partsFrom text s stop
termination_by byteLength text - pos
decreasing_by omega

theorem partsFrom_of_done (h : partAt text s pos = some none) : partsFrom text s pos = some (.ok s) := by
  rw [partsFrom]
  split <;> simp_all

theorem partsFrom_of_error {e : Misspelling} (h : partAt text s pos = some (some (.error e))) :
    partsFrom text s pos = some (.error e) := by
  rw [partsFrom]
  split <;> simp_all

theorem partsFrom_of_part (h : partAt text s pos = some (some (.ok (s', stop)))) :
    partsFrom text s pos = partsFrom text s' stop := by
  rw [partsFrom]
  split <;> simp_all

/-- Reads a selector by byte offsets. -/
def parseBytes (text : List Char) : Option (Except Misspelling Selector) :=
  let text := trim text
  if text.isEmpty then some (.error .empty) else partsFrom text empty 0

/-- The name behind the mark decides what is read. -/
theorem partAt_append (s : Selector) (front : List Char) (mark : Char) (cs : List Char) :
    ∃ before, front ++ mark :: cs = before ++ afterName (unmarked (mark :: cs)) ∧
      partAt (front ++ mark :: cs) s (byteLength front) =
        if leadingName (unmarked (mark :: cs)) = [] then
          some (some (.error (.invalid (String.ofList (mark :: cs)))))
        else match s.addPart front.isEmpty mark (String.ofList (leadingName (unmarked (mark :: cs)))) with
          | none => some (some (.error (.unexpected (String.ofList (mark :: cs)))))
          | some s => some (some (.ok (s, byteLength before))) := by
  obtain ⟨before, htext, hstart⟩ := exists_nameStart front mark cs
  have hfirst : decide (byteLength front = 0) = front.isEmpty := by
    rw [Bool.eq_iff_iff, decide_eq_true_iff, byteLength_eq_zero_iff, List.isEmpty_iff]
  have hcut := leadingName_append_afterName (unmarked (mark :: cs))
  have hslice := slice_append before (leadingName (unmarked (mark :: cs)))
    (afterName (unmarked (mark :: cs)))
  have hstop := nameEnd_append before (unmarked (mark :: cs))
  rw [hcut] at hslice
  rw [← htext] at hslice hstop
  refine ⟨before ++ leadingName (unmarked (mark :: cs)), by rw [List.append_assoc, hcut, htext], ?_⟩
  simp only [partAt, dropBytes_append, bind, Option.bind, hstart, hstop, hfirst, byteLength_append]
  cases hname : leadingName (unmarked (mark :: cs)) with
  | nil => simp
  | cons c name =>
    have hpos := byteLength_cons_pos c name
    rw [hname] at hslice
    rw [if_neg (by omega), if_neg (List.cons_ne_nil _ _), hslice]
    rfl

/-- From a place on the same is read by offsets, where none of them lies inside of a character. -/
theorem partsFrom_append (s : Selector) (first : Bool) (rest : List Char) :
    ∀ front : List Char, front.isEmpty = first →
      partsFrom (front ++ rest) s (byteLength front) = some (parseParts s first rest) := by
  fun_induction parseParts s first rest with
  | case1 s first =>
    intro front hfirst
    apply partsFrom_of_done
    rw [partAt, dropBytes_append]
    rfl
  | case2 s first mark rest part hpart =>
    intro front hfirst
    obtain ⟨before, -, hstep⟩ := partAt_append s front mark rest
    rw [if_pos hpart] at hstep
    exact partsFrom_of_error hstep
  | case3 s first mark rest part hpart hlt hadd =>
    rintro front rfl
    obtain ⟨before, -, hstep⟩ := partAt_append s front mark rest
    rw [if_neg hpart, hadd] at hstep
    exact partsFrom_of_error hstep
  | case4 s first mark rest part hpart hlt mid hadd ih =>
    rintro front rfl
    obtain ⟨before, htext, hstep⟩ := partAt_append s front mark rest
    rw [if_neg hpart, hadd] at hstep
    have hbefore : before.isEmpty = false := by
      rw [← Bool.not_eq_true, List.isEmpty_iff]
      rintro rfl
      have hlength := congrArg List.length htext
      simp only [List.length_append, List.nil_append] at hlength hlt
      omega
    rw [partsFrom_of_part hstep, htext]
    exact ih before hbefore

theorem parseBytes_eq (text : List Char) : parseBytes text = some (parse text) := by
  rw [parseBytes, parse]
  split
  · rfl
  · exact partsFrom_append empty true (trim text) [] rfl

end

end Selector

namespace Anchor

open Text Selector

section

variable [Alphabet] {a : Anchor} {s : Selector} {n : Nat} {text : List Char}

/-- Its selector has names for parts, and its number fits into 64 bits. -/
def Proper : Anchor → Prop
  | index n => n < limit64
  | selector s => s.Proper
  | nth s n => s.Proper ∧ n < limit64

/-- Reads an anchor, its selector by byte offsets. -/
def parseBytes (text : List Char) : Option (Except Misspelling Anchor) :=
  let text := trim text
  match cutIndex text with
  | none => (Selector.parseBytes text).map (·.map selector)
  | some (sel, digits) =>
    match readNat64 (trim digits) with
    | none => some (.error (.unexpected (String.ofList digits)))
    | some n =>
      if (trim sel).isEmpty then some (.ok (index n))
      else (Selector.parseBytes sel).map (·.map (nth · n))

theorem parseBytes_eq (text : List Char) : parseBytes text = some (parse text) := by
  simp only [parseBytes, parse, Selector.parseBytes_eq, Option.map_some]
  cases cutIndex (trim text) with
  | none => rfl
  | some parts =>
    obtain ⟨sel, digits⟩ := parts
    cases hn : readNat64 (trim digits) with
    | none => simp [hn]
    | some n => simp only [hn, apply_ite some]

/-- A place in brackets is read behind a text without brackets. -/
theorem parse_bracketed {sel : List Char} (hwhite : ∀ c ∈ sel, isWhite c = false)
    (hbracket : '[' ∉ sel) (hn : n < limit64) :
    parse (sel ++ '[' :: (toString n).toList ++ [']']) =
      if sel.isEmpty then .ok (index n) else (Selector.parse sel).map (nth · n) := by
  have hdigits : ∀ c ∈ (toString n).toList, isWhite c = false :=
    fun c hc => not_isWhite_of_isDigit (isDigit_of_mem_toString hc)
  have hall : ∀ c ∈ sel ++ '[' :: (toString n).toList ++ [']'], isWhite c = false := by
    have hleft : isWhite '[' = false := by decide
    have hright : isWhite ']' = false := by decide
    simp only [List.mem_append, List.mem_cons, List.not_mem_nil, or_false]
    rintro c ((hc | rfl | hc) | rfl)
    · exact hwhite c hc
    · exact hleft
    · exact hdigits c hc
    · exact hright
  have hcut : cutIndex (sel ++ '[' :: (toString n).toList ++ [']']) =
      some (sel, (toString n).toList) := by
    rw [cutIndex, List.getLast?_concat, if_pos rfl, List.dropLast_concat, cutAt_append hbracket]
  simp only [parse, trim_of_not_white hall, hcut, trim_of_not_white hdigits, readNat64_toString hn,
    trim_of_not_white hwhite]

variable [Alphabet.Lawful]

theorem proper_of_parse (h : parse text = .ok a) : a.Proper := by
  unfold parse at h
  dsimp only at h
  split at h
  · obtain ⟨s, hs, rfl⟩ := Except.map_eq_ok.1 h
    exact Selector.proper_of_parse hs
  · split at h
    · cases h
    · rename_i n hn
      split at h
      · obtain rfl := Except.ok.inj h
        exact lt_of_readNat64 hn
      · obtain ⟨s, hs, rfl⟩ := Except.map_eq_ok.1 h
        exact ⟨Selector.proper_of_parse hs, lt_of_readNat64 hn⟩

theorem parse_render (h : a.Proper) : parse a.render.toList = .ok a := by
  have hbracket {s : Selector} (hs : s.Proper) {c : Char} (hmark : isMark c = true)
      (hother : ¬ (c = '.' ∨ c = '#')) : c ∉ s.render.toList := by
    intro hc
    have hnot := not_continuesName_of_isMark hmark
    exact hother ((hs.spelledBy.continuesName hc).resolve_left (by simp [hnot]))
  cases a with
  | index n =>
    have hrender : (index n).render.toList = [] ++ '[' :: (toString n).toList ++ [']'] := by
      simp [render]
    rw [hrender, parse_bracketed (by simp) (by simp) h]
    rfl
  | selector s =>
    have hlast : ¬ s.render.toList.getLast? = some ']' :=
      fun hlast => hbracket h (by decide) (by decide) (List.mem_of_getLast? hlast)
    have hcut : cutIndex s.render.toList = none := by rw [cutIndex, if_neg hlast]
    simp only [parse, render, trim_of_not_white h.spelledBy.not_isWhite, hcut,
      Selector.parse_render h]
    rfl
  | nth s n =>
    obtain ⟨hs, hn⟩ := h
    have hrender : (nth s n).render.toList =
        s.render.toList ++ '[' :: (toString n).toList ++ [']'] := by
      simp [render]
    have hleft : '[' ∉ s.render.toList := hbracket hs (by decide) (by decide)
    rw [hrender, parse_bracketed hs.spelledBy.not_isWhite hleft hn, Selector.parse_render hs, if_neg]
    · rfl
    · simpa using hs.render_ne_nil

/-- A text is read as a selector if it is a tag, which may be left out, and classes and at most one id
behind it, with white space around them or none, and something is there at all. Selectors and anchors
are read as they are written, so what is read of any text is read again of what is written of it. By byte
offsets the same is read, and no offset lies inside of a character. All this holds for any lawful
alphabet. -/
theorem reads_back :
    (∀ text, (∃ s, Selector.parse text = .ok s) ↔
      trim text ≠ [] ∧ ∃ (tag : Option String) (parts : List Part),
        trim text = (tag.getD "").toList ++ parts.flatMap Part.source ∧
          (∀ t ∈ tag, isName t.toList = true) ∧ (∀ p ∈ parts, isName p.name.toList = true) ∧
            (parts.filterMap Part.id?).length ≤ 1) ∧
    (∀ text s, Selector.parse text = .ok s ↔
      trim text ≠ [] ∧ ∃ parts, s.SpelledBy (trim text) parts) ∧
    (∀ s : Selector, s.Proper → Selector.parse s.render.toList = .ok s) ∧
    (∀ text s, Selector.parse text = .ok s → Selector.parse s.render.toList = .ok s) ∧
    (∀ a : Anchor, a.Proper → parse a.render.toList = .ok a) ∧
    (∀ text a, parse text = .ok a → parse a.render.toList = .ok a) ∧
    (∀ text, Selector.parseBytes text = some (Selector.parse text)) ∧
    ∀ text, parseBytes text = some (parse text) :=
  ⟨fun _ => exists_parse_eq_ok_iff, fun _ _ => Selector.parse_eq_ok_iff, fun _ => Selector.parse_render,
    fun _ _ h => Selector.parse_render (Selector.proper_of_parse h), fun _ => parse_render,
    fun _ _ h => parse_render (proper_of_parse h), Selector.parseBytes_eq, parseBytes_eq⟩

end

/-- The id goes behind the classes and the sign of the number goes, among characters of several bytes. -/
theorem reads_back_umlaut :
    let s : Selector := ⟨some "größe", ["b", "ß"], some "é"⟩
    parse " größe.b#é.ß [ +7 ]\u3000".toList = .ok (nth s 7) ∧
      (nth s 7).render = "größe.b.ß#é[7]" ∧
      parse "größe.b.ß#é[7]".toList = .ok (nth s 7) ∧
      parseBytes " größe.b#é.ß [ +7 ]\u3000".toList = some (.ok (nth s 7)) ∧
      Selector.parse "größe.b#é.ß ".toList = .ok s ∧
      Selector.parse "größe.b.ß#é".toList = .ok s := by
  intro s
  obtain ⟨-, hiff, hrender, -, hanchor, -, -, hbytes⟩ := reads_back
  have hspelled : s.SpelledBy (trim "größe.b#é.ß ".toList) [.ofClass "b", .ofId "é", .ofClass "ß"] :=
    { text_eq := by decide +kernel
      tag := by rintro _ ⟨⟩; decide +kernel
      names := by decide +kernel
      classes := rfl
      id := rfl }
  have hproper : s.Proper := hspelled.proper (by decide +kernel)
  have hselector : Selector.parse "größe.b#é.ß ".toList = .ok s :=
    (hiff _ _).2 ⟨by decide +kernel, _, hspelled⟩
  have hread : parse " größe.b#é.ß [ +7 ]\u3000".toList = .ok (nth s 7) := by
    have hcut : cutIndex (trim " größe.b#é.ß [ +7 ]\u3000".toList) =
        some ("größe.b#é.ß ".toList, " +7 ".toList) := by decide +kernel
    have hnumber : readNat64 (trim " +7 ".toList) = some 7 := by decide +kernel
    have hany : ¬ (trim "größe.b#é.ß ".toList).isEmpty = true := by decide +kernel
    simp only [parse, hcut, hnumber, if_neg hany, hselector]
    rfl
  have hwritten : (nth s 7).render = "größe.b.ß#é[7]" := by decide +kernel
  refine ⟨hread, hwritten, ?_, ?_, hselector, hrender s hproper⟩
  · rw [← hwritten]
    exact hanchor _ ⟨hproper, by decide⟩
  · rw [hbytes, hread]

end Anchor
end Stencil
