import Stencil.Proofs.Phrases
import Stencil.Proofs.Strategies
import Stencil.Rule.Clause

/-! # Clauses that declare rules, read and written

Each item of a clause is read word by word, and what is written of an item is read as that item again, so
items that are written alike are the same. The word in front of the items and the semicolon behind them
say nothing, as long as they are told from the items. An item that could be the name at a use is read
where that name is, and denies what that name can mean.
-/
namespace Stencil.Denial

open Text

variable {d d' : Denial} {c : Category} {text rest word : List Char} {ws : List (List Char)}

/-! ## The words of an item -/

/-- What an item says of the category of a definition. -/
def category : Denial → Category
  | definition c _ => c
  | definitions c => c
  | _ => .any

/-- What stands in an item behind the category. -/
def subject : Denial → List (List Char)
  | name n => [n.toList]
  | startingWith stem => [stem.toList ++ ['*']]
  | definition _ n => [n.toList]
  | html => ["@Html".toList]
  | definitions _ => []

def words (d : Denial) : List (List Char) := d.category.words ++ d.subject

section

variable [Alphabet]

/-- The names in it are names, and a category in it says something. -/
def Proper : Denial → Prop
  | name n => isName n.toList = true
  | startingWith stem => isName stem.toList = true
  | definition c n => c ≠ .any ∧ isName n.toList = true
  | html => True
  | definitions c => c ≠ .any

theorem parseName_eq_ok (h : parseName c word = .ok d) :
    d.Proper ∧ d.category = c ∧ d.subject = [word] := by
  have hlist (cs : List Char) : (String.ofList cs).toList = cs := String.toList_ofList
  unfold parseName at h
  dsimp only at h
  split at h
  · rename_i hany
    subst hany
    split at h
    · rename_i hstar
      split at h
      · rename_i hname
        cases h
        refine ⟨by rwa [Proper, hlist], rfl, ?_⟩
        rw [subject, hlist, List.dropLast_append_getLast? '*' hstar]
      · cases h
    · split at h
      · rename_i hname
        cases h
        exact ⟨by rwa [Proper, hlist], rfl, by rw [subject, hlist]⟩
      · cases h
  · rename_i hany
    split at h
    · rename_i hname
      cases h
      exact ⟨⟨hany, by rwa [hlist]⟩, rfl, by rw [subject, hlist]⟩
    · cases h

theorem readRest_eq_ok (h : readRest c ws = .ok d) :
    d.Proper ∧ d.category = c ∧ d.subject = ws := by
  unfold readRest at h
  split at h
  · split at h
    · cases h
    · rename_i hany
      cases h
      exact ⟨hany, rfl, rfl⟩
  · exact parseName_eq_ok h
  · cases h

/-- A category is not followed by the word for all elements. -/
theorem readPhrase_of_category {mid subject : List (List Char)}
    (horigin : Name.takeOrigin ws = .ok (c.origin, mid))
    (hkind : Name.takeKind mid = .ok (c.kind, subject)) : readPhrase ws = readRest c subject := by
  have hhtml : (mid.head? == some "@Html".toList) = false := by
    rw [beq_eq_false_iff_ne]
    intro hhead
    obtain ⟨rest, rfl⟩ := List.head?_eq_some_iff.1 hhead
    cases hkind
  rw [readPhrase, horigin]
  change (if (c.origin.isNone && mid.head? == some "@Html".toList) = true then _ else _) = _
  rw [hhtml, Bool.and_false, if_neg Bool.false_ne_true]
  rw [hkind]
  rfl

theorem readPhrase_eq_ok (h : readPhrase ws = .ok d) : d.Proper ∧ ws = d.words := by
  obtain ⟨⟨origin, mid⟩, horigin, h⟩ := Except.bind_eq_ok h
  have hws := Name.eq_of_takeMarked Origin.ofKeyword?_eq_some_iff
    (Name.takeOrigin_eq_takeMarked ws ▸ horigin)
  change (if (origin.isNone && mid.head? == some "@Html".toList) = true then _ else _) = _ at h
  split at h
  · rename_i hhtml
    obtain ⟨hnone, hhead⟩ := (Bool.and_eq_true _ _).mp hhtml
    obtain rfl := Option.isNone_iff_eq_none.1 hnone
    obtain ⟨extra, rfl⟩ := List.head?_eq_some_iff.1 (eq_of_beq hhead)
    cases extra with
    | nil =>
      cases h
      exact ⟨trivial, hws⟩
    | cons w extra => cases h
  · obtain ⟨⟨kind, subject⟩, hkind, h⟩ := Except.bind_eq_ok h
    have hmid := Name.eq_of_takeMarked Kind.ofKeyword?_eq_some_iff
      (Name.takeKind_eq_takeMarked mid ▸ hkind)
    obtain ⟨hproper, hcategory, hsubject⟩ := readRest_eq_ok h
    refine ⟨hproper, ?_⟩
    rw [words, hcategory, hsubject, hws, hmid]
    simp [Category.words, Category.keywords]

theorem toList_render (h : d.Proper) : d.render.toList = [' '].intercalate d.words := by
  have hwritten {c : Category} (hany : c ≠ .any) :
      c.render.toList = [' '].intercalate c.words := by
    rw [Category.render, if_neg hany, String.toList_intercalate]
    rfl
  cases d with
  | name n => exact List.intercalate_singleton.symm
  | startingWith stem =>
    rw [render, String.toList_append]
    exact List.intercalate_singleton.symm
  | definition c n =>
    have hbehind : [' '].intercalate (c.words ++ [n.toList]) =
        [' '].intercalate c.words ++ ' ' :: n.toList := by
      obtain ⟨_ | o, _ | k⟩ := c
      · exact absurd rfl h.1
      all_goals simp [Category.words, Category.keywords]
    rw [render, if_neg h.1, String.toList_append, String.toList_append, hwritten h.1,
      List.append_assoc]
    exact hbehind.symm
  | html => exact List.intercalate_singleton.symm
  | definitions c =>
    rw [render, hwritten h, words, subject, List.append_nil]
    rfl

variable [Alphabet.Lawful]

theorem unmarked_of_isName (h : isName word = true) (rest : List Char) :
    (word ++ rest).head? ≠ some '[' ∧ (word ++ rest).head? ≠ some '@' := by
  cases word with
  | nil => cases h
  | cons b word =>
    have hb : beginsName b = true := ((Bool.and_eq_true _ _).mp h).1
    have hne {mark : Char} (hmark : isMark mark = true) : some b ≠ some mark := by
      rintro ⟨⟩
      exact ne_of_isMark hb hmark rfl
    exact ⟨hne (by decide), hne (by decide)⟩

theorem readPhrase_words (h : d.Proper) : readPhrase d.words = .ok d := by
  have hread (hunmarked : ∀ w ∈ d.subject.head?, w.head? ≠ some '[' ∧ w.head? ≠ some '@')
      (hrest : readRest d.category d.subject = .ok d) : readPhrase d.words = .ok d := by
    obtain ⟨mid, horigin, hkind⟩ := Name.takeCategory_append d.category hunmarked
    exact (readPhrase_of_category horigin hkind).trans hrest
  have hlist (n : String) : String.ofList n.toList = n := String.ofList_toList
  cases d with
  | name n =>
    have hname : isName n.toList = true := h
    have hstar : ¬ n.toList.getLast? = some '*' :=
      fun hlast => not_mem_of_isMark hname (by decide) (List.mem_of_getLast? hlast)
    refine hread ?_ ?_
    · rintro w ⟨⟩
      simpa using unmarked_of_isName hname []
    · change parseName .any n.toList = _
      rw [parseName, if_pos rfl, if_neg hstar, if_pos hname, hlist]
  | startingWith stem =>
    have hname : isName stem.toList = true := h
    refine hread ?_ ?_
    · rintro w ⟨⟩
      exact unmarked_of_isName hname _
    · change parseName .any (stem.toList ++ ['*']) = _
      rw [parseName, if_pos rfl, if_pos List.getLast?_concat, List.dropLast_concat, if_pos hname,
        hlist]
  | definition c n =>
    obtain ⟨hany, hname⟩ := h
    refine hread ?_ ?_
    · rintro w ⟨⟩
      simpa using unmarked_of_isName hname []
    · change parseName c n.toList = _
      rw [parseName, if_neg hany, if_pos hname, hlist]
  | html => rfl
  | definitions c => exact hread nofun (if_neg h)

/-- Exactly the words of an item are read as it. -/
theorem readPhrase_eq_ok_iff : readPhrase ws = .ok d ↔ d.Proper ∧ ws = d.words := by
  refine ⟨readPhrase_eq_ok, ?_⟩
  rintro ⟨hproper, rfl⟩
  exact readPhrase_words hproper

theorem isWord_of_mem_words (h : d.Proper) (hw : word ∈ d.words) : IsWord word := by
  rcases List.mem_append.1 hw with hw | hw
  · exact Name.isWord_of_mem_words _ hw
  · cases d with
    | name n => exact List.mem_singleton.1 hw ▸ isWord_of_isName h
    | startingWith stem =>
      have hstem : IsWord stem.toList := isWord_of_isName h
      have hstar : isWhite '*' = false := by decide
      rw [List.mem_singleton.1 hw]
      refine ⟨by simp, fun b hb => ?_⟩
      rcases List.mem_append.1 hb with hb | hb
      · exact hstem.2 b hb
      · exact List.mem_singleton.1 hb ▸ hstar
    | definition c n => exact List.mem_singleton.1 hw ▸ isWord_of_isName h.2
    | html =>
      rw [List.mem_singleton.1 hw]
      decide
    | definitions c => cases hw

theorem words_render (h : d.Proper) : Text.words d.render.toList = d.words := by
  rw [toList_render h, words_intercalate fun w hw => isWord_of_mem_words h hw]

/-- Nothing is written in an item but characters of names and a few marks. -/
theorem not_mem_render (h : d.Proper) {b : Char} (hmark : isMark b = true)
    (hother : b ∉ " []@*".toList) : b ∉ d.render.toList := by
  have hkeyword {w : List Char} (hw : (w.all fun e => !isMark e || " []@*".toList.contains e) = true) :
      b ∉ w := by
    intro hb
    have hor := List.all_eq_true.1 hw b hb
    rw [hmark, Bool.not_true, Bool.false_or, List.contains_iff_mem] at hor
    exact hother hor
  have horigin (o : Origin) : b ∉ o.keyword.toList := by
    cases o <;> exact hkeyword (by decide)
  have hkind (k : Kind) : b ∉ k.keyword.toList := by
    cases k <;> exact hkeyword (by decide)
  have hcategory (c : Category) : ∀ w ∈ c.words, b ∉ w := by
    obtain ⟨_ | o, _ | k⟩ := c <;> simp [Category.words, Category.keywords, horigin, hkind]
  have hnot {w : List Char} (hw : isName w = true) : b ∉ w := not_mem_of_isMark hw hmark
  rw [toList_render h]
  refine not_mem_intercalate (hkeyword (by decide)) fun w hw => ?_
  rcases List.mem_append.1 hw with hw | hw
  · exact hcategory _ w hw
  · cases d with
    | name n => exact List.mem_singleton.1 hw ▸ hnot h
    | startingWith stem =>
      rw [List.mem_singleton.1 hw, List.mem_append]
      exact not_or.2 ⟨hnot h, hkeyword (by decide)⟩
    | definition c n => exact List.mem_singleton.1 hw ▸ hnot h.2
    | html => exact List.mem_singleton.1 hw ▸ hkeyword (by decide)
    | definitions c => cases hw

end

/-! ## The word in front and the semicolon behind -/

/-- The word with which a clause may begin. -/
def keyword : List Char := "except".toList

/-- The text begins with that word, and `rest` is what stands behind it. -/
def Keyed (text rest : List Char) : Prop :=
  text = keyword ++ rest ∧ rest.head?.all isWhite = true

theorem isWord_keyword : IsWord keyword := by decide

theorem Keyed.afterKeyword_eq (h : Keyed text rest) : afterKeyword text = rest := by
  obtain ⟨rfl, hrest⟩ := h
  have hfront : keyword.isPrefixOf (keyword ++ rest) = true :=
    List.isPrefixOf_iff_prefix.2 (List.prefix_append _ _)
  have hdrop : (keyword ++ rest).drop keyword.length = rest := List.drop_left
  change (if (keyword.isPrefixOf _ && ((keyword ++ rest).drop keyword.length).head?.all isWhite) = true
    then (keyword ++ rest).drop keyword.length else _) = _
  rw [hfront, hdrop, hrest]
  rfl

theorem afterKeyword_of_not_keyed (h : ∀ rest, ¬ Keyed text rest) : afterKeyword text = text := by
  refine if_neg fun hkeyed => ?_
  obtain ⟨hfront, hrest⟩ := (Bool.and_eq_true _ _).mp hkeyed
  obtain ⟨rest, rfl⟩ := List.isPrefixOf_iff_prefix.1 hfront
  rw [List.drop_left] at hrest
  exact h rest ⟨rfl, hrest⟩

theorem afterKeyword_cases (text : List Char) :
    (∃ rest, Keyed text rest ∧ afterKeyword text = rest) ∨
      (∀ rest, ¬ Keyed text rest) ∧ afterKeyword text = text := by
  by_cases h : ∃ rest, Keyed text rest
  · obtain ⟨rest, hrest⟩ := h
    exact .inl ⟨rest, hrest, hrest.afterKeyword_eq⟩
  · exact .inr ⟨not_exists.1 h, afterKeyword_of_not_keyed (not_exists.1 h)⟩

theorem afterKeyword_suffix (text : List Char) : afterKeyword text <:+ text := by
  rcases afterKeyword_cases text with ⟨rest, ⟨htext, -⟩, hrest⟩ | ⟨-, hself⟩
  · rw [hrest, htext]
    exact List.suffix_append _ _
  · rw [hself]

/-- A text whose first word is another one does not begin with that word. -/
theorem not_keyed_of_head?_words (h : (Text.words text).head? ≠ some keyword) (rest : List Char) :
    ¬ Keyed text rest := by
  rintro ⟨rfl, hrest⟩
  rw [words_append_of_isWord isWord_keyword hrest] at h
  exact h rfl

theorem Keyed.trimEnd (h : Keyed text rest) : Keyed (trimEnd text) (trimEnd rest) := by
  obtain ⟨rfl, hrest⟩ := h
  refine ⟨trimEnd_append isWord_keyword rest, ?_⟩
  obtain ⟨white, hwhite⟩ : Text.trimEnd rest <+: rest := List.rdropWhile_prefix isWhite rest
  cases hcs : Text.trimEnd rest with
  | nil => rfl
  | cons b cs => rwa [← hwhite, hcs] at hrest

theorem afterKeyword_trimEnd (text : List Char) :
    afterKeyword (trimEnd text) = trimEnd (afterKeyword text) := by
  rcases afterKeyword_cases text with ⟨rest, hkeyed, hrest⟩ | ⟨hnot, hself⟩
  · rw [hrest, hkeyed.trimEnd.afterKeyword_eq]
  · rw [hself]
    refine afterKeyword_of_not_keyed ?_
    rintro rest ⟨htext, hrest⟩
    -- the white space that was trimmed off may stand behind the word
    refine hnot (rest ++ text.rtakeWhile isWhite) ⟨?_, ?_⟩
    · rw [← List.append_assoc, ← htext]
      exact List.rdropWhile_append_rtakeWhile.symm
    · cases rest with
      | nil =>
        exact Option.all_eq_true _ _ |>.2 fun b hb =>
          List.mem_rtakeWhile_imp (List.mem_of_mem_head? hb)
      | cons b rest => exact hrest

/-- Another character behind the text stays there, unless it comes directly behind the word. -/
theorem afterKeyword_concat {b : Char} (hb : b ∉ keyword) (hne : text ≠ keyword) :
    afterKeyword (text ++ [b]) = afterKeyword text ++ [b] := by
  rcases afterKeyword_cases text with ⟨rest, ⟨rfl, hhead⟩, hrest⟩ | ⟨hnot, hself⟩
  · have hkeyed : Keyed (keyword ++ rest ++ [b]) (rest ++ [b]) := by
      refine ⟨List.append_assoc _ _ _, ?_⟩
      cases rest with
      | nil => exact absurd (List.append_nil _) hne
      | cons e rest => exact hhead
    rw [hrest, hkeyed.afterKeyword_eq]
  · rw [hself]
    refine afterKeyword_of_not_keyed ?_
    rintro rest ⟨htext, hrest⟩
    rcases List.eq_nil_or_concat' rest with rfl | ⟨front, e, rfl⟩
    · rw [List.append_nil] at htext
      exact hb (htext ▸ List.mem_append_right _ List.mem_cons_self)
    · rw [← List.append_assoc] at htext
      obtain ⟨hfront, hlast⟩ := List.append_inj' htext rfl
      obtain rfl : b = e := List.singleton_inj.1 hlast
      refine hnot front ⟨hfront, ?_⟩
      cases front with
      | nil => rfl
      | cons e front => exact hrest

theorem dropEndWhile_of_not_mem {b : Char} (h : b ∉ text) :
    dropEndWhile (· == b) text = text := by
  refine List.rdropWhile_eq_self_iff.2 fun hne hlast => h ?_
  rw [← eq_of_beq hlast]
  exact List.getLast_mem hne

theorem dropEndWhile_concat {b : Char} (h : b ∉ text) :
    dropEndWhile (· == b) (text ++ [b]) = text :=
  (List.rdropWhile_concat_pos (· == b) text b (beq_self_eq_true b)).trans (dropEndWhile_of_not_mem h)

/-! ## Clauses -/

/-- A clause with these items. -/
def renderClause (items : List Denial) : String :=
  "except " ++ (", ".intercalate (items.map render) ++ ";")

section

variable [Alphabet]

theorem readClause_eq (clause : String) :
    readClause clause = (phrases (dropEndWhile (· == ';')
      (trim (afterKeyword (trim clause.toList))))).mapM readPhrase :=
  List.mapM_map.symm

/-- Without a semicolon no white space around the text matters. -/
theorem readClause_of_not_mem {clause : String} (h : ';' ∉ clause.toList) :
    readClause clause = (phrases (afterKeyword (trim clause.toList))).mapM readPhrase := by
  have hnot : ';' ∉ trim (afterKeyword (trim clause.toList)) := fun hmem =>
    h (mem_of_mem_trim ((afterKeyword_suffix _).subset (mem_of_mem_trim hmem)))
  rw [readClause_eq, dropEndWhile_of_not_mem hnot, phrases_trim]

/-- A clause that does not begin with the word is read as it stands. -/
theorem readClause_of_head?_words {clause : String}
    (h : (Text.words clause.toList).head? ≠ some keyword) :
    readClause clause =
      (phrases (dropEndWhile (· == ';') (trim clause.toList))).mapM readPhrase := by
  rw [← words_trim] at h
  rw [readClause_eq, afterKeyword_of_not_keyed (not_keyed_of_head?_words h), trim_trim]

/-- Behind the word a clause is read as it stands, whatever it begins with. -/
theorem readClause_keyword_append (clause : String) :
    readClause ("except " ++ clause) =
      (phrases (dropEndWhile (· == ';') (trim clause.toList))).mapM readPhrase := by
  have hspace : isWhite ' ' = true := by decide
  have htext : ("except " ++ clause).toList = keyword ++ ' ' :: clause.toList := String.toList_append
  have hkeyed : Keyed (keyword ++ ' ' :: clause.toList) (' ' :: clause.toList) := ⟨rfl, hspace⟩
  have hstart : trimStart (' ' :: clause.toList) = trimStart clause.toList :=
    List.dropWhile_cons_of_pos hspace
  have htrim : trim (keyword ++ ' ' :: clause.toList) = trimEnd (keyword ++ ' ' :: clause.toList) := rfl
  rw [readClause_eq, htext, htrim, afterKeyword_trimEnd, hkeyed.afterKeyword_eq, trim_trimEnd, trim,
    hstart, trim]

theorem readClause_terminated {clause : String} (h : ';' ∉ clause.toList)
    (hne : trimStart clause.toList ≠ keyword) : readClause (clause ++ ";") = readClause clause := by
  have hwhite : isWhite ';' = false := by decide
  have hnot : ';' ∉ trimStart (afterKeyword (trimStart clause.toList)) := fun hmem =>
    h ((List.dropWhile_suffix _).subset ((afterKeyword_suffix _).subset
      ((List.dropWhile_suffix _).subset hmem)))
  rw [readClause_of_not_mem h, trim, afterKeyword_trimEnd, phrases_trimEnd, readClause_eq,
    String.toList_append]
  change (phrases (dropEndWhile _ (trim (afterKeyword (trim (clause.toList ++ [';'])))))).mapM _ = _
  rw [trim_concat hwhite, afterKeyword_concat (by decide) hne, trim_concat hwhite,
    dropEndWhile_concat hnot, phrases_trimStart]

variable [Alphabet.Lawful]

theorem readClause_renderClause {items : List Denial} (hne : items ≠ [])
    (hproper : ∀ d ∈ items, d.Proper) : readClause (renderClause items) = .ok items := by
  let texts := items.map fun d => d.render.toList
  have hnot {b : Char} (hmark : isMark b = true) (hother : b ∉ " []@*".toList) :
      ∀ cs ∈ texts, b ∉ cs := by
    intro cs hcs
    obtain ⟨d, hd, rfl⟩ := List.mem_map.1 hcs
    exact not_mem_render (hproper d hd) hmark hother
  have hcomma : ∀ cs ∈ texts, ',' ∉ cs := hnot (by decide) (by decide)
  have hsemicolon : ';' ∉ [',', ' '].intercalate texts :=
    not_mem_intercalate (by decide) (hnot (by decide) (by decide))
  have hwords : texts.map Text.words = items.map words := by
    rw [List.map_map]
    exact List.map_congr_left fun d hd => words_render (hproper d hd)
  have htext : (", ".intercalate (items.map render) ++ ";").toList =
      [',', ' '].intercalate texts ++ [';'] := by
    rw [String.toList_append, String.toList_intercalate, List.map_map]
    rfl
  have hstart : ';' ∉ trimStart ([',', ' '].intercalate texts) :=
    fun h => hsemicolon ((List.dropWhile_suffix _).subset h)
  rw [renderClause, readClause_keyword_append, htext, trim_concat (by decide),
    dropEndWhile_concat hstart, phrases_trimStart, phrases_intercalate (by simpa [texts] using hne) hcomma,
    hwords]
  exact (mapM_eq_ok_iff_map readPhrase_eq_ok_iff).2 ⟨rfl, hproper⟩

/-- At least one item is read. -/
theorem readClause_eq_ok {clause : String} {items : List Denial}
    (h : readClause clause = .ok items) : items ≠ [] ∧ ∀ d ∈ items, d.Proper := by
  rw [readClause_eq] at h
  obtain ⟨hphrases, hproper⟩ := (mapM_eq_ok_iff_map readPhrase_eq_ok_iff).1 h
  refine ⟨?_, hproper⟩
  rintro rfl
  exact splitAt_ne_nil _ _ (List.map_eq_nil_iff.1 hphrases)

/-- Proper items, at least one, are what clauses declare. What is written of them is read as them, in
order, so items that were read and are written alike are the same, in any lawful alphabet. -/
theorem clauses_read_back :
    (∀ clause items, readClause clause = .ok items → readClause (renderClause items) = .ok items) ∧
      (∀ items, (∃ clause, readClause clause = .ok items) ↔ items ≠ [] ∧ ∀ d ∈ items, d.Proper) ∧
      ∀ clause clause' items items', readClause clause = .ok items → readClause clause' = .ok items' →
        ∀ d ∈ items, ∀ d' ∈ items', d.render = d'.render → d = d' := by
  refine ⟨fun clause items h => ?_, fun items => ⟨?_, ?_⟩, ?_⟩
  · obtain ⟨hne, hproper⟩ := readClause_eq_ok h
    exact readClause_renderClause hne hproper
  · rintro ⟨clause, h⟩
    exact readClause_eq_ok h
  · exact fun h => ⟨_, readClause_renderClause h.1 h.2⟩
  · intro clause clause' items items' h h' d hd d' hd' hrender
    have hproper : d.Proper := (readClause_eq_ok h).2 d hd
    have hproper' : d'.Proper := (readClause_eq_ok h').2 d' hd'
    have hwords : d.words = d'.words := by
      rw [← words_render hproper, hrender, words_render hproper']
    exact Except.ok.inj ((readPhrase_words hproper).symm.trans (hwords ▸ readPhrase_words hproper'))

end

/-- One item of each shape, and a name that is the word in front. -/
theorem clauses_read_back_each :
    let items := [name "span", startingWith "my-", definition ⟨some .custom, some .element⟩ "Box", html,
      definitions ⟨none, some .var⟩, name "except"]
    readClause " except  span,my-*, [Custom]\t@Element Box ,@Html, @Var, except ;;" = .ok items ∧
      renderClause items = "except span, my-*, [Custom] @Element Box, @Html, @Var, except;" ∧
      readClause (renderClause items) = .ok items := by
  intro items
  have hread :
      readClause " except  span,my-*, [Custom]\t@Element Box ,@Html, @Var, except ;;" = .ok items := by rfl
  exact ⟨hread, by decide +kernel, clauses_read_back.1 _ _ hread⟩

/-- The word alone is an empty clause, and with a semicolon too, unless that comes directly behind it:
then the word is read as a name. -/
theorem readClause_bare {clause : String} (h : trim clause.toList = keyword) :
    readClause clause = .error .empty ∧ readClause (clause ++ ";") =
      if trimStart clause.toList = keyword then .ok [name "except"] else .error .empty := by
  have hclause : readClause clause = .error .empty := by
    rw [readClause_eq, h]
    rfl
  refine ⟨hclause, ?_⟩
  split
  · rename_i hstart
    have htext : trim (clause ++ ";").toList = keyword ++ [';'] := by
      rw [String.toList_append]
      exact (trim_concat (by decide) _).trans (congrArg (· ++ [';']) hstart)
    rw [readClause_eq, htext]
    rfl
  · rename_i hstart
    have hnot : ';' ∉ clause.toList :=
      not_mem_of_isName_trim (h ▸ by decide) (by decide) (by decide)
    rw [readClause_terminated hnot hstart, hclause]

/-- The semicolon behind may be missing, unless it comes directly behind the word in front with nothing
before that. The word in front may be missing where another word is the first one, and so may both. -/
theorem clause_marks_optional (clause : String) :
    (';' ∉ clause.toList →
        (readClause (clause ++ ";") = readClause clause ↔ trimStart clause.toList ≠ keyword)) ∧
      ((Text.words clause.toList).head? ≠ some keyword →
        readClause ("except " ++ clause) = readClause clause) ∧
      (';' ∉ clause.toList → (Text.words clause.toList).head? ≠ some keyword →
        readClause ("except " ++ clause ++ ";") = readClause clause) ∧
      (trim clause.toList = keyword → readClause clause = .error .empty ∧
        readClause (clause ++ ";") =
          if trimStart clause.toList = keyword then .ok [name "except"] else .error .empty) := by
  have hkeyword (hhead : (Text.words clause.toList).head? ≠ some keyword) :
      readClause ("except " ++ clause) = readClause clause := by
    rw [readClause_keyword_append, readClause_of_head?_words hhead]
  refine ⟨fun hnot => ⟨fun hsame hstart => ?_, readClause_terminated hnot⟩, hkeyword,
    fun hnot hhead => ?_, readClause_bare⟩
  · have htrim : trim clause.toList = keyword := by
      rw [trim, hstart]
      rfl
    obtain ⟨hclause, hterminated⟩ := readClause_bare htrim
    rw [hclause, hterminated, if_pos hstart] at hsame
    cases hsame
  · have htext : ("except " ++ clause).toList = "except ".toList ++ clause.toList :=
      String.toList_append
    have hnot' : ';' ∉ ("except " ++ clause).toList := by
      rw [htext, List.mem_append]
      exact not_or.2 ⟨by decide, hnot⟩
    have hne : trimStart ("except " ++ clause).toList ≠ keyword := by
      rw [htext]
      intro hstart
      cases hstart
    rw [readClause_terminated hnot' hne, hkeyword hhead]

/-- A clause of two items with and without the marks, and the word alone with white space behind it. -/
theorem clause_marks_optional_spans :
    readClause " span, my-*;" = readClause " span, my-*" ∧
      readClause "except  span, my-*" = readClause " span, my-*" ∧
      readClause "except  span, my-*;" = readClause " span, my-*" ∧
      readClause " span, my-*" = .ok [name "span", startingWith "my-"] ∧
      readClause "except ;" = .error .empty := by
  have hhead : (Text.words " span, my-*".toList).head? ≠ some keyword := by decide +kernel
  have hnot : ';' ∉ " span, my-*".toList := by decide
  obtain ⟨hterminated, hkeyword, hboth, -⟩ := clause_marks_optional " span, my-*"
  refine ⟨(hterminated hnot).2 (by decide +kernel), hkeyword hhead, hboth hnot hhead, by rfl, ?_⟩
  exact ((clause_marks_optional "except ").2.2.2 (by decide +kernel)).2.trans
    (if_neg (by decide +kernel))

/-- Directly behind the word the semicolon makes a difference. -/
theorem clause_marks_differ :
    readClause "except" = .error .empty ∧ readClause "except;" = .ok [name "except"] ∧
      ¬ ∀ clause : String, ';' ∉ clause.toList → readClause (clause ++ ";") = readClause clause := by
  have hbare : readClause "except" = .error .empty := by rfl
  have hterminated : readClause "except;" = .ok [name "except"] := by rfl
  refine ⟨hbare, hterminated, fun h => ?_⟩
  have hsame : readClause "except;" = readClause "except" := h "except" (by decide)
  rw [hbare, hterminated] at hsame
  cases hsame

/-! ## Items and names -/

/-- The item that says the same as a name without a path. -/
def ofName (n : Name) : Denial :=
  if n.category = .any then name n.name else definition n.category n.name

theorem proper_ofName {n : Name} : (ofName n).Proper ↔ isName n.name.toList = true := by
  unfold ofName
  split
  · rfl
  · rename_i hany
    exact and_iff_right hany

theorem words_ofName (n : Name) : (ofName n).words = n.category.words ++ [n.name.toList] := by
  unfold ofName
  split
  · rename_i hany
    rw [hany]
    rfl
  · rfl

theorem denies_ofName (n : Name) (i : Identity) :
    (ofName n).denies (.definition i) = true ↔ i.name = n.name ∧ n.category.covers i = true := by
  unfold ofName
  split
  · rename_i hany
    have hcovers : n.category.covers i = true := by rw [hany]; rfl
    change (n.name == i.name) = true ↔ _
    rw [beq_iff_eq, and_iff_left hcovers, eq_comm]
  · change (n.name == i.name && n.category.covers i) = true ↔ _
    rw [Bool.and_eq_true, beq_iff_eq, eq_comm]

section OneItem

variable {clause : String} (hcomma : ',' ∉ clause.toList) (hsemicolon : ';' ∉ clause.toList)
  (hhead : (Text.words clause.toList).head? ≠ some keyword)

include hcomma hsemicolon hhead

theorem readClause_eq_singleton_iff :
    readClause clause = .ok [d] ↔ d.Proper ∧ Text.words clause.toList = d.words := by
  have hnot : ';' ∉ trim clause.toList := fun h => hsemicolon (mem_of_mem_trim h)
  rw [readClause_of_head?_words hhead, dropEndWhile_of_not_mem hnot, phrases_trim,
    phrases_of_not_mem hcomma, mapM_eq_ok_iff_map readPhrase_eq_ok_iff]
  simp [and_comm]

/-- A name without a path is read as a name exactly where it is read as an item. -/
theorem readClause_eq_ofName_iff {n : Name} (hpath : n.path = []) :
    readClause clause = .ok [ofName n] ↔ Name.parse clause = .ok n := by
  have hdotted : n.category.words ++ [dotted (n.path ++ [n.name])] = (ofName n).words := by
    rw [words_ofName, hpath, List.nil_append, dotted_singleton]
  have hname : n.Proper ↔ (ofName n).Proper := by
    rw [proper_ofName, Name.Proper, hpath, List.nil_append, List.forall_mem_singleton]
  rw [readClause_eq_singleton_iff hcomma hsemicolon hhead]
  constructor
  · rintro ⟨hproper, hwords⟩
    refine Name.parse_of_spelledBy (hname.2 hproper) ?_
    rw [hwords, ← hdotted]
    exact .inFront
  · intro h
    obtain ⟨hproper, hspelled⟩ := Name.spelledBy_of_parse h
    generalize hws : Text.words clause.toList = ws at hspelled
    cases hspelled with
    | inFront => exact ⟨hname.1 hproper, hdotted⟩
    | behind hne => exact absurd hpath hne

/-- A clause of one item that is a name says the same as a use with that token. It denies what has the name
and is of the category, and of the definitions around a use those that the use can mean. -/
theorem read_like_names :
    (∀ c n, readClause clause = .ok [definition c n] ↔
        Name.parse clause = .ok ⟨c.origin, c.kind, [], n⟩ ∧ c ≠ .any) ∧
      (∀ n, readClause clause = .ok [name n] ↔ Name.parse clause = .ok ⟨none, none, [], n⟩) ∧
      ∀ n, Name.parse clause = .ok n → n.path = [] → ∃ d, readClause clause = .ok [d] ∧
        (∀ i, d.denies (.definition i) = true ↔ i.name = n.name ∧ n.category.covers i = true) ∧
        ∀ (c : Compilation) start, c.Reachable → c.namespaces.table.Holds start →
          (∀ a ∈ c.namespaces.outward start, ∀ id, ¬ c.library.Aliases n.name n.category a id) →
          ∀ id, (∃ s r, (c.library.under s).lookup start n n.category = .ok r ∧ id ∈ r.ids) ↔
            ∃ a ∈ c.namespaces.outward start, ∃ i, c.namespaces.definition? a i = some id ∧
              d.denies (.definition i) = true := by
  refine ⟨fun c n => ?_, fun n => ?_, fun n hparse hpath => ⟨ofName n, ?_, denies_ofName n, ?_⟩⟩
  · have hread (hany : c ≠ .any) : readClause clause = .ok [definition c n] ↔
        Name.parse clause = .ok ⟨c.origin, c.kind, [], n⟩ := by
      have hitem : definition c n = ofName ⟨c.origin, c.kind, [], n⟩ := (if_neg hany).symm
      rw [hitem, readClause_eq_ofName_iff hcomma hsemicolon hhead rfl]
    constructor
    · intro h
      have hany : c ≠ .any := ((readClause_eq_singleton_iff hcomma hsemicolon hhead).1 h).1.1
      exact ⟨(hread hany).1 h, hany⟩
    · exact fun h => (hread h.2).2 h.1
  · exact readClause_eq_ofName_iff hcomma hsemicolon hhead (n := ⟨none, none, [], n⟩) rfl
  · exact (readClause_eq_ofName_iff hcomma hsemicolon hhead hpath).2 hparse
  · intro c start hreach hstart hnone id
    have hcandidate : id ∈ (c.namespaces.candidatesAround start n.name n.category).flatten ↔
        ∃ a ∈ c.namespaces.outward start, ∃ i, c.namespaces.definition? a i = some id ∧
          (ofName n).denies (.definition i) = true := by
      simp only [NamespaceTree.mem_flatten_candidatesAround, NamespaceTree.mem_candidates,
        denies_ofName]
    have hclosed : c.Closed := hreach.intact.toClosed
    rw [← hcandidate]
    constructor
    · rintro ⟨s, r, hr, hid⟩
      obtain ⟨r', hr', -, hids⟩ := Compilation.exists_lookup_under hclosed hstart hpath hnone s
      obtain rfl := Except.ok.inj (hr.symm.trans hr')
      exact hids id hid
    · intro hid
      refine ⟨.error, _, Compilation.lookup_under_error hclosed hstart hpath hnone, ?_⟩
      rwa [Outcome.ids_ofCandidates]

end OneItem

/-- Boxes that are styles are denied, and those that are elements are not. -/
theorem read_like_names_box :
    ',' ∉ " @Style  Box".toList ∧ ';' ∉ " @Style  Box".toList ∧
      (Text.words " @Style  Box".toList).head? ≠ some keyword ∧
      Name.parse " @Style  Box" = .ok ⟨none, some .style, [], "Box"⟩ ∧
      readClause " @Style  Box" = .ok [definition ⟨none, some .style⟩ "Box"] ∧
      ∃ d, readClause " @Style  Box" = .ok [d] ∧
        d.denies (.definition ⟨.template, .style, "Box"⟩) = true ∧
        d.denies (.definition ⟨.template, .element, "Box"⟩) = false := by
  have hcomma : ',' ∉ " @Style  Box".toList := by decide
  have hsemicolon : ';' ∉ " @Style  Box".toList := by decide
  have hhead : (Text.words " @Style  Box".toList).head? ≠ some keyword := by decide +kernel
  have hparse : Name.parse " @Style  Box" = .ok ⟨none, some .style, [], "Box"⟩ := by rfl
  obtain ⟨hitem, -, hrest⟩ := read_like_names hcomma hsemicolon hhead
  obtain ⟨d, hd, hdenies, -⟩ := hrest _ hparse rfl
  refine ⟨hcomma, hsemicolon, hhead, hparse, (hitem _ _).2 ⟨hparse, nofun⟩, d, hd,
    (hdenies _).2 ⟨rfl, rfl⟩, Bool.eq_false_iff.2 fun h => ?_⟩
  exact absurd ((hdenies _).1 h).2 (by decide)

end Stencil.Denial
