import Stencil.Group.Name
import Stencil.Proofs.Alphabets
import Stencil.Proofs.Lookup

/-! # How names are spelled

A token is read word by word. The words say an origin, a kind, and the name with its path, which stands
in front of the name or behind it; nothing else is read as a name. What is written of a name is read as
that name again, so names that are written alike are the same.
-/
namespace Stencil

namespace Text

/-! ## Words -/

/-- The characters make up one word. -/
def IsWord (w : List Char) : Prop := w ≠ [] ∧ ∀ c ∈ w, isWhite c = false

theorem isWord_iff {w : List Char} :
    IsWord w ↔ (!w.isEmpty && w.all fun c => !isWhite c) = true := by
  simp [IsWord]

instance (w : List Char) : Decidable (IsWord w) := decidable_of_iff _ isWord_iff.symm

/-- The text holds these words in order, with white space around them. -/
inductive Spaced : List Char → List (List Char) → Prop where
  | nil : Spaced [] []
  | white {c : Char} {cs : List Char} {ws : List (List Char)} (hc : isWhite c = true)
    (h : Spaced cs ws) : Spaced (c :: cs) ws
  | word {w rest : List Char} {ws : List (List Char)} (hw : IsWord w)
    (hrest : rest.head?.all isWhite = true) (h : Spaced rest ws) : Spaced (w ++ rest) (w :: ws)

theorem words_cons_space (cs : List Char) : words (' ' :: cs) = words cs := by
  have h : isWhite ' ' = true := by decide
  rw [words, if_pos h]

/-- A word that white space or the end follows, is the first word of a text. -/
theorem words_append_of_isWord {w rest : List Char} (hw : IsWord w)
    (hrest : rest.head?.all isWhite = true) : words (w ++ rest) = w :: words rest := by
  obtain ⟨hne, hw⟩ := hw
  induction w with
  | nil => contradiction
  | cons c w ih =>
    have hc : isWhite c = false := hw c List.mem_cons_self
    rw [List.cons_append, words, if_neg (by simp [hc])]
    cases w with
    | nil => rw [List.nil_append, if_pos hrest]
    | cons d w =>
      have hd : isWhite d = false := hw d (by simp)
      rw [if_neg (by simp [hd]), ih (by simp) fun e he => hw e (List.mem_cons_of_mem c he)]
      rfl

theorem spaced_words (cs : List Char) : Spaced cs (words cs) := by
  induction cs with
  | nil => exact .nil
  | cons c cs ih =>
    rw [words]
    by_cases hc : isWhite c = true
    · rw [if_pos hc]
      exact .white hc ih
    · have hc : isWhite c = false := by simpa using hc
      rw [if_neg (by simp [hc])]
      split
      · rename_i hrest
        have hw : IsWord [c] := ⟨by simp, by simpa using hc⟩
        exact .word hw hrest ih
      · rename_i hnext
        -- the first word of what follows begins at once, and `c` stands in front of it
        generalize words cs = ws at ih
        cases ih with
        | nil => simp at hnext
        | white hd => simp [hd] at hnext
        | @word w _ _ hw hrest h =>
          have hcw : IsWord (c :: w) := ⟨by simp, List.forall_mem_cons.2 ⟨hc, hw.2⟩⟩
          exact .word hcw hrest h

/-- Words are cut off in one way. -/
theorem words_eq_iff {cs : List Char} {ws : List (List Char)} : words cs = ws ↔ Spaced cs ws := by
  constructor
  · rintro rfl
    exact spaced_words cs
  · intro h
    induction h with
    | nil => rfl
    | white hc h ih => rw [words, if_pos hc, ih]
    | word hw hrest h ih => rw [words_append_of_isWord hw hrest, ih]

/-- Words with spaces between them are read as these words. -/
theorem words_intercalate {ws : List (List Char)} (h : ∀ w ∈ ws, IsWord w) :
    words ([' '].intercalate ws) = ws := by
  induction ws with
  | nil => rfl
  | cons w ws ih =>
    have hw : IsWord w := h w List.mem_cons_self
    cases ws with
    | nil =>
      rw [List.intercalate_singleton, ← List.append_nil w, words_append_of_isWord hw rfl]
      simp [words]
    | cons v ws =>
      have hspace : isWhite ' ' = true := by decide
      rw [List.intercalate_cons_cons, List.append_assoc,
        words_append_of_isWord hw (by simp [hspace]), List.singleton_append, words_cons_space,
        ih fun u hu => h u (List.mem_cons_of_mem w hu)]

/-! ## Dotted names -/

theorem splitAt_eq_splitOn (sep : Char) (cs : List Char) : splitAt sep cs = cs.splitOn sep := by
  induction cs with
  | nil => simp [splitAt]
  | cons c cs ih =>
    obtain ⟨piece, pieces, hpieces⟩ := List.exists_cons_of_ne_nil (splitAt_ne_nil sep cs)
    rw [splitAt, List.splitOn, List.splitOnP_cons_eq_if_modifyHead, ← List.splitOn, ← ih, hpieces]
    by_cases hc : c = sep <;> simp [hc, joinWord]

/-- Segments with dots between them. -/
def dotted (segments : List String) : List Char :=
  ['.'].intercalate (segments.map String.toList)

theorem dotted_singleton (segment : String) : dotted [segment] = segment.toList :=
  List.intercalate_singleton

theorem dotted_cons {segments : List String} (hne : segments ≠ []) (segment : String) :
    dotted (segment :: segments) = segment.toList ++ '.' :: dotted segments := by
  obtain ⟨next, rest, rfl⟩ := List.exists_cons_of_ne_nil hne
  simp [dotted]

section

variable [Alphabet] {segments : List String}

theorem dotted_eq_cons (hne : segments ≠ []) (h : ∀ s ∈ segments, isName s.toList = true) :
    ∃ c cs, dotted segments = c :: cs ∧ beginsName c = true := by
  obtain ⟨s, rest, rfl⟩ := List.exists_cons_of_ne_nil hne
  have hs : isName s.toList = true := h s List.mem_cons_self
  cases hcs : s.toList with
  | nil => simp [hcs, isName] at hs
  | cons c cs =>
    have hc : beginsName c = true := by
      rw [hcs] at hs
      exact ((Bool.and_eq_true _ _).mp hs).1
    by_cases hrest : rest = []
    · exact ⟨c, cs, by rw [hrest, dotted_singleton, hcs], hc⟩
    · exact ⟨c, _, by rw [dotted_cons hrest, hcs, List.cons_append], hc⟩

variable [Alphabet.Lawful]

theorem isWord_of_isName {cs : List Char} (h : isName cs = true) : IsWord cs := by
  refine ⟨?_, fun c hc => not_isWhite_of_continuesName (continuesName_of_isName h hc)⟩
  rintro rfl
  cases h

theorem isWord_dotted (hne : segments ≠ []) (h : ∀ s ∈ segments, isName s.toList = true) :
    IsWord (dotted segments) := by
  have hdot : isWhite '.' = false := by decide
  induction segments with
  | nil => contradiction
  | cons s rest ih =>
    have hs : IsWord s.toList := isWord_of_isName (h s List.mem_cons_self)
    by_cases hrest : rest = []
    · rwa [hrest, dotted_singleton]
    · obtain ⟨-, hwhite⟩ := ih hrest fun t ht => h t (List.mem_cons_of_mem s ht)
      rw [dotted_cons hrest]
      refine ⟨by simp, fun c hc => ?_⟩
      simp only [List.mem_append, List.mem_cons] at hc
      rcases hc with hc | rfl | hc
      · exact hs.2 c hc
      · exact hdot
      · exact hwhite c hc

theorem splitAt_dotted (hne : segments ≠ []) (h : ∀ s ∈ segments, isName s.toList = true) :
    splitAt '.' (dotted segments) = segments.map String.toList := by
  rw [splitAt_eq_splitOn, dotted, List.splitOn_intercalate _ ?_ (by simpa using hne)]
  intro cs hcs
  obtain ⟨s, hs, rfl⟩ := List.mem_map.1 hcs
  exact not_mem_of_isMark (h s hs) (by decide)

end

end Text

theorem Origin.ofKeyword?_eq_some_iff {text : String} {o : Origin} :
    Origin.ofKeyword? text = some o ↔ text = o.keyword := by
  constructor
  · intro h
    simpa [eq_comm] using List.find?_some h
  · rintro rfl
    cases o <;> decide

theorem Kind.ofKeyword?_eq_some_iff {text : String} {k : Kind} :
    Kind.ofKeyword? text = some k ↔ text = k.keyword := by
  constructor
  · intro h
    simpa [eq_comm] using List.find?_some h
  · rintro rfl
    cases k <;> decide

/-- The keywords of a category, as words. -/
def Category.words (c : Category) : List (List Char) := c.keywords.map String.toList

/-- If a piece is read exactly where it is what is written of something, so are several pieces. -/
theorem mapM_eq_ok_iff_map {α β ε : Type} {read : β → Except ε α} {write : α → β} {P : α → Prop}
    (hread : ∀ {b a}, read b = .ok a ↔ P a ∧ b = write a) {bs : List β} {as : List α} :
    bs.mapM read = .ok as ↔ bs = as.map write ∧ ∀ a ∈ as, P a := by
  induction bs generalizing as with
  | nil => cases as <;> simp [pure, Except.pure]
  | cons b bs ih =>
    rw [List.mapM_cons]
    constructor
    · intro h
      obtain ⟨a, ha, h'⟩ := Except.bind_eq_ok h
      obtain ⟨rest, hrest, has⟩ := Except.bind_eq_ok h'
      obtain ⟨hP, rfl⟩ := hread.1 ha
      obtain ⟨rfl, hall⟩ := ih.1 hrest
      obtain rfl : a :: rest = as := Except.ok.inj has
      exact ⟨rfl, List.forall_mem_cons.2 ⟨hP, hall⟩⟩
    · rintro ⟨hbs, hall⟩
      cases as with
      | nil => cases hbs
      | cons a rest =>
        obtain ⟨rfl, hrest⟩ := List.cons.inj hbs
        rw [hread.2 ⟨hall a List.mem_cons_self, rfl⟩,
          ih.2 ⟨hrest, fun x hx => hall x (List.mem_cons_of_mem a hx)⟩]
        rfl

namespace Name

/-! ## Dotted names -/

section

variable [Text.Alphabet]

theorem parseSegment_eq_ok_iff {cs : List Char} {s : String} :
    parseSegment cs = .ok s ↔ Text.isName s.toList = true ∧ cs = s.toList := by
  rw [parseSegment]
  constructor
  · intro hs
    split at hs
    · rename_i hname
      rw [← Except.ok.inj hs, String.toList_ofList]
      exact ⟨hname, rfl⟩
    · cases hs
  · rintro ⟨hname, rfl⟩
    rw [if_pos hname, String.ofList_toList]

theorem mapM_parseSegment_eq_ok_iff {pieces : List (List Char)} {segments : List String} :
    pieces.mapM parseSegment = .ok segments ↔
      pieces = segments.map String.toList ∧ ∀ s ∈ segments, Text.isName s.toList = true :=
  mapM_eq_ok_iff_map parseSegment_eq_ok_iff

/-- Exactly names with dots between them are read, at least one. -/
theorem parseDotted_eq_ok_iff [Text.Alphabet.Lawful] {text : List Char} {segments : List String} :
    parseDotted text = .ok segments ↔
      segments ≠ [] ∧ (∀ s ∈ segments, Text.isName s.toList = true) ∧ text = Text.dotted segments := by
  rw [parseDotted]
  constructor
  · intro h
    split at h
    · cases h
    · obtain ⟨hpieces, hnames⟩ := mapM_parseSegment_eq_ok_iff.1 h
      refine ⟨?_, hnames, ?_⟩
      · rintro rfl
        exact Text.splitAt_ne_nil _ _ hpieces
      · rw [Text.dotted, ← hpieces, Text.splitAt_eq_splitOn, List.intercalate_splitOn]
  · rintro ⟨hne, hnames, rfl⟩
    rw [if_neg (by simpa using (Text.isWord_dotted hne hnames).1),
      mapM_parseSegment_eq_ok_iff.2 ⟨Text.splitAt_dotted hne hnames, hnames⟩]

end

/-! ## Keywords -/

/-- Takes the word of a keyword off the front, if the first word begins with the mark of such
keywords. -/
def takeMarked {α : Type} (mark : Char) (read : String → Option α) (unknown : String → Misspelling) :
    List (List Char) → Except Misspelling (Option α × List (List Char))
  | [] => .ok (none, [])
  | w :: ws =>
    if w.head? = some mark then
      match read (String.ofList w) with
      | some a => .ok (some a, ws)
      | none => .error (unknown (String.ofList w))
    else .ok (none, w :: ws)

theorem takeOrigin_eq_takeMarked (ws : List (List Char)) :
    takeOrigin ws = takeMarked '[' Origin.ofKeyword? .unknownOrigin ws := by
  cases ws with
  | nil => rfl
  | cons w ws =>
    simp only [takeOrigin, takeMarked]
    cases Origin.ofKeyword? (String.ofList w) <;> rfl

theorem takeKind_eq_takeMarked (ws : List (List Char)) :
    takeKind ws = takeMarked '@' Kind.ofKeyword? .unknownKind ws := by
  cases ws with
  | nil => rfl
  | cons w ws =>
    simp only [takeKind, takeMarked]
    cases Kind.ofKeyword? (String.ofList w) <;> rfl

section takeMarked

variable {α : Type} {mark : Char} {read : String → Option α} {keyword : α → String}
  {unknown : String → Misspelling}

theorem takeMarked_keyword (hread : ∀ {text a}, read text = some a ↔ text = keyword a)
    (hmark : ∀ a, (keyword a).toList.head? = some mark) (a : α) (ws : List (List Char)) :
    takeMarked mark read unknown ((keyword a).toList :: ws) = .ok (some a, ws) := by
  rw [takeMarked, if_pos (hmark a), String.ofList_toList, hread.2 rfl]

theorem takeMarked_of_unmarked {ws : List (List Char)} (h : ∀ w ∈ ws.head?, w.head? ≠ some mark) :
    takeMarked mark read unknown ws = .ok (none, ws) := by
  cases ws with
  | nil => rfl
  | cons w ws => rw [takeMarked, if_neg (h w rfl)]

/-- What is left, when a keyword was taken off. -/
theorem eq_of_takeMarked (hread : ∀ {text a}, read text = some a ↔ text = keyword a)
    {ws rest : List (List Char)} {a? : Option α}
    (h : takeMarked mark read unknown ws = .ok (a?, rest)) :
    ws = (a?.map keyword).toList.map String.toList ++ rest := by
  cases ws with
  | nil =>
    cases h
    rfl
  | cons w ws =>
    rw [takeMarked] at h
    split at h
    · split at h
      · rename_i a ha
        cases h
        have hw := hread.1 ha
        simp [← hw]
      · cases h
    · cases h
      rfl

end takeMarked

/-- The words of a category are taken off in front of words that are not marked as keywords. -/
theorem takeCategory_append (category : Category) {ws : List (List Char)}
    (h : ∀ w ∈ ws.head?, w.head? ≠ some '[' ∧ w.head? ≠ some '@') :
    ∃ mid, takeOrigin (category.words ++ ws) = .ok (category.origin, mid) ∧
      takeKind mid = .ok (category.kind, ws) := by
  obtain ⟨origin, kind⟩ := category
  refine ⟨(kind.map Kind.keyword).toList.map String.toList ++ ws, ?_, ?_⟩
  · rw [takeOrigin_eq_takeMarked]
    cases origin with
    | some o =>
      exact takeMarked_keyword Origin.ofKeyword?_eq_some_iff (fun o => by cases o <;> decide) o _
    | none =>
      refine takeMarked_of_unmarked ?_
      cases kind with
      | none => exact fun w hw => (h w hw).1
      | some k => cases k <;> simp [Category.words, Category.keywords, Kind.keyword]
  · rw [takeKind_eq_takeMarked]
    cases kind with
    | some k =>
      exact takeMarked_keyword Kind.ofKeyword?_eq_some_iff (fun k => by cases k <;> decide) k _
    | none => exact takeMarked_of_unmarked fun w hw => (h w hw).2

theorem isWord_of_mem_words (category : Category) {w : List Char} (h : w ∈ category.words) :
    Text.IsWord w := by
  have horigin (o : Origin) : Text.IsWord o.keyword.toList := by cases o <;> decide
  have hkind (k : Kind) : Text.IsWord k.keyword.toList := by cases k <;> decide
  obtain ⟨origin, kind⟩ := category
  cases origin <;> cases kind <;>
    simp only [Category.words, Category.keywords, Option.map_none, Option.map_some,
      Option.toList_none, Option.toList_some, List.nil_append, List.append_nil,
      List.cons_append, List.map_cons, List.map_nil, List.mem_cons, List.not_mem_nil, or_false] at h
  · exact h ▸ hkind _
  · exact h ▸ horigin _
  · rcases h with rfl | rfl
    · exact horigin _
    · exact hkind _

/-! ## Name tokens -/

section

variable [Text.Alphabet]

/-- The name and the segments of its path are names. -/
def Proper (n : Name) : Prop := ∀ s ∈ n.path ++ [n.name], Text.isName s.toList = true

/-- The words of a name token: what is said of the category, then the name behind its path, or the
name and where it is from. -/
inductive SpelledBy (n : Name) : List (List Char) → Prop where
  | inFront : n.SpelledBy (n.category.words ++ [Text.dotted (n.path ++ [n.name])])
  | behind (hpath : n.path ≠ []) :
    n.SpelledBy (n.category.words ++ [n.name.toList, "from".toList, Text.dotted n.path])

variable {n : Name}

theorem parseFrom_eq_ok {path read : List String} {ws : List (List Char)}
    (h : parseFrom path ws = .ok read) :
    (ws = [] ∧ read = path) ∨
      ∃ dotted, ws = ["from".toList, dotted] ∧ path = [] ∧ parseDotted dotted = .ok read := by
  unfold parseFrom at h
  split at h
  · exact .inl ⟨rfl, (Except.ok.inj h).symm⟩
  · split at h
    · rename_i w ws hfrom
      obtain rfl : w = "from".toList := by rw [← hfrom, String.toList_ofList]
      split at h
      · rename_i hpath
        split at h
        · cases h
        · exact .inr ⟨_, rfl, by simpa using hpath, h⟩
        · obtain ⟨segments, -, h⟩ := Except.bind_eq_ok h
          cases h
      · cases h
    · cases h

/-- How a token is read, once its category and the dotted name behind it are known. -/
theorem parse_eq {token : String} {origin : Option Origin} {kind : Option Kind}
    {mid ws : List (List Char)} {dotted : List Char} {front : List String} {name : String}
    (horigin : takeOrigin (Text.words token.toList) = .ok (origin, mid))
    (hkind : takeKind mid = .ok (kind, dotted :: ws))
    (hdotted : parseDotted dotted = .ok (front ++ [name])) :
    parse token = parseFrom front ws >>= fun path => .ok ⟨origin, kind, path, name⟩ := by
  rw [parse, horigin]
  change (takeKind mid >>= _) = _
  rw [hkind]
  change (parseDotted dotted >>= _) = _
  rw [hdotted]
  dsimp only [Bind.bind, Except.bind]
  rw [List.getLast?_concat, List.dropLast_concat]

variable [Text.Alphabet.Lawful]

theorem Proper.dotted (h : n.Proper) :
    parseDotted (Text.dotted (n.path ++ [n.name])) = .ok (n.path ++ [n.name]) :=
  parseDotted_eq_ok_iff.2 ⟨by simp, h, rfl⟩

/-- A dotted name begins with no mark. -/
theorem unmarked_dotted {segments : List String} (hne : segments ≠ [])
    (h : ∀ s ∈ segments, Text.isName s.toList = true) {mark : Char} (hmark : Text.isMark mark = true) :
    (Text.dotted segments).head? ≠ some mark := by
  obtain ⟨c, cs, hcs, hc⟩ := Text.dotted_eq_cons hne h
  rw [hcs]
  rintro ⟨⟩
  exact Text.ne_of_isMark hc hmark rfl

/-- The words of a category are taken off in front of a dotted name. -/
theorem takeCategory (category : Category) {segments : List String} (hne : segments ≠ [])
    (h : ∀ s ∈ segments, Text.isName s.toList = true) (ws : List (List Char)) :
    ∃ mid, takeOrigin (category.words ++ Text.dotted segments :: ws) = .ok (category.origin, mid) ∧
      takeKind mid = .ok (category.kind, Text.dotted segments :: ws) := by
  have hbracket : (Text.dotted segments).head? ≠ some '[' := unmarked_dotted hne h (by decide)
  have hat : (Text.dotted segments).head? ≠ some '@' := unmarked_dotted hne h (by decide)
  exact takeCategory_append category (by simpa using ⟨hbracket, hat⟩)

/-- What is read as a name, spells it. -/
theorem spelledBy_of_parse {token : String} (h : parse token = .ok n) :
    n.Proper ∧ n.SpelledBy (Text.words token.toList) := by
  have hparse := h
  obtain ⟨⟨origin, mid⟩, horigin, h₁⟩ := Except.bind_eq_ok h
  obtain ⟨⟨kind, ws⟩, hkind, h₂⟩ := Except.bind_eq_ok h₁
  cases ws with
  | nil => cases h₂
  | cons w ws =>
    obtain ⟨segments, hsegments, -⟩ := Except.bind_eq_ok h₂
    obtain ⟨hne, hnames, rfl⟩ := parseDotted_eq_ok_iff.1 hsegments
    obtain ⟨front, name, rfl⟩ : ∃ front name, segments = front ++ [name] :=
      ⟨_, _, (List.dropLast_concat_getLast hne).symm⟩
    rw [parse_eq horigin hkind hsegments] at hparse
    obtain ⟨path, hpath, hpart⟩ := Except.bind_eq_ok hparse
    obtain rfl := Except.ok.inj hpart
    have hws : Text.words token.toList =
        Category.words ⟨origin, kind⟩ ++ Text.dotted (front ++ [name]) :: ws := by
      rw [takeOrigin_eq_takeMarked] at horigin
      rw [takeKind_eq_takeMarked] at hkind
      rw [eq_of_takeMarked Origin.ofKeyword?_eq_some_iff horigin,
        eq_of_takeMarked Kind.ofKeyword?_eq_some_iff hkind]
      simp [Category.words, Category.keywords]
    rw [hws]
    rcases parseFrom_eq_ok hpath with ⟨rfl, rfl⟩ | ⟨dotted, rfl, rfl, hdotted⟩
    · exact ⟨hnames, .inFront⟩
    · obtain ⟨hpathne, hpathnames, rfl⟩ := parseDotted_eq_ok_iff.1 hdotted
      rw [List.nil_append, Text.dotted_singleton]
      refine ⟨fun s hs => ?_, .behind hpathne⟩
      rcases List.mem_append.1 hs with hs | hs
      · exact hpathnames s hs
      · exact hnames s hs

/-- What spells a name, is read as this name. -/
theorem parse_of_spelledBy {token : String} (hproper : n.Proper)
    (h : n.SpelledBy (Text.words token.toList)) : parse token = .ok n := by
  generalize hws : Text.words token.toList = ws at h
  cases h with
  | inFront =>
    obtain ⟨mid, horigin, hkind⟩ := takeCategory n.category (by simp) hproper []
    rw [parse_eq (hws ▸ horigin) hkind hproper.dotted]
    rfl
  | behind hpath =>
    have hname : ∀ s ∈ [n.name], Text.isName s.toList = true :=
      fun s hs => hproper s (List.mem_append_right _ hs)
    have hread : parseDotted (Text.dotted [n.name]) = .ok ([] ++ [n.name]) :=
      parseDotted_eq_ok_iff.2 ⟨by simp, hname, rfl⟩
    have hfrom : parseFrom [] ["from".toList, Text.dotted n.path] = .ok n.path :=
      parseDotted_eq_ok_iff.2 ⟨hpath, fun s hs => hproper s (List.mem_append_left _ hs), rfl⟩
    rw [← Text.dotted_singleton n.name] at hws
    obtain ⟨mid, horigin, hkind⟩ :=
      takeCategory n.category (by simp) hname ["from".toList, Text.dotted n.path]
    rw [parse_eq (hws ▸ horigin) hkind hread, hfrom]
    rfl

/-! ## What is written -/

theorem words_render (h : n.Proper) :
    Text.words n.render.toList = n.category.words ++ [Text.dotted (n.path ++ [n.name])] := by
  have hwords : n.render.toList =
      [' '].intercalate (n.category.words ++ [Text.dotted (n.path ++ [n.name])]) := by
    rw [render, String.toList_intercalate, List.map_append, List.map_singleton,
      String.toList_intercalate]
    rfl
  rw [hwords, Text.words_intercalate]
  intro w hw
  rcases List.mem_append.1 hw with hw | hw
  · exact isWord_of_mem_words _ hw
  · rw [List.mem_singleton.1 hw]
    exact Text.isWord_dotted (by simp) h

/-- What is written of a name, is read as this name. -/
theorem parse_render (h : n.Proper) : parse n.render = .ok n :=
  parse_of_spelledBy h (by rw [words_render h]; exact .inFront)

/-- Exactly the tokens whose words spell a name are read, and as this name. What is written of a name
whose parts are names is read as it, so names that were read and are written alike are the same. Of the
alphabet, no more is asked than that it is lawful. -/
theorem parse_faithful :
    (∀ token n, parse token = .ok n ↔
        n.Proper ∧ ∃ ws, Text.Spaced token.toList ws ∧ n.SpelledBy ws) ∧
      (∀ n : Name, n.Proper → parse n.render = .ok n) ∧
      (∀ token n, parse token = .ok n → parse n.render = .ok n) ∧
      ∀ token token' n n', parse token = .ok n → parse token' = .ok n' → n.render = n'.render →
        n = n' := by
  have hagain : ∀ token n, parse token = .ok n → parse n.render = .ok n :=
    fun token n h => parse_render (spelledBy_of_parse h).1
  refine ⟨fun token n => ⟨fun h => ?_, ?_⟩, fun n => parse_render, hagain, ?_⟩
  · obtain ⟨hproper, hspelled⟩ := spelledBy_of_parse h
    exact ⟨hproper, _, Text.spaced_words token.toList, hspelled⟩
  · rintro ⟨hproper, ws, hws, hspelled⟩
    exact parse_of_spelledBy hproper (Text.words_eq_iff.2 hws ▸ hspelled)
  · intro token token' n n' h h' hrender
    have hn := hagain token n h
    rw [hrender, hagain token' n' h'] at hn
    exact (Except.ok.inj hn).symm

end

/-- A box in a room, with its path behind it and more white space than there has to be. -/
theorem parse_faithful_box :
    let box : Name := ⟨some .custom, some .element, ["space", "room"], "Box"⟩
    box.Proper ∧ parse " [Custom]\t@Element  Box from space.room " = .ok box ∧
      parse box.render = .ok box ∧ box.render = "[Custom] @Element space.room.Box" := by
  intro box
  have hproper : box.Proper := by
    change ∀ s ∈ ["space", "room", "Box"], _
    decide +kernel
  have hread : parse " [Custom]\t@Element  Box from space.room " = .ok box := by rfl
  exact ⟨hproper, hread, parse_faithful.2.2.1 _ _ hread, by decide +kernel⟩

end Name
end Stencil
