import Stencil.Proofs.Nesting
import Stencil.Proofs.Scanning

/-! # Where references stand in a text

The references in a text lie side by side: each stands between places of the text as it was read, and what
has the form of a reference was read unless it begins inside of one that was. Where values take the place
of references, all else stays byte for byte.
-/
namespace Stencil

namespace Text

/-- No name is under way behind a text if its last character continues none. -/
theorem endsInWord_eq_false_iff {cs : List Char} :
    endsInWord false cs = false ↔ ∀ c ∈ cs.getLast?, continuesName c = false := by
  refine ⟨fun h c hc => ?_, endsInWord_of_getLast?⟩
  obtain ⟨front, rfl⟩ := List.getLast?_eq_some_iff.1 hc
  rw [endsInWord_append] at h
  exact h

end Text

namespace Reference

open Text ValuePiece

/-! ## Reading by byte offsets -/

section

variable {text before rest group : List Char} {start stop next : Nat} {inWord : Bool} {c : Char}
  {a : Argument} {r? : Option Reference}

/-- Where the name that begins at a byte offset ends. None begins there if one is under way. -/
def groupEnd (text : List Char) (start : Nat) : Option Nat := do
  let before ← slice text 0 start
  if endsInWord false before then return start else nameEnd text start

/-- One step of reading at a byte offset: where reading goes on, with the reference that was read up to
there, or nothing at the end of the text. There is no answer if the step comes upon an offset inside of a
character. -/
def readStep (text : List Char) (start : Nat) : Option (Option (Nat × Option Reference)) := do
  match ← dropBytes start text with
  | [] => return none
  | c :: _ =>
    let stop ← groupEnd text start
    if stop = start then return some (start + c.utf8Size, none)
    match readArgument (← dropBytes stop text) with
    | none => return some (stop, none)
    | some a =>
      let group ← slice text start stop
      return some (stop + 1 + byteLength a.inner + 1,
        some ⟨String.ofList group, String.ofList a.key, a.override.map String.ofList⟩)

theorem le_of_groupEnd (h : groupEnd text start = some stop) : start ≤ stop := by
  obtain ⟨before, -, h⟩ := Option.bind_eq_some_iff.1 h
  split at h
  · exact Nat.le_of_eq (Option.some.inj h)
  · exact le_of_nameEnd h

/-- Reading gets further with each step. -/
theorem lt_of_readStep (h : readStep text start = some (some (next, r?))) :
    start < next ∧ start < byteLength text := by
  obtain ⟨rest, hrest, h⟩ := Option.bind_eq_some_iff.1 h
  obtain ⟨front, rfl, rfl⟩ := dropBytes_eq_some_iff.1 hrest
  cases rest with
  | nil => cases h
  | cons c cs =>
    have hc := c.utf8Size_pos
    refine ⟨?_, by rw [byteLength_append, byteLength_cons]; omega⟩
    obtain ⟨stop, hstop, h⟩ := Option.bind_eq_some_iff.1 h
    have hle := le_of_groupEnd hstop
    split at h
    · cases h
      omega
    · obtain ⟨behind, -, h⟩ := Option.bind_eq_some_iff.1 h
      split at h
      · cases h
        omega
      · obtain ⟨group, -, h⟩ := Option.bind_eq_some_iff.1 h
        cases h
        omega

/-- Reads references from a byte offset on, step by step. -/
def readFrom (text : List Char) (start : Nat) : Option (List (Reference × Nat × Nat)) :=
  match h : readStep text start with
  | none => none
  | some none => some []
  | some (some (next, r?)) =>
    have := lt_of_readStep h
    (readFrom text next).map fun found => (r?.map fun r => (r, start, next)).toList ++ found
termination_by byteLength text - start
decreasing_by omega

theorem readFrom_of_done (h : readStep text start = some none) : readFrom text start = some [] := by
  rw [readFrom]
  split <;> simp_all

theorem readFrom_of_step (h : readStep text start = some (some (next, r?))) :
    readFrom text start =
      (readFrom text next).map fun found => (r?.map fun r => (r, start, next)).toList ++ found := by
  rw [readFrom]
  split <;> simp_all

theorem groupEnd_append (hword : endsInWord false before = inWord) (rest : List Char) :
    groupEnd (before ++ rest) (byteLength before) =
      some (byteLength before + if inWord then 0 else byteLength (leadingName rest)) := by
  have hslice := slice_append [] before rest
  rw [byteLength_nil, Nat.zero_add, List.nil_append] at hslice
  rw [groupEnd, hslice, nameEnd_append]
  cases inWord <;> simp [hword]

/-- A character that no name begins with is passed over. -/
theorem readStep_within (hword : endsInWord false before = inWord)
    (hc : (inWord || !beginsName c) = true) (cs : List Char) :
    readStep (before ++ c :: cs) (byteLength before) = some (some (byteLength (before ++ [c]), none)) := by
  have hend : groupEnd (before ++ c :: cs) (byteLength before) = some (byteLength before) := by
    rw [groupEnd_append hword]
    cases inWord <;> simp_all [leadingName]
  simp [readStep, dropBytes_append, hend]

/-- What follows a name decides what is read there. -/
theorem readStep_group (hword : endsInWord false before = false) (hc : beginsName c = true)
    (cs : List Char) :
    readStep (before ++ c :: cs) (byteLength before) = some
      (match readArgument (afterName (c :: cs)) with
      | none => some (byteLength (before ++ leadingName (c :: cs)), none)
      | some a => some (byteLength (before ++ written (leadingName (c :: cs)) a.inner),
          some ⟨String.ofList (leadingName (c :: cs)), String.ofList a.key,
            a.override.map String.ofList⟩)) := by
  have hname := leadingName_ne_nil hc cs
  have hcut := leadingName_append_afterName (c :: cs)
  obtain ⟨d, ds, hname⟩ := List.exists_cons_of_ne_nil hname
  have hend := groupEnd_append hword (c :: cs)
  have hpos := byteLength_cons_pos d ds
  have hrest := dropBytes_append (before ++ leadingName (c :: cs)) (afterName (c :: cs))
  rw [List.append_assoc, hcut, byteLength_append] at hrest
  have hslice := slice_append before (leadingName (c :: cs)) (afterName (c :: cs))
  rw [hcut] at hslice
  have hne : byteLength before + byteLength (leadingName (c :: cs)) ≠ byteLength before := by
    rw [hname]
    omega
  simp only [readStep, dropBytes_append, hend, bind, Option.bind, Bool.false_eq_true, if_false, hne,
    hrest, hslice]
  split
  · simp
  · simp only [written, byteLength_append, byteLength_cons, byteLength_nil, Nat.add_assoc]
    rfl

end

/-- From a place on the same references are read by offsets as are found among the pieces, where none
of the offsets lies inside of a character. -/
theorem readFrom_append (inWord : Bool) (rest : List Char) :
    ∀ before, endsInWord false before = inWord →
      readFrom (before ++ rest) (byteLength before) =
        some (located (byteLength before) (scan inWord rest)) := by
  fun_induction scan inWord rest with
  | case1 inWord =>
    intro before hword
    apply readFrom_of_done
    rw [readStep, dropBytes_append]
    rfl
  | case2 inWord c cs hc ih =>
    intro before hword
    have hrest := ih (before ++ [c]) (by rw [endsInWord_append]; rfl)
    rw [List.append_assoc, List.singleton_append] at hrest
    rw [readFrom_of_step (readStep_within hword hc cs), hrest]
    simp [located, source]
  | case3 inWord c cs hc group hlt ha ih =>
    intro before hword
    obtain ⟨rfl, hbegins⟩ : inWord = false ∧ beginsName c = true := by simpa using hc
    have hstep := readStep_group hword hbegins cs
    rw [ha] at hstep
    have hword' : endsInWord false (before ++ group) = true := by
      rw [endsInWord_append, endsInWord_of_isName (isName_leadingName_cons hbegins)]
    have hrest := ih _ hword'
    rw [List.append_assoc, leadingName_append_afterName] at hrest
    rw [readFrom_of_step hstep, hrest]
    simp [located, source, group]
  | case4 inWord c cs hc group hlt a ha hlt' ih =>
    intro before hword
    obtain ⟨rfl, hbegins⟩ : inWord = false ∧ beginsName c = true := by simpa using hc
    have hstep := readStep_group hword hbegins cs
    rw [ha] at hstep
    have hcut : c :: cs = written group a.inner ++ a.rest := eq_written_append ha
    have hrest := ih _ (endsInWord_written false before group a.inner)
    rw [List.append_assoc, ← hcut] at hrest
    rw [readFrom_of_step hstep, hrest]
    simp [located, source, written, group]

/-! ## The references that are found -/

/-- What stands between the parentheses is cut at its first equals sign, and the parts are trimmed. -/
inductive Divides : List Char → List Char → Option (List Char) → Prop
  | key {inner : List Char} (h : '=' ∉ inner) : Divides inner (trim inner) none
  | value {key value : List Char} (h : '=' ∉ key) :
    Divides (key ++ '=' :: value) (trim key) (some (trim value))

theorem divides_iff {inner key : List Char} {value : Option (List Char)} :
    Divides inner key value ↔ splitInner inner = (key, value) := by
  constructor
  · rintro (h | h)
    · exact splitInner_of_not_mem h
    · exact splitInner_of_cut (cutAt_append h _)
  · intro h
    cases hcut : cutAt '=' inner with
    | none =>
      rw [splitInner_of_not_mem (cutAt_eq_none_iff.1 hcut)] at h
      cases h
      exact .key (cutAt_eq_none_iff.1 hcut)
    | some parts =>
      rw [splitInner_of_cut hcut] at h
      cases h
      rw [eq_of_cutAt hcut]
      exact .value (not_mem_of_cutAt hcut)

/-- From the byte offset `start` up to `stop` the text has the form of the reference, between `before` and
`after` and with `inner` between its parentheses. -/
structure Stands (text : List Char) (r : Reference) (start stop : Nat)
    (before inner after : List Char) : Prop where
  text_eq : text = before ++ (written r.group.toList inner ++ after)
  start_eq : start = byteLength before
  stop_eq : stop = start + byteLength (written r.group.toList inner)
  group : isName r.group.toList = true
  /-- No name goes on before the group or behind it. -/
  word : ∀ c, c ∈ before.getLast? ∨ c ∈ ('(' :: inner ++ ')' :: after).head? →
    continuesName c = false
  closed : ')' ∉ inner
  divided : Divides inner r.key.toList (r.override.map String.toList)
  key : isName r.key.toList = true

section

variable {text before inner after group : List Char} {start stop : Nat} {r : Reference}

theorem stands_ofParts (h : Shaped group inner)
    (hword : endsInWord false before = false) (after : List Char) :
    Stands (before ++ (written group inner ++ after)) (ofParts group inner) (byteLength before)
      (byteLength before + byteLength (written group inner)) before inner after where
  text_eq := by rw [ofParts, String.toList_ofList]
  start_eq := rfl
  stop_eq := by rw [ofParts, String.toList_ofList]
  group := by
    rw [ofParts, String.toList_ofList]
    exact h.group
  word := by
    rintro c (hc | ⟨⟨⟩⟩)
    · exact endsInWord_eq_false_iff.1 hword c hc
    · exact not_continuesName_paren
  closed := h.closed
  divided := by
    rw [divides_iff, ofParts, String.toList_ofList]
    cases hvalue : (splitInner inner).2 <;> simp [Prod.ext_iff, hvalue]
  key := by
    rw [ofParts, String.toList_ofList]
    exact h.key

theorem Stands.shaped (h : Stands text r start stop before inner after) :
    Shaped r.group.toList inner where
  group := h.group
  closed := h.closed
  key := by
    rw [divides_iff.1 h.divided]
    exact h.key

theorem Stands.eq_ofParts (h : Stands text r start stop before inner after) :
    r = ofParts r.group.toList inner := by
  obtain ⟨group, key, value⟩ := r
  rw [ofParts, divides_iff.1 h.divided]
  cases value <;> simp

theorem Stands.lt (h : Stands text r start stop before inner after) : start < stop := by
  have hparen : 0 < byteLength [')'] := byteLength_cons_pos _ _
  rw [h.stop_eq, written, byteLength_append]
  omega

theorem Stands.isValid_start (h : Stands text r start stop before inner after) :
    (⟨start⟩ : String.Pos.Raw).IsValid (String.ofList text) := by
  rw [← isSome_dropBytes_iff, h.text_eq, h.start_eq, dropBytes_append, Option.isSome_some]

theorem Stands.isValid_stop (h : Stands text r start stop before inner after) :
    (⟨stop⟩ : String.Pos.Raw).IsValid (String.ofList text) := by
  rw [← isSome_dropBytes_iff, h.text_eq, h.stop_eq, h.start_eq, ← List.append_assoc,
    ← byteLength_append, dropBytes_append, Option.isSome_some]

/-- What stands between the places is the reference as it is written. -/
theorem Stands.slice_eq (h : Stands text r start stop before inner after) :
    slice text start stop = some (written r.group.toList inner) := by
  rw [h.text_eq, h.stop_eq, h.start_eq, slice_append]

theorem located_append (n : Nat) (ps qs : List ValuePiece) :
    located n (ps ++ qs) = located n ps ++ located (n + byteLength (ps.flatMap source)) qs := by
  induction ps generalizing n with
  | nil => rfl
  | cons p ps ih => cases p <;> simp [located, ih, Nat.add_assoc]

theorem le_of_mem_located {n : Nat} {ps : List ValuePiece} {x : Reference × Nat × Nat}
    (h : x ∈ located n ps) : n ≤ x.2.1 := by
  induction ps generalizing n with
  | nil => cases h
  | cons p ps ih =>
    cases p with
    | plain text => exact Nat.le_of_add_right_le (ih h)
    | reference r source =>
      rcases List.mem_cons.1 h with rfl | h
      · exact Nat.le_refl _
      · exact Nat.le_of_add_right_le (ih h)

/-- References lie side by side, in the order in which they were read. -/
theorem pairwise_located (n : Nat) (ps : List ValuePiece) :
    (located n ps).Pairwise fun x y => x.2.2 ≤ y.2.1 := by
  induction ps generalizing n with
  | nil => exact .nil
  | cons p ps ih =>
    cases p with
    | plain text => exact ih _
    | reference r source => exact .cons (fun y hy => le_of_mem_located hy) (ih _)

theorem ofParts_of_readArgument {cs : List Char} {a : Argument} (hgroup : isName group = true)
    (h : readArgument cs = some a) : Shaped group a.inner ∧ ofParts group a.inner =
      ⟨String.ofList group, String.ofList a.key, a.override.map String.ofList⟩ := by
  unfold readArgument at h
  split at h
  · split at h
    · cases h
    · rename_i inner rest hcut
      simp only [Option.ite_none_right_eq_some, Option.some.injEq] at h
      obtain ⟨hkey, rfl⟩ := h
      exact ⟨⟨hgroup, not_mem_of_cutAt hcut, hkey⟩, rfl⟩
  · cases h

/-- What is found stands where it is found. -/
theorem stands_of_mem_located (inWord : Bool) (rest : List Char) :
    ∀ before, endsInWord false before = inWord →
      ∀ x ∈ located (byteLength before) (scan inWord rest), ∃ front inner after,
        Stands (before ++ rest) x.1 x.2.1 x.2.2 front inner after := by
  fun_induction scan inWord rest with
  | case1 inWord =>
    intro before hword x hx
    cases hx
  | case2 inWord c cs hc ih =>
    intro before hword x hx
    have hrest := ih (before ++ [c]) (by rw [endsInWord_append]; rfl)
    rw [byteLength_append, List.append_assoc] at hrest
    exact hrest x hx
  | case3 inWord c cs hc group hlt ha ih =>
    intro before hword x hx
    obtain ⟨rfl, hbegins⟩ : inWord = false ∧ beginsName c = true := by simpa using hc
    have hrest := ih (before ++ group)
      (by rw [endsInWord_append, endsInWord_of_isName (isName_leadingName_cons hbegins)])
    rw [byteLength_append, List.append_assoc, leadingName_append_afterName] at hrest
    exact hrest x hx
  | case4 inWord c cs hc group hlt a ha hlt' ih =>
    intro before hword x hx
    obtain ⟨rfl, hbegins⟩ : inWord = false ∧ beginsName c = true := by simpa using hc
    have hgroup : isName group = true := isName_leadingName_cons hbegins
    have hcut : c :: cs = written group a.inner ++ a.rest := eq_written_append ha
    rcases List.mem_cons.1 hx with rfl | hx
    · obtain ⟨hshaped, hparts⟩ := ofParts_of_readArgument hgroup ha
      have hstands := stands_ofParts hshaped hword a.rest
      rw [← hcut, hparts] at hstands
      exact ⟨before, a.inner, a.rest, hstands⟩
    · have hrest := ih _ (endsInWord_written false before group a.inner)
      rw [byteLength_append, List.append_assoc, ← hcut] at hrest
      exact hrest x hx

/-- A reference is found behind a text that is not open. -/
theorem mem_located_written (h : Shaped group inner) (hword : endsInWord false before = false)
    (hopen : ¬ IsOpen false before) (after : List Char) :
    (ofParts group inner, byteLength before, byteLength before + byteLength (written group inner)) ∈
      located 0 (scan false (before ++ (written group inner ++ after))) := by
  rw [scan_append_written h after hword hopen, located_append, flatMap_source_scan, Nat.zero_add]
  exact List.mem_append_right _ List.mem_cons_self

/-- What has the form of a reference is found, unless it begins inside of a reference that is found. -/
theorem mem_located_of_stands (h : Stands text r start stop before inner after) :
    (r, start, stop) ∈ located 0 (scan false text) ∨
      ∃ x ∈ located 0 (scan false text), x.2.1 < start ∧ start < x.2.2 := by
  have hword : endsInWord false before = false :=
    endsInWord_eq_false_iff.2 fun c hc => h.word c (.inl hc)
  by_cases hopen : IsOpen false before
  · obtain ⟨_, _, _, _, hopen⟩ := hopen
    obtain ⟨front, outer, key, value, hopens, hfront⟩ := hopen.exists_outermost
    -- The outermost value that is open there runs on through the reference.
    have hgroup : ')' ∉ r.group.toList := not_mem_of_isName h.group (by decide)
    have hrest : ')' ∉ r.group.toList ++ '(' :: inner := by simp [hgroup, h.closed]
    have hmem := mem_located_written (hopens.shaped hrest).1 hopens.word hfront after
    have htext : front ++ (written outer (key ++ '=' :: (value ++ (r.group.toList ++ '(' :: inner))) ++
        after) = text := by
      rw [h.text_eq, hopens.eq]
      simp [written]
    rw [htext] at hmem
    refine .inr ⟨_, hmem, ?_⟩
    have hparen : 0 < '('.utf8Size := Char.utf8Size_pos _
    simp only [h.start_eq, hopens.eq, written, byteLength_append, byteLength_cons]
    omega
  · have hmem := mem_located_written h.shaped hword hopen after
    rw [← h.text_eq, ← h.eq_ofParts, ← h.start_eq, ← h.stop_eq] at hmem
    exact .inl hmem

end

/-! ## Values in the place of references -/

/-- The bytes from an offset on, with values in the place of the ranges that are given for them. -/
def spliced (bytes : ByteArray) (last : Nat) : List (Nat × Nat × String) → ByteArray
  | [] => bytes.extract last bytes.size
  | (start, stop, v) :: changes =>
    bytes.extract last start ++ v.toByteArray ++ spliced bytes stop changes

/-- The value of a reference that was found, if it has one, for the range of the reference. -/
def change {m : Type → Type} [Monad m] (value : Reference → m (Option String))
    (x : Reference × Nat × Nat) : m (Option (Nat × Nat × String)) := do
  return (← value x.1).map fun v => (x.2.1, x.2.2, v)

theorem size_utf8Encode (cs : List Char) : cs.utf8Encode.size = byteLength cs := by
  rw [byteLength_eq_utf8ByteSize, ← String.toByteArray_ofList, String.size_toByteArray]

theorem extract_utf8Encode (front mid rest : List Char) :
    (front ++ (mid ++ rest)).utf8Encode.extract (byteLength front)
      (byteLength front + byteLength mid) = mid.utf8Encode := by
  rw [List.utf8Encode_append, List.utf8Encode_append]
  exact (ByteArray.extract_append_size_add' (i := 0) (size_utf8Encode front).symm).trans
    (ByteArray.extract_append_eq_left (size_utf8Encode mid).symm)

section

variable {m : Type → Type} [Monad m] [LawfulMonad m]

/-- What becomes of the pieces behind a place is the text from there on with the values in it, where the
bytes from `last` up to the place are still to be written. -/
theorem mapM_replaceIn (value : Reference → m (Option String)) (ps : List ValuePiece) :
    ∀ (front : List Char) (last : Nat), last ≤ byteLength front → ∀ bytes : ByteArray,
      bytes = (front ++ ps.flatMap source).utf8Encode →
      (fun out => bytes.extract last (byteLength front) ++ out.flatten.utf8Encode) <$>
          ps.mapM (replaceIn value) =
        spliced bytes last <$> (located (byteLength front) ps).filterMapM (change value) := by
  induction ps with
  | nil =>
    rintro front last - _ rfl
    simp [located, spliced, size_utf8Encode]
  | cons p ps ih =>
    intro front last hlast bytes hbytes
    rw [List.flatMap_cons] at hbytes
    have hpiece : bytes.extract (byteLength front) (byteLength front + byteLength p.source) =
        p.source.utf8Encode := by
      rw [hbytes, extract_utf8Encode]
    rw [← List.append_assoc] at hbytes
    -- A piece that stays as it is written is one more part of what is still to be written.
    have hkept (start : Nat) (hstart : start ≤ byteLength front + byteLength p.source) :=
      ih (front ++ p.source) start (by rwa [byteLength_append]) bytes hbytes
    simp only [byteLength_append] at hkept
    have hsame (out : List (List Char)) :
        bytes.extract last (byteLength front) ++ (p.source.utf8Encode ++ out.flatten.utf8Encode) =
          bytes.extract last (byteLength front + byteLength p.source) ++ out.flatten.utf8Encode := by
      rw [ByteArray.extract_eq_extract_append_extract (byteLength front) hlast (Nat.le_add_right _ _),
        hpiece, ByteArray.append_assoc]
    cases p with
    | plain text =>
      simp only [source] at hkept hsame
      rw [located, source, ← hkept last (Nat.le_trans hlast (Nat.le_add_right _ _))]
      simp [List.mapM_cons, replaceIn, hsame]
    | reference r text =>
      simp only [source] at hkept hsame
      simp only [List.mapM_cons, replaceIn, located, source, List.filterMapM_cons, change, bind_assoc,
        map_bind, pure_bind]
      refine bind_congr fun v? => ?_
      cases v? with
      | none =>
        rw [Option.map_none, ← hkept last (Nat.le_trans hlast (Nat.le_add_right _ _))]
        simp [hsame]
      | some v =>
        have hbehind := congrArg
          (fun out => (bytes.extract last (byteLength front) ++ v.toByteArray ++ ·) <$> out)
          (hkept _ (Nat.le_refl _))
        simpa [spliced, ByteArray.append_assoc] using hbehind

/-- Values are put in for references from left to right, and all that is not replaced stays. -/
theorem toByteArray_replaceAll (value : Reference → m (Option String)) (text : String) :
    String.toByteArray <$> replaceAll value text =
      spliced text.toByteArray 0 <$> (findAll text).filterMapM (change value) := by
  have hbytes : text.toByteArray = ([] ++ (scan false text.toList).flatMap source).utf8Encode := by
    rw [List.nil_append, flatMap_source_scan, String.utf8Encode_toList]
  have hpieces := mapM_replaceIn value _ [] 0 (Nat.zero_le _) _ hbytes
  rw [byteLength_nil] at hpieces
  rw [findAll, ← hpieces]
  simp [replaceAll]

/-- A text none of whose references has a value stays as it is. -/
theorem replaceAll_of_none (text : String) :
    replaceAll (fun _ => (pure none : m (Option String))) text = pure text := by
  have hpiece : replaceIn (fun _ => (pure none : m (Option String))) = fun p => pure p.source := by
    funext p
    cases p <;> simp [replaceIn, source]
  rw [replaceAll, hpiece, List.mapM_pure, pure_bind, ← List.flatMap_def, flatMap_source_scan,
    String.ofList_toList]

end

/-- Reading by byte offsets comes to the end of every text, and what it finds stands side by side between
places of the text, each with the form of a reference; what else has that form begins inside of a
reference that is found. Where references are replaced by values, their ranges are, and nothing else. -/
theorem findAll_exact (text : String) :
    readFrom text.toList 0 = some (findAll text) ∧
    (∀ r start stop, (r, start, stop) ∈ findAll text → start < stop ∧
      (⟨start⟩ : String.Pos.Raw).IsValid text ∧ (⟨stop⟩ : String.Pos.Raw).IsValid text ∧
      ∃ before inner after, Stands text.toList r start stop before inner after ∧
        slice text.toList start stop = some (written r.group.toList inner)) ∧
    ((findAll text).Pairwise fun x y => x.2.2 ≤ y.2.1) ∧
    (∀ r start stop before inner after, Stands text.toList r start stop before inner after →
      (r, start, stop) ∈ findAll text ∨ ∃ x ∈ findAll text, x.2.1 < start ∧ start < x.2.2) ∧
    ∀ {m : Type → Type} [Monad m] [LawfulMonad m],
      (∀ value : Reference → m (Option String),
        String.toByteArray <$> replaceAll value text =
          spliced text.toByteArray 0 <$> (findAll text).filterMapM (change value)) ∧
      replaceAll (fun _ => (pure none : m (Option String))) text = pure text := by
  refine ⟨?_, ?_, pairwise_located _ _, fun _ _ _ _ _ _ h => mem_located_of_stands h,
    fun {m} _ _ => ⟨fun value => toByteArray_replaceAll value text, replaceAll_of_none text⟩⟩
  · exact readFrom_append false text.toList [] rfl
  · intro r start stop hmem
    obtain ⟨before, inner, after, h⟩ := stands_of_mem_located false text.toList [] rfl _ hmem
    rw [List.nil_append] at h
    have hstart := h.isValid_start
    have hstop := h.isValid_stop
    rw [String.ofList_toList] at hstart hstop
    exact ⟨h.lt, hstart, hstop, before, inner, after, h, h.slice_eq⟩

/-- Among characters of several bytes a reference is read and replaced, what only looks like one is
left, and one that begins inside of the other is not read. -/
theorem findAll_exact_umlaut :
    (⟨"Größe", "Maß", some "1é Θ(π"⟩, 8, 34) ∈ findAll "-β(γ) Größe( Maß = 1é Θ(π) λ(" ∧
      (⟨8⟩ : String.Pos.Raw).IsValid "-β(γ) Größe( Maß = 1é Θ(π) λ(" ∧
      Stands "-β(γ) Größe( Maß = 1é Θ(π) λ(".toList ⟨"Θ", "π", none⟩ 28 34
        "-β(γ) Größe( Maß = 1é ".toList "π".toList " λ(".toList ∧
      (∃ x ∈ findAll "-β(γ) Größe( Maß = 1é Θ(π) λ(", x.2.1 < 28 ∧ 28 < x.2.2) ∧
      substituted (fun _ => some "é") "-β(γ) Größe( Maß = 1é Θ(π) λ(".toList = "-β(γ) é λ(" := by
  have hfound : findAll "-β(γ) Größe( Maß = 1é Θ(π) λ(" =
      [(⟨"Größe", "Maß", some "1é Θ(π"⟩, 8, 34)] := by decide +kernel
  have hmem : (⟨"Größe", "Maß", some "1é Θ(π"⟩, 8, 34) ∈ findAll "-β(γ) Größe( Maß = 1é Θ(π) λ(" := by
    simp [hfound]
  have hstands : Stands "-β(γ) Größe( Maß = 1é Θ(π) λ(".toList ⟨"Θ", "π", none⟩ 28 34
      "-β(γ) Größe( Maß = 1é ".toList "π".toList " λ(".toList :=
    { text_eq := by decide
      start_eq := by decide
      stop_eq := by decide
      group := by decide
      word := by rintro _ (⟨⟨⟩⟩ | ⟨⟨⟩⟩) <;> decide
      closed := by decide
      divided := .key (by decide)
      key := by decide }
  obtain ⟨-, hsound, -, hcomplete, -⟩ := findAll_exact "-β(γ) Größe( Maß = 1é Θ(π) λ("
  refine ⟨hmem, (hsound _ _ _ hmem).2.1, hstands, ?_, by decide +kernel⟩
  refine (hcomplete _ _ _ _ _ _ hstands).resolve_left fun h => ?_
  simp [hfound] at h

end Reference
end Stencil
