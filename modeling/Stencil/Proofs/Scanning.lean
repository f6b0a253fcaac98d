import Stencil.Proofs.Alphabets
import Stencil.Proofs.Offsets

/-! # Names are scanned as far as they go

A name is known in two ways: as a whole, from its characters, and in a text, by the byte offset at which it
ends. Both go by the same two classes of characters, and whatever these are, the scanner stops behind the
longest name that begins at a place of the text, and at the place itself if none does.
-/
namespace Stencil.Text

/-- The first character outside of a class stands behind the bytes of those before it. -/
theorem find?_charOffsets (p : Char → Bool) (n : Nat) (cs : List Char) :
    (charOffsets n cs).find? (fun x => !p x.2) =
      (cs.dropWhile p).head?.map fun c => (n + byteLength (cs.takeWhile p), c) := by
  induction cs generalizing n with
  | nil => rfl
  | cons c cs ih =>
    cases hc : p c with
    | true => simp [charOffsets, hc, ih, Nat.add_assoc]
    | false => simp [charOffsets, hc]

section

variable [Alphabet] {cs : List Char}

theorem byteLength_leadingName_add (cs : List Char) :
    byteLength (leadingName cs) + byteLength (afterName cs) = byteLength cs := by
  rw [← byteLength_append, leadingName_append_afterName]

/-- A name that begins at a place ends behind its own bytes. -/
theorem nameEnd_append (front rest : List Char) :
    nameEnd (front ++ rest) (byteLength front) =
      some (byteLength front + byteLength (leadingName rest)) := by
  rw [nameEnd, dropBytes_append, Option.map_some]
  cases rest with
  | nil => rfl
  | cons c cs =>
    cases hc : beginsName c with
    | false => simp [charOffsets, leadingName, hc]
    | true =>
      have hcut := cs.takeWhile_append_dropWhile (p := continuesName)
      simp only [charOffsets, leadingName, hc, if_true, find?_charOffsets]
      cases hrest : cs.dropWhile continuesName with
      | nil =>
        rw [hrest, List.append_nil] at hcut
        simp [hcut]
      | cons d after => simp

theorem le_of_nameEnd {start stop : Nat} (h : nameEnd cs start = some stop) : start ≤ stop := by
  obtain ⟨rest, hrest, -⟩ := Option.map_eq_some_iff.1 h
  obtain ⟨front, rfl, rfl⟩ := dropBytes_eq_some_iff.1 hrest
  rw [nameEnd_append] at h
  exact Option.some.inj h ▸ Nat.le_add_right _ _

/-- The scanner comes to the end of a text that is a name, and of no other but the empty one. -/
theorem isName_iff_nameEnd : isName cs = true ↔ cs ≠ [] ∧ nameEnd cs 0 = some (byteLength cs) := by
  have hend : nameEnd cs 0 = some (byteLength (leadingName cs)) := by
    simpa using nameEnd_append [] cs
  have hbytes := byteLength_leadingName_add cs
  have hafter : byteLength (leadingName cs) = byteLength cs ↔ afterName cs = [] := by
    rw [← byteLength_eq_zero_iff]
    omega
  rw [isName_iff_afterName, hend, Option.some_inj, hafter]

/-- A name as a whole is what a name in a text is: the scanner stops at a boundary between characters, up
to which the text is a name that does not go on there, or nothing if no name begins. This is so whatever
the characters are that identifiers consist of. -/
theorem nameEnd_exact (text : String) :
    (∀ start, (⟨start⟩ : String.Pos.Raw).IsValid text →
      ∃ behind stop name rest, dropBytes start text.toList = some behind ∧
        nameEnd text.toList start = some stop ∧
        (⟨stop⟩ : String.Pos.Raw).IsValid text ∧ start ≤ stop ∧ stop ≤ text.utf8ByteSize ∧
        slice text.toList start stop = some name ∧ dropBytes stop text.toList = some rest ∧
        (stop = start ∧ (∀ c ∈ behind.head?, beginsName c = false) ∨
          isName name = true ∧ ∀ c ∈ rest.head?, continuesName c = false) ∧
        (∀ front, front <+: behind → isName front = true → front <+: name) ∧
        (start < stop ↔ ∃ front, front ≠ [] ∧ front <+: behind ∧ isName front = true)) ∧
    (isName text.toList = true ↔ text ≠ "" ∧ nameEnd text.toList 0 = some text.utf8ByteSize) := by
  refine ⟨fun start hstart => ?_, ?_⟩
  · obtain ⟨behind, hbehind⟩ := Option.isSome_iff_exists.1 (isSome_dropBytes_toList_iff.2 hstart)
    obtain ⟨front, htext, rfl⟩ := dropBytes_eq_some_iff.1 hbehind
    have hcut := leadingName_append_afterName behind
    have hrest : dropBytes (byteLength front + byteLength (leadingName behind)) text.toList =
        some (afterName behind) := by
      refine dropBytes_eq_some_iff.2 ⟨front ++ leadingName behind, ?_, byteLength_append _ _⟩
      rw [htext, List.append_assoc, hcut]
    have hsize : byteLength front + byteLength (leadingName behind) ≤ text.utf8ByteSize := by
      have hbytes := byteLength_leadingName_add behind
      rw [← byteLength_toList, htext, byteLength_append]
      omega
    have hlt : byteLength front < byteLength front + byteLength (leadingName behind) ↔
        leadingName behind ≠ [] := by
      rw [Nat.lt_add_right_iff_pos, Nat.pos_iff_ne_zero, Ne, byteLength_eq_zero_iff]
    refine ⟨behind, _, leadingName behind, afterName behind, hbehind, by rw [htext, nameEnd_append],
      isSome_dropBytes_toList_iff.1 (Option.isSome_of_eq_some hrest), Nat.le_add_right _ _, hsize, ?_,
      hrest, ?_, fun _ hle hname => isPrefix_leadingName hname hle, hlt.trans leadingName_ne_nil_iff⟩
    · have hslice := slice_append front (leadingName behind) (afterName behind)
      rwa [hcut, ← htext] at hslice
    · by_cases hname : leadingName behind = []
      · exact .inl ⟨by rw [hname]; rfl, leadingName_eq_nil_iff.1 hname⟩
      · exact .inr ⟨isName_leadingName hname, not_continuesName_afterName hname⟩
  · rw [isName_iff_nameEnd, byteLength_toList, Ne, String.toList_eq_nil_iff]

end

/-- Behind a dot in the middle, which no name begins with, a name of characters of several bytes goes on up
to a parenthesis. -/
theorem nameEnd_exact_umlaut :
    let text := "2· Größe-π(λ"
    (⟨4⟩ : String.Pos.Raw).IsValid text ∧ nameEnd text.toList 4 = some 14 ∧
      slice text.toList 4 14 = some "Größe-π".toList ∧
      (∀ front, front <+: "Größe-π(λ".toList → isName front = true → front <+: "Größe-π".toList) ∧
      (⟨1⟩ : String.Pos.Raw).IsValid text ∧ nameEnd text.toList 1 = some 1 ∧
      ¬ ∃ front, front ≠ [] ∧ front <+: "· Größe-π(λ".toList ∧ isName front = true := by
  intro text
  have hname : (⟨4⟩ : String.Pos.Raw).IsValid text :=
    isSome_dropBytes_toList_iff.1 (by decide +kernel)
  have hdot : (⟨1⟩ : String.Pos.Raw).IsValid text :=
    isSome_dropBytes_toList_iff.1 (by decide +kernel)
  have hstop : nameEnd text.toList 4 = some 14 := by decide +kernel
  have hstay : nameEnd text.toList 1 = some 1 := by decide +kernel
  have hslice : slice text.toList 4 14 = some "Größe-π".toList := by decide +kernel
  obtain ⟨hscan, -⟩ := nameEnd_exact text
  refine ⟨hname, hstop, hslice, ?_, hdot, hstay, ?_⟩
  · obtain ⟨behind, stop, name, -, hbehind, hstop', -, -, -, hslice', -, -, hlongest, -⟩ := hscan 4 hname
    obtain rfl := Option.some.inj (hstop.symm.trans hstop')
    obtain rfl := Option.some.inj (hslice.symm.trans hslice')
    obtain rfl : "Größe-π(λ".toList = behind := Option.some.inj (Eq.trans (by decide +kernel) hbehind)
    exact hlongest
  · obtain ⟨behind, stop, -, -, hbehind, hstop', -, -, -, -, -, -, -, hiff⟩ := hscan 1 hdot
    obtain rfl := Option.some.inj (hstay.symm.trans hstop')
    obtain rfl : "· Größe-π(λ".toList = behind := Option.some.inj (Eq.trans (by decide +kernel) hbehind)
    exact fun hfront => Nat.lt_irrefl 1 (hiff.2 hfront)

end Stencil.Text
