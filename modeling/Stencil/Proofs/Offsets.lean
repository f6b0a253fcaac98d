import Stencil.Text.Name

/-! # Places in a text, counted in bytes

A byte offset is a place in a text if a character begins there or the text ends there. The places are the
byte lengths of what the text begins with, so what lies behind a place, before it or between two places is
a part of the text.
-/
namespace Stencil.Text

variable {cs ds front mid rest : List Char} {n start stop : Nat}

@[simp] theorem byteLength_nil : byteLength [] = 0 := rfl

@[simp] theorem byteLength_cons (c : Char) (cs : List Char) :
    byteLength (c :: cs) = c.utf8Size + byteLength cs := rfl

@[simp] theorem byteLength_append (cs ds : List Char) :
    byteLength (cs ++ ds) = byteLength cs + byteLength ds := by
  induction cs with
  | nil => simp
  | cons c cs ih => simp [ih, Nat.add_assoc]

/-- Every character takes at least one byte. -/
theorem byteLength_cons_pos (c : Char) (cs : List Char) : 0 < byteLength (c :: cs) :=
  Nat.lt_of_lt_of_le c.utf8Size_pos (Nat.le_add_right _ _)

theorem byteLength_eq_utf8ByteSize (cs : List Char) :
    byteLength cs = (String.ofList cs).utf8ByteSize := by
  induction cs with
  | nil => simp
  | cons c cs ih =>
    rw [← List.singleton_append, String.ofList_append, String.utf8ByteSize_append, byteLength_append,
      ih, ← String.singleton_eq_ofList, String.utf8ByteSize_singleton]
    simp

theorem byteLength_toList (text : String) : byteLength text.toList = text.utf8ByteSize := by
  rw [byteLength_eq_utf8ByteSize, String.ofList_toList]

theorem byteLength_eq_zero_iff : byteLength cs = 0 ↔ cs = [] := by
  cases cs with
  | nil => simp
  | cons c cs => exact iff_of_false (Nat.ne_of_gt (byteLength_cons_pos c cs)) (List.cons_ne_nil c cs)

/-- Behind a place lies what the text goes on with there. -/
theorem dropBytes_eq_some_iff :
    dropBytes n cs = some rest ↔ ∃ front, cs = front ++ rest ∧ byteLength front = n := by
  fun_induction dropBytes n cs with
  | case1 cs =>
    constructor
    · intro h
      exact ⟨[], by simpa using h, rfl⟩
    · rintro ⟨front, rfl, hfront⟩
      rw [byteLength_eq_zero_iff.1 hfront, List.nil_append]
  | case2 n =>
    refine iff_of_false nofun ?_
    rintro ⟨front, hnil, hfront⟩
    obtain ⟨rfl, -⟩ := List.append_eq_nil_iff.1 hnil.symm
    cases hfront
  | case3 n c cs hc ih =>
    rw [ih]
    constructor
    · rintro ⟨front, rfl, hfront⟩
      refine ⟨c :: front, rfl, ?_⟩
      rw [byteLength_cons, hfront, Nat.add_sub_of_le hc]
    · rintro ⟨front, hcs, hfront⟩
      cases front with
      | nil => cases hfront
      | cons d front =>
        obtain ⟨rfl, rfl⟩ := List.cons.inj hcs
        rw [byteLength_cons] at hfront
        exact ⟨front, rfl, Nat.eq_sub_of_add_eq' hfront⟩
  | case4 n c cs hc =>
    refine iff_of_false nofun ?_
    rintro ⟨front, hcs, hfront⟩
    cases front with
    | nil => cases hfront
    | cons d front =>
      obtain ⟨rfl, -⟩ := List.cons.inj hcs
      rw [byteLength_cons] at hfront
      omega

theorem dropBytes_append (front rest : List Char) :
    dropBytes (byteLength front) (front ++ rest) = some rest :=
  dropBytes_eq_some_iff.2 ⟨front, rfl, rfl⟩

/-- The places are the boundaries between the characters in the UTF-8 form. -/
theorem isSome_dropBytes_iff :
    (dropBytes n cs).isSome ↔ (⟨n⟩ : String.Pos.Raw).IsValid (String.ofList cs) := by
  rw [Option.isSome_iff_exists, String.Pos.Raw.isValid_iff_exists_append]
  simp only [dropBytes_eq_some_iff]
  constructor
  · rintro ⟨rest, front, rfl, rfl⟩
    refine ⟨String.ofList front, String.ofList rest, by simp, ?_⟩
    rw [byteLength_eq_utf8ByteSize]
    rfl
  · rintro ⟨front, rest, hcs, hn⟩
    refine ⟨rest.toList, front.toList, ?_, ?_⟩
    · rw [← String.toList_append, ← hcs, String.toList_ofList]
    · rw [byteLength_eq_utf8ByteSize, String.ofList_toList]
      exact (congrArg String.Pos.Raw.byteIdx hn).symm

theorem isSome_dropBytes_toList_iff {text : String} :
    (dropBytes n text.toList).isSome ↔ (⟨n⟩ : String.Pos.Raw).IsValid text := by
  rw [isSome_dropBytes_iff, String.ofList_toList]

/-- What a text begins with, up to a byte offset, if a character begins there or the text ends there. -/
def takeBytes : Nat → List Char → Option (List Char)
  | 0, _ => some []
  | _ + 1, [] => none
  | n + 1, c :: cs =>
    if c.utf8Size ≤ n + 1 then (takeBytes (n + 1 - c.utf8Size) cs).map (c :: ·) else none

theorem takeBytes_append (front rest : List Char) :
    takeBytes (byteLength front) (front ++ rest) = some front := by
  induction front with
  | nil => cases rest <;> rfl
  | cons c front ih =>
    obtain ⟨n, hn⟩ : ∃ n, byteLength (c :: front) = n + 1 :=
      Nat.exists_eq_succ_of_ne_zero (Nat.ne_of_gt (byteLength_cons_pos c front))
    have hrest : n + 1 - c.utf8Size = byteLength front := by
      rw [← hn, byteLength_cons, Nat.add_sub_cancel_left]
    rw [hn, List.cons_append, takeBytes, if_pos, hrest, ih]
    · rfl
    · rw [← hn, byteLength_cons]
      exact Nat.le_add_right _ _

/-- The part of a text between two byte offsets. There is none if one of them is not a place. -/
def slice (text : List Char) (start stop : Nat) : Option (List Char) :=
  if start ≤ stop then (dropBytes start text).bind (takeBytes (stop - start)) else none

theorem slice_append (front mid rest : List Char) :
    slice (front ++ (mid ++ rest)) (byteLength front) (byteLength front + byteLength mid) =
      some mid := by
  rw [slice, if_pos (Nat.le_add_right _ _), dropBytes_append, Option.bind_some,
    Nat.add_sub_cancel_left, takeBytes_append]

end Stencil.Text
