import WasmCompiler.Text.Span

/-! Parts of a text between byte offsets. There is no part up to an offset that is inside a
character or past the end, and no character at such an offset. -/

namespace WasmCompiler

/-- The size of a text is the number of the bytes of its characters. -/
theorem utf8ByteSize_ofList (cs : List Char) :
    (String.ofList cs).utf8ByteSize = byteLength cs := by
  induction cs with
  | nil => rfl
  | cons c cs ih =>
    have hCons : String.ofList (c :: cs) = String.singleton c ++ String.ofList cs := by
      rw [← List.singleton_append, String.ofList_append]
      rfl
    rw [hCons, String.utf8ByteSize_append, String.utf8ByteSize_singleton, ih, byteLength_cons]

theorem utf8ByteSize_eq_byteLength (text : String) :
    text.utf8ByteSize = byteLength text.toList := by
  rw [← utf8ByteSize_ofList, String.ofList_toList]

/-- An offset is between characters if a text can be cut there. -/
theorem isValid_iff {text : String} {offset : Nat} : String.Pos.Raw.IsValid text ⟨offset⟩ ↔
    ∃ front back, text.toList = front ++ back ∧ offset = byteLength front := by
  rw [String.Pos.Raw.isValid_iff_exists_append]
  constructor
  · rintro ⟨s, t, rfl, hOffset⟩
    refine ⟨s.toList, t.toList, String.toList_append, ?_⟩
    rw [← utf8ByteSize_eq_byteLength]
    exact congrArg String.Pos.Raw.byteIdx hOffset
  · rintro ⟨front, back, hText, rfl⟩
    refine ⟨String.ofList front, String.ofList back, ?_, ?_⟩
    · rw [← String.ofList_append, ← hText, String.ofList_toList]
    · rw [← utf8ByteSize_ofList]
      rfl

namespace Text

/-- The first `count` bytes of a text and what follows them, if they end between characters. -/
def cut? : Nat → List Char → Option (List Char × List Char)
  | 0, text => some ([], text)
  | _ + 1, [] => none
  | count + 1, c :: rest =>
    if c.utf8Size ≤ count + 1 then
      (cut? (count + 1 - c.utf8Size) rest).map fun (front, back) => (c :: front, back)
    else none

/-- The text from one offset up to another one. -/
def slice? (start stop : Nat) (text : List Char) : Option (List Char) :=
  if start ≤ stop then do
    let (_, rest) ← cut? start text
    let (part, _) ← cut? (stop - start) rest
    return part
  else none

/-- The bytes of what stands in front cut it off. -/
@[simp] theorem cut?_append (front back : List Char) :
    cut? (byteLength front) (front ++ back) = some (front, back) := by
  induction front with
  | nil => rw [byteLength_nil, List.nil_append, cut?]
  | cons c front ih =>
    have hPos := c.utf8Size_pos
    obtain ⟨count, hCount⟩ := Nat.exists_eq_add_one.2
      (show 0 < c.utf8Size + byteLength front by omega)
    have hRest : count + 1 - c.utf8Size = byteLength front := by omega
    rw [byteLength_cons, List.cons_append, hCount, cut?, if_pos (by omega), hRest, ih]
    rfl

/-- The part between two cuts. -/
theorem slice?_append (front part back : List Char) :
    slice? (byteLength front) (byteLength front + byteLength part) (front ++ (part ++ back)) =
      some part := by
  rw [slice?, if_pos (Nat.le_add_right _ _), cut?_append, Nat.add_sub_cancel_left]
  change (cut? (byteLength part) (part ++ back)).bind (fun cut => some cut.1) = some part
  rw [cut?_append]
  rfl

/-- The character at an offset between characters; there is none at the end. -/
def charAt? (text : String) (offset : Nat) : Option (Option Char) :=
  if String.Pos.Raw.isValid text ⟨offset⟩ then some (String.Pos.Raw.get? text ⟨offset⟩) else none

/-- The part of a text between two offsets, each of them between characters. -/
def between? (text : String) (start stop : Nat) : Option String :=
  if start ≤ stop ∧ String.Pos.Raw.isValid text ⟨start⟩ ∧ String.Pos.Raw.isValid text ⟨stop⟩ then
    some (String.Pos.Raw.extract text ⟨start⟩ ⟨stop⟩)
  else none

section Access

variable {text : String} {front part back : List Char}

theorem isValid_append (h : text.toList = front ++ back) :
    String.Pos.Raw.isValid text ⟨byteLength front⟩ = true :=
  String.Pos.Raw.isValid_eq_true_iff.2 (isValid_iff.2 ⟨front, back, h, rfl⟩)

/-- An offset is not passed before all characters in front of it are. -/
theorem mk_ne_of_cons (offset : Nat) (c : Char) (chars : List Char) :
    (⟨offset⟩ : String.Pos.Raw) ≠ ⟨offset + byteLength (c :: chars)⟩ := by
  have hPos := c.utf8Size_pos
  intro h
  have hOffset : offset = offset + byteLength (c :: chars) := congrArg String.Pos.Raw.byteIdx h
  rw [byteLength_cons] at hOffset
  omega

/-- Behind what stands in front there is the first character of the rest, or none. -/
theorem utf8GetAux?_append (front back : List Char) (offset : Nat) :
    String.Pos.Raw.utf8GetAux? (front ++ back) ⟨offset⟩ ⟨offset + byteLength front⟩ =
      back.head? := by
  induction front generalizing offset with
  | nil =>
    cases back with
    | nil => rfl
    | cons c back => exact if_pos rfl
  | cons c front ih =>
    have hRest := ih (offset + c.utf8Size)
    rw [Nat.add_assoc] at hRest
    exact (if_neg (mk_ne_of_cons offset c front)).trans hRest

/-- At the offset of a part of a text there is its first character. -/
theorem charAt?_append (h : text.toList = front ++ back) :
    charAt? text (byteLength front) = some back.head? := by
  have hGet := utf8GetAux?_append front back 0
  rw [Nat.zero_add, ← h] at hGet
  rw [charAt?, if_pos (isValid_append h)]
  exact congrArg some hGet

/-- Where there is a character, or the end, the text is cut between characters. -/
theorem exists_of_charAt? {offset : Nat} {first : Option Char}
    (h : charAt? text offset = some first) : ∃ front back,
      text.toList = front ++ back ∧ offset = byteLength front ∧ back.head? = first := by
  by_cases hValid : String.Pos.Raw.isValid text ⟨offset⟩ = true
  · obtain ⟨front, back, hText, rfl⟩ := isValid_iff.1 (String.Pos.Raw.isValid_eq_true_iff.1 hValid)
    rw [charAt?_append hText] at h
    exact ⟨front, back, hText, rfl, Option.some.inj h⟩
  · rw [charAt?, if_neg hValid] at h
    cases h

/-- From its start on, a part is taken up to its end. -/
theorem go₂_append (part back : List Char) (offset : Nat) :
    String.Pos.Raw.extract.go₂ (part ++ back) ⟨offset⟩ ⟨offset + byteLength part⟩ = part := by
  induction part generalizing offset with
  | nil =>
    cases back with
    | nil => rfl
    | cons c back => exact if_pos rfl
  | cons c part ih =>
    have hRest := ih (offset + c.utf8Size)
    rw [Nat.add_assoc] at hRest
    exact (if_neg (mk_ne_of_cons offset c part)).trans (congrArg (c :: ·) hRest)

/-- What stands in front of a part is skipped. -/
theorem go₁_append (front part back : List Char) (offset : Nat) (hSome : part ≠ []) :
    String.Pos.Raw.extract.go₁ (front ++ (part ++ back)) ⟨offset⟩ ⟨offset + byteLength front⟩
      ⟨offset + byteLength front + byteLength part⟩ = part := by
  induction front generalizing offset with
  | nil =>
    cases part with
    | nil => exact absurd rfl hSome
    | cons c part =>
      have hPart := go₂_append (c :: part) back offset
      exact (if_pos rfl).trans hPart
  | cons c front ih =>
    have hRest := ih (offset + c.utf8Size)
    rw [Nat.add_assoc offset] at hRest
    exact (if_neg (mk_ne_of_cons offset c front)).trans hRest

/-- The part of a text between the offsets of its start and its end. -/
theorem between?_append (h : text.toList = front ++ (part ++ back)) :
    between? text (byteLength front) (byteLength front + byteLength part) =
      some (String.ofList part) := by
  have hStop : text.toList = (front ++ part) ++ back := by rw [h, List.append_assoc]
  have hValid := isValid_append hStop
  rw [byteLength_append] at hValid
  rw [between?, if_pos ⟨Nat.le_add_right _ _, isValid_append h, hValid⟩]
  refine congrArg some ?_
  cases part with
  | nil => exact if_pos (Nat.le_refl _)
  | cons c part =>
    have hLess : ¬byteLength front + byteLength (c :: part) ≤ byteLength front := by
      have hPos := c.utf8Size_pos
      rw [byteLength_cons]
      omega
    have hPart := go₁_append front (c :: part) back 0 (List.cons_ne_nil _ _)
    rw [Nat.zero_add, ← h] at hPart
    exact (if_neg hLess).trans (congrArg String.ofList hPart)

end Access

end Text

end WasmCompiler
