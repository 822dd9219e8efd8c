import Mathlib
import WasmCompiler.Text.Fields
import WasmCompiler.Text.Position

/-! Finding the line of an offset. The search by halving stops at the last line that starts at the
offset or before it, and the part of the text from there to the offset is what stands after the
last newline. -/

namespace WasmCompiler

section Search

variable {α : Type} {test : α → Bool}

/-- Halving finds the point up to which a test holds, if it holds nowhere after it. What is known of
the point at every turn is that it is in the range that is left. -/
theorem searchLast_eq {row : Array α} {point : Nat}
    (hBefore : ∀ i (h : i < row.size), i < point → test row[i] = true)
    (hAfter : ∀ i (h : i < row.size), point ≤ i → test row[i] = false) {base size : Nat}
    (hSize : 0 < size) (hRow : base + size ≤ row.size) (hLow : base ≤ point)
    (hHigh : point ≤ base + size) : searchLast test row base size hSize hRow = point := by
  fun_induction searchLast test row base size hSize hRow with
  | case1 base size _ hRow hMore hTest ih =>
      refine ih (not_lt.1 fun hLess => ?_) (by omega)
      rw [hAfter _ (by omega) hLess.le] at hTest
      cases hTest
  | case2 base size _ hRow hMore hTest ih =>
      refine ih hLow ?_
      by_contra hLess
      exact hTest (hBefore _ (by omega) (by omega))
  | case3 base size _ hRow hMore hTest =>
      have hNot : ¬ point ≤ base := fun hLe => by
        rw [hAfter base (by omega) hLe] at hTest
        cases hTest
      omega
  | case4 base size _ hRow hMore hTest =>
      have hNot : ¬ base < point := fun hLess => hTest (hBefore base (by omega) hLess)
      omega

/-- In a row of values that satisfy a test and others that do not, the point is between them. -/
theorem partitionPoint_eq {row : Array α} {front back : List α} (hRow : row.toList = front ++ back)
    (hFront : ∀ a ∈ front, test a = true) (hBack : ∀ a ∈ back, test a = false) :
    partitionPoint test row = front.length := by
  obtain ⟨row⟩ := row
  subst hRow
  rw [partitionPoint]
  split
  · refine searchLast_eq (fun i h hLess => ?_) (fun i h hLe => ?_) _ _ (Nat.zero_le _) (by simp)
    · simp only [List.getElem_toArray, List.getElem_append_left hLess]
      exact hFront _ (List.getElem_mem _)
    · simp only [List.getElem_toArray, List.getElem_append_right hLe]
      exact hBack _ (List.getElem_mem _)
  · simp_all

end Search

namespace Text

section Starts

variable {mark : Char} {offset start : Nat} {text : List Char}

/-- The offsets of a mark in a text are those in its parts, counted on. -/
theorem offsetsOf_append (mark : Char) (offset : Nat) (front back : List Char) :
    offsetsOf mark offset (front ++ back) =
      offsetsOf mark offset front ++ offsetsOf mark (offset + byteLength front) back := by
  induction front generalizing offset with
  | nil => rfl
  | cons c front ih =>
      rw [List.cons_append, offsetsOf, offsetsOf, ih, byteLength_cons, Nat.add_assoc]
      split <;> rfl

/-- There are as many offsets as marks. -/
theorem length_offsetsOf (mark : Char) (offset : Nat) (text : List Char) :
    (offsetsOf mark offset text).length = text.count mark := by
  induction text generalizing offset with
  | nil => rfl
  | cons c text ih =>
      by_cases hC : c = mark
      · rw [offsetsOf, if_pos hC, List.length_cons, ih, hC, List.count_cons_self]
      · rw [offsetsOf, if_neg hC, ih, List.count_cons_of_ne hC]

theorem offsetsOf_of_notMem (offset : Nat) (h : mark ∉ text) : offsetsOf mark offset text = [] :=
  List.length_eq_zero_iff.1 ((length_offsetsOf mark offset text).trans (List.count_eq_zero.2 h))

/-- The mark stands in the text, from its first byte up to its last. -/
theorem bounds_of_mem_offsetsOf (h : start ∈ offsetsOf mark offset text) :
    offset ≤ start ∧ start < offset + byteLength text := by
  induction text generalizing offset with
  | nil => cases h
  | cons c text ih =>
      have hPos := c.utf8Size_pos
      rw [byteLength_cons]
      rw [offsetsOf] at h
      by_cases hC : c = mark
      · rw [if_pos hC] at h
        rcases List.mem_cons.1 h with rfl | hRest
        · omega
        · have := ih hRest
          omega
      · rw [if_neg hC] at h
        have := ih h
        omega

/-- There is one line more than there are line breaks. -/
theorem length_lineStarts (text : List Char) : (lineStarts text).length = text.count '\n' + 1 := by
  rw [lineStarts, List.length_cons, List.length_map, length_offsetsOf]

/-- The lines that start in the first part of a text, and those that start in the second. -/
theorem lineStarts_append (front back : List Char) : lineStarts (front ++ back) =
    lineStarts front ++ (offsetsOf '\n' (byteLength front) back).map (· + 1) := by
  rw [lineStarts, lineStarts, offsetsOf_append, List.map_append, Nat.zero_add, List.cons_append]

theorem le_of_mem_lineStarts (h : start ∈ lineStarts text) : start ≤ byteLength text := by
  rcases List.mem_cons.1 h with rfl | hLater
  · exact Nat.zero_le _
  · obtain ⟨newline, hNewline, rfl⟩ := List.mem_map.1 hLater
    have := bounds_of_mem_offsetsOf hNewline
    omega

/-- What stands after the last newline has none, and it is all there is or a newline stands before
it. -/
theorem rtakeWhile_newline (front : List Char) :
    '\n' ∉ front.rtakeWhile (· ≠ '\n') ∧ (front = front.rtakeWhile (· ≠ '\n') ∨
      ∃ before, front = before ++ '\n' :: front.rtakeWhile (· ≠ '\n')) := by
  refine ⟨fun hMem => by simpa using List.mem_rtakeWhile_imp hMem, ?_⟩
  have hParts := front.rdropWhile_append_rtakeWhile (p := (· ≠ '\n'))
  rcases List.eq_nil_or_concat' (front.rdropWhile (· ≠ '\n')) with hNil | ⟨before, c, hSome⟩
  · rw [hNil, List.nil_append] at hParts
    exact .inl hParts.symm
  · have hC : c = '\n' := by
      have hNot := List.rdropWhile_last_not (· ≠ '\n') front (by rw [hSome]; simp)
      simp only [hSome, List.getLast_concat] at hNot
      simpa using hNot
    rw [hSome, hC, List.append_assoc] at hParts
    exact .inr ⟨before, hParts.symm⟩

/-- The last line of a text starts after its last newline. -/
theorem getLast?_lineStarts (front : List Char) : (lineStarts front).getLast? =
    some (byteLength (front.rdropWhile (· ≠ '\n'))) := by
  have hParts := front.rdropWhile_append_rtakeWhile (p := (· ≠ '\n'))
  obtain ⟨hNone, hFront | ⟨before, hFront⟩⟩ := rtakeWhile_newline front
  · have hNil : front.rdropWhile (· ≠ '\n') = [] := by
      rw [← hFront] at hParts
      simpa using hParts
    rw [← hFront] at hNone
    rw [hNil, lineStarts, offsetsOf_of_notMem 0 hNone]
    rfl
  · generalize front.rtakeWhile (· ≠ '\n') = last at hNone hFront hParts
    have hBefore : front.rdropWhile (· ≠ '\n') = before ++ ['\n'] := by
      refine List.append_cancel_right (hParts.trans (hFront.trans ?_))
      rw [List.append_assoc, List.singleton_append]
    have hLast : (offsetsOf '\n' (byteLength before) ('\n' :: last)).map (· + 1) =
        [byteLength before + 1] := by
      rw [offsetsOf, if_pos rfl, offsetsOf_of_notMem _ hNone]
      rfl
    rw [hBefore, hFront, lineStarts_append, hLast, List.getLast?_concat, byteLength_append]
    rfl

/-- A line goes on up to its newline. -/
theorem takeWhile_append_newline {piece : List Char} (rest : List Char) (h : '\n' ∉ piece) :
    (piece ++ '\n' :: rest).takeWhile (· ≠ '\n') = piece := by
  rw [List.takeWhile_append_of_pos fun c hC => by simpa using ne_of_mem_of_not_mem hC h]
  simp

/-- The next line starts after the next newline, if there is one. -/
theorem head?_offsetsOf (offset : Nat) (back : List Char) : (offsetsOf '\n' offset back).head? =
    if '\n' ∈ back then some (offset + byteLength (back.takeWhile (· ≠ '\n'))) else none := by
  by_cases hMem : '\n' ∈ back
  · obtain ⟨piece, rest, rfl, hPiece⟩ := List.eq_append_cons_of_mem hMem
    rw [if_pos hMem, offsetsOf_append, offsetsOf_of_notMem _ hPiece,
      takeWhile_append_newline rest hPiece]
    simp [offsetsOf]
  · rw [if_neg hMem, offsetsOf_of_notMem _ hMem]
    rfl

end Starts

section Lines

/-- The line around a place, given the text before it and after it. -/
def lineAround (front back : List Char) : List Char :=
  front.rtakeWhile (· ≠ '\n') ++ back.takeWhile (· ≠ '\n')

/-- A line has no line break in it. -/
theorem newline_notMem_lineAround (front back : List Char) : '\n' ∉ lineAround front back := by
  intro hMem
  rcases List.mem_append.1 hMem with hFront | hBack
  · exact (rtakeWhile_newline front).1 hFront
  · simpa using List.mem_takeWhile_imp hBack

/-- A text goes on from a place to the end of its line, and then there is nothing or a newline. -/
theorem takeWhile_newline (back : List Char) : ('\n' ∉ back ∧ back.takeWhile (· ≠ '\n') = back) ∨
    ('\n' ∈ back ∧ ∃ rest, back = back.takeWhile (· ≠ '\n') ++ '\n' :: rest) := by
  by_cases hMem : '\n' ∈ back
  · obtain ⟨piece, rest, rfl, hPiece⟩ := List.eq_append_cons_of_mem hMem
    exact .inr ⟨hMem, rest, by rw [takeWhile_append_newline rest hPiece]⟩
  · exact .inl ⟨hMem, List.takeWhile_eq_self_iff.2 fun c hC => by
      simpa using ne_of_mem_of_not_mem hC hMem⟩

theorem head?_fields (text : List Char) :
    (fields (· == '\n') text).head? = some (text.takeWhile (· ≠ '\n')) := by
  induction text with
  | nil => rfl
  | cons c rest ih =>
      by_cases hC : c = '\n'
      · rw [fields_cons_of_pos _ (by simp [hC]), List.takeWhile_cons_of_neg (by simp [hC])]
        rfl
      · obtain ⟨field, others, hRest, hFields⟩ :=
          exists_fields_cons_of_neg (p := (· == '\n')) (c := c) rest (by simp [hC])
        rw [hRest] at ih
        rw [hFields, List.takeWhile_cons_of_pos (by simp [hC])]
        cases ih
        rfl

/-- After a newline a new line starts. -/
theorem getElem?_fields_newline (front back : List Char) :
    (fields (· == '\n') (front ++ '\n' :: back))[front.count '\n' + 1]? =
      (fields (· == '\n') back).head? := by
  induction front with
  | nil =>
      rw [List.nil_append, fields_cons_of_pos _ (by decide), List.head?_eq_getElem?]
      rfl
  | cons c front ih =>
      rw [List.cons_append]
      by_cases hC : c = '\n'
      · rw [fields_cons_of_pos _ (by simp [hC]), hC, List.count_cons_self, List.getElem?_cons_succ,
          ih]
      · obtain ⟨field, others, hRest, hFields⟩ := exists_fields_cons_of_neg
          (p := (· == '\n')) (c := c) (front ++ '\n' :: back) (by simp [hC])
        rw [hRest] at ih
        rw [hFields, List.count_cons_of_ne hC, ← ih]
        rfl

/-- The line of a place is the one after as many newlines as stand before the place. -/
theorem getElem?_fields_count (front back : List Char) :
    (fields (· == '\n') (front ++ back))[front.count '\n']? = some (lineAround front back) := by
  obtain ⟨hNone, hFront⟩ := rtakeWhile_newline front
  rw [lineAround]
  generalize front.rtakeWhile (· ≠ '\n') = last at hNone hFront ⊢
  have hTake : (last ++ back).takeWhile (· ≠ '\n') = last ++ back.takeWhile (· ≠ '\n') :=
    List.takeWhile_append_of_pos fun c hC => by simpa using ne_of_mem_of_not_mem hC hNone
  have hCount := List.count_eq_zero.2 hNone
  rcases hFront with rfl | ⟨before, rfl⟩
  · rw [hCount, ← List.head?_eq_getElem?, head?_fields, hTake]
  · rw [List.count_append, List.count_cons_self, hCount, List.append_assoc, List.cons_append,
      getElem?_fields_newline, head?_fields, hTake]

theorem length_fields (text : List Char) :
    (fields (· == '\n') text).length = text.count '\n' + 1 := by
  induction text with
  | nil => rfl
  | cons c rest ih =>
      by_cases hC : c = '\n'
      · rw [fields_cons_of_pos _ (by simp [hC]), List.length_cons, ih, hC, List.count_cons_self]
      · obtain ⟨field, others, hRest, hFields⟩ :=
          exists_fields_cons_of_neg (p := (· == '\n')) (c := c) rest (by simp [hC])
        rw [hFields, List.count_cons_of_ne hC, ← ih, hRest, List.length_cons, List.length_cons]

/-- Of a line only the carriage returns at its end are trimmed. -/
theorem trimEndMatches_line {line : List Char} (h : '\n' ∉ line) :
    trimEndMatches (['\n', '\r'].contains ·) line = line.rdropWhile (· == '\r') := by
  change line.rdropWhile _ = _
  induction line using List.reverseRecOn with
  | nil => rfl
  | append_singleton line c ih =>
      rw [List.mem_append, List.mem_singleton, not_or] at h
      have hSame : ['\n', '\r'].contains c = (c == '\r') := by
        simp [Ne.symm h.2, beq_eq_decide]
      rw [List.rdropWhile_concat, List.rdropWhile_concat, hSame, ih h.1]

/-- A newline after a line is no part of what is shown. -/
theorem trimEndMatches_line_newline {line : List Char} (h : '\n' ∉ line) :
    trimEndMatches (['\n', '\r'].contains ·) (line ++ ['\n']) =
      line.rdropWhile (· == '\r') := by
  rw [← trimEndMatches_line h]
  exact List.rdropWhile_concat_pos _ _ _ rfl

/-- There is a place after any number of the newlines of a text. -/
theorem exists_count_eq {text : List Char} {count : Nat} (h : count ≤ text.count '\n') :
    ∃ front back, text = front ++ back ∧ front.count '\n' = count := by
  induction text generalizing count with
  | nil => exact ⟨[], [], rfl, (Nat.le_zero.1 h).symm⟩
  | cons c rest ih =>
      by_cases hC : c = '\n'
      · cases count with
        | zero => exact ⟨[], c :: rest, rfl, rfl⟩
        | succ count =>
            rw [hC, List.count_cons_self] at h
            obtain ⟨front, back, rfl, rfl⟩ := ih (Nat.le_of_succ_le_succ h)
            exact ⟨c :: front, back, rfl, by rw [hC, List.count_cons_self]⟩
      · rw [List.count_cons_of_ne hC] at h
        obtain ⟨front, back, rfl, rfl⟩ := ih h
        exact ⟨c :: front, back, rfl, List.count_cons_of_ne hC⟩

end Lines

end Text

namespace IndexedText

variable {s : IndexedText} {front back : List Char}

/-- The index of the line of a place is the number of newlines before it. -/
theorem lineIndex_eq (hText : s.text = front ++ back) :
    (s.lineIndex (byteLength front) : Nat) = front.count '\n' := by
  have hRow := s.lineStarts_eq
  rw [hText, Text.lineStarts_append] at hRow
  have hPoint : partitionPoint (· ≤ byteLength front) s.lineStarts =
      (Text.lineStarts front).length := by
    refine partitionPoint_eq hRow (fun start hStart => ?_) fun start hStart => ?_
    · exact decide_eq_true (Text.le_of_mem_lineStarts hStart)
    · obtain ⟨newline, hNewline, rfl⟩ := List.mem_map.1 hStart
      have := Text.bounds_of_mem_offsetsOf hNewline
      exact decide_eq_false (by omega)
  change partitionPoint (· ≤ byteLength front) s.lineStarts - 1 = _
  rw [hPoint, Text.length_lineStarts, Nat.add_sub_cancel]

/-- The line of a place starts after the last newline before it. -/
theorem getElem?_lineStarts (hText : s.text = front ++ back) :
    s.lineStarts[front.count '\n']? = some (byteLength (front.rdropWhile (· ≠ '\n'))) := by
  have hLength := Text.length_lineStarts front
  rw [← Array.getElem?_toList, s.lineStarts_eq, hText, Text.lineStarts_append,
    List.getElem?_append_left (by omega), ← Text.getLast?_lineStarts, List.getLast?_eq_getElem?,
    hLength, Nat.add_sub_cancel]

/-- The next line starts after the next newline. -/
theorem getElem?_lineStarts_succ (hText : s.text = front ++ back) :
    s.lineStarts[front.count '\n' + 1]? = if '\n' ∈ back then
      some (byteLength front + byteLength (back.takeWhile (· ≠ '\n')) + 1) else none := by
  have hLength := Text.length_lineStarts front
  rw [← Array.getElem?_toList, s.lineStarts_eq, hText, Text.lineStarts_append,
    List.getElem?_append_right (by omega), hLength, Nat.sub_self, List.getElem?_map,
    ← List.head?_eq_getElem?, Text.head?_offsetsOf]
  split <;> rfl

/-- The line and the column of a place count what stands before it: the newlines, and the
characters after the last of them. -/
theorem lineCol_eq (hText : s.text = front ++ back) : s.lineCol (byteLength front) =
    ⟨1 + front.count '\n', 1 + (front.rtakeWhile (· ≠ '\n')).length⟩ := by
  have hMin : min (byteLength front) (byteLength s.text) = byteLength front := by
    rw [hText, byteLength_append]
    omega
  have hStart := Array.getElem?_eq_some_iff.1 (getElem?_lineStarts hText)
  obtain ⟨hBound, hStart⟩ := hStart
  have hIndex := lineIndex_eq hText
  have hHere : s.lineStarts[s.lineIndex (byteLength front)] =
      byteLength (front.rdropWhile (· ≠ '\n')) := by
    simp only [Fin.getElem_fin, hIndex, hStart]
  have hSlice : Text.slice? (byteLength (front.rdropWhile (· ≠ '\n'))) (byteLength front) s.text =
      some (front.rtakeWhile (· ≠ '\n')) := by
    have hParts := front.rdropWhile_append_rtakeWhile (p := (· ≠ '\n'))
    have hPart :=
      Text.slice?_append (front.rdropWhile (· ≠ '\n')) (front.rtakeWhile (· ≠ '\n')) back
    rwa [← byteLength_append, ← List.append_assoc, hParts, ← hText] at hPart
  simp only [lineCol, hMin, hHere, hSlice, hIndex]
  rw [Nat.add_comm 1, Nat.add_comm 1]
  rfl

/-- The line of a place is what stands around it, without the carriage returns that end it. -/
theorem lineText_eq (hText : s.text = front ++ back) : s.lineText (1 + front.count '\n') =
    (Text.lineAround front back).rdropWhile (· == '\r') := by
  have hParts := front.rdropWhile_append_rtakeWhile (p := (· ≠ '\n'))
  have hLine := Text.newline_notMem_lineAround front back
  have hLength : byteLength (front.rdropWhile (· ≠ '\n')) +
      byteLength (Text.lineAround front back) =
        byteLength front + byteLength (back.takeWhile (· ≠ '\n')) := by
    rw [Text.lineAround, ← byteLength_append, ← List.append_assoc, hParts, byteLength_append]
  rw [lineText, Nat.add_sub_cancel_left, getElem?_lineStarts hText, getElem?_lineStarts_succ hText]
  rcases Text.takeWhile_newline back with ⟨hMem, hBack⟩ | ⟨hMem, rest, hBack⟩
  · -- the last line goes on to the end of the text
    have hSlice := Text.slice?_append (front.rdropWhile (· ≠ '\n')) (Text.lineAround front back) []
    have hAll : front.rdropWhile (· ≠ '\n') ++ (Text.lineAround front back ++ []) = s.text := by
      rw [Text.lineAround, hBack, List.append_nil, ← List.append_assoc, hParts, hText]
    rw [hLength, hBack, hAll, ← byteLength_append, ← hText] at hSlice
    simp only [if_neg hMem, Option.getD_none, hSlice, Option.getD_some]
    exact Text.trimEndMatches_line hLine
  · -- any other line is cut out with its newline
    have hSlice := Text.slice?_append (front.rdropWhile (· ≠ '\n'))
      (Text.lineAround front back ++ ['\n']) rest
    have hAll : front.rdropWhile (· ≠ '\n') ++ (Text.lineAround front back ++ ['\n'] ++ rest) =
        s.text := by
      rw [Text.lineAround, List.append_assoc, List.append_assoc, ← List.append_assoc, hParts,
        List.singleton_append, ← hBack, hText]
    have hNewline : byteLength ['\n'] = 1 := by decide
    rw [hAll, byteLength_append, ← Nat.add_assoc, hLength, hNewline] at hSlice
    simp only [if_pos hMem, Option.getD_some, hSlice]
    exact Text.trimEndMatches_line_newline hLine

/-- Every position is on a line of the text. -/
theorem line_lineCol (s : IndexedText) (offset : Nat) :
    1 ≤ (s.lineCol offset).line ∧ (s.lineCol offset).line ≤ s.text.count '\n' + 1 := by
  have hSize : s.lineStarts.size = s.text.count '\n' + 1 := by
    rw [← Array.length_toList, s.lineStarts_eq, Text.length_lineStarts]
  exact ⟨Nat.succ_pos _, hSize ▸ (s.lineIndex (min offset (byteLength s.text))).isLt⟩

/-- A line as it is shown is the line without the carriage returns that end it. -/
theorem lineText_of_fields {line : Nat} {piece : List Char} (hLine : 1 ≤ line)
    (hPiece : (Text.fields (· == '\n') s.text)[line - 1]? = some piece) :
    s.lineText line = piece.rdropWhile (· == '\r') := by
  obtain ⟨hBound, -⟩ := List.getElem?_eq_some_iff.1 hPiece
  rw [Text.length_fields] at hBound
  obtain ⟨front, back, hText, hCount⟩ := Text.exists_count_eq (Nat.le_of_lt_succ hBound)
  rw [← hCount, hText, Text.getElem?_fields_count] at hPiece
  obtain rfl : line = 1 + front.count '\n' := by omega
  rw [lineText_eq hText, Option.some.inj hPiece]

end IndexedText

end WasmCompiler
