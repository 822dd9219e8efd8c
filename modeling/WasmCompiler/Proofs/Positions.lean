import WasmCompiler.Proofs.LineIndex

/-! Places in a text. The line and column of an offset between two characters count the newlines
before it and the characters since the last of them, so that later offsets have later places. A
report shows the line of its place, and a mark under its column. -/

namespace WasmCompiler

namespace Position

/-- The position after a character. -/
def step (here : Position) (c : Char) : Position :=
  if c = '\n' then ⟨here.line + 1, 1⟩ else ⟨here.line, here.column + 1⟩

/-- Walking over a text counts its newlines, and the characters after the last of them. -/
theorem foldl_step (front : List Char) : front.foldl step ⟨1, 1⟩ =
    ⟨1 + front.count '\n', 1 + (front.rtakeWhile (· ≠ '\n')).length⟩ := by
  induction front using List.reverseRecOn with
  | nil => rfl
  | append_singleton front c ih =>
      rw [List.foldl_concat, ih, step]
      by_cases hC : c = '\n'
      · rw [if_pos hC, List.rtakeWhile_concat_neg _ _ _ (by simp [hC]), hC]
        simp [Nat.add_assoc]
      · rw [if_neg hC, List.rtakeWhile_concat_pos _ _ _ (by simp [hC])]
        simp [hC, Nat.add_assoc]

/-- Positions in order, by lines first. -/
def key (p : Position) : ℕ ×ₗ ℕ := toLex (p.line, p.column)

/-- Each character leads to a later position. -/
theorem key_lt_step (here : Position) (c : Char) : here.key < (here.step c).key := by
  rw [step, key, key, Prod.Lex.toLex_lt_toLex]
  split
  · exact .inl (Nat.lt_succ_self _)
  · exact .inr ⟨rfl, Nat.lt_succ_self _⟩

/-- Every character leads to a later position, and so do some in a row. -/
theorem key_lt_foldl (here : Position) {text : List Char} (hText : text ≠ []) :
    here.key < (text.foldl step here).key := by
  induction text generalizing here with
  | nil => exact absurd rfl hText
  | cons c text ih =>
      rw [List.foldl_cons]
      by_cases hRest : text = []
      · rw [hRest]
        exact key_lt_step here c
      · exact (key_lt_step here c).trans (ih _ hRest)

end Position

namespace IndexedText

variable {text : String}

/-- The position of a place is where walking to it ends. -/
theorem lineCol_eq_foldl {s : IndexedText} {front back : List Char}
    (hText : s.text = front ++ back) :
    s.lineCol (byteLength front) = front.foldl Position.step ⟨1, 1⟩ := by
  rw [lineCol_eq hText, Position.foldl_step]

/-- Between characters, a later offset has a later position. -/
theorem strictMonoOn_key (text : String) :
    StrictMonoOn (fun offset => ((ofText text).lineCol offset).key)
      {offset | String.Pos.Raw.IsValid text ⟨offset⟩} := by
  intro offset hValid offset' hValid' hLt
  obtain ⟨front, back, hText, rfl⟩ := isValid_iff.1 hValid
  obtain ⟨front', back', hText', rfl⟩ := isValid_iff.1 hValid'
  have hStarts : front <+: front' := by
    rcases List.prefix_or_prefix_of_prefix ⟨back, hText.symm⟩ ⟨back', hText'.symm⟩ with
      hStarts | ⟨more, rfl⟩
    · exact hStarts
    · rw [byteLength_append] at hLt
      omega
  obtain ⟨more, rfl⟩ := hStarts
  have hMore : more ≠ [] := by
    rintro rfl
    simp at hLt
  have hHere := lineCol_eq_foldl (s := ofText text) hText
  have hThere := lineCol_eq_foldl (s := ofText text) hText'
  rw [List.foldl_append] at hThere
  simp only [hHere, hThere]
  exact Position.key_lt_foldl _ hMore

/-- An offset past the end is looked up like the end. -/
theorem lineCol_of_le {s : IndexedText} {offset : Nat} (h : byteLength s.text ≤ offset) :
    s.lineCol offset = s.lineCol (byteLength s.text) := by
  simp only [lineCol, Nat.min_eq_right h, Nat.min_self]

end IndexedText

/-- The caret stands under the column, with a tab under each tab before it, or behind the line. -/
theorem Text.exists_caretUnder_eq (row : List Char) (column : Nat) :
    ∃ pad, caretUnder row column = pad ++ ['^'] ∧ pad.length = min (column - 1) row.length ∧
      ∀ k < pad.length, pad[k]? = some (if row[k]? = some '\t' then '\t' else ' ') := by
  refine ⟨_, rfl, by simp, fun k hK => ?_⟩
  simp only [List.length_map, List.length_take, Nat.lt_min] at hK
  rw [List.getElem?_map, List.getElem?_take_of_lt hK.1, List.getElem?_eq_getElem hK.2]
  simp

namespace Excerpt

/-- An excerpt shows a place, given the text before it and after it: its line without the line end,
and a mark under it, with tabs under tabs and blanks under other characters. -/
structure Shows (e : Excerpt) (front back : List Char) : Prop where
  position : e.position = ⟨1 + front.count '\n', 1 + (front.rtakeWhile (· ≠ '\n')).length⟩
  line : e.line.toList = (Text.lineAround front back).rdropWhile (· == '\r')
  caret : ∃ pad, e.caret.toList = pad ++ ['^'] ∧
    pad.length = min (e.position.column - 1) e.line.toList.length ∧
    ∀ k < pad.length, pad[k]? = some (if e.line.toList[k]? = some '\t' then '\t' else ' ')

/-- An excerpt shows the line around the start of its span. -/
theorem shows_ofSpan {text : String} {front back : List Char} (hText : text.toList = front ++ back)
    (stop : Nat) : (ofSpan text ⟨byteLength front, stop⟩).Shows front back := by
  have hIndexed : (IndexedText.ofText text).text = front ++ back := hText
  have hPosition := IndexedText.lineCol_eq hIndexed
  refine ⟨hPosition, ?_, ?_⟩
  · simp only [ofSpan, hPosition, IndexedText.lineText_eq hIndexed, String.toList_ofList]
  · simp only [ofSpan, IndexedText.caretLine, String.toList_ofList]
    exact Text.exists_caretUnder_eq _ _

end Excerpt

/-- The line and column of an offset between characters are those that counting gives, and the
excerpt for it shows them. Later offsets have later places, and past the end is the end. -/
theorem IndexedText.lookup_exact (text : String) :
    (∀ offset, String.Pos.Raw.IsValid text ⟨offset⟩ → ∃ front back,
      text.toList = front ++ back ∧ offset = byteLength front ∧
      (ofText text).lineCol offset =
        ⟨1 + front.count '\n', 1 + (front.rtakeWhile (· ≠ '\n')).length⟩ ∧
      ∀ stop, (Excerpt.ofSpan text ⟨offset, stop⟩).Shows front back) ∧
    StrictMonoOn (fun offset => ((ofText text).lineCol offset).key)
      {offset | String.Pos.Raw.IsValid text ⟨offset⟩} ∧
    ∀ offset, text.utf8ByteSize ≤ offset →
      (ofText text).lineCol offset = (ofText text).lineCol text.utf8ByteSize ∧
      ∀ stop, Excerpt.ofSpan text ⟨offset, stop⟩ =
        Excerpt.ofSpan text ⟨text.utf8ByteSize, stop⟩ := by
  refine ⟨fun offset hValid => ?_, strictMonoOn_key text, fun offset hPast => ?_⟩
  · obtain ⟨front, back, hText, rfl⟩ := isValid_iff.1 hValid
    exact ⟨front, back, hText, rfl, lineCol_eq hText, Excerpt.shows_ofSpan hText⟩
  · rw [utf8ByteSize_eq_byteLength] at hPast ⊢
    have hEnd := lineCol_of_le (s := ofText text) hPast
    exact ⟨hEnd, fun stop => by simp only [Excerpt.ofSpan, hEnd]; rfl⟩

/-- Two lines. The first has a tab, a character of two bytes and a carriage return. -/
def tabbedText : String := "\té;\r\nx"

theorem IndexedText.lookup_exact_tabbed :
    (∃ front back, tabbedText.toList = front ++ back ∧ 3 = byteLength front ∧
      (Excerpt.ofSpan tabbedText ⟨3, 4⟩).Shows front back) ∧
    Excerpt.ofSpan tabbedText ⟨3, 4⟩ = ⟨⟨1, 3⟩, "\té;", "\t ^"⟩ ∧
    ((ofText tabbedText).lineCol 3).key < ((ofText tabbedText).lineCol 6).key ∧
    (ofText tabbedText).lineCol 9 = (ofText tabbedText).lineCol tabbedText.utf8ByteSize := by
  have hMiddle : String.Pos.Raw.IsValid tabbedText ⟨3⟩ := by decide
  have hLater : String.Pos.Raw.IsValid tabbedText ⟨6⟩ := by decide
  obtain ⟨hExact, hOrder, hPast⟩ := lookup_exact tabbedText
  obtain ⟨front, back, hText, hFront, -, hShows⟩ := hExact 3 hMiddle
  exact ⟨⟨front, back, hText, hFront, hShows 4⟩, by cbv, hOrder hMiddle hLater (by decide),
    (hPast 9 (by decide)).1⟩

end WasmCompiler
