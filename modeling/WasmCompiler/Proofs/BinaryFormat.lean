import WasmCompiler.Proofs.Decoding

/-! The binary format of modules, read section by section. Reading the bytes of a module gives the
module back: every length covers what it stands before and no more, whatever the sizes are. -/

namespace WasmCompiler.Wasm

/-- Takes a value off the front of some bytes, if one stands there. -/
abbrev Reader := StateT Bytes Option

namespace Reader

variable {α β : Type}

/-- The reader takes the bytes off as the value, whatever follows them. -/
def Takes (read : Reader α) (bytes : Bytes) (a : α) : Prop :=
  ∀ rest, read (bytes ++ rest) = some (a, rest)

/-- A reader after another one takes the bytes of both. -/
theorem Takes.bind {read : Reader α} {next : α → Reader β} {front back : Bytes} {a : α} {b : β}
    (h : read.Takes front a) (h' : (next a).Takes back b) :
    (read >>= next).Takes (front ++ back) b := by
  intro rest
  rw [List.append_assoc]
  change (read (front ++ (back ++ rest))).bind (fun p => next p.1 p.2) = some (b, rest)
  rw [h (back ++ rest)]
  exact h' rest

theorem Takes.cons {read : Reader α} {next : α → Reader β} {first : UInt8} {back : Bytes} {a : α}
    {b : β} (h : read.Takes [first] a) (h' : (next a).Takes back b) :
    (read >>= next).Takes (first :: back) b :=
  h.bind h'

/-- The last step of a reader takes no bytes. -/
theorem Takes.last {read : Reader α} {next : α → Reader β} {bytes : Bytes} {a : α} {b : β}
    (h : read.Takes bytes a) (h' : (next a).Takes [] b) : (read >>= next).Takes bytes b := by
  have hAll := h.bind h'
  rwa [List.append_nil] at hAll

theorem takes_pure (a : α) : (pure a : Reader α).Takes [] a := fun _ => rfl

/-- What does not depend on the bytes. -/
def ofOption (a : Option α) : Reader α := StateT.lift a

/-- A value that is there is given without reading. -/
theorem takes_ofOption (a : α) : (ofOption (some a)).Takes [] a := fun _ => rfl

def byte : Reader UInt8
  | [] => none
  | b :: rest => some (b, rest)

theorem takes_byte (b : UInt8) : byte.Takes [b] b := fun _ => rfl

/-- One byte that stands for a value. -/
def coded (ofByte? : UInt8 → Option α) : Reader α := do
  let b ← byte
  ofOption (ofByte? b)

/-- A byte is taken as what it codes. -/
theorem takes_coded {ofByte? : UInt8 → Option α} {b : UInt8} {a : α} (h : ofByte? b = some a) :
    (coded ofByte?).Takes [b] a :=
  (takes_byte b).last (h ▸ takes_ofOption a)

/-- A number of at most 32 bits. -/
def u32 : Reader Nat := Leb128.readUnsigned? 32

/-- An integer that fits is taken from its variable-length bytes. -/
theorem takes_u32 {n : Nat} (h : n < 2 ^ 32) : u32.Takes (Leb128.unsigned n) n :=
  Leb128.readUnsigned?_unsigned h

/-- That many bytes. -/
def take (count : Nat) : Reader Bytes := fun bytes =>
  if count ≤ bytes.length then some (bytes.take count, bytes.drop count) else none

/-- As many bytes are taken as are asked for. -/
theorem takes_take (bytes : Bytes) : (take bytes.length).Takes bytes bytes := by
  intro rest
  simp [take]

/-- Bytes with their number before them. -/
def block : Reader Bytes := do
  let count ← u32
  take count

/-- Bytes are taken back from behind their length. -/
theorem takes_block {bytes : Bytes} (h : bytes.length < 2 ^ 32) : block.Takes (sized bytes) bytes :=
  (takes_u32 h).bind (takes_take bytes)

/-- The value that all of the bytes are. -/
def whole (read : Reader α) (bytes : Bytes) : Option α :=
  match read bytes with
  | some (a, []) => some a
  | _ => none

/-- A reader that takes all the bytes leaves none. -/
theorem Takes.whole {read : Reader α} {bytes : Bytes} {a : α} (h : read.Takes bytes a) :
    read.whole bytes = some a := by
  have hAll := h []
  rw [List.append_nil] at hAll
  rw [Reader.whole, hAll]

/-- That many items. -/
def times (read : Reader α) : Nat → Reader (List α)
  | 0 => pure []
  | count + 1 => do
    let first ← read
    let others ← times read count
    return first :: others

/-- Items with their number before them. -/
def items (read : Reader α) : Reader (List α) := do
  let count ← u32
  times read count

/-- Items are taken one after the other. -/
theorem takes_times {read : Reader α} {encode : α → Bytes} {row : List α}
    (h : ∀ a ∈ row, read.Takes (encode a) a) :
    (times read row.length).Takes (row.flatMap encode) row := by
  induction row with
  | nil => exact takes_pure []
  | cons a row ih =>
      have hRow := ih fun b hB => h b (List.mem_cons_of_mem a hB)
      rw [List.flatMap_cons]
      exact (h a List.mem_cons_self).bind (hRow.last (takes_pure (a :: row)))

end Reader

section Vectors

variable {α : Type} {encode : α → Bytes} {row : List α}

/-- There are no more items than bytes in a vector, if each item has bytes. -/
theorem length_le_vector (h : ∀ a ∈ row, encode a ≠ []) :
    row.length ≤ (vector encode row).length := by
  have hItems : row.length ≤ (row.flatMap encode).length := by
    induction row with
    | nil => exact Nat.le_refl 0
    | cons a row ih =>
        have hRow := ih fun b hB => h b (List.mem_cons_of_mem a hB)
        have hFirst := List.length_pos_of_ne_nil (h a List.mem_cons_self)
        rw [List.length_cons, List.flatMap_cons, List.length_append]
        omega
  rw [vector, List.length_append]
  omega

/-- An item is no longer than the vector that it stands in. -/
theorem length_encode_le_vector {a : α} (h : a ∈ row) :
    (encode a).length ≤ (vector encode row).length := by
  have hSub : (encode a).Sublist (row.flatMap encode) := by
    rw [List.flatMap]
    exact List.sublist_flatten_of_mem (List.mem_map_of_mem h)
  exact (hSub.trans (List.sublist_append_right _ _)).length_le

/-- A vector that fits is read item by item, if each item that fits is. -/
theorem takes_vector {read : Reader α} (hFits : (vector encode row).length < 2 ^ 32)
    (hBytes : ∀ a ∈ row, encode a ≠ [])
    (h : ∀ a ∈ row, (encode a).length < 2 ^ 32 → read.Takes (encode a) a) :
    (Reader.items read).Takes (vector encode row) row :=
  (Reader.takes_u32 ((length_le_vector hBytes).trans_lt hFits)).bind
    (Reader.takes_times fun a hA => h a hA ((length_encode_le_vector hA).trans_lt hFits))

end Vectors

namespace ValType

def ofByte? : UInt8 → Option ValType
  | 0x7F => some i32 | 0x7E => some i64 | 0x7D => some f32 | 0x7C => some f64
  | 0x7B => some v128 | 0x70 => some funcref | 0x6F => some externref
  | _ => none

def read : Reader ValType := Reader.coded ofByte?

theorem takes_read (v : ValType) : read.Takes [v.byte] v :=
  Reader.takes_coded (by cases v <;> rfl)

/-- A vector of value types is taken as its items. -/
theorem takes_items {row : List ValType}
    (hFits : (vector (fun v => [v.byte]) row).length < 2 ^ 32) :
    (Reader.items read).Takes (vector (fun v => [v.byte]) row) row :=
  takes_vector hFits (fun _ _ => List.cons_ne_nil _ _) fun v _ _ => takes_read v

end ValType

namespace FuncType

def read : Reader FuncType := do
  let _ ← Reader.coded fun b => if b = 0x60 then some () else none
  let params ← Reader.items ValType.read
  let results ← Reader.items ValType.read
  return ⟨params, results⟩

/-- A function type is taken as its parameters and its results. -/
theorem takes_read {t : FuncType} (hFits : t.encode.length < 2 ^ 32) : read.Takes t.encode t := by
  rw [encode, List.length_cons, List.length_append] at hFits
  have hParams := @ValType.takes_items t.params (by omega)
  have hResults := @ValType.takes_items t.results (by omega)
  refine .cons (Reader.takes_coded (a := ()) rfl) (.bind hParams (.last hResults ?_))
  exact Reader.takes_pure t

end FuncType

namespace Limits

def read : Reader Limits := do
  let hasMax ← Reader.coded fun b =>
    if b = 0x00 then some false else if b = 0x01 then some true else none
  let min ← Reader.u32
  if hasMax then
    let max ← Reader.u32
    return ⟨min, some max⟩
  else return ⟨min, none⟩

/-- The numbers of pages have at most 32 bits. -/
structure Fits (l : Limits) : Prop where
  min : l.min < 2 ^ 32
  max : ∀ n ∈ l.max, n < 2 ^ 32

/-- The limits of a memory are taken, with or without a maximum. -/
theorem takes_read {l : Limits} (h : l.Fits) : read.Takes l.encode l := by
  obtain ⟨min, max⟩ := l
  have hMin := Reader.takes_u32 h.min
  cases max with
  | none =>
      refine .cons (Reader.takes_coded (a := false) rfl) (.last hMin ?_)
      exact Reader.takes_pure _
  | some max =>
      have hMax := Reader.takes_u32 (h.max max rfl)
      refine .cons (Reader.takes_coded (a := true) rfl) (.bind hMin (.last hMax ?_))
      exact Reader.takes_pure _

end Limits

/-- The text that bytes are in UTF-8. -/
def readName : Reader String := do
  let bytes ← Reader.block
  Reader.ofOption (String.fromUTF8? ⟨bytes.toArray⟩)

/-- Text is read back from its bytes. -/
theorem fromUTF8?_utf8 (text : String) : String.fromUTF8? ⟨(utf8 text).toArray⟩ = some text := by
  have hBytes : (⟨(utf8 text).toArray⟩ : ByteArray) = text.toByteArray := by
    rw [utf8, Array.toArray_toList]
    rfl
  rw [hBytes, String.fromUTF8?, dif_pos text.isValidUTF8]
  rfl

/-- A name is taken from its length and its bytes. -/
theorem takes_readName {text : String} (h : (utf8 text).length < 2 ^ 32) :
    readName.Takes (sized (utf8 text)) text := by
  refine .last (Reader.takes_block h) ?_
  rw [fromUTF8?_utf8]
  exact Reader.takes_ofOption text

namespace Export

def kindOfByte? : UInt8 → Option ExportKind
  | 0 => some .func | 1 => some .table | 2 => some .memory | 3 => some .global | 4 => some .tag
  | _ => none

def read : Reader Export := do
  let name ← readName
  let kind ← Reader.coded kindOfByte?
  let index ← Reader.u32
  return ⟨name, kind, index⟩

/-- An export is taken as its name, its kind and its index. -/
theorem takes_read {e : Export} (hFits : e.encode.length < 2 ^ 32) (hIndex : e.index < 2 ^ 32) :
    read.Takes e.encode e := by
  obtain ⟨name, kind, index⟩ := e
  have hName : (utf8 name).length < 2 ^ 32 := by
    simp only [encode, sized, List.length_append] at hFits
    omega
  have hKind : kindOfByte? kind.byte = some kind := by cases kind <;> rfl
  refine .bind (takes_readName hName) (.cons (Reader.takes_coded hKind)
    (.last (Reader.takes_u32 hIndex) ?_))
  exact Reader.takes_pure _

end Export

namespace Body

/-- A number of variables of one type. -/
def readGroup : Reader (List ValType) := do
  let count ← Reader.u32
  let type ← ValType.read
  return List.replicate count type

/-- The variables of all groups, and the code before the instruction that ends it. -/
def ofBytes? (bytes : Bytes) : Option Body := do
  let (groups, code) ← Reader.items readGroup bytes
  if code.getLast? = some 0x0B then some ⟨groups.flatten, code.dropLast⟩ else none

def read : Reader Body := do
  let bytes ← Reader.block
  Reader.ofOption (ofBytes? bytes)

/-- A variable in a group of its own. -/
theorem takes_readGroup (v : ValType) : readGroup.Takes [0x01, v.byte] [v] := by
  have hOne : Leb128.unsigned 1 = [0x01] := by rw [Leb128.unsigned]; rfl
  have hCount : Reader.u32.Takes [0x01] 1 := hOne ▸ Reader.takes_u32 (by decide)
  refine .cons hCount (.last (ValType.takes_read v) ?_)
  exact Reader.takes_pure [v]

/-- The variables of a body are written one to a group, so each group is taken as one of them. -/
theorem takes_groups {locals : List ValType}
    (hFits : (vector (fun v => [0x01, v.byte]) locals).length < 2 ^ 32) :
    (Reader.items readGroup).Takes (vector (fun v => [0x01, v.byte]) locals)
      (locals.map fun v => [v]) := by
  have hGroups := @takes_vector (List ValType) (fun g => g.flatMap fun v => [0x01, v.byte])
    (locals.map fun v => [v]) readGroup
  simp only [vector, List.length_map, List.flatMap_map, List.flatMap_singleton] at hGroups hFits ⊢
  refine hGroups hFits ?_ ?_
  · simp
  · intro g hG _
    obtain ⟨v, -, rfl⟩ := List.mem_map.1 hG
    exact takes_readGroup v

/-- A body is read back from its variables, its code and the byte that ends it. -/
theorem ofBytes?_encode {b : Body}
    (hFits : (vector (fun v => [0x01, v.byte]) b.locals).length < 2 ^ 32) :
    ofBytes? (vector (fun v => [0x01, v.byte]) b.locals ++ b.code ++ [0x0B]) = some b := by
  have hGroups := takes_groups hFits (b.code ++ [0x0B])
  rw [List.append_assoc, ofBytes?, hGroups]
  simp [← List.flatMap_def]

/-- A body is taken from behind its length. -/
theorem takes_read {b : Body} (hFits : b.encode.length < 2 ^ 32) : read.Takes b.encode b := by
  rw [encode, sized, List.length_append] at hFits
  refine .last (Reader.takes_block (Nat.lt_of_le_of_lt (Nat.le_add_left _ _) hFits)) ?_
  rw [ofBytes?_encode (by simp only [List.length_append] at hFits; omega)]
  exact Reader.takes_ofOption b

end Body

/-- A section of a module: the number that says what it holds, and its bytes. -/
structure Section where
  id : UInt8
  contents : Bytes
  deriving DecidableEq, Repr

namespace Section

def encode (s : Section) : Bytes := s.id :: sized s.contents

def read : Reader Section := do
  let id ← Reader.byte
  let contents ← Reader.block
  return ⟨id, contents⟩

/-- A section is taken as its number and its contents, which stand behind their length. -/
theorem takes_read {s : Section} (h : s.contents.length < 2 ^ 32) : read.Takes s.encode s := by
  refine .cons (Reader.takes_byte s.id) (.last (Reader.takes_block h) ?_)
  exact Reader.takes_pure s

/-- Reading a section uses some bytes, so reading all of them ends. -/
theorem length_lt_of_read {bytes rest : Bytes} {s : Section} (h : read bytes = some (s, rest)) :
    rest.length < bytes.length := by
  simp only [read, Reader.block, bind, StateT.bind, Option.bind_eq_some_iff] at h
  obtain ⟨⟨id, tail⟩, hId, ⟨contents, left⟩, ⟨⟨count, inner⟩, hCount, hTake⟩, hLast⟩ := h
  have hLess : inner.length < tail.length := Leb128.length_lt_of_readUnsigned? hCount
  cases bytes with
  | nil => cases hId
  | cons b bytes =>
      cases hId
      cases hLast
      rw [Reader.take] at hTake
      split at hTake
      · cases hTake
        simp only [List.length_drop, List.length_cons]
        omega
      · cases hTake

/-- Sections one after the other, up to the last byte. -/
def readAll (bytes : Bytes) : Option (List Section) :=
  if bytes.isEmpty then some []
  else
    match h : read bytes with
    | none => none
    | some (s, rest) =>
      have := length_lt_of_read h
      (readAll rest).map (s :: ·)
termination_by bytes.length

/-- Sections that stand one after the other are read back. -/
theorem readAll_encode {row : List Section} (h : ∀ s ∈ row, s.contents.length < 2 ^ 32) :
    readAll (row.flatMap encode) = some row := by
  induction row with
  | nil =>
      rw [List.flatMap_nil, readAll]
      rfl
  | cons s row ih =>
      have hRead := takes_read (h s List.mem_cons_self) (row.flatMap encode)
      have hRow := ih fun r hR => h r (List.mem_cons_of_mem s hR)
      have hBytes : (s.encode ++ row.flatMap encode).isEmpty = false := by simp [encode]
      rw [List.flatMap_cons]
      generalize s.encode ++ row.flatMap encode = bytes at hRead hBytes ⊢
      fun_cases readAll bytes with
      | case1 hEmpty => cases hBytes.symm.trans hEmpty
      | case2 _ hNone => cases hNone.symm.trans hRead
      | case3 _ head rest hSome =>
          cases hSome.symm.trans hRead
          rw [hRow]
          rfl

end Section

namespace Module

/-- The sections of a module, in their order. -/
def sections (m : Module) : List Section :=
  [⟨0x01, vector FuncType.encode m.types⟩, ⟨0x03, vector Leb128.unsigned m.funcs⟩,
    ⟨0x05, vector Limits.encode [m.memory]⟩, ⟨0x07, vector Export.encode m.exports⟩,
    ⟨0x0A, vector Body.encode m.code⟩]

/-- The bytes of a module are the header and its sections. -/
theorem encode_eq (m : Module) : m.encode = header ++ m.sections.flatMap Section.encode := by
  simp [encode, sections, Section.encode]

/-- The bytes of a section in a row. A section that is left out has no items. -/
def contents (row : List Section) (id : UInt8) : Bytes :=
  ((row.find? fun s => s.id == id).map Section.contents).getD [0x00]

/-- The module of a row of sections, which stand in increasing order. It has one memory. -/
def ofSections? (row : List Section) : Option Module :=
  let ids := row.map Section.id
  if ids.Pairwise (· < ·) ∧ ids.all ([0x01, 0x03, 0x05, 0x07, 0x0A].contains ·) then do
    let types ← (Reader.items FuncType.read).whole (contents row 0x01)
    let funcs ← (Reader.items Reader.u32).whole (contents row 0x03)
    let memories ← (Reader.items Limits.read).whole (contents row 0x05)
    let exports ← (Reader.items Export.read).whole (contents row 0x07)
    let code ← (Reader.items Body.read).whole (contents row 0x0A)
    match memories with
    | [memory] => some ⟨types, funcs, memory, exports, code⟩
    | _ => none
  else none

/-- The eight bytes at the start of every module: a zero byte, the letters `asm`, and the version of
the format, which is one. -/
def preamble : Bytes := [0x00, 0x61, 0x73, 0x6D, 0x01, 0x00, 0x00, 0x00]

/-- The sections after the header, if the bytes are a header and sections and nothing else. -/
def readSections? (bytes : Bytes) : Option (List Section) :=
  if bytes.take 8 = preamble then Section.readAll (bytes.drop 8) else none

/-- The module that bytes are. -/
def ofBytes? (bytes : Bytes) : Option Module := (readSections? bytes).bind ofSections?

/-- All numbers have at most 32 bits, the lengths of the sections included. Names, vectors and
bodies lie in the sections and are shorter. -/
structure Fits (m : Module) : Prop where
  funcs : ∀ n ∈ m.funcs, n < 2 ^ 32
  memory : m.memory.Fits
  exports : ∀ e ∈ m.exports, e.index < 2 ^ 32
  sections : ∀ s ∈ m.sections, s.contents.length < 2 ^ 32

variable {m : Module}

/-- The bytes of a module start with the magic number and the version. -/
theorem take_encode (m : Module) : m.encode.take 8 = preamble := by
  rw [encode_eq]
  rfl

/-- The sections of a module are read back from its bytes. -/
theorem readSections?_encode (h : m.Fits) : readSections? m.encode = some m.sections := by
  have hSections : m.encode.drop 8 = m.sections.flatMap Section.encode := by
    rw [encode_eq]
    rfl
  rw [readSections?, if_pos (take_encode m), hSections, Section.readAll_encode h.sections]

/-- A module is read back from its sections. -/
theorem ofSections?_sections (h : m.Fits) : ofSections? m.sections = some m := by
  have hSections := h.sections
  simp only [sections, List.forall_mem_cons] at hSections
  obtain ⟨hTypes, hFuncs, hMemory, hExports, hCode, -⟩ := hSections
  have hReadTypes : (Reader.items FuncType.read).whole (contents m.sections 0x01) = some m.types :=
    (takes_vector hTypes (by simp [FuncType.encode]) fun t _ hFits =>
      FuncType.takes_read hFits).whole
  have hReadFuncs : (Reader.items Reader.u32).whole (contents m.sections 0x03) = some m.funcs :=
    (takes_vector hFuncs (fun n _ => by rw [Leb128.unsigned]; split <;> simp) fun n hN _ =>
      Reader.takes_u32 (h.funcs n hN)).whole
  have hReadMemory : (Reader.items Limits.read).whole (contents m.sections 0x05) =
      some [m.memory] :=
    (takes_vector hMemory (fun l _ => by rw [Limits.encode]; split <;> simp) fun l hL _ =>
      Limits.takes_read (List.mem_singleton.1 hL ▸ h.memory)).whole
  have hReadExports : (Reader.items Export.read).whole (contents m.sections 0x07) =
      some m.exports :=
    (takes_vector hExports (by simp [Export.encode]) fun e hE hFits =>
      Export.takes_read hFits (h.exports e hE)).whole
  have hReadCode : (Reader.items Body.read).whole (contents m.sections 0x0A) = some m.code :=
    (takes_vector hCode (by simp [Body.encode, sized]) fun b _ hFits =>
      Body.takes_read hFits).whole
  have hIds : m.sections.map Section.id = [0x01, 0x03, 0x05, 0x07, 0x0A] := rfl
  simp only [ofSections?, hIds]
  rw [if_pos (by decide), hReadTypes, hReadFuncs, hReadMemory, hReadExports, hReadCode]
  rfl

/-- A module that fits the format is read back from its bytes. -/
theorem ofBytes?_of_fits (h : m.Fits) : ofBytes? m.encode = some m := by
  rw [ofBytes?, readSections?_encode h, Option.bind_some, ofSections?_sections h]

/-- The contents of a section are shorter than the module. -/
theorem length_contents_lt {s : Section} (h : s ∈ m.sections) :
    s.contents.length < m.encode.length := by
  have hSub : s.encode.Sublist (m.sections.flatMap Section.encode) := by
    rw [List.flatMap]
    exact List.sublist_flatten_of_mem (List.mem_map_of_mem h)
  have hLength := hSub.length_le
  rw [Section.encode, List.length_cons, sized, List.length_append] at hLength
  rw [encode_eq, List.length_append]
  omega

/-- The code of a body stands among the bytes of its module. -/
theorem code_infix_encode {b : Body} (h : b ∈ m.code) : b.code <:+: m.encode := by
  have hBody : b.code <:+: b.encode := by
    rw [Body.encode, sized]
    exact (List.suffix_append _ _).isInfix.trans (List.prefix_append _ _).isInfix |>.trans
      (List.suffix_append _ _).isInfix
  have hCode : b.encode <:+: vector Body.encode m.code :=
    (List.infix_of_mem_flatten (List.mem_map_of_mem h)).trans (List.suffix_append _ _).isInfix
  have hSection : vector Body.encode m.code <:+: m.encode := by
    rw [encode, sized, sized, sized, sized, sized]
    exact ((List.suffix_append _ _).trans
      ((List.suffix_cons _ _).trans (List.suffix_append _ _))).isInfix
  exact hBody.trans (hCode.trans hSection)

/-- The bytes of a module are the header and five sections in their order, and the module is read
back from them. So no two modules have the same bytes. -/
theorem encode_reads_back (m : Module) (h : m.Fits) :
    m.encode.take 8 = [0x00, 0x61, 0x73, 0x6D, 0x01, 0x00, 0x00, 0x00] ∧
    (∃ row, readSections? m.encode = some row ∧
      row.map Section.id = [0x01, 0x03, 0x05, 0x07, 0x0A] ∧ ofSections? row = some m) ∧
    ofBytes? m.encode = some m ∧
    ∀ n : Module, n.Fits → n.encode = m.encode → n = m := by
  refine ⟨take_encode m, ⟨m.sections, readSections?_encode h, rfl, ofSections?_sections h⟩,
    ofBytes?_of_fits h, ?_⟩
  intro n hN hSame
  have hDecoded := ofBytes?_of_fits hN
  rw [hSame, ofBytes?_of_fits h] at hDecoded
  exact (Option.some.inj hDecoded).symm

/-- Lists of unrelated lengths, code that is no code, and a body whose length takes two bytes. -/
def unevenModule : Module :=
  ⟨[⟨[.v128, .funcref], [.externref]⟩], [0, 300], ⟨65536, none⟩, [⟨"größe", .tag, 128⟩],
    [⟨[.f32, .f32], List.replicate 200 0x0B⟩, ⟨[], [0x41]⟩, ⟨[], []⟩]⟩

theorem encode_reads_back_uneven :
    unevenModule.Fits ∧ ofBytes? unevenModule.encode = some unevenModule := by
  have hFits : unevenModule.Fits := by
    refine ⟨by decide, ⟨by decide, by decide⟩, by decide, ?_⟩
    decide +kernel
  exact ⟨hFits, (encode_reads_back unevenModule hFits).2.2.1⟩

end Module

end WasmCompiler.Wasm
