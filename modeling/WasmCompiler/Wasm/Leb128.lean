/-! Integers in groups of seven bits, the lowest group first. The high bit of a byte says that
another group follows. Writing uses as few bytes as it can; reading takes longer forms too, up
to a number of bits. -/

namespace WasmCompiler.Wasm

abbrev Bytes := List UInt8

namespace Leb128

/-- The bytes of a natural number. -/
def unsigned (n : Nat) : Bytes :=
  if n < 128 then [n.toUInt8] else (n % 128 + 128).toUInt8 :: unsigned (n / 128)
termination_by n
decreasing_by omega

/-- The bytes of an integer: the last group is the first from which the sign can be seen. -/
def signed (n : Int) : Bytes :=
  if -64 ≤ n ∧ n < 64 then [(n % 128).toNat.toUInt8]
  else ((n % 128).toNat + 128).toUInt8 :: signed (n / 128)
termination_by n.natAbs
decreasing_by omega

/-- A natural number of at most `bits` bits, and the bytes after it. The last byte that fits
must end the number and have no bits too many. -/
def readUnsigned? (bits : Nat) : Bytes → Option (Nat × Bytes)
  | [] => none
  | byte :: rest =>
    if bits ≤ 7 then
      if byte.toNat < Nat.pow 2 bits ∧ byte.toNat < 128 then some (byte.toNat, rest) else none
    else if byte.toNat < 128 then some (byte.toNat, rest)
    else (readUnsigned? (bits - 7) rest).map fun more => (byte.toNat - 128 + 128 * more.1, more.2)

/-- Reading an integer uses at least one byte. -/
theorem length_lt_of_readUnsigned? {bits n : Nat} {bytes rest : Bytes}
    (h : readUnsigned? bits bytes = some (n, rest)) : rest.length < bytes.length := by
  fun_induction readUnsigned? bits bytes generalizing n rest with
  | case1 => simp at h
  | case2 | case4 =>
    simp only [Option.some.injEq, Prod.mk.injEq] at h
    simp [h.2]
  | case3 => simp at h
  | case5 bits byte tail _ _ ih =>
    obtain ⟨⟨m, left⟩, hm, he⟩ := Option.map_eq_some_iff.1 h
    have := ih hm
    simp only [Prod.mk.injEq] at he
    rw [← he.2, List.length_cons]
    omega

/-- The value of a last group, its highest bit being the sign. -/
def lastGroup (byte : UInt8) : Int := if byte.toNat < 64 then byte.toNat else byte.toNat - 128

/-- An integer of at most `bits` bits with its sign, and the bytes after it. The last byte that
fits must end the number and repeat the sign in the bits that are not used. -/
def readSigned? (bits : Nat) : Bytes → Option (Int × Bytes)
  | [] => none
  | byte :: rest =>
    if bits ≤ 7 then
      let bound : Int := Nat.pow 2 (bits - 1)
      if byte.toNat < 128 ∧ -bound ≤ lastGroup byte ∧ lastGroup byte < bound then
        some (lastGroup byte, rest)
      else none
    else if byte.toNat < 128 then some (lastGroup byte, rest)
    else
      (readSigned? (bits - 7) rest).map fun more =>
        ((byte.toNat - 128 : Nat) + 128 * more.1, more.2)

theorem length_lt_of_readSigned? {bits : Nat} {n : Int} {bytes rest : Bytes}
    (h : readSigned? bits bytes = some (n, rest)) : rest.length < bytes.length := by
  fun_induction readSigned? bits bytes generalizing n rest with
  | case1 => simp at h
  | case2 | case4 =>
    simp only [Option.some.injEq, Prod.mk.injEq] at h
    simp [h.2]
  | case3 => simp at h
  | case5 bits byte tail _ _ ih =>
    obtain ⟨⟨m, left⟩, hm, he⟩ := Option.map_eq_some_iff.1 h
    have := ih hm
    simp only [Prod.mk.injEq] at he
    rw [← he.2, List.length_cons]
    omega

end Leb128

/-- The bytes of a number in `count` bytes, the lowest first. -/
def littleEndian : Nat → Nat → Bytes
  | 0, _ => []
  | count + 1, n => (n % 256).toUInt8 :: littleEndian count (n / 256)

/-- The number that `count` bytes hold, and the bytes after them. -/
def readLittleEndian? : Nat → Bytes → Option (Nat × Bytes)
  | 0, bytes => some (0, bytes)
  | _ + 1, [] => none
  | count + 1, byte :: rest =>
    (readLittleEndian? count rest).map fun more => (byte.toNat + 256 * more.1, more.2)

theorem length_le_of_readLittleEndian? {count n : Nat} {bytes rest : Bytes}
    (h : readLittleEndian? count bytes = some (n, rest)) : rest.length ≤ bytes.length := by
  fun_induction readLittleEndian? count bytes generalizing n rest with
  | case1 =>
    simp only [Option.some.injEq, Prod.mk.injEq] at h
    simp [h.2]
  | case2 => simp at h
  | case3 count byte tail ih =>
    obtain ⟨⟨m, left⟩, hm, he⟩ := Option.map_eq_some_iff.1 h
    have := ih hm
    simp only [Prod.mk.injEq] at he
    rw [← he.2, List.length_cons]
    omega

end WasmCompiler.Wasm
