/-!
# Words and bytes

Little-endian bytes of a natural number at a fixed width, and the views of a 64-bit word as bytes,
16-bit halves and 32-bit words.
-/

namespace AsmLinker.LittleEndian

/-- The `width` low bytes of `n`, least significant first. -/
def toBytes : Nat → Nat → List UInt8
  | 0, _ => []
  | width + 1, n => UInt8.ofNat (n % 256) :: toBytes width (n / 256)

/-- The number with the given bytes, least significant first. -/
def ofBytes : List UInt8 → Nat
  | [] => 0
  | b :: bs => b.toNat + 256 * ofBytes bs

@[simp] theorem length_toBytes (width n : Nat) : (toBytes width n).length = width := by
  induction width generalizing n with
  | zero => rfl
  | succ width ih => simp [toBytes, ih]

end AsmLinker.LittleEndian

namespace AsmLinker.Word

/-- The eight bytes of a word, least significant first. -/
def bytes (w : UInt64) : List UInt8 :=
  LittleEndian.toBytes 8 w.toNat

/-- The four 16-bit halves of a word, least significant first. -/
def halves (w : UInt64) : List UInt16 :=
  [w.toUInt16, (w >>> 16).toUInt16, (w >>> 32).toUInt16, (w >>> 48).toUInt16]

/-- The two 32-bit words of a word, the low one first. -/
def words (w : UInt64) : List UInt32 :=
  [w.toUInt32, (w >>> 32).toUInt32]

end AsmLinker.Word
