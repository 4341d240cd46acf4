/-! # Key Hashes

  The 64-bit Fowler–Noll–Vo hash: a word absorbs one byte after the other, first by exclusive
  or, then by a multiplication that wraps around.
-/

namespace ReadThrough.Hash

/-- The word that has absorbed nothing. -/
def offsetBasis : UInt64 := 0xcbf29ce484222325

/-- The factor of each step. -/
def prime : UInt64 := 0x100000001b3

/-- Absorbs one byte. -/
def absorb (h : UInt64) (byte : UInt8) : UInt64 :=
  (h ^^^ byte.toUInt64) * prime

/-- The hash of a text key: its bytes in UTF-8, and one byte that occurs in no text as its
    end mark. -/
def ofText (key : String) : UInt64 :=
  absorb (key.toUTF8.toList.foldl absorb offsetBasis) 0xff

end ReadThrough.Hash
