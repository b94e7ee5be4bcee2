import MessageBridge.Text.Utf8
import Mathlib.Data.Nat.Basic

/-!
# Encoded text is read back

The bytes of a text are read into the characters of this text, without a mark for
invalid bytes. A character is encoded in one to four bytes; the first of them opens it
and sets the bounds of the second one. That the second byte keeps within its bounds is
where overlong forms and surrogates would fail: a character is encoded in no more bytes
than it takes, and it is no surrogate.
-/

namespace MessageBridge.Text

namespace Utf8

variable {b : UInt8} {rest : List UInt8} {p : Partial}

theorem symbolsFrom_opens (h : lead b.toNat = .opens p) :
    symbolsFrom none (b :: rest) = symbolsFrom (some p) rest := by
  rw [symbolsFrom, h]

theorem symbolsFrom_owed {bits owed low high : Nat} (hlow : low ≤ b.toNat)
    (hhigh : b.toNat ≤ high) :
    symbolsFrom (some ⟨bits, owed + 1, low, high⟩) (b :: rest) =
      symbolsFrom (some ⟨bits * 64 + (b.toNat - 0x80), owed, 0x80, 0xBF⟩) rest := by
  rw [symbolsFrom]
  simp only [hlow, hhigh, and_self, if_true]

theorem symbolsFrom_last {bits low high : Nat} (hlow : low ≤ b.toNat) (hhigh : b.toNat ≤ high) :
    symbolsFrom (some ⟨bits, 0, low, high⟩) (b :: rest) =
      some (Char.ofNat (bits * 64 + (b.toNat - 0x80))) :: symbolsFrom none rest := by
  rw [symbolsFrom]
  simp only [hlow, hhigh, and_self, if_true]

/-- A byte behind the first one of a character, with six of its bits. -/
theorem toNat_continuation (n : Nat) : (UInt8.ofNat (n % 64 + 128)).toNat = n % 64 + 0x80 := by
  rw [UInt8.toNat_ofNat']
  omega

/-- The second byte of a character in three bytes keeps within its bounds. -/
theorem lead_three {n : Nat} (hlow : 0x800 ≤ n) (hhigh : n < 0x10000)
    (hchar : n < 0xD800 ∨ 0xDFFF < n) :
    ∃ low high, lead (n / 4096 + 0xE0) = .opens ⟨n / 4096, 1, low, high⟩ ∧
      low ≤ n / 64 % 64 + 0x80 ∧ n / 64 % 64 + 0x80 ≤ high := by
  have hascii : ¬ n / 4096 + 0xE0 < 0x80 := by omega
  have hlead : ¬ n / 4096 + 0xE0 < 0xC2 := by omega
  have htwo : ¬ n / 4096 + 0xE0 < 0xE0 := by omega
  have hthree : n / 4096 + 0xE0 < 0xF0 := by omega
  rw [lead]
  simp only [hascii, hlead, htwo, hthree, if_false, if_true]
  by_cases hzero : n / 4096 + 0xE0 = 0xE0
  · have hbits : n / 4096 = 0 := by omega
    rw [if_pos hzero, hbits]
    exact ⟨_, _, rfl, by omega, by omega⟩
  rw [if_neg hzero]
  by_cases hsurrogate : n / 4096 + 0xE0 = 0xED
  · have hbits : n / 4096 = 0xD := by omega
    rw [if_pos hsurrogate, hbits]
    exact ⟨_, _, rfl, by omega, by omega⟩
  rw [if_neg hsurrogate, Nat.add_sub_cancel]
  exact ⟨_, _, rfl, by omega, by omega⟩

/-- The second byte of a character in four bytes keeps within its bounds. -/
theorem lead_four {n : Nat} (hlow : 0x10000 ≤ n) (hhigh : n < 0x110000) :
    ∃ low high, lead (n / 262144 + 0xF0) = .opens ⟨n / 262144, 2, low, high⟩ ∧
      low ≤ n / 4096 % 64 + 0x80 ∧ n / 4096 % 64 + 0x80 ≤ high := by
  have hascii : ¬ n / 262144 + 0xF0 < 0x80 := by omega
  have hlead : ¬ n / 262144 + 0xF0 < 0xC2 := by omega
  have htwo : ¬ n / 262144 + 0xF0 < 0xE0 := by omega
  have hthree : ¬ n / 262144 + 0xF0 < 0xF0 := by omega
  have hoverlong : ¬ n / 262144 + 0xF0 = 0xE0 := by omega
  have hsurrogate : ¬ n / 262144 + 0xF0 = 0xED := by omega
  rw [lead]
  simp only [hascii, hlead, htwo, hthree, hoverlong, hsurrogate, if_false]
  by_cases hzero : n / 262144 + 0xF0 = 0xF0
  · have hbits : n / 262144 = 0 := by omega
    rw [if_pos hzero, hbits]
    exact ⟨_, _, rfl, by omega, by omega⟩
  rw [if_neg hzero]
  by_cases hmiddle : n / 262144 + 0xF0 < 0xF4
  · rw [if_pos hmiddle, Nat.add_sub_cancel]
    exact ⟨_, _, rfl, by omega, by omega⟩
  have hlast : n / 262144 + 0xF0 = 0xF4 := by omega
  have hbits : n / 262144 = 4 := by omega
  rw [if_neg hmiddle, if_pos hlast, hbits]
  exact ⟨_, _, rfl, by omega, by omega⟩

theorem symbolsFrom_two {n : Nat} (hlow : 0x80 ≤ n) (hhigh : n < 0x800) (rest : List UInt8) :
    symbolsFrom none (UInt8.ofNat (n / 64 % 32 + 192) :: UInt8.ofNat (n % 64 + 128) :: rest) =
      some (Char.ofNat n) :: symbolsFrom none rest := by
  have hbyte : (UInt8.ofNat (n / 64 % 32 + 192)).toNat = n / 64 + 0xC0 := by
    rw [UInt8.toNat_ofNat']
    omega
  have hlead : lead (n / 64 + 0xC0) = .opens ⟨n / 64, 0, 0x80, 0xBF⟩ := by
    rw [lead, if_neg (by omega), if_neg (by omega), if_pos (by omega), Nat.add_sub_cancel]
  have hbits : n / 64 * 64 + (n % 64 + 0x80 - 0x80) = n := by omega
  have hlast := toNat_continuation n
  rw [symbolsFrom_opens (by rw [hbyte, hlead]), symbolsFrom_last (by omega) (by omega), hlast,
    hbits]

theorem symbolsFrom_three {n : Nat} (hlow : 0x800 ≤ n) (hhigh : n < 0x10000)
    (hchar : n < 0xD800 ∨ 0xDFFF < n) (rest : List UInt8) :
    symbolsFrom none (UInt8.ofNat (n / 4096 % 16 + 224) :: UInt8.ofNat (n / 64 % 64 + 128) ::
        UInt8.ofNat (n % 64 + 128) :: rest) =
      some (Char.ofNat n) :: symbolsFrom none rest := by
  have hbyte : (UInt8.ofNat (n / 4096 % 16 + 224)).toNat = n / 4096 + 0xE0 := by
    rw [UInt8.toNat_ofNat']
    omega
  obtain ⟨low, high, hlead, hlow, hhigh⟩ := lead_three hlow hhigh hchar
  have hbits : (n / 4096 * 64 + (n / 64 % 64 + 0x80 - 0x80)) * 64
      + (n % 64 + 0x80 - 0x80) = n := by
    omega
  have hsecond := toNat_continuation (n / 64)
  have hlast := toNat_continuation n
  rw [symbolsFrom_opens (by rw [hbyte, hlead]), symbolsFrom_owed (by omega) (by omega),
    symbolsFrom_last (by omega) (by omega), hsecond, hlast, hbits]

theorem symbolsFrom_four {n : Nat} (hlow : 0x10000 ≤ n) (hhigh : n < 0x110000)
    (rest : List UInt8) :
    symbolsFrom none (UInt8.ofNat (n / 262144 % 8 + 240) :: UInt8.ofNat (n / 4096 % 64 + 128) ::
        UInt8.ofNat (n / 64 % 64 + 128) :: UInt8.ofNat (n % 64 + 128) :: rest) =
      some (Char.ofNat n) :: symbolsFrom none rest := by
  have hbyte : (UInt8.ofNat (n / 262144 % 8 + 240)).toNat = n / 262144 + 0xF0 := by
    rw [UInt8.toNat_ofNat']
    omega
  obtain ⟨low, high, hlead, hlow, hhigh⟩ := lead_four hlow hhigh
  have hbits : ((n / 262144 * 64 + (n / 4096 % 64 + 0x80 - 0x80)) * 64
      + (n / 64 % 64 + 0x80 - 0x80)) * 64 + (n % 64 + 0x80 - 0x80) = n := by
    omega
  have hsecond := toNat_continuation (n / 4096)
  have hthird := toNat_continuation (n / 64)
  have hlast := toNat_continuation n
  rw [symbolsFrom_opens (by rw [hbyte, hlead]), symbolsFrom_owed (by omega) (by omega),
    symbolsFrom_owed (by omega) (by omega), symbolsFrom_last (by omega) (by omega), hsecond,
    hthird, hlast, hbits]

/-- The bytes of a character are read into this character. -/
theorem symbolsFrom_encoded (c : Char) (rest : List UInt8) :
    symbolsFrom none (String.utf8EncodeChar c ++ rest) = some c :: symbolsFrom none rest := by
  have hchar : some c = some (Char.ofNat c.val.toNat) := congrArg some (Char.ofNat_toNat c).symm
  have hvalid : c.val.toNat < 0xD800 ∨ 0xDFFF < c.val.toNat ∧ c.val.toNat < 0x110000 := c.valid
  rw [String.utf8EncodeChar, hchar]
  generalize c.val.toNat = n at hvalid
  by_cases hone : n ≤ 127
  · have hbyte : (UInt8.ofNat n).toNat = n := by
      rw [UInt8.toNat_ofNat']
      omega
    have hlead : lead n = .character (Char.ofNat n) := if_pos (by omega)
    rw [if_pos hone, List.singleton_append, symbolsFrom, hbyte, hlead]
  rw [if_neg hone]
  by_cases htwo : n ≤ 2047
  · rw [if_pos htwo]
    exact symbolsFrom_two (by omega) (by omega) rest
  rw [if_neg htwo]
  by_cases hthree : n ≤ 65535
  · rw [if_pos hthree]
    exact symbolsFrom_three (by omega) (by omega) (by omega) rest
  · rw [if_neg hthree]
    exact symbolsFrom_four (by omega) (by omega) rest

theorem symbolsFrom_flatMap (cs : List Char) :
    symbolsFrom none (cs.flatMap String.utf8EncodeChar) = cs.map some := by
  induction cs with
  | nil => rfl
  | cons c cs ih => rw [List.flatMap_cons, symbolsFrom_encoded, ih, List.map_cons]

end Utf8

/-- What has been encoded is read back. -/
theorem symbols_toUTF8 (text : String) : symbols text.toUTF8 = text.toList.map some := by
  have hbytes : text.toUTF8 = (text.toList.flatMap String.utf8EncodeChar).toByteArray := by
    have hencoded := @String.toByteArray_ofList text.toList
    rw [String.ofList_toList] at hencoded
    exact hencoded
  rw [symbols, hbytes, List.data_toByteArray, Utf8.symbolsFrom_flatMap]

end MessageBridge.Text
