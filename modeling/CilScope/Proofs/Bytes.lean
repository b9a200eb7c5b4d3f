import CilScope.Bytes
import Mathlib

/-!
# Words and their bytes

Writing a word and reading it back are inverse to each other, in both orders and for both widths;
the same holds for texts and their UTF-8 form.
-/

namespace CilScope.Bytes

theorem length_ofWord16 (w : UInt16) : (ofWord16 w).length = 2 := rfl

theorem length_ofWord32 (w : UInt32) : (ofWord32 w).length = 4 := rfl

/-- Reading the two bytes of a word gives the word. -/
theorem word16_bytes (w : UInt16) :
    word16 (UInt8.ofNat w.toNat) (UInt8.ofNat (w.toNat / 0x100)) = w := by
  apply UInt16.toNat_inj.mp
  have hw := w.toNat_lt
  simp only [word16, UInt16.toNat_ofNat', UInt8.toNat_ofNat']
  omega

/-- Reading the four bytes of a word gives the word. -/
theorem word32_bytes (w : UInt32) :
    word32 (UInt8.ofNat w.toNat) (UInt8.ofNat (w.toNat / 0x100)) (UInt8.ofNat (w.toNat / 0x10000))
      (UInt8.ofNat (w.toNat / 0x1000000)) = w := by
  apply UInt32.toNat_inj.mp
  have hw := w.toNat_lt
  simp only [word32, UInt32.toNat_ofNat', UInt8.toNat_ofNat']
  omega

theorem ofWord16_word16 (b₀ b₁ : UInt8) : ofWord16 (word16 b₀ b₁) = [b₀, b₁] := by
  have h₀ := b₀.toNat_lt
  have h₁ := b₁.toNat_lt
  simp only [ofWord16, word16, UInt16.toNat_ofNat', List.cons.injEq, and_true, ← UInt8.toNat_inj,
    UInt8.toNat_ofNat']
  omega

theorem ofWord32_word32 (b₀ b₁ b₂ b₃ : UInt8) :
    ofWord32 (word32 b₀ b₁ b₂ b₃) = [b₀, b₁, b₂, b₃] := by
  have h₀ := b₀.toNat_lt
  have h₁ := b₁.toNat_lt
  have h₂ := b₂.toNat_lt
  have h₃ := b₃.toNat_lt
  simp only [ofWord32, word32, UInt32.toNat_ofNat', List.cons.injEq, and_true, ← UInt8.toNat_inj,
    UInt8.toNat_ofNat']
  omega

/-- Reading the bytes of a text gives the text. -/
theorem toString?_ofString (s : String) : toString? (ofString s) = some s := by
  have harray : (⟨(ofString s).toArray⟩ : ByteArray) = s.toByteArray := by simp [ofString]
  rw [toString?, harray, String.fromUTF8?, dif_pos s.isValidUTF8]
  rfl

/-- A text that is read has the bytes it is read from. -/
theorem ofString_of_toString? {bs : List UInt8} {s : String} (h : toString? bs = some s) :
    ofString s = bs := by
  unfold toString? String.fromUTF8? at h
  split at h
  · cases h
    rfl
  · cases h

end CilScope.Bytes
