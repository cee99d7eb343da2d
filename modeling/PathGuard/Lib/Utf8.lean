import PathGuard.Lib.Bytes

/-!
# UTF-8

The encoding of a text is that of its characters one after the other, each by `String.utf8EncodeChar`. A byte below 0x80
is a character of its own, and no other character has one in its encoding: what treats ASCII bytes only keeps an encoding
an encoding.

* `ValidUtf8.append`, `ValidUtf8.flatMap` : what keeps an encoding an encoding;
* `validUtf8_of_ascii` : ASCII is its own encoding.
-/

namespace PathGuard

def utf8 (text : List Char) : Bytes := text.flatMap String.utf8EncodeChar

def ValidUtf8 (bytes : Bytes) : Prop := ∃ text, utf8 text = bytes

def IsAscii (bytes : Bytes) : Prop := ∀ byte ∈ bytes, byte < 0x80

instance (bytes : Bytes) : Decidable (IsAscii bytes) := List.decidableBAll _ _

theorem utf8EncodeChar_of_lt {c : Char} (h : c.toNat < 0x80) : String.utf8EncodeChar c = [UInt8.ofNat c.toNat] := by
  unfold String.utf8EncodeChar
  exact if_pos (Nat.le_of_lt_succ h)

theorem le_of_mem_utf8EncodeChar {c : Char} (h : 0x80 ≤ c.toNat) {byte : UInt8} (hbyte : byte ∈ String.utf8EncodeChar c) :
    0x80 ≤ byte := by
  have hof : ∀ value : Nat, 0x80 ≤ value → value < 0x100 → (0x80 : UInt8) ≤ UInt8.ofNat value := by
    intro value hlow hhigh
    rw [UInt8.le_iff_toNat_le, UInt8.toNat_ofNat_of_lt' hhigh]
    exact hlow
  have hne : ¬ c.val.toNat ≤ 0x7f := Nat.not_le_of_lt h
  unfold String.utf8EncodeChar at hbyte
  dsimp only at hbyte
  rw [if_neg hne] at hbyte
  split at hbyte
  · simp only [List.mem_cons, List.not_mem_nil, or_false] at hbyte
    rcases hbyte with rfl | rfl <;> exact hof _ (by omega) (by omega)
  · split at hbyte
    · simp only [List.mem_cons, List.not_mem_nil, or_false] at hbyte
      rcases hbyte with rfl | rfl | rfl <;> exact hof _ (by omega) (by omega)
    · simp only [List.mem_cons, List.not_mem_nil, or_false] at hbyte
      rcases hbyte with rfl | rfl | rfl | rfl <;> exact hof _ (by omega) (by omega)

theorem ValidUtf8.append {front rest : Bytes} (hfront : ValidUtf8 front) (hrest : ValidUtf8 rest) :
    ValidUtf8 (front ++ rest) := by
  obtain ⟨text, rfl⟩ := hfront
  obtain ⟨more, rfl⟩ := hrest
  exact ⟨text ++ more, List.flatMap_append⟩

theorem utf8EncodeChar_ofNat {byte : UInt8} (h : byte < 0x80) :
    String.utf8EncodeChar (Char.ofNat byte.toNat) = [byte] := by
  have hlt : byte.toNat < 0x80 := UInt8.lt_iff_toNat_lt.mp h
  have hchar : (Char.ofNat byte.toNat).toNat = byte.toNat := by
    rw [Char.ofNat, dif_pos (show byte.toNat.isValidChar from Or.inl (by omega))]
    rfl
  rw [utf8EncodeChar_of_lt (by rw [hchar]; exact hlt), hchar, UInt8.ofNat_toNat]

theorem validUtf8_of_ascii {bytes : Bytes} (h : IsAscii bytes) : ValidUtf8 bytes := by
  unfold IsAscii at h
  induction bytes with
  | nil => exact ⟨[], rfl⟩
  | cons byte bytes ih =>
      rw [List.forall_mem_cons] at h
      have hencode : utf8 [Char.ofNat byte.toNat] = [byte] := by
        rw [utf8, List.flatMap_singleton, utf8EncodeChar_ofNat h.1]
      exact ValidUtf8.append ⟨_, hencode⟩ (ih h.2)

/-- A map of bytes that answers ASCII with ASCII, and keeps every other byte, keeps the encoding of texts. -/
theorem ValidUtf8.flatMap {bytes : Bytes} {f : UInt8 → Bytes} (h : ValidUtf8 bytes)
    (hascii : ∀ byte < 0x80, IsAscii (f byte)) (hother : ∀ byte, 0x80 ≤ byte → f byte = [byte]) :
    ValidUtf8 (bytes.flatMap f) := by
  obtain ⟨text, rfl⟩ := h
  induction text with
  | nil => exact ⟨[], rfl⟩
  | cons c text ih =>
      rw [utf8, List.flatMap_cons, List.flatMap_append]
      refine ValidUtf8.append ?_ ih
      by_cases hc : c.toNat < 0x80
      · rw [utf8EncodeChar_of_lt hc, List.flatMap_singleton]
        apply validUtf8_of_ascii
        apply hascii
        rw [UInt8.lt_iff_toNat_lt, UInt8.toNat_ofNat_of_lt' (show c.toNat < 256 by omega)]
        exact hc
      · have hkept : (String.utf8EncodeChar c).flatMap f = String.utf8EncodeChar c := by
          rw [List.flatMap_congr fun byte hbyte => hother byte (le_of_mem_utf8EncodeChar (Nat.le_of_not_lt hc) hbyte)]
          exact List.flatMap_singleton' _
        rw [hkept]
        exact ⟨[c], List.flatMap_singleton _ _⟩

end PathGuard
