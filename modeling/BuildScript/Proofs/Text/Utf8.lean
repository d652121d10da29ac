import BuildScript.Text.Utf8
import Mathlib

/-!
Reading UTF-8 and writing it again. Each character has one form in bytes, and only that form is read
as the character, so bytes that are read without a fault are the bytes that are written
(`encode_of_decode`).
-/
namespace BuildScript.Utf8

theorem toList_loop (bytes : ByteArray) (i : Nat) (read : List UInt8) :
    ByteArray.toList.loop bytes i read = read.reverse ++ bytes.data.toList.drop i := by
  induction i, read using ByteArray.toList.loop.induct bytes with
  | case1 i read hi ih =>
    have hlt : i < bytes.data.toList.length := by simpa using hi
    have hget : bytes.get! i = bytes.data.toList[i] := getElem!_pos bytes.data i hlt
    rw [ByteArray.toList.loop, if_pos hi, ih, List.drop_eq_getElem_cons hlt, hget,
      List.reverse_cons, List.append_assoc, List.singleton_append]
  | case2 i read hi =>
    rw [ByteArray.toList.loop, if_neg hi, List.drop_eq_nil_of_le (by simpa using hi),
      List.append_nil]

theorem toList_eq (bytes : ByteArray) : bytes.toList = bytes.data.toList :=
  toList_loop bytes 0 []

theorem encode_ofList (text : List Char) :
    encode (String.ofList text) = text.flatMap String.utf8EncodeChar := by
  show (text.flatMap String.utf8EncodeChar).toByteArray.toList = _
  rw [toList_eq, List.data_toByteArray]

theorem encode_inj {a b : String} : encode a = encode b ↔ a = b := by
  refine ⟨fun h => ?_, congrArg _⟩
  rw [encode, encode, toList_eq, toList_eq, Array.toList_inj] at h
  exact String.toByteArray_inj.1 (ByteArray.ext h)

theorem encodeChar_ofNat {n : Nat} (h : n.isValidChar) :
    String.utf8EncodeChar (Char.ofNat n) =
      if n ≤ 0x7f then [.ofNat n]
      else if n ≤ 0x7ff then [.ofNat (n / 64 % 32 + 0xc0), .ofNat (n % 64 + 0x80)]
      else if n ≤ 0xffff then
        [.ofNat (n / 4096 % 16 + 0xe0), .ofNat (n / 64 % 64 + 0x80), .ofNat (n % 64 + 0x80)]
      else [.ofNat (n / 262144 % 8 + 0xf0), .ofNat (n / 4096 % 64 + 0x80),
        .ofNat (n / 64 % 64 + 0x80), .ofNat (n % 64 + 0x80)] := by
  have hval : (Char.ofNat n).val.toNat = n := by
    have := Char.toNat_ofNat n
    rw [if_pos h] at this
    exact this
  unfold String.utf8EncodeChar
  rw [hval]

theorem isContinuation_iff {b : UInt8} :
    isContinuation b = true ↔ 0x80 ≤ b.toNat ∧ b.toNat ≤ 0xbf := by
  simp [isContinuation, UInt8.le_iff_toNat_le]

theorem bounds_of_isSecondOf {first b : UInt8} (h : isSecondOf first b = true) :
    (0x80 ≤ b.toNat ∧ b.toNat ≤ 0xbf) ∧ (first.toNat = 0xe0 → 0xa0 ≤ b.toNat) ∧
      (first.toNat = 0xed → b.toNat ≤ 0x9f) ∧ (first.toNat = 0xf0 → 0x90 ≤ b.toNat) ∧
      (first.toNat = 0xf4 → b.toNat ≤ 0x8f) := by
  have special {n low high : UInt8} (heq : (first == n) = true)
      (h : (decide (low ≤ b) && decide (b ≤ high)) = true) :
      first.toNat = n.toNat ∧ low.toNat ≤ b.toNat ∧ b.toNat ≤ high.toNat := by
    obtain rfl := eq_of_beq heq
    simpa [UInt8.le_iff_toNat_le] using h
  have other {n : UInt8} (hne : ¬(first == n) = true) : first.toNat ≠ n.toNat :=
    fun heq => hne (beq_iff_eq.2 (UInt8.toNat_inj.1 heq))
  unfold isSecondOf at h
  split at h
  next heq =>
    have := special heq h
    simp only [UInt8.reduceToNat] at this
    omega
  next he0 =>
  split at h
  next heq =>
    have := special heq h
    simp only [UInt8.reduceToNat] at this
    omega
  next hed =>
  split at h
  next heq =>
    have := special heq h
    simp only [UInt8.reduceToNat] at this
    omega
  next hf0 =>
  split at h
  next heq =>
    have := special heq h
    simp only [UInt8.reduceToNat] at this
    omega
  next hf4 =>
    exact ⟨isContinuation_iff.1 h, (absurd · (other he0)), (absurd · (other hed)),
      (absurd · (other hf0)), (absurd · (other hf4))⟩

theorem ofNat_eq {n : Nat} {b : UInt8} (h : n = b.toNat) : UInt8.ofNat n = b := by
  rw [h, UInt8.ofNat_toNat]

section Lengths
variable {b c d e : UInt8}

theorem encodeChar_one (hb : b.toNat < 0x80) :
    String.utf8EncodeChar (Char.ofNat b.toNat) = [b] := by
  rw [encodeChar_ofNat (.inl (by omega)), if_pos (by omega), ofNat_eq rfl]

theorem encodeChar_two (hb : 0xc2 ≤ b.toNat ∧ b.toNat ≤ 0xdf)
    (hc : 0x80 ≤ c.toNat ∧ c.toNat ≤ 0xbf) :
    String.utf8EncodeChar (Char.ofNat (b.toNat % 32 * 64 + c.toNat % 64)) = [b, c] := by
  rw [encodeChar_ofNat (.inl (by omega)), if_neg (by omega), if_pos (by omega),
    ofNat_eq (b := b) (by omega), ofNat_eq (b := c) (by omega)]

theorem encodeChar_three (hb : 0xe0 ≤ b.toNat ∧ b.toNat ≤ 0xef)
    (hc : 0x80 ≤ c.toNat ∧ c.toNat ≤ 0xbf) (hlow : b.toNat = 0xe0 → 0xa0 ≤ c.toNat)
    (hhigh : b.toNat = 0xed → c.toNat ≤ 0x9f) (hd : 0x80 ≤ d.toNat ∧ d.toNat ≤ 0xbf) :
    String.utf8EncodeChar
      (Char.ofNat ((b.toNat % 16 * 64 + c.toNat % 64) * 64 + d.toNat % 64)) = [b, c, d] := by
  have hvalid : ((b.toNat % 16 * 64 + c.toNat % 64) * 64 + d.toNat % 64).isValidChar := by
    unfold Nat.isValidChar
    omega
  rw [encodeChar_ofNat hvalid, if_neg (by omega), if_neg (by omega), if_pos (by omega),
    ofNat_eq (b := b) (by omega), ofNat_eq (b := c) (by omega), ofNat_eq (b := d) (by omega)]

theorem encodeChar_four (hb : 0xf0 ≤ b.toNat ∧ b.toNat ≤ 0xf4)
    (hc : 0x80 ≤ c.toNat ∧ c.toNat ≤ 0xbf) (hlow : b.toNat = 0xf0 → 0x90 ≤ c.toNat)
    (hhigh : b.toNat = 0xf4 → c.toNat ≤ 0x8f) (hd : 0x80 ≤ d.toNat ∧ d.toNat ≤ 0xbf)
    (he : 0x80 ≤ e.toNat ∧ e.toNat ≤ 0xbf) :
    String.utf8EncodeChar (Char.ofNat
      (((b.toNat % 8 * 64 + c.toNat % 64) * 64 + d.toNat % 64) * 64 + e.toNat % 64)) =
        [b, c, d, e] := by
  have hvalid :
      (((b.toNat % 8 * 64 + c.toNat % 64) * 64 + d.toNat % 64) * 64 + e.toNat % 64).isValidChar := by
    unfold Nat.isValidChar
    omega
  rw [encodeChar_ofNat hvalid, if_neg (by omega), if_neg (by omega), if_neg (by omega),
    ofNat_eq (b := b) (by omega), ofNat_eq (b := c) (by omega), ofNat_eq (b := d) (by omega),
    ofNat_eq (b := e) (by omega)]

end Lengths

theorem encodeChar_of_step {b : UInt8} {rest : List UInt8} {c : Char} {more : Nat}
    (h : step b rest = (.char c, more)) : String.utf8EncodeChar c = b :: rest.take more := by
  unfold step at h
  simp only [UInt8.lt_iff_toNat_lt, UInt8.le_iff_toNat_le, Bool.and_eq_true, decide_eq_true_eq,
    UInt8.reduceToNat] at h
  split at h
  next hb =>
    cases h
    exact encodeChar_one hb
  split at h
  next hb =>
    split at h
    · cases h
    next c rest =>
    split at h
    next hc =>
      cases h
      exact encodeChar_two hb (bounds_of_isSecondOf hc).1
    · cases h
  split at h
  next hb =>
    split at h
    · cases h
    next c rest =>
    split at h
    next hc =>
      obtain ⟨hc, hlow, hhigh, -⟩ := bounds_of_isSecondOf hc
      split at h
      · cases h
      next d rest =>
      split at h
      next hd =>
        cases h
        exact encodeChar_three hb hc hlow hhigh (isContinuation_iff.1 hd)
      · cases h
    · cases h
  split at h
  next hb =>
    split at h
    · cases h
    next c rest =>
    split at h
    next hc =>
      obtain ⟨hc, -, -, hlow, hhigh⟩ := bounds_of_isSecondOf hc
      split at h
      · cases h
      next d rest =>
      split at h
      next hd =>
        split at h
        · cases h
        next e rest =>
        split at h
        next he =>
          cases h
          exact encodeChar_four hb hc hlow hhigh (isContinuation_iff.1 hd)
            (isContinuation_iff.1 he)
        · cases h
      · cases h
    · cases h
  · cases h

theorem flatMap_of_assemble {offset : Nat} {bytes : List UInt8} {text : List Char}
    (h : assemble offset (pieces bytes) = .ok text) :
    text.flatMap String.utf8EncodeChar = bytes := by
  induction bytes using pieces.induct generalizing offset text with
  | case1 =>
    rw [pieces] at h
    cases h
    rfl
  | case2 b rest ih =>
    rw [pieces] at h
    cases hstep : step b rest with
    | mk piece more =>
      rw [hstep] at h ih
      cases piece with
      | char c =>
        cases hrest : assemble (offset + c.utf8Size) (pieces (rest.drop more)) with
        | error fault =>
          rw [assemble, hrest] at h
          cases h
        | ok others =>
          rw [assemble, hrest] at h
          cases h
          rw [List.flatMap_cons, encodeChar_of_step hstep, ih hrest, List.cons_append,
            List.take_append_drop]
      | invalid n => cases h
      | incomplete => cases h

/-- Bytes that are read without a fault are those that are written for what was read. -/
theorem encode_of_decode {bytes : List UInt8} {text : List Char} (h : decode bytes = .ok text) :
    encode (String.ofList text) = bytes :=
  (encode_ofList text).trans (flatMap_of_assemble h)

end BuildScript.Utf8
