import Yeast.Proofs.Decoding

set_option autoImplicit false

/-! # Bytes of a text

The bytes of a text are read as that text and nothing else (`Text.ofBytes_encode`). A character is
spelled by its bits, six to each byte that goes on with it, and what remains for the first byte
decides how many bytes there are. The reader collects the same bits (`Utf8.step_within`,
`Utf8.step_last`). It takes a narrower range for the second byte where the first one leaves room for
a shorter spelling, for a surrogate or for too large a number, and no character is spelled there.
-/

namespace Yeast

namespace Utf8

theorem toNat_ofNat_byte {n : Nat} (h : n < 256) : (UInt8.ofNat n).toNat = n := by
  rw [UInt8.toNat_ofNat', Nat.mod_eq_of_lt h]

/-! ## Bytes that begin a character -/

section First

variable {n : Nat}

theorem step_one (h : n < 0x80) : step none (UInt8.ofNat n) = ([some (Char.ofNat n)], none) := by
  have hbyte := toNat_ofNat_byte (n := n) (by omega)
  have hplain : isPlain (UInt8.ofNat n) = true := by
    rw [isPlain_iff, hbyte]
    exact h
  show first _ = _
  rw [first_of_isPlain hplain, charOf, hbyte]

theorem step_two (hleast : 2 ≤ n) (h : n < 32) :
    step none (UInt8.ofNat (n + 0xC0)) = ([], some ⟨n, 1, 0x80, 0xBF⟩) := by
  have hbyte := toNat_ofNat_byte (n := n + 0xC0) (by omega)
  show first _ = _
  unfold first
  simp only [UInt8.lt_iff_toNat_lt, hbyte, UInt8.reduceToNat]
  rw [if_neg (by omega), if_neg (by omega), if_pos (by omega), Nat.add_sub_cancel]

theorem step_three (h : n < 16) :
    step none (UInt8.ofNat (n + 0xE0)) =
      ([], some ⟨n, 2, if n = 0 then 0xA0 else 0x80, if n = 13 then 0x9F else 0xBF⟩) := by
  have hbyte := toNat_ofNat_byte (n := n + 0xE0) (by omega)
  have hleast : n + 0xE0 = 0xE0 ↔ n = 0 := by omega
  have hgreatest : n + 0xE0 = 0xED ↔ n = 13 := by omega
  show first _ = _
  unfold first
  simp only [UInt8.lt_iff_toNat_lt, ← UInt8.toNat_inj, hbyte, UInt8.reduceToNat]
  rw [if_neg (by omega), if_neg (by omega), if_neg (by omega), if_pos (by omega),
    Nat.add_sub_cancel]
  simp only [hleast, hgreatest]

theorem step_four (h : n < 5) :
    step none (UInt8.ofNat (n + 0xF0)) =
      ([], some ⟨n, 3, if n = 0 then 0x90 else 0x80, if n = 4 then 0x8F else 0xBF⟩) := by
  have hbyte := toNat_ofNat_byte (n := n + 0xF0) (by omega)
  have hleast : n + 0xF0 = 0xF0 ↔ n = 0 := by omega
  have hgreatest : n + 0xF0 = 0xF4 ↔ n = 4 := by omega
  show first _ = _
  unfold first
  simp only [UInt8.lt_iff_toNat_lt, ← UInt8.toNat_inj, hbyte, UInt8.reduceToNat]
  rw [if_neg (by omega), if_neg (by omega), if_neg (by omega), if_neg (by omega),
    if_pos (by omega), Nat.add_sub_cancel]
  simp only [hleast, hgreatest]

end First

/-! ## Bytes that go on with a character -/

section Next

variable {bits remaining n : Nat} {least greatest : UInt8}

theorem step_eq_next {p : Pending} (hn : n < 64) (hleast : p.least.toNat ≤ n + 0x80)
    (hgreatest : n + 0x80 ≤ p.greatest.toNat) :
    step (some p) (UInt8.ofNat (n + 0x80)) = next p (UInt8.ofNat (n + 0x80)) := by
  have hbyte := toNat_ofNat_byte (n := n + 0x80) (by omega)
  rw [step, if_pos]
  rw [Bool.and_eq_true, decide_eq_true_eq, decide_eq_true_eq, UInt8.le_iff_toNat_le,
    UInt8.le_iff_toNat_le, hbyte]
  exact ⟨hleast, hgreatest⟩

/-- A byte before the last one adds six bits, and after it the next one may be any. -/
theorem step_within (hn : n < 64) (hleast : least.toNat ≤ n + 0x80)
    (hgreatest : n + 0x80 ≤ greatest.toNat) :
    step (some ⟨bits, remaining + 2, least, greatest⟩) (UInt8.ofNat (n + 0x80)) =
      ([], some ⟨bits * 64 + n, remaining + 1, 0x80, 0xBF⟩) := by
  have hbyte := toNat_ofNat_byte (n := n + 0x80) (by omega)
  rw [step_eq_next hn hleast hgreatest, next, hbyte, Nat.add_sub_cancel]
  exact if_neg (by simp)

/-- The last byte completes the character. -/
theorem step_last (hn : n < 64) (hleast : least.toNat ≤ n + 0x80)
    (hgreatest : n + 0x80 ≤ greatest.toNat) :
    step (some ⟨bits, 1, least, greatest⟩) (UInt8.ofNat (n + 0x80)) =
      ([some (Char.ofNat (bits * 64 + n))], none) := by
  have hbyte := toNat_ofNat_byte (n := n + 0x80) (by omega)
  rw [step_eq_next hn hleast hgreatest, next, hbyte, Nat.add_sub_cancel]
  exact if_pos (Nat.le_refl 1)

/-- Any six bits are in the range that bytes usually have. -/
theorem usual_range (hn : n < 64) :
    (0x80 : UInt8).toNat ≤ n + 0x80 ∧ n + 0x80 ≤ (0xBF : UInt8).toNat := by
  simp only [UInt8.reduceToNat]
  omega

end Next

/-! ## Characters -/

theorem readFrom_cons {state : Option Pending} {b : UInt8} {reading : Reading}
    (h : step state b = reading) (rest : Bytes) :
    readFrom state (b :: rest) = reading.1 ++ readFrom reading.2 rest := by
  rw [readFrom, h]

/-- The bytes of a character are read as that character, whatever follows. -/
theorem readFrom_utf8EncodeChar (c : Char) (rest : Bytes) :
    readFrom none (String.utf8EncodeChar c ++ rest) = some c :: readFrom none rest := by
  have hvalid : c.val.toNat < 0xD800 ∨ 0xDFFF < c.val.toNat ∧ c.val.toNat < 0x110000 := c.valid
  have hchar : Char.ofNat c.val.toNat = c := Char.ofNat_toNat c
  unfold String.utf8EncodeChar
  generalize c.val.toNat = v at hvalid hchar
  dsimp only
  split_ifs with hone htwo hthree
  · rw [List.singleton_append, readFrom_cons (step_one (by omega)), hchar]
    rfl
  · have hlead : v / 64 % 32 = v / 64 := by omega
    have hbits : v / 64 * 64 + v % 64 = v := by omega
    have hlast := usual_range (n := v % 64) (by omega)
    rw [hlead, List.cons_append, List.singleton_append,
      readFrom_cons (step_two (by omega) (by omega)),
      readFrom_cons (step_last (by omega) hlast.1 hlast.2), hbits, hchar]
    rfl
  · have hlead : v / 4096 % 16 = v / 4096 := by omega
    have hbits : (v / 4096 * 64 + v / 64 % 64) * 64 + v % 64 = v := by omega
    -- No shorter spelling, and no surrogate.
    have hleast : (if v / 4096 = 0 then 0xA0 else 0x80 : UInt8).toNat ≤ v / 64 % 64 + 0x80 := by
      split_ifs <;> simp only [UInt8.reduceToNat] <;> omega
    have hgreatest : v / 64 % 64 + 0x80 ≤ (if v / 4096 = 13 then 0x9F else 0xBF : UInt8).toNat := by
      split_ifs <;> simp only [UInt8.reduceToNat] <;> omega
    have hlast := usual_range (n := v % 64) (by omega)
    rw [hlead, List.cons_append, List.cons_append, List.singleton_append,
      readFrom_cons (step_three (by omega)),
      readFrom_cons (step_within (by omega) hleast hgreatest),
      readFrom_cons (step_last (by omega) hlast.1 hlast.2), hbits, hchar]
    rfl
  · have hlead : v / 262144 % 8 = v / 262144 := by omega
    have hbits : ((v / 262144 * 64 + v / 4096 % 64) * 64 + v / 64 % 64) * 64 + v % 64 = v := by
      omega
    -- No shorter spelling, and no number that is too large.
    have hleast : (if v / 262144 = 0 then 0x90 else 0x80 : UInt8).toNat ≤ v / 4096 % 64 + 0x80 := by
      split_ifs <;> simp only [UInt8.reduceToNat] <;> omega
    have hgreatest :
        v / 4096 % 64 + 0x80 ≤ (if v / 262144 = 4 then 0x8F else 0xBF : UInt8).toNat := by
      split_ifs <;> simp only [UInt8.reduceToNat] <;> omega
    have hthird := usual_range (n := v / 64 % 64) (by omega)
    have hlast := usual_range (n := v % 64) (by omega)
    rw [hlead, List.cons_append, List.cons_append, List.cons_append, List.singleton_append,
      readFrom_cons (step_four (by omega)),
      readFrom_cons (step_within (by omega) hleast hgreatest),
      readFrom_cons (step_within (by omega) hthird.1 hthird.2),
      readFrom_cons (step_last (by omega) hlast.1 hlast.2), hbits, hchar]
    rfl

/-! ## Texts -/

theorem read_encode (text : Text) : read (encode text) = text.map some := by
  unfold read
  induction text with
  | nil => rfl
  | cons c text ih =>
      rw [encode, List.flatMap_cons, readFrom_utf8EncodeChar, List.map_cons]
      exact congrArg (some c :: ·) ih

theorem decode?_encode (text : Text) : decode? (encode text) = some text := by
  rw [decode?, read_encode]
  induction text with
  | nil => rfl
  | cons c text ih =>
      rw [List.map_cons, List.mapM_cons, ih]
      rfl

end Utf8

/-- **The bytes of a text are read as UTF-8, and as that text.** -/
theorem Text.ofBytes_encode (text : Text) : ofBytes (Utf8.encode text) = text := by
  rw [ofBytes, Utf8.decode?_encode]

theorem Charset.ofBytes_encode (text : Text) : ofBytes (Utf8.encode text) = .utf8 := by
  rw [ofBytes, Utf8.decode?_encode]

end Yeast
