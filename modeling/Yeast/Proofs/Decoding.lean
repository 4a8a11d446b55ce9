import Mathlib.Tactic.Common
import Yeast.Encoding.Detect

set_option autoImplicit false

/-! # Bytes below 0x80 under any decoding

However bytes are read, a byte below 0x80 is read as the ASCII character of its number, and no
other byte makes such a character (`Charset.filter_read`). So a text falls apart where its bytes do
(`Charset.read_append_cons`), and a record never runs over the line feed that ends it.

For UTF-8 this needs to be known of a character of which some bytes are read: the next byte has to
be at least 0x80, and all that can come of it is a code point outside ASCII that is no surrogate
(`Pending.Proper`).
-/

namespace Yeast

def isAscii (c : Char) : Bool := c.toNat < 0x80

/-- The byte stands for a character of ASCII. -/
def isPlain (b : UInt8) : Bool := b < 0x80

/-- The character of the number of a byte. -/
def charOf (b : UInt8) : Char := Char.ofNat b.toNat

theorem isPlain_iff (b : UInt8) : isPlain b = true ↔ b.toNat < 0x80 := by
  rw [isPlain, decide_eq_true_eq, UInt8.lt_iff_toNat_lt]
  rfl

theorem isPlain_eq_false_iff (b : UInt8) : isPlain b = false ↔ 0x80 ≤ b.toNat := by
  rw [← Bool.not_eq_true, isPlain_iff, Nat.not_lt]

theorem toNat_ofNat_of_valid {n : Nat} (h : n.isValidChar) : (Char.ofNat n).toNat = n := by
  rw [Char.ofNat, dif_pos h]
  rfl

theorem toNat_charOf (b : UInt8) : (charOf b).toNat = b.toNat := by
  refine toNat_ofNat_of_valid (Or.inl ?_)
  have := b.toNat_lt
  omega

theorem isAscii_charOf (b : UInt8) : isAscii (charOf b) = isPlain b := by
  rw [isAscii, toNat_charOf, Bool.eq_iff_iff, isPlain_iff, decide_eq_true_eq]

/-- If every element has an image, a default for it is never used. -/
theorem map_getD_of_mapM {α β : Type} {f : α → Option β} {l : List α} {images : List β}
    (h : l.mapM f = some images) (default : β) :
    l.map (fun a => (f a).getD default) = images := by
  induction l generalizing images with
  | nil => exact Option.some.inj h
  | cons a l ih =>
      rw [List.mapM_cons, Option.bind_eq_bind, Option.bind_eq_some_iff] at h
      obtain ⟨image, himage, h⟩ := h
      rw [Option.bind_eq_bind, Option.bind_eq_some_iff] at h
      obtain ⟨more, hmore, h⟩ := h
      rw [List.map_cons, himage, ih hmore]
      exact Option.some.inj h

/-! ## UTF-8 -/

namespace Utf8

/-- How many numbers can be spelled by so many bytes. -/
def span : Nat → Nat
  | 0 => 1
  | n + 1 => 64 * span n

namespace Pending

/-- The least number that can come of what is read of a character. -/
def low (p : Pending) : Nat :=
  (p.bits * 64 + (p.least.toNat - 0x80)) * span (p.remaining - 1)

/-- The numbers that can come of it are less than this. -/
def high (p : Pending) : Nat :=
  (p.bits * 64 + (p.greatest.toNat - 0x80) + 1) * span (p.remaining - 1)

/-- All that can come of what is read is a code point outside ASCII, and no byte below 0x80 goes
on with it. -/
structure Proper (p : Pending) : Prop where
  least : 0x80 ≤ p.least.toNat
  low : 0x80 ≤ p.low
  high : p.high ≤ 0x110000
  noSurrogate : p.high ≤ 0xD800 ∨ 0xE000 ≤ p.low

end Pending

/-- What holds of the state of a reader. -/
def Sound (state : Option Pending) : Prop := ∀ p, state = some p → p.Proper

theorem sound_none : Sound none := fun _ h => nomatch h

theorem sound_some {p : Pending} (h : p.Proper) : Sound (some p) := by
  intro q hq
  obtain rfl := Option.some.inj hq
  exact h

theorem first_of_isPlain {b : UInt8} (h : isPlain b = true) :
    first b = ([some (charOf b)], none) := by
  rw [isPlain, decide_eq_true_eq] at h
  rw [first, if_pos h]
  rfl

/-- The first byte of a character outside ASCII begins one, or is ill-formed. -/
theorem first_of_high {b : UInt8} (h : isPlain b = false) :
    (∀ c, some c ∉ (first b).1) ∧ Sound (first b).2 := by
  rw [isPlain_eq_false_iff] at h
  have hlt := b.toNat_lt
  unfold first
  simp only [UInt8.lt_iff_toNat_lt, ← UInt8.toNat_inj, UInt8.reduceToNat]
  rw [if_neg (by omega)]
  split_ifs
  all_goals
    refine ⟨by simp, ?_⟩
    first
    | exact sound_none
    | refine sound_some ⟨?_, ?_, ?_, ?_⟩ <;>
        simp only [Pending.low, Pending.high, span, UInt8.reduceToNat, Nat.reduceSub] <;> omega

/-- A byte in the expected range leaves of the numbers that can come of a character those that begin
with it. -/
theorem bounds_of_proper {p : Pending} (hp : p.Proper) {b : UInt8} (hleast : p.least ≤ b)
    (hgreatest : b ≤ p.greatest) :
    let bits := p.bits * 64 + (b.toNat - 0x80)
    let unit := span (p.remaining - 1)
    0x80 ≤ bits * unit ∧ (bits + 1) * unit ≤ 0x110000 ∧
      ((bits + 1) * unit ≤ 0xD800 ∨ 0xE000 ≤ bits * unit) := by
  intro bits unit
  obtain ⟨-, hlow, hhigh, hnone⟩ := hp
  rw [UInt8.le_iff_toNat_le] at hleast hgreatest
  have hbelow : p.low ≤ bits * unit := Nat.mul_le_mul_right unit (by omega)
  have habove : (bits + 1) * unit ≤ p.high := Nat.mul_le_mul_right unit (by omega)
  omega

/-- Before a byte that may be any, what can come of the bits is all that begins with them. -/
theorem bounds_of_more (bits : Nat) {remaining : Nat} (h : 1 < remaining) :
    (Pending.mk bits (remaining - 1) 0x80 0xBF).low = bits * span (remaining - 1) ∧
      (Pending.mk bits (remaining - 1) 0x80 0xBF).high = (bits + 1) * span (remaining - 1) := by
  obtain ⟨n, rfl⟩ : ∃ n, remaining = n + 2 := ⟨remaining - 2, by omega⟩
  have hspan : span (n + 2 - 1) = 64 * span (n + 2 - 1 - 1) := rfl
  rw [hspan, ← Nat.mul_assoc, ← Nat.mul_assoc, Nat.add_mul]
  simp only [Pending.low, Pending.high, UInt8.reduceToNat, Nat.reduceSub, Nat.add_zero,
    Nat.add_assoc, Nat.reduceAdd, Nat.one_mul, and_self]

/-- A byte in the expected range completes a character outside ASCII, or goes on with it. -/
theorem next_of_proper {p : Pending} (hp : p.Proper) {b : UInt8} (hleast : p.least ≤ b)
    (hgreatest : b ≤ p.greatest) :
    (∀ c, some c ∈ (next p b).1 → isAscii c = false) ∧ Sound (next p b).2 := by
  obtain ⟨hlow, hhigh, hnone⟩ := bounds_of_proper hp hleast hgreatest
  unfold next
  generalize p.bits * 64 + (b.toNat - 0x80) = bits at hlow hhigh hnone
  by_cases hlast : p.remaining ≤ 1
  -- the last byte: the bits are those of a code point above 0x7F, and of no surrogate
  · rw [Nat.sub_eq_zero_of_le hlast, span, Nat.mul_one] at hlow hhigh hnone
    rw [Nat.mul_one] at hnone
    have hvalid : bits.isValidChar := by
      unfold Nat.isValidChar
      omega
    rw [if_pos hlast]
    refine ⟨fun c hc => ?_, sound_none⟩
    obtain rfl := Option.some.inj (List.mem_singleton.mp hc)
    rw [isAscii, toNat_ofNat_of_valid hvalid, decide_eq_false_iff_not]
    omega
  -- more bytes to come: what the character can still be is given by the bits so far
  · obtain ⟨hlow', hhigh'⟩ := bounds_of_more bits (Nat.lt_of_not_le hlast)
    rw [← hlow'] at hlow hnone
    rw [← hhigh'] at hhigh hnone
    rw [if_neg hlast]
    exact ⟨by simp, sound_some ⟨Nat.le_refl _, hlow, hhigh, hnone⟩⟩

/-- A byte below 0x80 is a character of its own, and ends one that is not complete. -/
theorem step_of_isPlain {state : Option Pending} (h : Sound state) {b : UInt8}
    (hb : isPlain b = true) :
    step state b = (state.toList.map (fun _ => none) ++ [some (charOf b)], none) := by
  cases state with
  | none => exact first_of_isPlain hb
  | some p =>
      -- The byte is below the range of the next one, so it breaks the character off.
      have hrange : ¬ (p.least ≤ b && b ≤ p.greatest) = true := by
        have hleast := (h p rfl).least
        rw [isPlain_iff] at hb
        simp only [Bool.and_eq_true, decide_eq_true_eq, UInt8.le_iff_toNat_le]
        omega
      rw [step, if_neg hrange, first_of_isPlain hb]
      rfl

/-- Of any other byte no character of ASCII is made. -/
theorem step_of_high {state : Option Pending} (h : Sound state) {b : UInt8}
    (hb : isPlain b = false) :
    (∀ c, some c ∈ (step state b).1 → isAscii c = false) ∧ Sound (step state b).2 := by
  obtain ⟨hfirst, hsound⟩ := first_of_high hb
  cases state with
  | none => exact ⟨fun c hc => absurd hc (hfirst c), hsound⟩
  | some p =>
      rw [step]
      split_ifs with hrange
      · rw [Bool.and_eq_true, decide_eq_true_eq, decide_eq_true_eq] at hrange
        exact next_of_proper (h p rfl) hrange.1 hrange.2
      · refine ⟨fun c hc => ?_, hsound⟩
        rcases List.mem_cons.mp hc with hc | hc
        · simp at hc
        · exact absurd hc (hfirst c)

theorem readFrom_append_cons {state : Option Pending} (h : Sound state) (bytes : Bytes) {b : UInt8}
    (hb : isPlain b = true) (rest : Bytes) :
    readFrom state (bytes ++ b :: rest) =
      readFrom state bytes ++ some (charOf b) :: readFrom none rest := by
  induction bytes generalizing state with
  | nil =>
      rw [List.nil_append, readFrom, step_of_isPlain h hb]
      cases state <;> rfl
  | cons b' bytes ih =>
      -- Both sides read the first byte alike, and go on from the same state.
      rw [List.cons_append, readFrom, readFrom, List.append_assoc]
      congr 1
      cases hb' : isPlain b' with
      | true =>
          rw [step_of_isPlain h hb']
          exact ih sound_none
      | false => exact ih (step_of_high h hb').2

/-- The characters of ASCII that are read are the bytes below 0x80. -/
theorem filter_readFrom {state : Option Pending} (h : Sound state) (bytes : Bytes) :
    ((readFrom state bytes).map (·.getD '\uFFFD')).filter isAscii =
      (bytes.filter isPlain).map charOf := by
  induction bytes generalizing state with
  | nil => cases state <;> rfl
  | cons b bytes ih =>
      rw [readFrom, List.map_append, List.filter_append]
      cases hb : isPlain b with
      | true =>
          rw [step_of_isPlain h hb, ih sound_none, List.filter_cons_of_pos hb]
          have hascii : isAscii (charOf b) = true := (isAscii_charOf b).trans hb
          -- a character that the byte breaks off becomes U+FFFD, which is not ASCII
          cases state <;> simp [hascii, show isAscii '\uFFFD' = false by decide]
      | false =>
          obtain ⟨hnone, hsound⟩ := step_of_high h hb
          rw [ih hsound, List.filter_cons_of_neg (by simp [hb])]
          have hfilter : (((step state b).1).map (·.getD '\uFFFD')).filter isAscii = [] := by
            rw [List.filter_eq_nil_iff, List.forall_mem_map]
            intro c hc
            cases c with
            | none => decide
            | some c => simp [hnone c hc]
          rw [hfilter, List.nil_append]

theorem length_first (b : UInt8) : (first b).1.length + (first b).2.toList.length = 1 := by
  unfold first
  split_ifs <;> rfl

/-- A byte makes one thing that is read, and may end another. -/
theorem length_step (state : Option Pending) (b : UInt8) :
    (step state b).1.length + (step state b).2.toList.length ≤ 1 + state.toList.length := by
  have hfirst := length_first b
  cases state with
  | none => exact Nat.le_of_eq hfirst
  | some p =>
      rw [step]
      split_ifs
      · rw [next]
        split_ifs <;> simp
      · simp only [List.length_cons, Option.toList_some, List.length_nil]
        omega

theorem length_readFrom (state : Option Pending) (bytes : Bytes) :
    (readFrom state bytes).length ≤ bytes.length + state.toList.length := by
  induction bytes generalizing state with
  | nil => cases state <;> simp [readFrom]
  | cons b bytes ih =>
      have hstep := length_step state b
      have hmore := ih (step state b).2
      rw [readFrom, List.length_append, List.length_cons]
      omega

theorem decodeReplacing_append_cons (bytes : Bytes) {b : UInt8} (hb : isPlain b = true)
    (rest : Bytes) :
    decodeReplacing (bytes ++ b :: rest) =
      decodeReplacing bytes ++ charOf b :: decodeReplacing rest := by
  rw [decodeReplacing, read, readFrom_append_cons sound_none bytes hb, List.map_append]
  rfl

theorem decodeReplacing_of_decode? {bytes : Bytes} {text : Text} (h : decode? bytes = some text) :
    decodeReplacing bytes = text := map_getD_of_mapM h '\uFFFD'

end Utf8

/-! ## Windows-1252 -/

namespace Windows1252

theorem char?_of_isPlain {b : UInt8} (hb : isPlain b = true) : char? b = some (charOf b) := by
  rw [isPlain_iff] at hb
  rw [char?, if_neg]
  · rfl
  · simp only [Bool.and_eq_true, decide_eq_true_eq, UInt8.le_iff_toNat_le, UInt8.lt_iff_toNat_lt,
      UInt8.reduceToNat]
    omega

theorem not_any_isAscii_highTable : highTable.any (·.any isAscii) = false := by
  decide

theorem char?_of_high {b : UInt8} (hb : isPlain b = false) {c : Char} (hc : char? b = some c) :
    isAscii c = false := by
  unfold char? at hc
  split at hc
  · have hmem := List.mem_of_getElem? (Option.join_eq_some_iff.mp hc)
    simpa using List.any_eq_false.mp not_any_isAscii_highTable _ hmem
  · obtain rfl := Option.some.inj hc
    exact (isAscii_charOf b).trans hb

end Windows1252

/-! ## Any decoding -/

/-- How bytes are read. -/
inductive Charset where
  | utf8
  | windows1252

namespace Charset

def read : Charset → Bytes → Text
  | utf8, bytes => Utf8.decodeReplacing bytes
  | windows1252, bytes => bytes.map fun b => (Windows1252.char? b).getD '\uFFFD'

/-- How the bytes are read if their encoding is not known. -/
def ofBytes (bytes : Bytes) : Charset :=
  match Utf8.decode? bytes, Windows1252.decode? bytes with
  | none, some _ => windows1252
  | _, _ => utf8

theorem read_ofBytes (bytes : Bytes) : (ofBytes bytes).read bytes = Text.ofBytes bytes := by
  unfold ofBytes Text.ofBytes
  cases hutf8 : Utf8.decode? bytes with
  | some text => exact Utf8.decodeReplacing_of_decode? hutf8
  | none =>
      cases hwindows : Windows1252.decode? bytes with
      | some text => exact map_getD_of_mapM hwindows '\uFFFD'
      | none => rfl

@[simp]
theorem read_nil (charset : Charset) : charset.read [] = [] := by
  cases charset <;> rfl

/-- A byte below 0x80 parts the bytes and the text alike. -/
theorem read_append_cons (charset : Charset) (bytes : Bytes) {b : UInt8} (hb : isPlain b = true)
    (rest : Bytes) :
    charset.read (bytes ++ b :: rest) = charset.read bytes ++ charOf b :: charset.read rest := by
  cases charset with
  | utf8 => exact Utf8.decodeReplacing_append_cons bytes hb rest
  | windows1252 =>
      rw [read, List.map_append, List.map_cons, Windows1252.char?_of_isPlain hb]
      rfl

/-- **The characters of ASCII in the text are the bytes below 0x80.** -/
theorem filter_read (charset : Charset) (bytes : Bytes) :
    (charset.read bytes).filter isAscii = (bytes.filter isPlain).map charOf := by
  cases charset with
  | utf8 => exact Utf8.filter_readFrom Utf8.sound_none bytes
  | windows1252 =>
      rw [read]
      induction bytes with
      | nil => rfl
      | cons b bytes ih =>
          rw [List.map_cons]
          cases hb : isPlain b with
          | true =>
              have hascii : isAscii (charOf b) = true := (isAscii_charOf b).trans hb
              rw [Windows1252.char?_of_isPlain hb, Option.getD_some,
                List.filter_cons_of_pos hascii, List.filter_cons_of_pos hb, ih, List.map_cons]
          | false =>
              have hascii : isAscii ((Windows1252.char? b).getD '\uFFFD') = false := by
                cases hc : Windows1252.char? b with
                | none => decide
                | some c => exact Windows1252.char?_of_high hb hc
              rw [List.filter_cons_of_neg (by simp [hascii]),
                List.filter_cons_of_neg (by simp [hb]), ih]

/-- A text has at most as many characters as it has bytes. -/
theorem length_read_le (charset : Charset) (bytes : Bytes) :
    (charset.read bytes).length ≤ bytes.length := by
  cases charset with
  | utf8 =>
      have := Utf8.length_readFrom none bytes
      simpa [read, Utf8.decodeReplacing, Utf8.read] using this
  | windows1252 => simp [read]

end Charset

end Yeast
