import Mathlib.Data.List.Basic

/-!
# UTF-8

The encoding of a character, and the table of byte ranges by which the encodings
of two, three and four bytes are told: no overlong form, no surrogate, nothing
above U+10FFFF.
-/

namespace Utf8

def encoded (c : Char) : List (BitVec 8) :=
  (String.utf8EncodeChar c).map UInt8.toBitVec

def Within (low high byte : BitVec 8) : Prop := low ≤ byte ∧ byte ≤ high

instance (low high byte : BitVec 8) : Decidable (Within low high byte) :=
  inferInstanceAs (Decidable (_ ∧ _))

abbrev Tail : BitVec 8 → Prop := Within 0x80#8 0xBF#8

def Two (b0 b1 : BitVec 8) : Prop := Within 0xC2#8 0xDF#8 b0 ∧ Tail b1

def Three (b0 b1 b2 : BitVec 8) : Prop :=
  (b0 = 0xE0#8 ∧ Within 0xA0#8 0xBF#8 b1 ∧ Tail b2) ∨
  ((Within 0xE1#8 0xEC#8 b0 ∨ b0 = 0xEE#8 ∨ b0 = 0xEF#8) ∧ Tail b1 ∧ Tail b2) ∨
  (b0 = 0xED#8 ∧ Within 0x80#8 0x9F#8 b1 ∧ Tail b2)

def Four (b0 b1 b2 b3 : BitVec 8) : Prop :=
  (b0 = 0xF0#8 ∧ Within 0x90#8 0xBF#8 b1 ∧ Tail b2 ∧ Tail b3) ∨
  (Within 0xF1#8 0xF3#8 b0 ∧ Tail b1 ∧ Tail b2 ∧ Tail b3) ∨
  (b0 = 0xF4#8 ∧ Within 0x80#8 0x8F#8 b1 ∧ Tail b2 ∧ Tail b3)

theorem exists_char {value : Nat}
    (scalar : value < 0xD800 ∨ 0xDFFF < value ∧ value < 0x110000) :
    ∃ c : Char, c.toNat = value := by
  have valid : value.isValidChar := scalar
  refine ⟨Char.ofNat value, ?_⟩
  rw [Char.ofNat, dif_pos valid]
  rfl

theorem scalar (c : Char) : c.toNat < 0xD800 ∨ 0xDFFF < c.toNat ∧ c.toNat < 0x110000 :=
  c.valid

theorem encoded_eq (c : Char) : encoded c =
    if c.toNat ≤ 0x7F then [BitVec.ofNat 8 c.toNat]
    else if c.toNat ≤ 0x7FF then
      [BitVec.ofNat 8 (c.toNat / 64 % 0x20 + 0xC0),
        BitVec.ofNat 8 (c.toNat % 0x40 + 0x80)]
    else if c.toNat ≤ 0xFFFF then
      [BitVec.ofNat 8 (c.toNat / 4096 % 0x10 + 0xE0),
        BitVec.ofNat 8 (c.toNat / 64 % 0x40 + 0x80),
        BitVec.ofNat 8 (c.toNat % 0x40 + 0x80)]
    else
      [BitVec.ofNat 8 (c.toNat / 262144 % 0x08 + 0xF0),
        BitVec.ofNat 8 (c.toNat / 4096 % 0x40 + 0x80),
        BitVec.ofNat 8 (c.toNat / 64 % 0x40 + 0x80),
        BitVec.ofNat 8 (c.toNat % 0x40 + 0x80)] := by
  have value : c.toNat = c.val.toNat := rfl
  unfold encoded String.utf8EncodeChar
  rw [value]
  dsimp only
  split_ifs <;> rfl

variable {b0 b1 b2 : BitVec 8}

theorem two_iff : (∃ c, encoded c = [b0, b1]) ↔ Two b0 b1 := by
  constructor
  · intro ⟨c, is⟩
    rw [encoded_eq] at is
    split_ifs at is
    all_goals simp only [List.cons.injEq, reduceCtorEq, and_true, and_false] at is
    obtain ⟨first, second⟩ := is
    simp only [Two, Within, BitVec.le_def, ← first, ← second, BitVec.toNat_ofNat]
    omega
  · intro two
    simp only [Two, Within, BitVec.le_def, BitVec.toNat_ofNat] at two
    obtain ⟨c, is⟩ := @exists_char
      ((b0.toNat - 0xC0) * 64 + (b1.toNat - 0x80)) (by omega)
    refine ⟨c, ?_⟩
    rw [encoded_eq, is, if_neg (by omega), if_pos (by omega)]
    simp only [List.cons.injEq, and_true]
    constructor <;>
    · apply BitVec.eq_of_toNat_eq
      rw [BitVec.toNat_ofNat]
      omega

theorem three_iff : (∃ c, encoded c = [b0, b1, b2]) ↔ Three b0 b1 b2 := by
  constructor
  · intro ⟨c, is⟩
    have valid := scalar c
    rw [encoded_eq] at is
    split_ifs at is
    all_goals simp only [List.cons.injEq, reduceCtorEq, and_true, and_false] at is
    obtain ⟨first, second, third⟩ := is
    simp only [Three, Within, BitVec.le_def, ← BitVec.toNat_inj, ← first,
      ← second, ← third, BitVec.toNat_ofNat]
    omega
  · intro three
    simp only [Three, Within, BitVec.le_def, ← BitVec.toNat_inj,
      BitVec.toNat_ofNat] at three
    obtain ⟨c, is⟩ := @exists_char ((b0.toNat - 0xE0) * 4096 +
      (b1.toNat - 0x80) * 64 + (b2.toNat - 0x80)) (by omega)
    refine ⟨c, ?_⟩
    rw [encoded_eq, is, if_neg (by omega), if_neg (by omega), if_pos (by omega)]
    simp only [List.cons.injEq, and_true]
    refine ⟨?_, ?_, ?_⟩ <;>
    · apply BitVec.eq_of_toNat_eq
      rw [BitVec.toNat_ofNat]
      omega

theorem four_iff {b3 : BitVec 8} :
    (∃ c, encoded c = [b0, b1, b2, b3]) ↔ Four b0 b1 b2 b3 := by
  constructor
  · intro ⟨c, is⟩
    have valid := scalar c
    rw [encoded_eq] at is
    split_ifs at is
    all_goals simp only [List.cons.injEq, reduceCtorEq, and_true, and_false] at is
    obtain ⟨first, second, third, fourth⟩ := is
    simp only [Four, Within, BitVec.le_def, ← BitVec.toNat_inj, ← first,
      ← second, ← third, ← fourth, BitVec.toNat_ofNat]
    omega
  · intro four
    simp only [Four, Within, BitVec.le_def, ← BitVec.toNat_inj,
      BitVec.toNat_ofNat] at four
    obtain ⟨c, is⟩ := @exists_char ((b0.toNat - 0xF0) * 262144 +
      (b1.toNat - 0x80) * 4096 + (b2.toNat - 0x80) * 64 +
      (b3.toNat - 0x80)) (by omega)
    refine ⟨c, ?_⟩
    rw [encoded_eq, is, if_neg (by omega), if_neg (by omega), if_neg (by omega)]
    simp only [List.cons.injEq, and_true]
    refine ⟨?_, ?_, ?_, ?_⟩ <;>
    · apply BitVec.eq_of_toNat_eq
      rw [BitVec.toNat_ofNat]
      omega

theorem Two.lead (two : Two b0 b1) : Within 0xC2#8 0xDF#8 b0 := two.1

theorem Three.lead (three : Three b0 b1 b2) : Within 0xE0#8 0xEF#8 b0 := by
  rcases three with ⟨rfl, _⟩ | ⟨⟨low, high⟩ | rfl | rfl, _⟩ | ⟨rfl, _⟩
  · decide
  · exact ⟨by bv_omega, by bv_omega⟩
  · decide
  · decide
  · decide

theorem Four.lead {b3 : BitVec 8} (four : Four b0 b1 b2 b3) :
    Within 0xF0#8 0xF4#8 b0 := by
  rcases four with ⟨rfl, _⟩ | ⟨⟨low, high⟩, _⟩ | ⟨rfl, _⟩
  · decide
  · exact ⟨by bv_omega, by bv_omega⟩
  · decide

theorem encoded_ne_nil (c : Char) : encoded c ≠ [] := by
  rw [encoded_eq]
  split_ifs <;> exact List.cons_ne_nil _ _

theorem encoded_multi (c : Char) (multi : 0x7F < c.toNat) :
    (∃ b0 b1, encoded c = [b0, b1] ∧ Two b0 b1) ∨
    (∃ b0 b1 b2, encoded c = [b0, b1, b2] ∧ Three b0 b1 b2) ∨
    ∃ b0 b1 b2 b3, encoded c = [b0, b1, b2, b3] ∧ Four b0 b1 b2 b3 := by
  have is := encoded_eq c
  rw [if_neg (Nat.not_le.mpr multi)] at is
  split_ifs at is
  · exact .inl ⟨_, _, is, two_iff.mp ⟨c, is⟩⟩
  · exact .inr (.inl ⟨_, _, _, is, three_iff.mp ⟨c, is⟩⟩)
  · exact .inr (.inr ⟨_, _, _, _, is, four_iff.mp ⟨c, is⟩⟩)

theorem encoded_lead (c : Char) (multi : 0x7F < c.toNat) :
    ∃ byte tail, encoded c = byte :: tail ∧ 0xC2#8 ≤ byte := by
  rcases encoded_multi c multi with ⟨b0, b1, is, sequence⟩ |
    ⟨b0, b1, b2, is, sequence⟩ | ⟨b0, b1, b2, b3, is, sequence⟩
  · exact ⟨b0, _, is, sequence.lead.1⟩
  · have low := sequence.lead.1
    exact ⟨b0, _, is, by bv_omega⟩
  · have low := sequence.lead.1
    exact ⟨b0, _, is, by bv_omega⟩

theorem multi_of_length {c : Char} (long : 1 < (encoded c).length) :
    0x7F < c.toNat := by
  by_contra ascii
  rw [encoded_eq, if_pos (Nat.not_lt.mp ascii)] at long
  exact absurd long (Nat.lt_irrefl 1)

end Utf8
