import HiddenText.Text.Utf8
import Mathlib.Algebra.Ring.Nat

/-!
# Reading UTF-8 inverts writing it

`Encodes bytes t` says that the bytes are the encoding of a text without surrogates.  The reader
accepts exactly such bytes and gives back that text:

    decode bytes = .ok t  ↔  Encodes bytes t.

A character is its first byte and `trailing` bytes with six payload bits each.  From left to right,
`foldl_push_encodeOne` says that the cutter makes one piece of them.  From right to left, an
unfinished character is `Sound` if every way to go on within its bounds spells a character, and a
cutter `Reads` the bytes that it was given: its pieces and what is pending spell them
(`Reads.push`).
-/

namespace HiddenText.Utf8

/-- The bytes are the encoding of a text without surrogates. -/
def Encodes (bytes : Bytes) (t : Text) : Prop :=
  (∀ c ∈ t, c.isSurrogate = false) ∧ t.flatMap encodeOne = bytes

/-! ## Trailing bytes -/

/-- The last bytes of a character, with six bits each of its number. -/
def trailing : Nat → Nat → Bytes
  | 0, _ => []
  | m + 1, n => (0x80 + n / 64 ^ m % 64).toUInt8 :: trailing m n

theorem trailing_add (m a n : Nat) : trailing m (a * 64 ^ m + n) = trailing m n := by
  induction m generalizing a with
  | zero => rfl
  | succ m ih =>
    have hpos : 0 < 64 ^ m := Nat.pow_pos (by decide)
    have hmul : a * 64 ^ (m + 1) = a * 64 * 64 ^ m := by rw [Nat.pow_succ]; ac_rfl
    have hdiv : (a * 64 ^ (m + 1) + n) / 64 ^ m % 64 = n / 64 ^ m % 64 := by
      rw [hmul, Nat.mul_comm, Nat.mul_add_div hpos]
      omega
    rw [trailing, trailing, hdiv, hmul, ih]

theorem trailing_mod (m n : Nat) : trailing m (n % 64 ^ m) = trailing m n := by
  have h := trailing_add m (n / 64 ^ m) (n % 64 ^ m)
  rw [Nat.mul_comm, Nat.div_add_mod] at h
  exact h.symm

theorem toNat_toUInt8 {n : Nat} (h : n < 0x100) : n.toUInt8.toNat = n := by
  simpa using Nat.mod_eq_of_lt h

theorem mem_trailing {m n : Nat} {b : UInt8} (h : b ∈ trailing m n) :
    0x80 ≤ b.toNat ∧ b.toNat ≤ 0xBF := by
  induction m with
  | zero => cases h
  | succ m ih =>
    rcases List.mem_cons.mp h with rfl | h
    · rw [toNat_toUInt8 (by omega)]
      omega
    · exact ih h

/-! ## The bytes of a character -/

theorem isEscapedByte_eq_false {c : CodePoint} (hs : c.isSurrogate = false) :
    c.isEscapedByte = false := by
  simp only [CodePoint.isSurrogate, CodePoint.isEscapedByte, Bool.and_eq_false_iff,
    decide_eq_false_iff_not] at hs ⊢
  omega

/-- The number of trailing bytes depends on the size of the character alone. -/
theorem encodeOne_eq {c : CodePoint} (hs : c.isSurrogate = false) :
    encodeOne c =
      if c.val < 0x80 then [c.val.toUInt8]
      else if c.val < 0x800 then (0xC0 + c.val / 64 ^ 1).toUInt8 :: trailing 1 c.val
      else if c.val < 0x10000 then (0xE0 + c.val / 64 ^ 2).toUInt8 :: trailing 2 c.val
      else (0xF0 + c.val / 64 ^ 3).toUInt8 :: trailing 3 c.val := by
  rw [encodeOne, isEscapedByte_eq_false hs]
  simp [trailing]

theorem ofNat_val (c : CodePoint) : CodePoint.ofNat c.val = c :=
  Fin.ext (Nat.mod_eq_of_lt c.isLt)

/-! ## One step of the cutter -/

/-- A byte within the bounds goes on with the pending character. -/
theorem push_pending (ps : List Piece) {p : Pending} {b : UInt8} (hl : p.low ≤ b.toNat)
    (hh : b.toNat ≤ p.high) :
    Cutter.push ⟨ps, some p⟩ b =
      if p.missing = 1 then ⟨.char (.ofNat (p.bits * 64 + (b.toNat - 0x80))) :: ps, none⟩
      else ⟨ps, some ⟨p.seen ++ [b], p.bits * 64 + (b.toNat - 0x80), p.missing - 1, 0x80, 0xBF⟩⟩ := by
  rw [Cutter.push]
  simp only [hl, hh, and_self, if_true]
  rfl

theorem start_ascii (k : Cutter) {b : UInt8} (hh : b.toNat < 0x80) :
    k.start b = k.emit (.char (.ofNat b.toNat)) := by
  simp only [Cutter.start]
  rw [if_pos hh]

theorem start_two (k : Cutter) {b : UInt8} (hl : 0xC2 ≤ b.toNat) (hh : b.toNat < 0xE0) :
    k.start b = k.await ⟨[b], b.toNat - 0xC0, 1, 0x80, 0xBF⟩ := by
  simp only [Cutter.start]
  rw [if_neg (by omega), if_neg (by omega), if_pos hh]

theorem start_three (k : Cutter) {b : UInt8} (hl : 0xE0 ≤ b.toNat) (hh : b.toNat < 0xF0) :
    k.start b = k.await ⟨[b], b.toNat - 0xE0, 2, if b.toNat = 0xE0 then 0xA0 else 0x80,
      if b.toNat = 0xED then 0x9F else 0xBF⟩ := by
  simp only [Cutter.start]
  rw [if_neg (by omega), if_neg (by omega), if_neg (by omega), if_pos hh]

theorem start_four (k : Cutter) {b : UInt8} (hl : 0xF0 ≤ b.toNat) (hh : b.toNat < 0xF5) :
    k.start b = k.await ⟨[b], b.toNat - 0xF0, 3, if b.toNat = 0xF0 then 0x90 else 0x80,
      if b.toNat = 0xF4 then 0x8F else 0xBF⟩ := by
  simp only [Cutter.start]
  rw [if_neg (by omega), if_neg (by omega), if_neg (by omega), if_neg (by omega), if_pos hh]

theorem start_illFormed (k : Cutter) {b : UInt8}
    (h : 0x80 ≤ b.toNat ∧ b.toNat < 0xC2 ∨ 0xF5 ≤ b.toNat) :
    k.start b = k.emit (.illFormed [b] .invalidStart) := by
  simp only [Cutter.start]
  rcases h with h | h
  · rw [if_neg (by omega), if_pos h.2]
  · rw [if_neg (by omega), if_neg (by omega), if_neg (by omega), if_neg (by omega), if_neg (by omega)]

/-! ## From characters to bytes and back -/

theorem div_pow_lt {m n : Nat} (h : n < 64 ^ (m + 1)) : n / 64 ^ m < 64 :=
  Nat.div_lt_of_lt_mul (by rwa [Nat.pow_succ] at h)

/-- The cutter makes one character of the trailing bytes it waits for. -/
theorem foldl_push_trailing (ps : List Piece) (m : Nat) : ∀ (p : Pending) (n : Nat),
    p.missing = m + 1 → n < 64 ^ (m + 1) → p.low ≤ 0x80 + n / 64 ^ m → 0x80 + n / 64 ^ m ≤ p.high →
    (trailing (m + 1) n).foldl Cutter.push ⟨ps, some p⟩
      = ⟨.char (.ofNat (p.bits * 64 ^ (m + 1) + n)) :: ps, none⟩ := by
  induction m with
  | zero =>
    intro p n hm hn hl hh
    rw [Nat.pow_zero, Nat.div_one] at hl hh
    have hb : (0x80 + n / 64 ^ 0 % 64).toUInt8.toNat = 0x80 + n := by
      rw [toNat_toUInt8 (by omega)]
      omega
    rw [trailing, trailing, List.foldl_cons, List.foldl_nil,
      push_pending ps (by rw [hb]; exact hl) (by rw [hb]; exact hh), if_pos hm, hb]
    simp
  | succ m ih =>
    intro p n hm hn hl hh
    have hq := div_pow_lt hn
    have hb : (0x80 + n / 64 ^ (m + 1) % 64).toUInt8.toNat = 0x80 + n / 64 ^ (m + 1) := by
      rw [Nat.mod_eq_of_lt hq]
      exact toNat_toUInt8 (by omega)
    have hr : n % 64 ^ (m + 1) < 64 ^ (m + 1) := Nat.mod_lt _ (Nat.pow_pos (by decide))
    have hhigh : 0x80 + n % 64 ^ (m + 1) / 64 ^ m ≤ 0xBF := by
      have := div_pow_lt hr
      omega
    have hval : (p.bits * 64 + n / 64 ^ (m + 1)) * 64 ^ (m + 1) + n % 64 ^ (m + 1)
        = p.bits * 64 ^ (m + 1 + 1) + n := by
      rw [Nat.add_mul, Nat.add_assoc, Nat.div_add_mod', Nat.pow_succ 64 (m + 1)]
      ac_rfl
    rw [trailing, ← trailing_mod (m + 1) n, List.foldl_cons,
      push_pending ps (by rw [hb]; exact hl) (by rw [hb]; exact hh), if_neg (by omega), hb,
      Nat.add_sub_cancel_left]
    rw [ih ⟨_, _, _, _, _⟩ _ (by simp only; omega) hr (Nat.le_add_right _ _) hhigh, hval]

/-- The cutter makes one piece of the bytes of a character. -/
theorem foldl_push_encodeOne (ps : List Piece) {c : CodePoint} (hs : c.isSurrogate = false) :
    (encodeOne c).foldl Cutter.push ⟨ps, none⟩ = ⟨.char c :: ps, none⟩ := by
  have hlt := c.isLt
  have hs' : ¬(0xD800 ≤ c.val ∧ c.val ≤ 0xDFFF) := by
    simpa [CodePoint.isSurrogate] using hs
  have hval (m : Nat) : CodePoint.ofNat (c.val / 64 ^ m * 64 ^ m + c.val % 64 ^ m) = c := by
    rw [Nat.div_add_mod', ofNat_val]
  rw [encodeOne_eq hs]
  split
  · next h =>
    have hb : c.val.toUInt8.toNat = c.val := toNat_toUInt8 (by omega)
    rw [List.foldl_cons, List.foldl_nil, Cutter.push, start_ascii _ (by omega), hb, ofNat_val]
    rfl
  -- the first byte sets the bounds of the second, which the number of the character meets
  split
  · next h1 h =>
    have hb : (0xC0 + c.val / 64 ^ 1).toUInt8.toNat = 0xC0 + c.val / 64 ^ 1 :=
      toNat_toUInt8 (by omega)
    rw [List.foldl_cons, Cutter.push, start_two _ (by omega) (by omega), hb,
      Nat.add_sub_cancel_left, ← trailing_mod, Cutter.await,
      foldl_push_trailing ps 0 _ _ rfl (by omega) (by simp only; omega) (by simp only; omega), hval]
  split
  · next h1 h2 h =>
    have hb : (0xE0 + c.val / 64 ^ 2).toUInt8.toNat = 0xE0 + c.val / 64 ^ 2 :=
      toNat_toUInt8 (by omega)
    rw [List.foldl_cons, Cutter.push, start_three _ (by omega) (by omega), hb,
      Nat.add_sub_cancel_left, ← trailing_mod, Cutter.await,
      foldl_push_trailing ps 1 _ _ rfl (by omega) (by simp only; split <;> omega)
        (by simp only; split <;> omega), hval]
  · next h1 h2 h3 =>
    have hb : (0xF0 + c.val / 64 ^ 3).toUInt8.toNat = 0xF0 + c.val / 64 ^ 3 :=
      toNat_toUInt8 (by omega)
    rw [List.foldl_cons, Cutter.push, start_four _ (by omega) (by omega), hb,
      Nat.add_sub_cancel_left, ← trailing_mod, Cutter.await,
      foldl_push_trailing ps 2 _ _ rfl (by omega) (by simp only; split <;> omega)
        (by simp only; split <;> omega), hval]

theorem foldl_push_flatMap {t : Text} (hs : ∀ c ∈ t, c.isSurrogate = false) (ps : List Piece) :
    (t.flatMap encodeOne).foldl Cutter.push ⟨ps, none⟩ =
      ⟨(t.map Piece.char).reverse ++ ps, none⟩ := by
  induction t generalizing ps with
  | nil => rfl
  | cons c t ih =>
    rw [List.flatMap_cons, List.foldl_append, foldl_push_encodeOne ps (hs c List.mem_cons_self),
      ih (fun d hd => hs d (List.mem_cons_of_mem c hd))]
    simp

theorem pieces_of_encodes {bytes : Bytes} {t : Text} (h : Encodes bytes t) :
    pieces bytes = t.map Piece.char := by
  obtain ⟨hs, rfl⟩ := h
  rw [pieces, foldl_push_flatMap hs]
  simp [Cutter.finish]

theorem findSome?_fault?_char (t : Text) : (t.map Piece.char).findSome? Piece.fault? = none := by
  simp [List.findSome?_eq_none_iff, Piece.fault?]

theorem flatMap_escaped_char (t : Text) : (t.map Piece.char).flatMap Piece.escaped = t := by
  induction t with
  | nil => rfl
  | cons c t ih => rw [List.map_cons, List.flatMap_cons, ih]; rfl

theorem decode_of_encodes {bytes : Bytes} {t : Text} (h : Encodes bytes t) :
    decode bytes = .ok t := by
  simp only [decode, pieces_of_encodes h, findSome?_fault?_char, flatMap_escaped_char]

/-! ## What a pending character can become -/

/-- The number is that of a character with the given bytes. -/
def Spells (n : Nat) (bytes : Bytes) : Prop :=
  ∃ c : CodePoint, c.val = n ∧ c.isSurrogate = false ∧ encodeOne c = bytes

/-- However an unfinished character goes on within its bounds, it spells a character. -/
structure Pending.Sound (p : Pending) : Prop where
  missing_pos : 0 < p.missing
  low_le : 0x80 ≤ p.low
  le_high : p.high ≤ 0xBF
  spells : ∀ n < 64 ^ p.missing, p.low ≤ 0x80 + n / 64 ^ (p.missing - 1) →
    0x80 + n / 64 ^ (p.missing - 1) ≤ p.high →
    Spells (p.bits * 64 ^ p.missing + n) (p.seen ++ trailing p.missing n)

theorem isSurrogate_eq_false {n : Nat} (hn : n < 0x110000) (hs : n < 0xD800 ∨ 0xDFFF < n) :
    CodePoint.isSurrogate ⟨n, hn⟩ = false := by
  simp only [CodePoint.isSurrogate, Bool.and_eq_false_iff, decide_eq_false_iff_not]
  omega

/-- The first byte of a character and the trailing ones, from its number. -/
theorem encodeOne_lead {b : UInt8} {m base n : Nat} (hb : base ≤ b.toNat) (hn : n < 64 ^ m) :
    (base + ((b.toNat - base) * 64 ^ m + n) / 64 ^ m).toUInt8
        :: trailing m ((b.toNat - base) * 64 ^ m + n) = [b] ++ trailing m n := by
  rw [trailing_add, Nat.add_comm (_ * _), Nat.add_mul_div_right _ _ (Nat.pow_pos (by decide)),
    Nat.div_eq_of_lt hn, Nat.zero_add, Nat.add_sub_cancel' hb]
  simp

theorem sound_two {b : UInt8} (hl : 0xC2 ≤ b.toNat) (hh : b.toNat < 0xE0) :
    Pending.Sound ⟨[b], b.toNat - 0xC0, 1, 0x80, 0xBF⟩ where
  missing_pos := Nat.one_pos
  low_le := Nat.le_refl _
  le_high := Nat.le_refl _
  spells := by
    intro n hn h1 h2
    simp only at hn
    have hs := isSurrogate_eq_false (n := (b.toNat - 0xC0) * 64 ^ 1 + n) (by omega) (by omega)
    refine ⟨_, rfl, hs, ?_⟩
    rw [encodeOne_eq hs, if_neg (by simp only; omega), if_pos (by simp only; omega)]
    exact encodeOne_lead (by omega) hn

theorem sound_three {b : UInt8} (hl : 0xE0 ≤ b.toNat) (hh : b.toNat < 0xF0) :
    Pending.Sound ⟨[b], b.toNat - 0xE0, 2, if b.toNat = 0xE0 then 0xA0 else 0x80,
      if b.toNat = 0xED then 0x9F else 0xBF⟩ where
  missing_pos := Nat.two_pos
  low_le := by simp only; split <;> omega
  le_high := by simp only; split <;> omega
  spells := by
    intro n hn h1 h2
    simp only at hn h1 h2
    have hs := isSurrogate_eq_false (n := (b.toNat - 0xE0) * 64 ^ 2 + n) (by omega)
      (by split at h1 <;> split at h2 <;> omega)
    refine ⟨_, rfl, hs, ?_⟩
    rw [encodeOne_eq hs, if_neg (by simp only; split at h1 <;> omega),
      if_neg (by simp only; split at h1 <;> omega), if_pos (by simp only; omega)]
    exact encodeOne_lead hl hn

theorem sound_four {b : UInt8} (hl : 0xF0 ≤ b.toNat) (hh : b.toNat < 0xF5) :
    Pending.Sound ⟨[b], b.toNat - 0xF0, 3, if b.toNat = 0xF0 then 0x90 else 0x80,
      if b.toNat = 0xF4 then 0x8F else 0xBF⟩ where
  missing_pos := Nat.succ_pos 2
  low_le := by simp only; split <;> omega
  le_high := by simp only; split <;> omega
  spells := by
    intro n hn h1 h2
    simp only at hn h1 h2
    have hs := isSurrogate_eq_false (n := (b.toNat - 0xF0) * 64 ^ 3 + n)
      (by split at h2 <;> omega) (by split at h1 <;> omega)
    refine ⟨_, rfl, hs, ?_⟩
    rw [encodeOne_eq hs, if_neg (by simp only; split at h1 <;> omega),
      if_neg (by simp only; split at h1 <;> omega), if_neg (by simp only; split at h1 <;> omega)]
    exact encodeOne_lead hl hn

theorem Pending.Sound.spells_last {p : Pending} (hp : p.Sound) (hm : p.missing = 1) {b : UInt8}
    (hl : p.low ≤ b.toNat) (hh : b.toNat ≤ p.high) :
    Spells (p.bits * 64 + (b.toNat - 0x80)) (p.seen ++ [b]) := by
  have hlow := hp.low_le
  have hhigh := hp.le_high
  have h := hp.spells (b.toNat - 0x80) (by rw [hm]; omega)
    (by rw [hm, Nat.sub_self, Nat.pow_zero, Nat.div_one]; omega)
    (by rw [hm, Nat.sub_self, Nat.pow_zero, Nat.div_one]; omega)
  have hb : (0x80 + (b.toNat - 0x80) / 64 ^ 0 % 64).toUInt8 = b := by
    rw [Nat.pow_zero, Nat.div_one, Nat.mod_eq_of_lt (by omega), Nat.add_sub_cancel' (by omega)]
    simp
  rwa [hm, trailing, trailing, hb] at h

theorem Pending.Sound.next {p : Pending} (hp : p.Sound) (hm : p.missing ≠ 1) {b : UInt8}
    (hl : p.low ≤ b.toNat) (hh : b.toNat ≤ p.high) :
    Pending.Sound ⟨p.seen ++ [b], p.bits * 64 + (b.toNat - 0x80), p.missing - 1, 0x80, 0xBF⟩ where
  missing_pos := by have := hp.missing_pos; simp only; omega
  low_le := Nat.le_refl _
  le_high := Nat.le_refl _
  spells := by
    intro n hn _ _
    simp only at hn ⊢
    have hlow := hp.low_le
    have hhigh := hp.le_high
    obtain ⟨m, hm'⟩ : ∃ m, p.missing = m + 1 := Nat.exists_eq_add_one.mpr hp.missing_pos
    rw [hm', Nat.add_sub_cancel] at hn ⊢
    have hpos : 0 < 64 ^ m := Nat.pow_pos (by decide)
    have hdiv : ((b.toNat - 0x80) * 64 ^ m + n) / 64 ^ m = b.toNat - 0x80 := by
      rw [Nat.add_comm, Nat.add_mul_div_right _ _ hpos, Nat.div_eq_of_lt hn, Nat.zero_add]
    have hlt : (b.toNat - 0x80) * 64 ^ m + n < 64 ^ (m + 1) := by
      have := Nat.mul_le_mul_right (64 ^ m) (show b.toNat - 0x80 + 1 ≤ 64 by omega)
      rw [Nat.add_mul] at this
      rw [Nat.pow_succ]
      omega
    have h := hp.spells ((b.toNat - 0x80) * 64 ^ m + n) (by rw [hm']; exact hlt)
      (by rw [hm', Nat.add_sub_cancel, hdiv]; omega) (by rw [hm', Nat.add_sub_cancel, hdiv]; omega)
    have hb : (0x80 + (b.toNat - 0x80) % 64).toUInt8 = b := by
      rw [Nat.mod_eq_of_lt (by omega), Nat.add_sub_cancel' (by omega)]
      simp
    have hbits : p.bits * 64 ^ (m + 1) + ((b.toNat - 0x80) * 64 ^ m + n)
        = (p.bits * 64 + (b.toNat - 0x80)) * 64 ^ m + n := by
      rw [Nat.pow_succ, Nat.mul_comm (64 ^ m), ← Nat.mul_assoc, ← Nat.add_assoc, ← Nat.add_mul]
    rwa [hm', trailing, hdiv, hb, trailing_add, hbits, List.append_cons] at h

/-! ## What the cutter has read -/

def Piece.bytes : Piece → Bytes
  | .char c => encodeOne c
  | .illFormed bytes _ => bytes

/-- The pieces spell the bytes, and none of their characters is a surrogate. -/
structure Spelled (ps : List Piece) (bytes : Bytes) : Prop where
  bytes_eq : ps.reverse.flatMap Piece.bytes = bytes
  char : ∀ c, Piece.char c ∈ ps → c.isSurrogate = false

theorem Spelled.cons {ps : List Piece} {bytes : Bytes} (h : Spelled ps bytes) {p : Piece}
    (hp : ∀ c, p = .char c → c.isSurrogate = false) : Spelled (p :: ps) (bytes ++ p.bytes) where
  bytes_eq := by
    rw [List.reverse_cons, List.flatMap_append, h.bytes_eq, List.flatMap_singleton]
  char := by
    intro c hc
    rcases List.mem_cons.mp hc with hc | hc
    · exact hp c hc.symm
    · exact h.char c hc

/-- The cutter has been given these bytes: its pieces and what is pending spell them. -/
inductive Cutter.Reads : Cutter → Bytes → Prop
  | between {ps : List Piece} {bytes : Bytes} (h : Spelled ps bytes) : Reads ⟨ps, none⟩ bytes
  | within {ps : List Piece} {bytes : Bytes} {p : Pending} (h : Spelled ps bytes) (hp : p.Sound) :
      Reads ⟨ps, some p⟩ (bytes ++ p.seen)

namespace Cutter

/-- What a byte does where a character starts: it is a character, or the first byte of some, or
starts none. -/
theorem start_cases (b : UInt8) :
    (∃ c : CodePoint, c.isSurrogate = false ∧ encodeOne c = [b] ∧
      ∀ k : Cutter, k.start b = k.emit (.char c)) ∨
    (∃ p : Pending, p.Sound ∧ p.low ≤ p.high ∧ p.seen = [b] ∧
      ∀ k : Cutter, k.start b = k.await p) ∨
    ∀ k : Cutter, k.start b = k.emit (.illFormed [b] .invalidStart) := by
  rcases Nat.lt_or_ge b.toNat 0x80 with h1 | h1
  · have hlt : b.toNat < 0x110000 := by omega
    have hc : CodePoint.ofNat b.toNat = ⟨b.toNat, hlt⟩ := Fin.ext (Nat.mod_eq_of_lt hlt)
    have hs := isSurrogate_eq_false hlt (by omega)
    refine .inl ⟨.ofNat b.toNat, by rw [hc, hs], ?_, fun k => start_ascii k h1⟩
    rw [hc, encodeOne_eq hs, if_pos h1]
    simp
  rcases Nat.lt_or_ge b.toNat 0xC2 with h2 | h2
  · exact .inr (.inr fun k => start_illFormed k (.inl ⟨h1, h2⟩))
  rcases Nat.lt_or_ge b.toNat 0xE0 with h3 | h3
  · exact .inr (.inl ⟨_, sound_two h2 h3, by simp, rfl, fun k => start_two k h2 h3⟩)
  rcases Nat.lt_or_ge b.toNat 0xF0 with h4 | h4
  · refine .inr (.inl ⟨_, sound_three h3 h4, ?_, rfl, fun k => start_three k h3 h4⟩)
    simp only
    split <;> split <;> omega
  rcases Nat.lt_or_ge b.toNat 0xF5 with h5 | h5
  · refine .inr (.inl ⟨_, sound_four h4 h5, ?_, rfl, fun k => start_four k h4 h5⟩)
    simp only
    split <;> split <;> omega
  · exact .inr (.inr fun k => start_illFormed k (.inr h5))

/-- What a byte within the bounds does to a pending character: it is the last one, or more are still
to come. -/
theorem push_within {p : Pending} (hp : p.Sound) {b : UInt8} (hl : p.low ≤ b.toNat)
    (hh : b.toNat ≤ p.high) :
    (∃ c : CodePoint, c.isSurrogate = false ∧ encodeOne c = p.seen ++ [b] ∧
      ∀ ps, push ⟨ps, some p⟩ b = ⟨.char c :: ps, none⟩) ∨
    ∃ q : Pending, q.Sound ∧ q.low ≤ q.high ∧ q.seen = p.seen ++ [b] ∧
      ∀ ps, push ⟨ps, some p⟩ b = ⟨ps, some q⟩ := by
  by_cases hm : p.missing = 1
  · obtain ⟨c, hc, hs, he⟩ := hp.spells_last hm hl hh
    refine .inl ⟨c, hs, he, fun ps => ?_⟩
    rw [push_pending ps hl hh, if_pos hm, ← hc, ofNat_val]
  · refine .inr ⟨_, hp.next hm hl hh, by simp, rfl, fun ps => ?_⟩
    rw [push_pending ps hl hh, if_neg hm]

/-- A byte beyond the bounds ends the run and starts anew. -/
theorem push_beyond (ps : List Piece) {p : Pending} {b : UInt8}
    (hb : ¬(p.low ≤ b.toNat ∧ b.toNat ≤ p.high)) :
    push ⟨ps, some p⟩ b = start ⟨.illFormed p.seen .invalidContinuation :: ps, none⟩ b := by
  rw [push]
  simp only [hb, if_false]
  rfl

theorem reads_start {ps : List Piece} {bytes : Bytes} (h : Spelled ps bytes) (b : UInt8) :
    (start ⟨ps, none⟩ b).Reads (bytes ++ [b]) := by
  rcases start_cases b with ⟨c, hs, he, hstart⟩ | ⟨p, hp, -, hseen, hstart⟩ | hstart
  · rw [hstart, ← he]
    refine .between (h.cons (p := .char c) ?_)
    intro d hd
    cases hd
    exact hs
  · rw [hstart, ← hseen]
    exact .within h hp
  · rw [hstart]
    exact .between (h.cons (p := .illFormed [b] .invalidStart) (by intro c hc; cases hc))

/-- A step keeps what the cutter spells. -/
theorem Reads.push {k : Cutter} {bytes : Bytes} (h : k.Reads bytes) (b : UInt8) :
    (k.push b).Reads (bytes ++ [b]) := by
  cases h with
  | between h => exact reads_start h b
  | @within ps bytes p h hp =>
    by_cases hb : p.low ≤ b.toNat ∧ b.toNat ≤ p.high
    · rw [List.append_assoc]
      rcases push_within hp hb.1 hb.2 with ⟨c, hs, he, hpush⟩ | ⟨q, hq, -, hseen, hpush⟩
      · rw [hpush, ← he]
        refine .between (h.cons (p := .char c) ?_)
        intro d hd
        cases hd
        exact hs
      · rw [hpush, ← hseen]
        exact .within h hq
    · rw [push_beyond ps hb]
      exact reads_start (h.cons (p := .illFormed p.seen _) (by intro c hc; cases hc)) b

theorem Reads.foldl {k : Cutter} {bytes : Bytes} (h : k.Reads bytes) (more : Bytes) :
    (more.foldl Cutter.push k).Reads (bytes ++ more) := by
  induction more generalizing k bytes with
  | nil => rwa [List.append_nil]
  | cons b more ih => rw [List.append_cons]; exact ih (h.push b)

theorem Reads.spelled_finish {k : Cutter} {bytes : Bytes} (h : k.Reads bytes) :
    Spelled k.finish.reverse bytes := by
  cases h with
  | between h => rwa [finish, List.reverse_reverse]
  | @within ps bytes p h hp =>
    rw [finish, List.reverse_reverse]
    exact h.cons (p := .illFormed p.seen .truncated) (by intro c hc; cases hc)

end Cutter

/-- Nothing is lost in cutting bytes into pieces. -/
theorem spelled_pieces (bytes : Bytes) : Spelled (pieces bytes).reverse bytes :=
  (Cutter.Reads.foldl (.between ⟨rfl, by simp⟩) bytes).spelled_finish

theorem eq_map_char {ps : List Piece} (h : ps.findSome? Piece.fault? = none) :
    ps = (ps.flatMap Piece.escaped).map Piece.char := by
  induction ps with
  | nil => rfl
  | cons p ps ih =>
    cases p with
    | char c =>
      rw [List.findSome?_cons] at h
      rw [List.flatMap_cons, List.map_append, ← ih h]
      rfl
    | illFormed bytes fault => cases h

theorem flatMap_bytes_char (t : Text) :
    (t.map Piece.char).flatMap Piece.bytes = t.flatMap encodeOne := by
  induction t with
  | nil => rfl
  | cons c t ih => rw [List.map_cons, List.flatMap_cons, ih]; rfl

theorem encodes_of_decode {bytes : Bytes} {t : Text} (h : decode bytes = .ok t) :
    Encodes bytes t := by
  simp only [decode] at h
  split at h
  · cases h
  · next hf =>
    cases h
    have hps := eq_map_char hf
    have hsp := spelled_pieces bytes
    refine ⟨?_, ?_⟩
    · intro c hc
      refine hsp.char c ?_
      rw [List.mem_reverse, hps]
      exact List.mem_map_of_mem hc
    · have hb := hsp.bytes_eq
      rw [List.reverse_reverse, hps, flatMap_bytes_char] at hb
      exact hb

/-- Exactly the encodings of texts without surrogates are read, as these texts. -/
theorem decode_eq_ok_iff {bytes : Bytes} {t : Text} : decode bytes = .ok t ↔ Encodes bytes t :=
  ⟨encodes_of_decode, decode_of_encodes⟩

end HiddenText.Utf8
