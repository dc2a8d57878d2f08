import HiddenText.Proofs.Utf8.Inverse

/-!
# Where characters start

Of the bytes of a character only the first is no continuation byte (`encodeOne_eq_cons`), and the
bytes of a character are never the beginning of those of another (`encodeOne_append_inj`).  So the
characters, and among them the line feeds, can be counted in the bytes of a text without decoding
it: `countP_startsChar` and `count_newline`.
-/

namespace HiddenText.Utf8

/-- Whether the byte starts a character, that is, is not one of `80` to `BF`. -/
def startsChar (b : UInt8) : Bool := b.toNat < 0x80 || 0xBF < b.toNat

theorem startsChar_trailing {m n : Nat} {b : UInt8} (h : b ∈ trailing m n) :
    startsChar b = false := by
  have := mem_trailing h
  simp only [startsChar, Bool.or_eq_false_iff, decide_eq_false_iff_not]
  omega

theorem startsChar_toUInt8 {n : Nat} (h : 0xC0 ≤ n) (hlt : n < 0x100) :
    startsChar n.toUInt8 = true := by
  rw [startsChar, toNat_toUInt8 hlt]
  simp only [Bool.or_eq_true, decide_eq_true_eq]
  omega

theorem toUInt8_eq_newline {n : Nat} (hlt : n < 0x100) : n.toUInt8 = 0x0A ↔ n = 0x0A := by
  rw [← UInt8.toNat_inj, toNat_toUInt8 hlt]
  rfl

theorem eq_newline_iff {c : CodePoint} : c = CodePoint.newline ↔ c.val = 0x0A := Fin.ext_iff

/-- A character is a byte that starts it and continuation bytes; it is a line feed if that byte
is. -/
theorem encodeOne_eq_cons {c : CodePoint} (hs : c.isSurrogate = false) :
    ∃ b rest, encodeOne c = b :: rest ∧ startsChar b = true ∧ (∀ x ∈ rest, startsChar x = false) ∧
      (b = 0x0A ↔ c = CodePoint.newline) := by
  have hlt := c.isLt
  -- a first byte from `C0` on belongs to a character from `80` on, so neither is a line feed
  have hlead {n m : Nat} (h : 0x80 ≤ c.val) (hl : 0xC0 ≤ n) (hh : n < 0x100) :
      startsChar n.toUInt8 = true ∧ (∀ x ∈ trailing m c.val, startsChar x = false) ∧
        (n.toUInt8 = 0x0A ↔ c = CodePoint.newline) := by
    refine ⟨startsChar_toUInt8 hl hh, fun x hx => startsChar_trailing hx, ?_⟩
    rw [toUInt8_eq_newline hh, eq_newline_iff]
    omega
  rw [encodeOne_eq hs]
  split
  · next h =>
    refine ⟨_, _, rfl, ?_, by simp, ?_⟩
    · rw [startsChar, toNat_toUInt8 (by omega), decide_eq_true h, Bool.true_or]
    · rw [toUInt8_eq_newline (by omega), eq_newline_iff]
  split
  · exact ⟨_, _, rfl, hlead (by omega) (by omega) (by omega)⟩
  split
  · exact ⟨_, _, rfl, hlead (by omega) (by omega) (by omega)⟩
  · exact ⟨_, _, rfl, hlead (by omega) (by omega) (by omega)⟩

/-! ## Counting characters in bytes -/

theorem countP_startsChar {t : Text} (hs : ∀ c ∈ t, c.isSurrogate = false) :
    (t.flatMap encodeOne).countP startsChar = t.length := by
  induction t with
  | nil => rfl
  | cons c t ih =>
    obtain ⟨b, rest, he, hb, hrest, -⟩ := encodeOne_eq_cons (hs c List.mem_cons_self)
    have hzero : rest.countP startsChar = 0 :=
      List.countP_eq_zero.mpr fun x hx => by rw [hrest x hx]; decide
    rw [List.flatMap_cons, List.countP_append, ih fun d hd => hs d (List.mem_cons_of_mem c hd), he,
      List.countP_cons_of_pos hb, hzero, List.length_cons, Nat.zero_add, Nat.add_comm]

theorem count_newline {t : Text} (hs : ∀ c ∈ t, c.isSurrogate = false) :
    (t.flatMap encodeOne).count 0x0A = t.count CodePoint.newline := by
  induction t with
  | nil => rfl
  | cons c t ih =>
    obtain ⟨b, rest, he, -, hrest, hnl⟩ := encodeOne_eq_cons (hs c List.mem_cons_self)
    have hzero : rest.count 0x0A = 0 := by
      refine List.count_eq_zero.mpr fun hmem => ?_
      have := hrest _ hmem
      revert this
      decide
    have hbeq : (b == 0x0A) = (c == CodePoint.newline) := by
      rw [Bool.eq_iff_iff, beq_iff_eq, beq_iff_eq, hnl]
    rw [List.flatMap_cons, List.count_append, ih fun d hd => hs d (List.mem_cons_of_mem c hd), he,
      List.count_cons, List.count_cons, hzero, hbeq, Nat.zero_add, Nat.add_comm]

/-! ## No character begins another -/

theorem pieces_start (k : Cutter) (b : UInt8) : ∃ new, (k.start b).pieces = new ++ k.pieces := by
  rcases Cutter.start_cases b with ⟨c, -, -, h⟩ | ⟨p, -, -, -, h⟩ | h
  · exact ⟨[.char c], by rw [h]; rfl⟩
  · exact ⟨[], by rw [h]; rfl⟩
  · exact ⟨[.illFormed [b] .invalidStart], by rw [h]; rfl⟩

theorem pieces_push (k : Cutter) (b : UInt8) : ∃ new, (k.push b).pieces = new ++ k.pieces := by
  rw [Cutter.push]
  split
  · exact pieces_start k b
  · simp only
    split
    · split
      · exact ⟨[_], rfl⟩
      · exact ⟨[], rfl⟩
    · obtain ⟨new, h⟩ := pieces_start (k.emit _) b
      exact ⟨new ++ [_], by rw [h, List.append_assoc]; rfl⟩

theorem pieces_foldl_push (bytes : Bytes) (k : Cutter) :
    ∃ new, (bytes.foldl Cutter.push k).pieces = new ++ k.pieces := by
  induction bytes generalizing k with
  | nil => exact ⟨[], rfl⟩
  | cons b bytes ih =>
    obtain ⟨new, h⟩ := ih (k.push b)
    obtain ⟨new', h'⟩ := pieces_push k b
    exact ⟨new ++ new', by rw [List.foldl_cons, h, h', List.append_assoc]⟩

/-- Bytes that start with a character do so with one character only. -/
theorem encodeOne_append_inj {c d : CodePoint} {r s : Bytes} (hc : c.isSurrogate = false)
    (hd : d.isSurrogate = false) (h : encodeOne c ++ r = encodeOne d ++ s) : c = d := by
  have hk := congrArg (fun bytes => (bytes.foldl Cutter.push ⟨[], none⟩).pieces) h
  simp only [List.foldl_append, foldl_push_encodeOne [] hc, foldl_push_encodeOne [] hd] at hk
  obtain ⟨new, hnew⟩ := pieces_foldl_push r ⟨[.char c], none⟩
  obtain ⟨new', hnew'⟩ := pieces_foldl_push s ⟨[.char d], none⟩
  rw [hnew, hnew'] at hk
  have hlast := (List.append_inj' hk rfl).2
  simpa using hlast

end HiddenText.Utf8
