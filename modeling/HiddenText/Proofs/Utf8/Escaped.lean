import HiddenText.Proofs.Utf8.Inverse

/-!
# Bytes that are kept

`decodeEscaped` reads any bytes, and nothing is lost: written out again, the text gives the bytes
back (`encode?_decodeEscaped`).  A byte that belongs to no character is one of `80` to `FF`, so it
is kept as a surrogate that has this byte again; `Cutter.KeepsHigh` is the invariant for that.

Where an ASCII byte stands, one character ends and another one starts, whatever is before it.  So
bytes may be read part by part between ASCII bytes (`decodeEscaped_append_cons`); an unfinished
character in front of such a byte is an ill-formed run for another reason than at the end of the
bytes, but the same bytes are kept.
-/

namespace HiddenText.Utf8

/-! ## Kept bytes -/

theorem isEscapedByte_ofByte {b : UInt8} (h : 0x80 ≤ b.toNat) :
    (CodePoint.ofByte b).isEscapedByte = true := by
  have hlt := b.toNat_lt
  show (decide (0xDC80 ≤ 0xDC00 + b.toNat) && decide (0xDC00 + b.toNat ≤ 0xDCFF)) = true
  rw [Bool.and_eq_true, decide_eq_true_eq, decide_eq_true_eq]
  omega

theorem encodeOne_ofByte {b : UInt8} (h : 0x80 ≤ b.toNat) : encodeOne (.ofByte b) = [b] := by
  have hval : (CodePoint.ofByte b).val = 0xDC00 + b.toNat := rfl
  rw [encodeOne, isEscapedByte_ofByte h, hval]
  simp only
  rw [if_neg (by omega), if_neg (by omega), if_true, Nat.add_sub_cancel_left]
  simp

theorem encodable_ofByte {b : UInt8} (h : 0x80 ≤ b.toNat) : encodable (.ofByte b) = true := by
  rw [encodable, isEscapedByte_ofByte h, Bool.or_true]

/-- Of the bytes that the cutter has found to be ill-formed, or may yet find so, none is ASCII. -/
structure Cutter.KeepsHigh (k : Cutter) : Prop where
  piece : ∀ bytes fault, .illFormed bytes fault ∈ k.pieces → ∀ b ∈ bytes, 0x80 ≤ b.toNat
  pending : ∀ p, k.pending = some p → 0x80 ≤ p.low ∧ ∀ b ∈ p.seen, 0x80 ≤ b.toNat

namespace Cutter

variable {k : Cutter}

theorem KeepsHigh.emit_char (h : k.KeepsHigh) (c : CodePoint) : (k.emit (.char c)).KeepsHigh where
  piece := by
    intro bytes fault hmem
    rcases List.mem_cons.mp hmem with heq | hmem
    · cases heq
    · exact h.piece bytes fault hmem
  pending := by
    intro p hp
    cases hp

theorem KeepsHigh.emit_illFormed (h : k.KeepsHigh) {bytes : Bytes} (fault : Fault)
    (hbytes : ∀ b ∈ bytes, 0x80 ≤ b.toNat) : (k.emit (.illFormed bytes fault)).KeepsHigh where
  piece := by
    intro bytes' fault' hmem
    rcases List.mem_cons.mp hmem with heq | hmem
    · cases heq
      exact hbytes
    · exact h.piece bytes' fault' hmem
  pending := by
    intro p hp
    cases hp

theorem KeepsHigh.await (h : k.KeepsHigh) {p : Pending} (hlow : 0x80 ≤ p.low)
    (hseen : ∀ b ∈ p.seen, 0x80 ≤ b.toNat) : (k.await p).KeepsHigh where
  piece := h.piece
  pending := by
    intro q hq
    cases hq
    exact ⟨hlow, hseen⟩

theorem KeepsHigh.start (h : k.KeepsHigh) (b : UInt8) : (k.start b).KeepsHigh := by
  have hseen (hb : 0x80 ≤ b.toNat) : ∀ x ∈ [b], 0x80 ≤ x.toNat := by
    intro x hx
    rw [List.mem_singleton.mp hx]
    exact hb
  simp only [Cutter.start]
  split
  · exact h.emit_char _
  split
  · exact h.emit_illFormed _ (hseen (by omega))
  split
  · exact h.await (Nat.le_refl _) (hseen (by omega))
  split
  · exact h.await (by simp only; split <;> omega) (hseen (by omega))
  split
  · exact h.await (by simp only; split <;> omega) (hseen (by omega))
  · exact h.emit_illFormed _ (hseen (by omega))

theorem KeepsHigh.push (h : k.KeepsHigh) (b : UInt8) : (k.push b).KeepsHigh := by
  rw [Cutter.push]
  cases hpending : k.pending with
  | none => exact h.start b
  | some p =>
    obtain ⟨hlow, hseen⟩ := h.pending p hpending
    simp only
    split
    · next hb =>
      split
      · exact h.emit_char _
      · refine h.await (Nat.le_refl _) ?_
        intro x hx
        rcases List.mem_append.mp hx with hx | hx
        · exact hseen x hx
        · rw [List.mem_singleton.mp hx]
          omega
    · exact (h.emit_illFormed _ hseen).start b

theorem KeepsHigh.foldl (h : k.KeepsHigh) (bytes : Bytes) :
    (bytes.foldl Cutter.push k).KeepsHigh := by
  induction bytes generalizing k with
  | nil => exact h
  | cons b bytes ih => exact ih (h.push b)

theorem KeepsHigh.finish (h : k.KeepsHigh) {bytes : Bytes} {fault : Fault}
    (hmem : .illFormed bytes fault ∈ k.finish) : ∀ b ∈ bytes, 0x80 ≤ b.toNat := by
  rw [Cutter.finish] at hmem
  cases hpending : k.pending with
  | none =>
    rw [hpending] at hmem
    exact h.piece bytes fault (List.mem_reverse.mp hmem)
  | some p =>
    rw [hpending] at hmem
    rcases List.mem_cons.mp (List.mem_reverse.mp hmem) with heq | hmem
    · cases heq
      exact (h.pending p hpending).2
    · exact h.piece bytes fault hmem

theorem keepsHigh_empty : Cutter.KeepsHigh {} where
  piece := by
    intro bytes fault hmem
    cases hmem
  pending := by
    intro p hp
    cases hp

end Cutter

theorem high_of_mem_pieces {bytes run : Bytes} {fault : Fault}
    (h : .illFormed run fault ∈ pieces bytes) : ∀ b ∈ run, 0x80 ≤ b.toNat :=
  (Cutter.keepsHigh_empty.foldl bytes).finish h

theorem flatMap_encodeOne_ofByte {run : Bytes} (h : ∀ b ∈ run, 0x80 ≤ b.toNat) :
    (run.map CodePoint.ofByte).flatMap encodeOne = run := by
  induction run with
  | nil => rfl
  | cons b run ih =>
    obtain ⟨hb, hrun⟩ := List.forall_mem_cons.mp h
    rw [List.map_cons, List.flatMap_cons, encodeOne_ofByte hb, ih hrun]
    rfl

theorem Piece.flatMap_encodeOne_escaped {p : Piece}
    (h : ∀ run fault, p = .illFormed run fault → ∀ b ∈ run, 0x80 ≤ b.toNat) :
    p.escaped.flatMap encodeOne = p.bytes := by
  cases p with
  | char c => exact List.flatMap_singleton encodeOne c
  | illFormed run fault => exact flatMap_encodeOne_ofByte (h run fault rfl)

theorem flatMap_encodeOne_decodeEscaped (bytes : Bytes) :
    (decodeEscaped bytes).flatMap encodeOne = bytes := by
  have hpieces : ∀ ps : List Piece, (∀ run fault, .illFormed run fault ∈ ps →
      ∀ b ∈ run, 0x80 ≤ b.toNat) →
      (ps.flatMap Piece.escaped).flatMap encodeOne = ps.flatMap Piece.bytes := by
    intro ps hps
    induction ps with
    | nil => rfl
    | cons p ps ih =>
      rw [List.flatMap_cons, List.flatMap_append, List.flatMap_cons,
        Piece.flatMap_encodeOne_escaped, ih]
      · intro run fault hmem
        exact hps run fault (List.mem_cons_of_mem p hmem)
      · rintro run fault rfl
        exact hps run fault List.mem_cons_self
  have hspelled := (spelled_pieces bytes).bytes_eq
  rw [List.reverse_reverse] at hspelled
  rw [decodeEscaped, hpieces _ fun run fault hmem => high_of_mem_pieces hmem, hspelled]

theorem encodable_of_mem_decodeEscaped {bytes : Bytes} {c : CodePoint}
    (h : c ∈ decodeEscaped bytes) : encodable c = true := by
  obtain ⟨p, hp, hc⟩ := List.mem_flatMap.mp h
  cases p with
  | char d =>
    obtain rfl := List.mem_singleton.mp hc
    have hs := (spelled_pieces bytes).char c (List.mem_reverse.mpr hp)
    rw [encodable, hs]
    rfl
  | illFormed run fault =>
    obtain ⟨b, hb, rfl⟩ := List.mem_map.mp hc
    exact encodable_ofByte (high_of_mem_pieces hp b hb)

/-- Reading bytes in this way loses nothing. -/
theorem encode?_decodeEscaped (bytes : Bytes) : encode? (decodeEscaped bytes) = some bytes := by
  rw [encode?, if_pos, flatMap_encodeOne_decodeEscaped]
  exact List.all_eq_true.mpr fun c hc => encodable_of_mem_decodeEscaped hc

theorem decodeEscaped_injective {bytes bytes' : Bytes}
    (h : decodeEscaped bytes = decodeEscaped bytes') : bytes = bytes' := by
  have h' := encode?_decodeEscaped bytes
  rw [h, encode?_decodeEscaped] at h'
  exact (Option.some.inj h').symm

/-! ## Cutting at an ASCII byte -/

namespace Cutter

/-- The cutter with some pieces found before its own. -/
def onto (k : Cutter) (ps : List Piece) : Cutter := ⟨k.pieces ++ ps, k.pending⟩

theorem start_onto (k : Cutter) (ps : List Piece) (b : UInt8) :
    (k.onto ps).start b = (k.start b).onto ps := by
  simp only [start]
  repeat' split
  all_goals rfl

theorem push_onto (k : Cutter) (ps : List Piece) (b : UInt8) :
    (k.onto ps).push b = (k.push b).onto ps := by
  rw [push, push]
  cases hpending : k.pending with
  | none =>
    simp only [onto, hpending]
    exact start_onto k ps b
  | some p =>
    simp only [onto, hpending]
    split
    · split <;> rfl
    · exact start_onto (k.emit _) ps b

theorem foldl_push_onto (bytes : Bytes) (k : Cutter) (ps : List Piece) :
    bytes.foldl push (k.onto ps) = (bytes.foldl push k).onto ps := by
  induction bytes generalizing k with
  | nil => rfl
  | cons b bytes ih => rw [List.foldl_cons, List.foldl_cons, push_onto, ih]

theorem finish_onto (k : Cutter) (ps : List Piece) :
    (k.onto ps).finish = ps.reverse ++ k.finish := by
  rw [finish, finish]
  cases hpending : k.pending with
  | none => simp [onto, hpending]
  | some p => simp [onto, hpending]

/-- An ASCII byte ends what is pending, and is a character. -/
theorem push_ascii {k : Cutter} (h : k.KeepsHigh) {b : UInt8} (hb : b.toNat < 0x80) :
    ∃ ps, k.push b = ⟨.char (.ofNat b.toNat) :: ps, none⟩ ∧
      ps.reverse.flatMap Piece.escaped = k.finish.flatMap Piece.escaped := by
  cases hpending : k.pending with
  | none =>
    refine ⟨k.pieces, ?_, ?_⟩
    · rw [push, hpending]
      exact start_ascii k hb
    · rw [finish, hpending]
  | some p =>
    have hlow := (h.pending p hpending).1
    refine ⟨.illFormed p.seen .invalidContinuation :: k.pieces, ?_, ?_⟩
    · rw [push, hpending]
      simp only
      rw [if_neg (by omega)]
      exact start_ascii (k.emit _) hb
    · rw [finish, hpending]
      simp [Piece.escaped]

end Cutter

/-- Bytes may be read part by part where an ASCII byte stands. -/
theorem decodeEscaped_append_cons {b : UInt8} (hb : b.toNat < 0x80) (bytes rest : Bytes) :
    decodeEscaped (bytes ++ b :: rest) =
      decodeEscaped bytes ++ .ofNat b.toNat :: decodeEscaped rest := by
  obtain ⟨ps, hpush, hps⟩ := Cutter.push_ascii (Cutter.keepsHigh_empty.foldl bytes) hb
  have hpieces : pieces (bytes ++ b :: rest) =
      ps.reverse ++ .char (.ofNat b.toNat) :: pieces rest := by
    have honto : (⟨.char (.ofNat b.toNat) :: ps, none⟩ : Cutter) =
        Cutter.onto {} (.char (.ofNat b.toNat) :: ps) := rfl
    rw [pieces, List.foldl_append, List.foldl_cons, hpush, honto, Cutter.foldl_push_onto,
      Cutter.finish_onto, ← pieces]
    simp
  rw [decodeEscaped, hpieces, List.flatMap_append, List.flatMap_cons, hps]
  rfl

theorem zero_mem_of_mem_decodeEscaped {bytes : Bytes} (h : .ofNat 0 ∈ decodeEscaped bytes) :
    0 ∈ bytes := by
  have hmem : 0 ∈ (decodeEscaped bytes).flatMap encodeOne :=
    List.mem_flatMap.mpr ⟨.ofNat 0, h, by decide⟩
  rwa [flatMap_encodeOne_decodeEscaped] at hmem

end HiddenText.Utf8
