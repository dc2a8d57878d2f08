import HiddenText.Proofs.Utf8.Joined

/-!
# Texts that bytes are read as

A text with kept bytes need not be what its own bytes are read as: bytes that were kept in different
texts may make a character when the texts are put together.  A text that `IsRead` comes from reading
bytes, and is what its own bytes are read as (`IsRead.decodeEscaped_eq`).  No character reaches over
an ASCII character, so such texts may be put together around one (`IsRead.append_cons`), and their
ASCII characters may be written in another way (`IsRead.flatMap`).
-/

namespace HiddenText.Utf8

/-- Some bytes are read as the text. -/
def IsRead (t : Text) : Prop := ∃ bytes, decodeEscaped bytes = t

variable {s t a : Text} {c : CodePoint} {bytes : Bytes}

theorem IsRead.decodeEscaped_eq (h : IsRead t) (hbytes : encode? t = some bytes) :
    decodeEscaped bytes = t := by
  obtain ⟨bytes', rfl⟩ := h
  rw [encode?_decodeEscaped] at hbytes
  rw [Option.some.inj hbytes]

/-- Two kept bytes that make a character. -/
example : ¬IsRead [.ofByte 0xC3, .ofByte 0xA9] := by
  intro h
  have hbytes : encode? [.ofByte 0xC3, .ofByte 0xA9] = some [0xC3, 0xA9] := by decide
  exact absurd (h.decodeEscaped_eq hbytes) (by decide)

theorem isRead_of_scalar (h : ∀ c ∈ t, c.isSurrogate = false) : IsRead t :=
  ⟨t.flatMap encodeOne, by rw [decodeEscaped, pieces_of_encodes ⟨h, rfl⟩, flatMap_escaped_char]⟩

/-! ## Around ASCII characters -/

def IsAscii (t : Text) : Prop := ∀ c ∈ t, c.val < 0x80

instance (t : Text) : Decidable (IsAscii t) :=
  decidable_of_iff (t.all fun c => c.val < 0x80) (by simp [IsAscii])

theorem IsRead.append_cons (hs : IsRead s) (hc : c.val < 0x80) (ht : IsRead t) :
    IsRead (s ++ c :: t) := by
  obtain ⟨before, rfl⟩ := hs
  obtain ⟨after, rfl⟩ := ht
  have hb : c.val.toUInt8.toNat = c.val := toNat_toUInt8 (by omega)
  refine ⟨before ++ c.val.toUInt8 :: after, ?_⟩
  rw [decodeEscaped_append_cons (by omega), hb, ofNat_val]

theorem isRead_nil : IsRead [] := ⟨[], rfl⟩

theorem IsRead.ascii_append (ha : IsAscii a) (ht : IsRead t) : IsRead (a ++ t) := by
  induction a with
  | nil => exact ht
  | cons c a ih =>
    obtain ⟨hc, ha⟩ := List.forall_mem_cons.mp ha
    exact isRead_nil.append_cons hc (ih ha)

theorem isRead_of_ascii (ha : IsAscii a) : IsRead a := by
  have h := isRead_nil.ascii_append ha
  rwa [List.append_nil] at h

/-- Texts may be put together with ASCII characters in between. -/
theorem IsRead.append_ascii_append (hs : IsRead s) (hne : a ≠ []) (ha : IsAscii a)
    (ht : IsRead t) : IsRead (s ++ (a ++ t)) := by
  obtain ⟨c, a, rfl⟩ := List.exists_cons_of_ne_nil hne
  obtain ⟨hc, ha⟩ := List.forall_mem_cons.mp ha
  exact hs.append_cons hc (ht.ascii_append ha)

/-- Bytes are taken apart at their ASCII bytes. -/
theorem asciiInduction {motive : Bytes → Prop}
    (high : ∀ bytes, (∀ b ∈ bytes, 0x80 ≤ b.toNat) → motive bytes)
    (ascii : ∀ before b after, b.toNat < 0x80 → motive before → motive after →
      motive (before ++ b :: after)) (bytes : Bytes) : motive bytes := by
  induction hn : bytes.length using Nat.strongRecOn generalizing bytes with
  | ind n ih =>
    by_cases hall : ∀ b ∈ bytes, 0x80 ≤ b.toNat
    · exact high bytes hall
    · obtain ⟨b, hb⟩ := Classical.not_forall.mp hall
      obtain ⟨hmem, hlt⟩ := Classical.not_imp.mp hb
      -- any of the ASCII bytes will do, both parts being shorter
      obtain ⟨before, after, rfl⟩ := List.append_of_mem hmem
      rw [List.length_append, List.length_cons] at hn
      exact ascii before b after (by omega) (ih _ (by omega) before rfl)
        (ih _ (by omega) after rfl)

theorem high_of_mem_decodeEscaped (h : ∀ b ∈ bytes, 0x80 ≤ b.toNat)
    (hc : c ∈ decodeEscaped bytes) : 0x80 ≤ c.val := by
  refine Nat.le_of_not_lt fun hlt => ?_
  have hbyte : encodeOne c = [c.val.toUInt8] := by
    rw [encodeOne]
    exact if_pos hlt
  have hmem : c.val.toUInt8 ∈ (decodeEscaped bytes).flatMap encodeOne :=
    List.mem_flatMap.mpr ⟨c, hc, hbyte ▸ List.mem_singleton_self _⟩
  rw [flatMap_encodeOne_decodeEscaped] at hmem
  have hb := h _ hmem
  rw [toNat_toUInt8 (by omega)] at hb
  omega

/-- Every ASCII character may be written as some others. -/
theorem IsRead.flatMap {f : CodePoint → Text} (hhigh : ∀ c, 0x80 ≤ c.val → f c = [c])
    (hascii : ∀ c, c.val < 0x80 → f c ≠ [] ∧ IsAscii (f c)) (h : IsRead t) :
    IsRead (t.flatMap f) := by
  obtain ⟨bytes, rfl⟩ := h
  induction bytes using asciiInduction with
  | high bytes hbytes =>
    have hsame : (decodeEscaped bytes).flatMap f = decodeEscaped bytes := by
      rw [List.flatMap_congr fun c hc => hhigh c (high_of_mem_decodeEscaped hbytes hc)]
      exact List.flatMap_singleton' _
    rw [hsame]
    exact ⟨bytes, rfl⟩
  | ascii before b after hb hbefore hafter =>
    have hval : (CodePoint.ofNat b.toNat).val < 0x80 := by
      show b.toNat % 0x110000 < 0x80
      omega
    obtain ⟨hne, hwritten⟩ := hascii _ hval
    rw [decodeEscaped_append_cons hb, List.flatMap_append, List.flatMap_cons]
    exact hbefore.append_ascii_append hne hwritten hafter

end HiddenText.Utf8
