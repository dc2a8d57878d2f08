import HiddenText.Proofs.Utf8.Escaped
import Mathlib.Data.List.Basic

/-!
# Bytes of joined texts

The bytes of two texts one after the other are their bytes one after the other, and a text that can
be parted has bytes that can.  A slash of a text is a slash among its bytes and there are no others
(`slash_mem_iff`), so a path may be read either way.
-/

namespace HiddenText.Utf8

theorem encode?_eq_some_iff {t : Text} {bytes : Bytes} :
    encode? t = some bytes ↔ (∀ c ∈ t, encodable c = true) ∧ t.flatMap encodeOne = bytes := by
  rw [encode?, ← List.all_eq_true]
  split
  · next h => simp [h]
  · next h => simp [h]

theorem encode?_eq_none_iff {t : Text} :
    encode? t = none ↔ ∃ c ∈ t, encodable c = false := by
  rw [Option.eq_none_iff_forall_ne_some]
  simp only [ne_eq, encode?_eq_some_iff, not_and]
  constructor
  · intro h
    by_contra hall
    simp only [not_exists, not_and, Bool.not_eq_false] at hall
    exact h _ hall rfl
  · rintro ⟨c, hc, hbad⟩ bytes hall
    rw [hall c hc] at hbad
    cases hbad

theorem encode?_append {s t : Text} {a b : Bytes} (hs : encode? s = some a)
    (ht : encode? t = some b) : encode? (s ++ t) = some (a ++ b) := by
  rw [encode?_eq_some_iff] at hs ht ⊢
  rw [List.flatMap_append, hs.2, ht.2]
  refine ⟨?_, rfl⟩
  intro c hc
  rcases List.mem_append.mp hc with hc | hc
  · exact hs.1 c hc
  · exact ht.1 c hc

theorem exists_of_encode?_append {s t : Text} {bytes : Bytes} (h : encode? (s ++ t) = some bytes) :
    ∃ a b, encode? s = some a ∧ encode? t = some b ∧ bytes = a ++ b := by
  rw [encode?_eq_some_iff, List.flatMap_append] at h
  refine ⟨s.flatMap encodeOne, t.flatMap encodeOne, ?_, ?_, h.2.symm⟩
  · exact encode?_eq_some_iff.mpr ⟨fun c hc => h.1 c (List.mem_append_left _ hc), rfl⟩
  · exact encode?_eq_some_iff.mpr ⟨fun c hc => h.1 c (List.mem_append_right _ hc), rfl⟩

theorem eq_of_mem_encodeOne {c : CodePoint} {b : UInt8} (hb : b.toNat < 0x80)
    (h : b ∈ encodeOne c) : c.val = b.toNat := by
  have hlt := c.isLt
  rw [encodeOne] at h
  split at h
  · rw [List.mem_singleton.mp h, toNat_toUInt8 (by omega)]
  split at h
  · simp only [List.mem_cons, List.not_mem_nil, or_false] at h
    rcases h with rfl | rfl <;> rw [toNat_toUInt8 (by omega)] at hb <;> omega
  split at h
  · next hkept =>
    simp only [CodePoint.isEscapedByte, Bool.and_eq_true, decide_eq_true_eq] at hkept
    rw [List.mem_singleton.mp h, toNat_toUInt8 (by omega)] at hb
    omega
  split at h
  · simp only [List.mem_cons, List.not_mem_nil, or_false] at h
    rcases h with rfl | rfl | rfl <;> rw [toNat_toUInt8 (by omega)] at hb <;> omega
  · simp only [List.mem_cons, List.not_mem_nil, or_false] at h
    rcases h with rfl | rfl | rfl | rfl <;> rw [toNat_toUInt8 (by omega)] at hb <;> omega

theorem ascii_mem_iff {c : CodePoint} (hc : c.val < 0x80) {t : Text} {bytes : Bytes}
    (h : encode? t = some bytes) : c.val.toUInt8 ∈ bytes ↔ c ∈ t := by
  have hbyte : c.val.toUInt8.toNat = c.val := toNat_toUInt8 (by omega)
  rw [← (encode?_eq_some_iff.mp h).2, List.mem_flatMap]
  constructor
  · rintro ⟨d, hd, hmem⟩
    have hval : d = c := Fin.ext ((eq_of_mem_encodeOne (by omega) hmem).trans hbyte)
    rwa [← hval]
  · intro hmem
    refine ⟨c, hmem, ?_⟩
    rw [encodeOne, if_pos hc]
    exact List.mem_singleton_self _

theorem encodeOne_slash : encodeOne CodePoint.slash = [0x2F] := by decide

theorem slash_mem_iff {t : Text} {bytes : Bytes} (h : encode? t = some bytes) :
    0x2F ∈ bytes ↔ CodePoint.slash ∈ t := by
  have hslash : CodePoint.slash.val < 0x80 := by decide
  exact ascii_mem_iff hslash h

theorem encodeOne_ne_nil (c : CodePoint) : encodeOne c ≠ [] := by
  rw [encodeOne]
  repeat' split
  all_goals exact List.cons_ne_nil _ _

theorem ne_nil_of_encode? {t : Text} {bytes : Bytes} (h : encode? t = some bytes) (ht : t ≠ []) :
    bytes ≠ [] := by
  obtain ⟨c, rest, rfl⟩ := List.exists_cons_of_ne_nil ht
  rw [← (encode?_eq_some_iff.mp h).2, List.flatMap_cons]
  exact List.append_ne_nil_of_left_ne_nil (encodeOne_ne_nil c) _

theorem getLast?_eq_slash_iff {t : Text} {bytes : Bytes} (h : encode? t = some bytes) :
    bytes.getLast? = some 0x2F ↔ t.getLast? = some CodePoint.slash := by
  rcases List.eq_nil_or_concat t with rfl | ⟨s, c, rfl⟩
  · obtain rfl := Option.some.inj h
    simp
  · rw [List.concat_eq_append] at h ⊢
    obtain ⟨a, b, -, hc, rfl⟩ := exists_of_encode?_append h
    have hb : encodeOne c = b := by
      rw [← (encode?_eq_some_iff.mp hc).2, List.flatMap_singleton]
    rw [List.getLast?_append_of_ne_nil _ (hb ▸ encodeOne_ne_nil c), List.getLast?_concat]
    constructor
    · intro hlast
      have hmem : 0x2F ∈ encodeOne c := hb ▸ List.mem_of_getLast? hlast
      rw [show c = CodePoint.slash from Fin.ext (eq_of_mem_encodeOne (by decide) hmem)]
    · intro hlast
      rw [← hb, Option.some.inj hlast, encodeOne_slash]
      rfl

end HiddenText.Utf8
