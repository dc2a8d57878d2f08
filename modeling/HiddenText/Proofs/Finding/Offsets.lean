import HiddenText.Proofs.Finding.Collect
import HiddenText.Proofs.Utf8.Boundaries
import HiddenText.Scan.File
import Mathlib.Data.List.Forall2

/-!
# Findings as matches in the bytes

The catalogued characters have the `encodings`

    E2 80 8B-8F,  E2 80 AA-AE,  E2 81 A6-A9,  EF BB BF.

In the bytes of a text these triples stand where the characters do and nowhere else: a triple starts
with a byte that starts a character (`startsChar_of_mem_encodings`), and at the start of a character
only that character's own encoding can stand (`encodeOne_append_inj`).  So the findings of a file
are the matches of the triples in its bytes, one after the other (`exists_offsets_collect`), and
offset and line of a finding can be counted in the bytes before the match.
-/

namespace HiddenText

open Utf8

namespace Catalogue

/-- The bytes of the catalogued characters, in the order of the catalogue. -/
def encodings : List Bytes := [
  [0xE2, 0x80, 0xAA], [0xE2, 0x80, 0xAB], [0xE2, 0x80, 0xAC], [0xE2, 0x80, 0xAD],
  [0xE2, 0x80, 0xAE], [0xE2, 0x81, 0xA6], [0xE2, 0x81, 0xA7], [0xE2, 0x81, 0xA8],
  [0xE2, 0x81, 0xA9], [0xE2, 0x80, 0x8B], [0xE2, 0x80, 0x8C], [0xE2, 0x80, 0x8D],
  [0xE2, 0x80, 0x8E], [0xE2, 0x80, 0x8F], [0xEF, 0xBB, 0xBF]]

theorem encodings_eq_map : encodings = catalogue.map fun e => encodeOne e.1 := by decide

theorem isSurrogate_of_mem {e : CodePoint × Text} (h : e ∈ catalogue) :
    e.1.isSurrogate = false := by
  have hall : ∀ e ∈ catalogue, e.1.isSurrogate = false := by decide
  exact hall e h

theorem length_encodeOne_of_mem {e : CodePoint × Text} (h : e ∈ catalogue) :
    (encodeOne e.1).length = 3 := by
  have hall : ∀ e ∈ catalogue, (encodeOne e.1).length = 3 := by decide
  exact hall e h

/-- At the start of a character the encoding of a catalogued one stands only if it is that one. -/
theorem mem_encodings_encodeOne {c : CodePoint} (hs : c.isSurrogate = false) (rest : Bytes) :
    (encodeOne c ++ rest).take 3 ∈ encodings ↔ ∃ name, (c, name) ∈ catalogue := by
  constructor
  · intro h
    rw [encodings_eq_map] at h
    obtain ⟨e, he, heq⟩ := List.mem_map.mp h
    have happ : encodeOne e.1 ++ (encodeOne c ++ rest).drop 3 = encodeOne c ++ rest := by
      rw [heq, List.take_append_drop]
    rw [← encodeOne_append_inj (isSurrogate_of_mem he) hs happ]
    exact ⟨e.2, he⟩
  · rintro ⟨name, h⟩
    rw [List.take_left' (length_encodeOne_of_mem h), encodings_eq_map]
    exact List.mem_map.mpr ⟨(c, name), h, rfl⟩

theorem startsChar_of_mem_encodings {b : UInt8} {rest : Bytes}
    (h : (b :: rest).take 3 ∈ encodings) : startsChar b = true := by
  have hall : ∀ m ∈ encodings, m.head?.all startsChar = true := by decide
  exact hall _ h

end Catalogue

open Catalogue

/-- The finding is for the catalogued character whose encoding starts at the offset in the bytes.
Its position and its line are counted in the bytes before. -/
def Finding.Matches (bytes : Bytes) (k : Nat) (f : Finding) : Prop :=
  ∃ c name, (c, name) ∈ catalogue ∧ (bytes.drop k).take 3 = encodeOne c ∧
    f = { char := [c], codepoint := c.label, name
          position := (bytes.take k).countP startsChar
          line := 1 + (bytes.take k).count 0x0A }

/-- A character of the text starts at the offset in its bytes, and its encoding is what stands
there. -/
def StandsAt (t : Text) (k : Nat) : Prop :=
  ∃ before c after, t = before ++ c :: after ∧
    before.flatMap encodeOne = (t.flatMap encodeOne).take k ∧
    encodeOne c = ((t.flatMap encodeOne).drop k).take 3

section

variable {before t : Text} {c : CodePoint}

theorem take_flatMap_encodeOne :
    ((before ++ t).flatMap encodeOne).take (before.flatMap encodeOne).length
      = before.flatMap encodeOne := by
  rw [List.flatMap_append]
  exact List.take_left

theorem drop_flatMap_encodeOne :
    ((before ++ t).flatMap encodeOne).drop (before.flatMap encodeOne).length
      = t.flatMap encodeOne := by
  rw [List.flatMap_append]
  exact List.drop_left

/-- The finding for a catalogued character matches at its first byte. -/
theorem matches_ofChar {name : Text} (hs : ∀ d ∈ before ++ c :: t, d.isSurrogate = false)
    (h : (c, name) ∈ catalogue) :
    (Finding.ofChar c name before.length (1 + before.count CodePoint.newline)).Matches
      ((before ++ c :: t).flatMap encodeOne) (before.flatMap encodeOne).length := by
  have hbefore : ∀ d ∈ before, d.isSurrogate = false := fun d hd => hs d (List.mem_append_left _ hd)
  refine ⟨c, name, h, ?_, ?_⟩
  · rw [drop_flatMap_encodeOne, List.flatMap_cons, List.take_left' (length_encodeOne_of_mem h)]
  · rw [take_flatMap_encodeOne, countP_startsChar hbefore, count_newline hbefore]
    rfl

/-- Within the bytes of a character a match starts only at the first one. -/
theorem take_mem_encodings_iff (hs : c.isSurrogate = false) {i : Nat}
    (hi : i < (encodeOne c).length) (rest : Bytes) :
    ((encodeOne c ++ rest).drop i).take 3 ∈ encodings ↔ i = 0 ∧ ∃ name, (c, name) ∈ catalogue := by
  cases i with
  | zero => rw [List.drop_zero, mem_encodings_encodeOne hs rest, and_iff_right rfl]
  | succ i =>
    obtain ⟨b, trail, he, -, htrail, -⟩ := encodeOne_eq_cons hs
    rw [he, List.length_cons, Nat.add_lt_add_iff_right] at hi
    have hmem : trail[i] ∈ trail := List.getElem_mem hi
    constructor
    · intro h
      rw [he, List.cons_append, List.drop_succ_cons, List.drop_append_of_le_length (by omega),
        List.drop_eq_getElem_cons hi, List.cons_append] at h
      have hstart := startsChar_of_mem_encodings h
      rw [htrail _ hmem] at hstart
      cases hstart
    · rintro ⟨h, -⟩
      cases h

/-- The matches from a character on are its own, if it is in the catalogue, and those from the next
one on. -/
theorem take_mem_encodings_cons (hs : c.isSurrogate = false) (k : Nat) :
    (before.flatMap encodeOne).length ≤ k ∧
        (((before ++ c :: t).flatMap encodeOne).drop k).take 3 ∈ encodings ↔
      (k = (before.flatMap encodeOne).length ∧ ∃ name, (c, name) ∈ catalogue) ∨
        ((before ++ [c]).flatMap encodeOne).length ≤ k ∧
          (((before ++ c :: t).flatMap encodeOne).drop k).take 3 ∈ encodings := by
  obtain ⟨b, trail, he, -⟩ := encodeOne_eq_cons hs
  have hlen : ((before ++ [c]).flatMap encodeOne).length
      = (before.flatMap encodeOne).length + (encodeOne c).length := by
    rw [List.flatMap_append, List.length_append, List.flatMap_singleton]
  have hpos : 0 < (encodeOne c).length := by rw [he]; exact Nat.succ_pos _
  -- between the two, the bytes are those of the character
  have hwithin {i : Nat} (hi : i < (encodeOne c).length) :
      (((before ++ c :: t).flatMap encodeOne).drop ((before.flatMap encodeOne).length + i)).take 3
          ∈ encodings ↔ i = 0 ∧ ∃ name, (c, name) ∈ catalogue := by
    rw [List.flatMap_append, List.drop_length_add_append, List.flatMap_cons]
    exact take_mem_encodings_iff hs hi _
  rw [hlen]
  constructor
  · rintro ⟨hk, h⟩
    obtain ⟨i, rfl⟩ := Nat.exists_eq_add_of_le hk
    by_cases hi : i < (encodeOne c).length
    · obtain ⟨rfl, hname⟩ := (hwithin hi).mp h
      exact .inl ⟨rfl, hname⟩
    · exact .inr ⟨by omega, h⟩
  · rintro (⟨rfl, hname⟩ | ⟨hk, h⟩)
    · exact ⟨Nat.le_refl _, (hwithin hpos).mpr ⟨rfl, hname⟩⟩
    · exact ⟨by omega, h⟩

end

/-- The matches from some character on are the findings collected from there. -/
theorem exists_offsets_collect (t : Text) : ∀ before : Text,
    (∀ c ∈ before ++ t, c.isSurrogate = false) →
    ∃ offsets : List Nat, offsets.Pairwise (· < ·) ∧
      (∀ k, k ∈ offsets ↔ (before.flatMap encodeOne).length ≤ k ∧
        (((before ++ t).flatMap encodeOne).drop k).take 3 ∈ encodings) ∧
      List.Forall₂ (fun k f => Finding.Matches ((before ++ t).flatMap encodeOne) k f) offsets
        (Finding.collect [] before.length (1 + before.count CodePoint.newline) t) ∧
      ∀ k ∈ offsets, StandsAt (before ++ t) k := by
  induction t with
  | nil =>
    intro before _
    refine ⟨[], .nil, ?_, .nil, by simp⟩
    intro k
    refine iff_of_false List.not_mem_nil ?_
    rintro ⟨hk, h⟩
    rw [List.append_nil, List.drop_eq_nil_of_le hk] at h
    exact absurd h (by decide)
  | cons c t ih =>
    intro before hs
    have hc : c.isSurrogate = false := hs c (by simp)
    have happ : before ++ c :: t = before ++ [c] ++ t := List.append_cons before c t
    obtain ⟨offsets, hsorted, hmem, hmatch, hstand⟩ := ih (before ++ [c]) (by rwa [← happ])
    have hline : 1 + (before ++ [c]).count CodePoint.newline
        = Finding.lineAfter c (1 + before.count CodePoint.newline) := by
      rw [List.count_append, Finding.lineAfter_eq_add, Nat.add_assoc]
    rw [← happ, hline, List.length_append, List.length_singleton] at hmatch
    simp only [← happ] at hmem hstand
    rw [Finding.collect_cons, Finding.here]
    cases hname : c.name? with
    | none =>
      refine ⟨offsets, hsorted, ?_, hmatch, hstand⟩
      intro k
      rw [take_mem_encodings_cons hc, hmem]
      refine (or_iff_right ?_).symm
      rintro ⟨-, name, h⟩
      rw [name?_of_mem_catalogue h] at hname
      cases hname
    | some name =>
      have hcat := mem_catalogue_of_name? hname
      refine ⟨(before.flatMap encodeOne).length :: offsets, ?_, ?_, ?_, ?_⟩
      · refine List.pairwise_cons.mpr ⟨fun k hk => ?_, hsorted⟩
        have hle := ((hmem k).mp hk).1
        have hpos := length_encodeOne_of_mem hcat
        rw [List.flatMap_append, List.length_append, List.flatMap_singleton, hpos] at hle
        omega
      · intro k
        rw [take_mem_encodings_cons hc, ← hmem, List.mem_cons]
        exact or_congr_left ⟨fun h => ⟨h, name, hcat⟩, fun h => h.1⟩
      · exact .cons (matches_ofChar hs hcat) hmatch
      · refine List.forall_mem_cons.mpr
          ⟨⟨before, c, t, rfl, take_flatMap_encodeOne.symm, ?_⟩, hstand⟩
        rw [drop_flatMap_encodeOne, List.flatMap_cons,
          List.take_left' (length_encodeOne_of_mem hcat)]

/-- **The findings of a file are the matches in its bytes.**  They are in the order of the offsets
at which the bytes of a catalogued character stand, one for each; and each such match is a character
of the text, none lies across two. -/
theorem scan_eq_matches {d : Disk} {path : Text} {bytes : Bytes} {t : Text}
    (hread : d.read path = .ok bytes) (ht : Encodes bytes t) :
    ∃ offsets findings, d.scan path = ⟨[], .ok findings⟩ ∧ offsets.Pairwise (· < ·) ∧
      (∀ k, k ∈ offsets ↔ (bytes.drop k).take 3 ∈ encodings) ∧
      List.Forall₂ (Finding.Matches bytes) offsets findings ∧ ∀ k ∈ offsets, StandsAt t k := by
  obtain ⟨offsets, hsorted, hmem, hmatch, hstand⟩ := exists_offsets_collect t [] ht.1
  refine ⟨offsets, Finding.all t, ?_, hsorted, ?_, ?_, hstand⟩
  · rw [Disk.scan, hread, Scan.ofRead]
    simp only [decode_of_encodes ht]
  · intro k
    rw [hmem, ← ht.2]
    exact and_iff_right (Nat.zero_le k)
  · rw [← ht.2]
    exact hmatch

def Disk.ofFile (name : Name) (data : Bytes) : Disk :=
  { files := { root := .dir [(name, .file data)], working := [] } }

/-- The bytes of `é`, a line feed, an override and `x`. -/
def overrideBytes : Bytes := [0xC3, 0xA9, 0x0A, 0xE2, 0x80, 0xAE, 0x78]

theorem scan_overrideBytes :
    (Disk.ofFile [0x61] overrideBytes).read (lit "a") = .ok overrideBytes ∧
      Encodes overrideBytes (lit "é\n\u202Ex") ∧
      ∃ offsets findings, (Disk.ofFile [0x61] overrideBytes).scan (lit "a") = ⟨[], .ok findings⟩ ∧
        offsets.Pairwise (· < ·) ∧
        (∀ k, k ∈ offsets ↔ (overrideBytes.drop k).take 3 ∈ encodings) ∧
        List.Forall₂ (Finding.Matches overrideBytes) offsets findings ∧
        ∀ k ∈ offsets, StandsAt (lit "é\n\u202Ex") k := by
  have hread : (Disk.ofFile [0x61] overrideBytes).read (lit "a") = .ok overrideBytes := rfl
  have ht : Encodes overrideBytes (lit "é\n\u202Ex") := encodes_of_decode rfl
  exact ⟨hread, ht, scan_eq_matches hread ht⟩

end HiddenText
