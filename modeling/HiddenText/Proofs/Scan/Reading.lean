import HiddenText.Proofs.Finding.Offsets
import HiddenText.Proofs.Utf8.Faults

/-!
# What the scan of a file makes of its bytes

A file is scanned as a whole or not at all.  If its bytes are the encoding of a text, the findings
are those of that text, byte order marks included, and there is nothing to log.  Otherwise there are
no findings, not even for characters before the place where the bytes go wrong, and the log has one
event, with the first fault.

Main statement: `Disk.scan_of_read`.
-/

namespace HiddenText

open Utf8

/-- The character that some programs put at the start of a text. -/
def CodePoint.byteOrderMark : CodePoint := .ofNat 0xFEFF

def Catalogue.byteOrderMarkName : Text := lit "BOM/ZWNBSP (Zero Width No-Break Space)"

theorem CodePoint.name?_byteOrderMark :
    CodePoint.byteOrderMark.name? = some Catalogue.byteOrderMarkName := by decide

theorem Utf8.Encodes.unique {bytes : Bytes} {s t : Text} (hs : Encodes bytes s)
    (ht : Encodes bytes t) : s = t := by
  have h := decode_of_encodes hs
  rw [decode_of_encodes ht] at h
  exact (Except.ok.inj h).symm

theorem Event.line_notUtf8 (path : Text) (fault : Fault) :
    (Event.notUtf8 path fault).line = lit "DEBUG bidiscan.scanner: skipped " ++ path
      ++ lit ": not UTF-8 text (" ++ fault.reason ++ lit ")" := by
  have hstart : lit "DEBUG bidiscan.scanner: skipped " =
      lit "DEBUG " ++ lit "bidiscan.scanner" ++ lit ": " ++ lit "skipped " := by decide
  simp only [Event.line, Event.level, Event.source, Event.message, hstart, List.append_assoc]

namespace Disk

variable {d : Disk} {path : Text} {data : Bytes} {t : Text} {fault : Fault}

theorem scan_of_encodes (hread : d.read path = .ok data) (ht : Encodes data t) :
    d.scan path = ⟨[], .ok (Finding.all t)⟩ := by
  rw [scan, hread, Scan.ofRead]
  simp only [decode_of_encodes ht]

theorem scan_of_firstFault (hread : d.read path = .ok data) (hfault : FirstFault data fault) :
    d.scan path = ⟨[.notUtf8 path fault], .ok []⟩ := by
  rw [scan, hread, Scan.ofRead]
  simp only [decode_eq_error_iff.mpr hfault]

/-- **A file is scanned just in case it is UTF-8 throughout.**  If its bytes encode a text, which is
then the only one, the findings are those of the text and nothing is logged; a byte order mark at
the start, or anywhere else, is one of them.  If they encode no text there are no findings, and the
log has the single event that tells the first fault, which is shown among the details. -/
theorem scan_of_read (hread : d.read path = .ok data) :
    (∀ t, Encodes data t →
      (∀ s, Encodes data s → s = t) ∧
      d.scan path = ⟨[], .ok (Finding.all t)⟩ ∧
      ∀ before after, t = before ++ .byteOrderMark :: after →
        Finding.ofChar .byteOrderMark Catalogue.byteOrderMarkName before.length
          (1 + before.count .newline) ∈ Finding.all t) ∧
    ((∀ t, ¬Encodes data t) → ∃ fault,
      (∀ f, FirstFault data f ↔ f = fault) ∧
      d.scan path = ⟨[.notUtf8 path fault], .ok []⟩ ∧
      (Event.notUtf8 path fault).level = .debug ∧
      (Event.notUtf8 path fault).line = lit "DEBUG bidiscan.scanner: skipped " ++ path
        ++ lit ": not UTF-8 text (" ++ fault.reason ++ lit ")") := by
  refine ⟨?_, ?_⟩
  · intro t ht
    refine ⟨fun s hs => hs.unique ht, scan_of_encodes hread ht, ?_⟩
    rintro before after rfl
    exact Finding.ofChar_mem_all CodePoint.name?_byteOrderMark before after
  · intro hnone
    cases hdecode : decode data with
    | ok t => exact absurd (encodes_of_decode hdecode) (hnone t)
    | error fault =>
      have hfault := decode_eq_error_iff.mp hdecode
      refine ⟨fault, ?_, scan_of_firstFault hread hfault, rfl, Event.line_notUtf8 path fault⟩
      intro f
      constructor
      · intro hf
        exact hf.unique hfault
      · rintro rfl
        exact hfault

/-- A byte order mark, `x` and another mark. -/
def markedBytes : Bytes := [0xEF, 0xBB, 0xBF, 0x78, 0xEF, 0xBB, 0xBF]

/-- An override, and then a surrogate as if it were a character. -/
def brokenBytes : Bytes := [0xE2, 0x80, 0xAE, 0xED, 0xA0, 0x80]

theorem scan_of_read_examples :
    (ofFile [0x61] markedBytes).read (lit "a") = .ok markedBytes ∧
      Encodes markedBytes (lit "\uFEFFx\uFEFF") ∧
      (ofFile [0x61] markedBytes).scan (lit "a") =
        ⟨[], .ok (Finding.all (lit "\uFEFFx\uFEFF"))⟩ ∧
    (ofFile [0x61] brokenBytes).read (lit "a") = .ok brokenBytes ∧
      (∀ t, ¬Encodes brokenBytes t) ∧ FirstFault brokenBytes .invalidContinuation ∧
      (ofFile [0x61] brokenBytes).scan (lit "a") =
        ⟨[.notUtf8 (lit "a") .invalidContinuation], .ok []⟩ := by
  have hmarked : (ofFile [0x61] markedBytes).read (lit "a") = .ok markedBytes := rfl
  have hbroken : (ofFile [0x61] brokenBytes).read (lit "a") = .ok brokenBytes := rfl
  have ht : Encodes markedBytes (lit "\uFEFFx\uFEFF") := encodes_of_decode rfl
  have hfault : FirstFault brokenBytes .invalidContinuation := decode_eq_error_iff.mp rfl
  have hnone : ∀ t, ¬Encodes brokenBytes t := fun _ => hfault.not_encodes
  obtain ⟨fault, hunique, hscan, -, -⟩ := (scan_of_read hbroken).2 hnone
  obtain rfl := (hunique _).mp hfault
  exact ⟨hmarked, ht, ((scan_of_read hmarked).1 _ ht).2.1, hbroken, hnone, hfault, hscan⟩

end Disk

end HiddenText
