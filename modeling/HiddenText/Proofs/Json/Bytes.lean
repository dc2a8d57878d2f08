import HiddenText.Proofs.Json.Lexing
import HiddenText.Proofs.Utf8.Readings

/-!
# Printed values as bytes

A printed value is what its bytes are read as, whatever bytes are kept in its texts
(`isRead_print`).  Escaping changes ASCII characters to ASCII characters, and wherever a text begins
or ends there is a quote.
-/

namespace HiddenText.Json

open Utf8

/-! ## Strings and numbers -/

theorem escape_of_high {c : CodePoint} (hc : 0x80 ≤ c.val) : escape c = [c] := by
  have hne : ∀ d : CodePoint, d.val < 0x80 → c ≠ d := by
    rintro d hd rfl
    omega
  rw [escape, if_neg (hne _ (by decide)), if_neg (hne _ (by decide)), if_neg (hne _ (by decide)),
    if_neg (hne _ (by decide)), if_neg (hne _ (by decide)), if_neg (by omega), if_neg (by omega),
    if_neg (by omega)]

theorem isAscii_hex_control {n : Nat} (hn : n < 0x20) : IsAscii (Numeral.hex 4 n) := by
  have hdigit : ∀ d < 10, (Numeral.digitChar d).val < 0x80 := by decide
  have hletter : ∀ d < 16, (Numeral.hexChar 0x61 d).val < 0x80 := by decide
  rw [hex_control hn]
  simp only [IsAscii, List.forall_mem_cons]
  exact ⟨hdigit _ (by omega), hdigit _ (by omega), hdigit _ (by omega), hletter _ (by omega),
    by simp⟩

theorem isAscii_escape {c : CodePoint} (hc : c.val < 0x80) :
    escape c ≠ [] ∧ IsAscii (escape c) := by
  rw [escape]
  split
  · decide
  split
  · decide
  split
  · decide
  split
  · decide
  split
  · decide
  split
  · decide
  split
  · decide
  split
  · next h =>
    refine ⟨List.append_ne_nil_of_left_ne_nil (by decide) _, ?_⟩
    have hstart : IsAscii (lit "\\u") := by decide
    exact List.forall_mem_append.mpr ⟨hstart, isAscii_hex_control h⟩
  · exact ⟨List.cons_ne_nil _ _, List.forall_mem_singleton.mpr hc⟩

theorem isRead_string {t : Text} (h : IsRead t) : IsRead (string t) := by
  have hescaped : IsRead (t.flatMap escape) :=
    h.flatMap (fun _ => escape_of_high) fun _ => isAscii_escape
  have hquote : Text.doubleQuote.val < 0x80 := by decide
  exact isRead_nil.append_cons hquote (hescaped.append_cons hquote isRead_nil)

theorem isRead_ofInt (i : Int) : IsRead (Numeral.ofInt i) := by
  obtain ⟨c, w, hi, hc, hw⟩ := ofInt_eq_cons i
  have hdecimal : ∀ d : CodePoint, isDecimal d = true → d.val < 0x80 := by
    intro d hd
    rw [isDecimal, Bool.and_eq_true, decide_eq_true_eq, decide_eq_true_eq] at hd
    omega
  rw [hi]
  refine isRead_of_ascii (List.forall_mem_cons.mpr ⟨?_, fun d hd => hdecimal d (hw d hd)⟩)
  rcases hc with rfl | hc
  · decide
  · exact hdecimal c hc

/-! ## Layout -/

theorem isAscii_lineAt (depth : Nat) : IsAscii (lineAt depth) := by
  rw [IsAscii, lineAt, List.forall_mem_cons]
  refine ⟨by decide, fun c hc => ?_⟩
  rw [List.eq_of_mem_replicate hc]
  decide

theorem isRead_join {separator : Text} (hne : separator ≠ [])
    (hseparator : IsAscii separator) {t : Text} {parts : List Text}
    (h : ∀ part ∈ t :: parts, IsRead part) : IsRead (Text.join separator (t :: parts)) := by
  rw [join_cons]
  induction parts generalizing t with
  | nil => rwa [List.flatMap_nil, List.append_nil, ← List.forall_mem_singleton (p := IsRead)]
  | cons u parts ih =>
    obtain ⟨ht, hparts⟩ := List.forall_mem_cons.mp h
    rw [List.flatMap_cons, List.append_assoc]
    exact ht.append_ascii_append hne hseparator (ih hparts)

theorem isRead_enclose {opening closing : CodePoint} (hopening : opening.val < 0x80)
    (hclosing : closing.val < 0x80) (depth : Nat) {parts : List Text}
    (h : ∀ part ∈ parts, IsRead part) : IsRead (enclose opening closing depth parts) := by
  have hend : IsRead [closing] := isRead_nil.append_cons hclosing isRead_nil
  have hline (n : Nat) : lineAt n ≠ [] := List.cons_ne_nil _ _
  cases parts with
  | nil => exact isRead_nil.append_cons hopening hend
  | cons t parts =>
    have hjoin : IsRead (Text.join (CodePoint.ofChar ',' :: lineAt (depth + 1)) (t :: parts)) :=
      isRead_join (List.cons_ne_nil _ _)
        (List.forall_mem_cons.mpr ⟨by decide, isAscii_lineAt _⟩) h
    rw [enclose, if_neg (by simp), List.append_assoc, List.append_assoc, List.cons_append]
    refine isRead_nil.append_cons hopening (.ascii_append (isAscii_lineAt _) ?_)
    exact hjoin.append_ascii_append (hline depth) (isAscii_lineAt _) hend

/-! ## Values -/

mutual

/-- The texts of a value, the names of fields included. -/
def texts : Json → List Text
  | .text t => [t]
  | .int _ => []
  | .array items => itemTexts items
  | .object fields => fieldTexts fields

def itemTexts : List Json → List Text
  | [] => []
  | v :: rest => texts v ++ itemTexts rest

def fieldTexts : List (Text × Json) → List Text
  | [] => []
  | (key, v) :: rest => key :: texts v ++ fieldTexts rest

end

theorem mem_itemTexts {t : Text} {items : List Json} :
    t ∈ itemTexts items ↔ ∃ v ∈ items, t ∈ v.texts := by
  induction items with
  | nil => simp [itemTexts]
  | cons v rest ih => simp [itemTexts, ih]

theorem mem_fieldTexts {t : Text} {fields : List (Text × Json)} :
    t ∈ fieldTexts fields ↔ ∃ field ∈ fields, t = field.1 ∨ t ∈ field.2.texts := by
  induction fields with
  | nil => simp [fieldTexts]
  | cons field rest ih => simp [fieldTexts, ih, or_assoc]

mutual

/-- A printed value is what its bytes are read as, if its texts are. -/
theorem isRead_print (depth : Nat) :
    ∀ v : Json, (∀ t ∈ v.texts, IsRead t) → IsRead (v.print depth)
  | .text t => by
    intro h
    rw [print]
    exact isRead_string (h t List.mem_cons_self)
  | .int i => by
    intro _
    rw [print]
    exact isRead_ofInt i
  | .array items => by
    intro h
    rw [print]
    exact isRead_enclose (by decide) (by decide) depth (isRead_printItems (depth + 1) items h)
  | .object fields => by
    intro h
    rw [print]
    exact isRead_enclose (by decide) (by decide) depth (isRead_printFields (depth + 1) fields h)

theorem isRead_printItems (depth : Nat) :
    ∀ items : List Json, (∀ t ∈ itemTexts items, IsRead t) →
      ∀ part ∈ printItems depth items, IsRead part
  | [] => by
    intro _ part hpart
    cases hpart
  | v :: rest => by
    intro h
    rw [itemTexts, List.forall_mem_append] at h
    rw [printItems, List.forall_mem_cons]
    exact ⟨isRead_print depth v h.1, isRead_printItems depth rest h.2⟩

theorem isRead_printFields (depth : Nat) :
    ∀ fields : List (Text × Json), (∀ t ∈ fieldTexts fields, IsRead t) →
      ∀ part ∈ printFields depth fields, IsRead part
  | [] => by
    intro _ part hpart
    cases hpart
  | (key, v) :: rest => by
    intro h
    rw [fieldTexts, List.cons_append, List.forall_mem_cons, List.forall_mem_append] at h
    obtain ⟨hkey, hv, hrest⟩ := h
    have hne : lit ": " ≠ [] := by decide
    have hcolon : IsAscii (lit ": ") := by decide
    rw [printFields, List.forall_mem_cons, List.append_assoc]
    refine ⟨?_, isRead_printFields depth rest hrest⟩
    exact (isRead_string hkey).append_ascii_append hne hcolon (isRead_print depth v hv)

end

end HiddenText.Json
