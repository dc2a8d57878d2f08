import HiddenText.Proofs.Json.Lexing
import HiddenText.Report.Json

/-!
# Reports are read back

The reader of `Proofs.Json.Reader` inverts the printer: the parser goes from the lexemes of a value
to the value, on any stack (`foldlM_lexemes`), and so every printed value is read back
(`decode_render`).

Main statement: `Report.decode_render_files`.
-/

namespace HiddenText

namespace Json

/-! ## Parsed values -/

mutual

/-- What the reader makes of a printed value. -/
def toValue : Json → Value
  | .text t => .text t
  | .int i => .number i 0
  | .array items => .array (itemValues items)
  | .object fields => .object (fieldValues fields)

def itemValues : List Json → List Value
  | [] => []
  | v :: rest => toValue v :: itemValues rest

def fieldValues : List (Text × Json) → List (Text × Value)
  | [] => []
  | (key, v) :: rest => (key, toValue v) :: fieldValues rest

end

/-- The parser waits for a value; where an array may be closed too, it is not closed. -/
def Awaits (e : Expect) (stack : List Frame) : Prop :=
  ∀ l, l ≠ .closeArray → e.step l = begin stack l

theorem awaits_value (stack : List Frame) : Awaits (.value stack) stack := fun _ _ => rfl

theorem awaits_firstItem (stack : List Frame) :
    Awaits (.firstItem stack) (.array [] :: stack) := by
  intro l hl
  cases l with
  | closeArray => exact absurd rfl hl
  | _ => rfl

theorem foldlM_cons_of_step {e n : Expect} {l : Lexeme} (h : e.step l = some n)
    (ls : List Lexeme) : (l :: ls).foldlM Expect.step e = ls.foldlM Expect.step n := by
  rw [List.foldlM_cons, h]
  rfl

mutual

/-- The parser takes in the lexemes of a value, whatever encloses it and whatever follows. -/
theorem foldlM_lexemes {e : Expect} {stack : List Frame} (he : Awaits e stack) (ls : List Lexeme) :
    ∀ v : Json, (v.lexemes ++ ls).foldlM Expect.step e =
      ls.foldlM Expect.step (.after v.toValue stack)
  | .text t => foldlM_cons_of_step (he (.string t) (by simp)) ls
  | .int i => foldlM_cons_of_step (he (.word (.number i 0)) (by simp)) ls
  | .array items => by
    rw [lexemes, List.append_assoc, List.cons_append,
      foldlM_cons_of_step (n := .firstItem stack) (he .openArray (by simp))]
    cases items with
    | nil => exact foldlM_cons_of_step rfl ls
    | cons v items =>
      rw [itemLexemes, separated, List.append_assoc, foldlM_lexemes (awaits_firstItem stack),
        foldlM_itemLexemes]
      rfl
  | .object fields => by
    rw [lexemes, List.append_assoc, List.cons_append,
      foldlM_cons_of_step (n := .firstName stack) (he .openObject (by simp))]
    match fields with
    | [] => exact foldlM_cons_of_step rfl ls
    | (key, v) :: fields =>
      rw [fieldLexemes, separated, List.append_assoc, List.cons_append,
        foldlM_cons_of_step (n := .colon [] key stack) rfl, List.cons_append,
        foldlM_cons_of_step (n := .value (.object [] key :: stack)) rfl,
        foldlM_lexemes (awaits_value _), foldlM_fieldLexemes]
      rfl

theorem foldlM_itemLexemes {stack : List Frame} (ls : List Lexeme) :
    ∀ (items : List Json) (done : List Value) (u : Value),
      ((itemLexemes items).flatMap (Lexeme.comma :: ·) ++ ([Lexeme.closeArray] ++ ls)).foldlM
          Expect.step (.after u (.array done :: stack)) =
        ls.foldlM Expect.step (.after (.array (done ++ u :: itemValues items)) stack)
  | [], done, u => foldlM_cons_of_step rfl ls
  | v :: items, done, u => by
    rw [itemLexemes, List.flatMap_cons, List.append_assoc, List.cons_append,
      foldlM_cons_of_step (n := .value (.array (done ++ [u]) :: stack)) rfl,
      foldlM_lexemes (awaits_value _), foldlM_itemLexemes ls items, itemValues, List.append_assoc]
    rfl

theorem foldlM_fieldLexemes {stack : List Frame} (ls : List Lexeme) :
    ∀ (fields : List (Text × Json)) (done : List (Text × Value)) (name : Text) (u : Value),
      ((fieldLexemes fields).flatMap (Lexeme.comma :: ·) ++ ([Lexeme.closeObject] ++ ls)).foldlM
          Expect.step (.after u (.object done name :: stack)) =
        ls.foldlM Expect.step (.after (.object (done ++ (name, u) :: fieldValues fields)) stack)
  | [], done, name, u => foldlM_cons_of_step rfl ls
  | (key, v) :: fields, done, name, u => by
    rw [fieldLexemes, List.flatMap_cons, List.append_assoc, List.cons_append,
      foldlM_cons_of_step (n := .name (done ++ [(name, u)]) stack) rfl, List.cons_append,
      foldlM_cons_of_step (n := .colon (done ++ [(name, u)]) key stack) rfl, List.cons_append,
      foldlM_cons_of_step (n := .value (.object (done ++ [(name, u)]) key :: stack)) rfl,
      foldlM_lexemes (awaits_value _), foldlM_fieldLexemes ls fields, fieldValues,
      List.append_assoc]
    rfl

end

theorem decode_render (v : Json) : decode v.render = some v.toValue := by
  have hend : EndsWord [] := fun c hc => by cases hc
  have hlex : lex .between v.render = some v.lexemes := by
    have h := lexes_print 0 v [] hend
    rw [List.append_nil] at h
    rw [render, h, lex, close, Option.map_some, List.append_nil]
  have hparse := foldlM_lexemes (awaits_value []) [] v
  rw [List.append_nil] at hparse
  rw [decode, hlex, Option.bind_some, hparse]
  rfl

/-- Escapes that printed values do not have, and words that are no numbers. -/
example : decode (lit "[\"\\ud83d\\ude00\\/\", -1.50e+2]") =
    some (.array [.text (lit "😀/"), .number (-150) 0]) := rfl

example : decode (lit "[01]") = none := rfl

theorem itemValues_eq_map (items : List Json) : itemValues items = items.map toValue := by
  induction items with
  | nil => rfl
  | cons v rest ih => rw [itemValues, ih, List.map_cons]

theorem fieldValues_eq_map (fields : List (Text × Json)) :
    fieldValues fields = fields.map fun (key, v) => (key, toValue v) := by
  induction fields with
  | nil => rfl
  | cons field rest ih => rw [fieldValues, ih, List.map_cons]

end Json

/-! ## Reports -/

/-- The object in a report file that a finding is read back as. -/
def Finding.toValue (f : Finding) : Json.Value :=
  .object [
    (lit "char", .text f.char),
    (lit "codepoint", .text f.codepoint),
    (lit "name", .text f.name),
    (lit "position", .number f.position 0),
    (lit "line", .number f.line 0)]

theorem Finding.toValue_injective : Function.Injective Finding.toValue := by
  intro f g h
  obtain ⟨fchar, fcodepoint, fname, fposition, fline⟩ := f
  obtain ⟨gchar, gcodepoint, gname, gposition, gline⟩ := g
  simp only [Finding.toValue, Json.Value.object.injEq, List.cons.injEq, Prod.mk.injEq, true_and,
    and_true, Json.Value.text.injEq, Json.Value.number.injEq] at h
  obtain ⟨rfl, rfl, rfl, rfl, rfl⟩ := h
  rfl

namespace Report

def toValue (r : Report) : Json.Value :=
  .object (r.files.map fun (path, findings) => (path, .array (findings.map Finding.toValue)))

theorem toValue_toJson (r : Report) : r.toJson.toValue = r.toValue := by
  have hfinding : ∀ f : Finding, f.toJson.toValue = f.toValue := fun _ => rfl
  have hentry : ∀ entry : Text × List Finding,
      (Json.array (entry.2.map Finding.toJson)).toValue =
        .array (entry.2.map Finding.toValue) := by
    intro entry
    rw [Json.toValue, Json.itemValues_eq_map, List.map_map]
    exact congrArg Json.Value.array (List.map_congr_left fun f _ => hfinding f)
  rw [toJson, Json.toValue, Json.fieldValues_eq_map, List.map_map, toValue]
  refine congrArg Json.Value.object (List.map_congr_left fun entry _ => ?_)
  exact congrArg (Prod.mk entry.1) (hentry entry)

/-- The value that the text of a report is read back as. -/
theorem decode_render (r : Report) : Json.decode r.render = some r.toValue := by
  rw [render, Json.decode_render, toValue_toJson]

theorem files_eq_of_toValue_eq {r r' : Report} (h : r.toValue = r'.toValue) :
    r.files = r'.files := by
  have hentry : Function.Injective fun entry : Text × List Finding =>
      (entry.1, Json.Value.array (entry.2.map Finding.toValue)) := by
    rintro ⟨path, findings⟩ ⟨path', findings'⟩ hpair
    obtain ⟨hpath, harray⟩ := Prod.mk.inj hpair
    have hfindings := List.map_injective_iff.mpr Finding.toValue_injective
      (Json.Value.array.inj harray)
    exact Prod.ext hpath hfindings
  exact List.map_injective_iff.mpr hentry (Json.Value.object.inj h)

/-- **The report file is read back.**  The text of any report is one JSON value, an object with the
paths of the report in their order, each with its findings in their order and their five fields.  So
reports with different files have different texts. -/
theorem decode_render_files (r : Report) :
    Json.decode r.render =
      some (.object (r.files.map fun (path, findings) =>
        (path, .array (findings.map fun f => .object [
          (lit "char", .text f.char),
          (lit "codepoint", .text f.codepoint),
          (lit "name", .text f.name),
          (lit "position", .number f.position 0),
          (lit "line", .number f.line 0)])))) ∧
    ∀ r' : Report, r'.files ≠ r.files → r'.render ≠ r.render := by
  have hread : ∀ r : Report, Json.decode r.render = some r.toValue := by
    intro r
    rw [render, Json.decode_render, toValue_toJson]
  refine ⟨hread r, ?_⟩
  intro r' hfiles hrender
  have hvalues : r'.toValue = r.toValue := by
    rw [← Option.some_inj, ← hread r', hrender, hread r]
  exact hfiles (files_eq_of_toValue_eq hvalues)

end Report

end HiddenText
