import HiddenText.Proofs.Json.Reader
import Mathlib.Data.List.Basic
import Mathlib.Data.List.TakeWhile

/-!
# The lexemes of printed values

Printed values give their lexemes, at any depth and before any text that does not prolong a number
(`lexes_print`).  Strings are read back escape by escape (`lex_escape`), numbers as their digits
(`number?_ofInt`), and the layout gives nothing (`lex_lineAt`, `lexes_enclose`).
-/

namespace HiddenText

namespace Numeral

theorem head?_digits_ne_zero {base n : Nat} (hb : 2 ≤ base) (hn : n ≠ 0) :
    (digits base n).head? ≠ some 0 := by
  induction n using Nat.strongRecOn with
  | _ n ih =>
    rw [digits]
    split
    · next h =>
      have hq : n / base ≠ 0 := by
        have := Nat.div_pos h.2 (by omega)
        omega
      rw [List.head?_append_of_ne_nil _ (digits_ne_nil base _)]
      exact ih _ (Nat.div_lt_self (by omega) (by omega)) hq
    · intro h
      exact hn (Option.some.inj h)

end Numeral

namespace Json

/-! ## Numbers -/

theorem isDecimal_digitChar {d : Nat} (hd : d < 10) : isDecimal (Numeral.digitChar d) = true := by
  rw [isDecimal, Numeral.digitChar_val hd, Bool.and_eq_true, decide_eq_true_eq, decide_eq_true_eq]
  omega

theorem isDecimal_of_mem_ofNat {n : Nat} : ∀ c ∈ Numeral.ofNat n, isDecimal c = true := by
  intro c hc
  obtain ⟨d, hd, rfl⟩ := List.mem_map.mp hc
  exact isDecimal_digitChar (Numeral.digits_lt (by omega) n d hd)

theorem decimal_ofNat (n : Nat) : decimal (Numeral.ofNat n) = n := by
  have hmap : (Numeral.digits 10 n).map ((fun c : CodePoint => c.val - 0x30) ∘ Numeral.digitChar) =
      Numeral.digits 10 n := by
    rw [List.map_congr_left (g := id), List.map_id]
    intro d hd
    rw [Function.comp_apply, Numeral.digitChar_val (Numeral.digits_lt (by omega) n d hd)]
    exact Nat.add_sub_cancel_left _ _
  rw [decimal, Numeral.ofNat, List.map_map, hmap, Numeral.value_digits]

theorem isWhole_ofNat (n : Nat) : isWhole (Numeral.ofNat n) = true := by
  by_cases hn : n = 0
  · subst hn
    rw [isWhole, Numeral.ofNat, Numeral.digits, dif_neg (by omega)]
    rfl
  · have hne := Numeral.digits_ne_nil 10 n
    have hhead : (Numeral.digits 10 n).head? ≠ some 0 :=
      Numeral.head?_digits_ne_zero (by omega) hn
    have hlt : ∀ d ∈ Numeral.digits 10 n, d < 10 := Numeral.digits_lt (by omega) n
    rw [isWhole, Numeral.ofNat]
    cases hds : Numeral.digits 10 n with
    | nil => exact absurd hds hne
    | cons d ds =>
      rw [hds] at hhead hlt
      have hd := hlt d List.mem_cons_self
      have hchar : Numeral.digitChar d ≠ Numeral.digitChar 0 := by
        intro h
        have hval := congrArg Fin.val h
        rw [Numeral.digitChar_val hd, Numeral.digitChar_val (by omega)] at hval
        exact hhead (congrArg some (by omega))
      simp [hchar]

theorem number?_ofNat (n : Nat) (negative : Bool) {w : Text}
    (hw : splitMinus w = (negative, Numeral.ofNat n)) :
    number? w = some (.number (signed negative n) 0) := by
  have hwhole : (Numeral.ofNat n).takeWhile isDecimal = Numeral.ofNat n :=
    List.takeWhile_eq_self_iff.mpr isDecimal_of_mem_ofNat
  have hrest : (Numeral.ofNat n).dropWhile isDecimal = [] :=
    List.dropWhile_eq_nil_iff.mpr isDecimal_of_mem_ofNat
  simp only [number?, hw, hwhole, hrest, isWhole_ofNat, if_true, fraction?, Option.bind_some,
    power?, Option.map_some, List.append_nil, decimal_ofNat]
  rfl

/-- What the numeral of an integer begins with is a digit or the minus sign. -/
theorem ofInt_eq_cons (i : Int) :
    ∃ c w, Numeral.ofInt i = c :: w ∧ (c = CodePoint.hyphen ∨ isDecimal c = true) ∧
      ∀ d ∈ w, isDecimal d = true := by
  have hne : Numeral.ofNat i.natAbs ≠ [] := by
    rw [Numeral.ofNat, ne_eq, List.map_eq_nil_iff]
    exact Numeral.digits_ne_nil 10 _
  obtain ⟨c, w, hw⟩ := List.exists_cons_of_ne_nil hne
  have hdec := isDecimal_of_mem_ofNat (n := i.natAbs)
  rw [Numeral.ofInt]
  split
  · exact ⟨_, _, rfl, .inl rfl, hdec⟩
  · rw [hw] at hdec ⊢
    exact ⟨c, w, rfl, .inr (hdec c List.mem_cons_self),
      fun d hd => hdec d (List.mem_cons_of_mem _ hd)⟩

theorem splitMinus_ofInt (i : Int) :
    splitMinus (Numeral.ofInt i) = (decide (i < 0), Numeral.ofNat i.natAbs) := by
  rw [Numeral.ofInt]
  split
  · next h => rw [splitMinus, if_pos rfl, decide_eq_true h]
  · next h =>
    rw [decide_eq_false h]
    cases hw : Numeral.ofNat i.natAbs with
    | nil => rfl
    | cons c w =>
      have hdec : isDecimal c = true :=
        isDecimal_of_mem_ofNat c (hw ▸ List.mem_cons_self)
      have hc : c ≠ CodePoint.hyphen := by
        rintro rfl
        exact absurd hdec (by decide)
      rw [splitMinus, if_neg hc]

theorem number?_ofInt (i : Int) : number? (Numeral.ofInt i) = some (.number i 0) := by
  have hsigned : signed (decide (i < 0)) i.natAbs = i := by
    rw [signed]
    split
    · next h =>
      rw [decide_eq_true_eq] at h
      omega
    · next h =>
      rw [decide_eq_true_eq] at h
      omega
  rw [number?_ofNat i.natAbs _ (splitMinus_ofInt i), hsigned]

theorem ofInt_ne {i : Int} {t : Text} {c : CodePoint} (ht : t.head? = some c)
    (hminus : c ≠ CodePoint.hyphen) (hdec : isDecimal c = false) : Numeral.ofInt i ≠ t := by
  rintro rfl
  obtain ⟨d, w, hw, hd, -⟩ := ofInt_eq_cons i
  rw [hw] at ht
  obtain rfl : d = c := Option.some.inj ht
  rcases hd with hd | hd
  · exact hminus hd
  · rw [hdec] at hd
    cases hd

theorem word?_ofInt (i : Int) : word? (Numeral.ofInt i) = some (.number i 0) := by
  have hnull : Numeral.ofInt i ≠ lit "null" := ofInt_ne rfl (by decide) (by decide)
  have htrue : Numeral.ofInt i ≠ lit "true" := ofInt_ne rfl (by decide) (by decide)
  have hfalse : Numeral.ofInt i ≠ lit "false" := ofInt_ne rfl (by decide) (by decide)
  rw [word?, if_neg hnull, if_neg htrue, if_neg hfalse]
  exact number?_ofInt i

/-! ## Lexemes -/

theorem lex_cons (mode : Mode) (c : CodePoint) (rest : Text) :
    lex mode (c :: rest) =
      (push c mode).bind fun (ls, mode') => (lex mode' rest).map (ls ++ ·) := rfl

theorem lex_cons_of_push {mode mode' : Mode} {c : CodePoint} (rest : Text)
    (h : push c mode = some ([], mode')) : lex mode (c :: rest) = lex mode' rest := by
  rw [lex_cons, h, Option.bind_some]
  simp only [List.nil_append]
  exact Option.map_id'

theorem lex_cons_of_push_singleton {mode mode' : Mode} {c : CodePoint} {l : Lexeme} (rest : Text)
    (h : push c mode = some ([l], mode')) :
    lex mode (c :: rest) = (lex mode' rest).map (l :: ·) := by
  rw [lex_cons, h, Option.bind_some]
  rfl

theorem lex_white {c : CodePoint} (hc : isWhite c = true) (rest : Text) :
    lex .between (c :: rest) = lex .between rest :=
  lex_cons_of_push rest (by rw [push, start, if_pos hc])

theorem lex_lineAt (depth : Nat) (rest : Text) :
    lex .between (lineAt depth ++ rest) = lex .between rest := by
  rw [lineAt, List.cons_append, lex_white (by decide)]
  induction 2 * depth with
  | zero => rfl
  | succ n ih => rw [List.replicate_succ, List.cons_append, lex_white (by decide), ih]

theorem lex_mark {c : CodePoint} {l : Lexeme} (h : start c = ([l], .between)) (rest : Text) :
    lex .between (c :: rest) = (lex .between rest).map (l :: ·) :=
  lex_cons_of_push_singleton rest (by rw [push, h])

/-! ## Strings -/

theorem push_backslash (s : Text) :
    push Text.backslash (.string s none) = some ([], .escape s none) := by
  rw [push, if_neg (by decide), if_pos rfl]

theorem lex_simple {x d : CodePoint} (hx : x ≠ CodePoint.ofChar 'u') (hd : escaped? x = some d)
    (s rest : Text) :
    lex (.string s none) (Text.backslash :: x :: rest) = lex (.string (s ++ [d]) none) rest := by
  have hread : push x (.escape s none) = some ([], .string (s ++ [d]) none) := by
    rw [push, if_neg hx, hd, Option.map_some]
  rw [lex_cons_of_push _ (push_backslash s), lex_cons_of_push _ hread]

/-- The digits with which a character below the space is escaped. -/
theorem hex_control {n : Nat} (hn : n < 0x20) :
    Numeral.hex 4 n = [Numeral.digitChar 0, Numeral.digitChar 0, Numeral.digitChar (n / 16),
      Numeral.hexChar 0x61 (n % 16)] := by
  by_cases h : 16 ≤ n
  · have hdigits : Numeral.digits 16 n = [n / 16, n % 16] := by
      rw [Numeral.digits, dif_pos ⟨by omega, h⟩, Numeral.digits, dif_neg (by omega)]
      rfl
    have hchar : Numeral.hexChar 0x61 (n / 16) = Numeral.digitChar (n / 16) := by
      rw [Numeral.hexChar, if_pos (by omega), Numeral.digitChar]
    rw [Numeral.hex, hdigits, List.map_cons, hchar]
    rfl
  · have hdigits : Numeral.digits 16 n = [n] := by
      rw [Numeral.digits, dif_neg (by omega)]
    rw [Numeral.hex, hdigits, Nat.div_eq_of_lt (by omega), Nat.mod_eq_of_lt (by omega)]
    rfl

theorem hexDigit?_hexChar : ∀ d < 16, hexDigit? (Numeral.hexChar 0x61 d) = some d := by decide

theorem hexDigit?_digitChar : ∀ d < 10, hexDigit? (Numeral.digitChar d) = some d := by decide

theorem lex_control {c : CodePoint} (hc : c.val < 0x20) (s rest : Text) :
    lex (.string s none) (lit "\\u" ++ Numeral.hex 4 c.val ++ rest) =
      lex (.string (s ++ [c]) none) rest := by
  have hdigit {x : CodePoint} {missing value d : Nat} (hx : hexDigit? x = some d) :
      push x (.unit s none (missing + 1) value) =
        some ([], .unit s none missing (16 * value + d)) := by
    rw [push, hx, Option.map_some]
  have hunit : addUnit s none c.val = .string (s ++ [c]) none := by
    have hnat : CodePoint.ofNat c.val = c := Fin.ext (Nat.mod_eq_of_lt c.isLt)
    have hhigh : isHigh c.val = false := by
      rw [isHigh, decide_eq_false (by omega), Bool.false_and]
    rw [addUnit, hnat, hhigh]
    rfl
  have hlast : push (Numeral.hexChar 0x61 (c.val % 16)) (.unit s none 0 (c.val / 16)) =
      some ([], .string (s ++ [c]) none) := by
    rw [push, hexDigit?_hexChar _ (by omega), Option.map_some, Nat.div_add_mod, hunit]
  have hu : push (CodePoint.ofChar 'u') (.escape s none) = some ([], .unit s none 3 0) := by
    rw [push, if_pos rfl]
  have hlit : lit "\\u" = [Text.backslash, CodePoint.ofChar 'u'] := rfl
  rw [hex_control hc, hlit]
  simp only [List.cons_append, List.nil_append]
  rw [lex_cons_of_push _ (push_backslash s), lex_cons_of_push _ hu,
    lex_cons_of_push _ (hdigit (hexDigit?_digitChar 0 (by omega))),
    lex_cons_of_push _ (hdigit (hexDigit?_digitChar 0 (by omega))),
    lex_cons_of_push _ (hdigit (hexDigit?_digitChar (c.val / 16) (by omega)))]
  simp only [Nat.mul_zero, Nat.zero_add]
  rw [lex_cons_of_push _ hlast]

/-- The escaped form of a character is read as the character. -/
theorem lex_escape (c : CodePoint) (s rest : Text) :
    lex (.string s none) (escape c ++ rest) = lex (.string (s ++ [c]) none) rest := by
  rw [escape]
  split
  · next h => exact h ▸ lex_simple (by decide) rfl s rest
  split
  · next h => exact h ▸ lex_simple (by decide) rfl s rest
  split
  · next h => exact h ▸ lex_simple (by decide) rfl s rest
  split
  · next h => exact h ▸ lex_simple (by decide) rfl s rest
  split
  · next h => exact h ▸ lex_simple (by decide) rfl s rest
  split
  · next h =>
    obtain rfl : c = .ofNat 0x0C := Fin.ext h
    exact lex_simple (by decide) rfl s rest
  split
  · next h =>
    obtain rfl : c = .ofNat 0x08 := Fin.ext h
    exact lex_simple (by decide) rfl s rest
  split
  · next h => exact lex_control h s rest
  · next hquote hslash _ _ _ _ _ hcontrol =>
    refine lex_cons_of_push rest ?_
    rw [push, if_neg hquote, if_neg hslash, if_neg hcontrol]

theorem lex_flatMap_escape (t s rest : Text) :
    lex (.string s none) (t.flatMap escape ++ rest) = lex (.string (s ++ t) none) rest := by
  induction t generalizing s with
  | nil => rw [List.flatMap_nil, List.nil_append, List.append_nil]
  | cons c t ih =>
    rw [List.flatMap_cons, List.append_assoc, lex_escape, ih, List.append_assoc]
    rfl

theorem lex_string (t rest : Text) :
    lex .between (string t ++ rest) = (lex .between rest).map (.string t :: ·) := by
  have hopen : push Text.doubleQuote .between = some ([], .string [] none) := rfl
  have hclose : push Text.doubleQuote (.string t none) = some ([.string t], .between) := by
    rw [push, if_pos rfl]
  rw [string, List.append_assoc, List.cons_append, lex_cons_of_push _ hopen, lex_flatMap_escape,
    List.nil_append, List.singleton_append, lex_cons_of_push_singleton _ hclose]

/-! ## Printed values -/

/-- Whether a word that stands before the text ends there. -/
def EndsWord (rest : Text) : Prop := ∀ c ∈ rest.head?, endsWord c = true

theorem endsWord_of_isDecimal {c : CodePoint} (hc : isDecimal c = true) : endsWord c = false := by
  rw [isDecimal, Bool.and_eq_true, decide_eq_true_eq, decide_eq_true_eq] at hc
  have hquote : c ≠ Text.doubleQuote := by
    rintro rfl
    exact absurd hc.1 (by decide)
  have hmark : mark? c = none := by
    rw [mark?]
    repeat rw [if_neg (by omega)]
  rw [endsWord, hmark, decide_eq_false hquote, isWhite]
  repeat rw [decide_eq_false (by omega)]
  rfl

theorem start_eq_word {c : CodePoint} (hc : endsWord c = false) : start c = ([], .word [c]) := by
  rw [endsWord, Bool.or_eq_false_iff, Bool.or_eq_false_iff, decide_eq_false_iff_not,
    Option.isSome_eq_false_iff, Option.isNone_iff_eq_none] at hc
  obtain ⟨⟨hwhite, hmark⟩, hquote⟩ := hc
  rw [start, if_neg (by rw [hwhite]; decide), if_neg hquote, hmark]

theorem lex_word_append {v : Text} (hv : ∀ c ∈ v, endsWord c = false) (w rest : Text) :
    lex (.word w) (v ++ rest) = lex (.word (w ++ v)) rest := by
  induction v generalizing w with
  | nil => rw [List.nil_append, List.append_nil]
  | cons c v ih =>
    have hpush : push c (.word w) = some ([], .word (w ++ [c])) := by
      rw [push, if_neg (by rw [hv c List.mem_cons_self]; decide)]
    rw [List.cons_append, lex_cons_of_push _ hpush,
      ih fun d hd => hv d (List.mem_cons_of_mem _ hd), List.append_assoc]
    rfl

theorem lex_word_end {w rest : Text} {v : Value} (hw : word? w = some v) (hrest : EndsWord rest) :
    lex (.word w) rest = (lex .between rest).map (.word v :: ·) := by
  cases rest with
  | nil => rw [lex, close, hw]; rfl
  | cons c rest =>
    have hpush : push c (.word w) = some (.word v :: (start c).1, (start c).2) := by
      rw [push, if_pos (hrest c rfl), hw, Option.map_some]
    have hbetween : push c .between = some (start c) := rfl
    rw [lex_cons, lex_cons, hpush, hbetween, Option.bind_some, Option.bind_some, Option.map_map]
    rfl

theorem lex_ofInt (i : Int) {rest : Text} (hrest : EndsWord rest) :
    lex .between (Numeral.ofInt i ++ rest) =
      (lex .between rest).map (.word (.number i 0) :: ·) := by
  obtain ⟨c, w, hi, hc, hw⟩ := ofInt_eq_cons i
  have hstart : start c = ([], .word [c]) := by
    rcases hc with rfl | hc
    · rfl
    · exact start_eq_word (endsWord_of_isDecimal hc)
  have hpush : push c .between = some ([], .word [c]) := by rw [push, hstart]
  have hword : word? (c :: w) = some (.number i 0) := hi ▸ word?_ofInt i
  rw [hi, List.cons_append, lex_cons_of_push _ hpush,
    lex_word_append fun d hd => endsWord_of_isDecimal (hw d hd), List.singleton_append,
    lex_word_end hword hrest]

/-- The groups with a comma between any two. -/
def separated : List (List Lexeme) → List Lexeme
  | [] => []
  | g :: groups => g ++ groups.flatMap (.comma :: ·)

mutual

def lexemes : Json → List Lexeme
  | .text t => [.string t]
  | .int i => [.word (.number i 0)]
  | .array items => .openArray :: separated (itemLexemes items) ++ [.closeArray]
  | .object fields => .openObject :: separated (fieldLexemes fields) ++ [.closeObject]

def itemLexemes : List Json → List (List Lexeme)
  | [] => []
  | v :: rest => lexemes v :: itemLexemes rest

def fieldLexemes : List (Text × Json) → List (List Lexeme)
  | [] => []
  | (key, v) :: rest => (.string key :: .colon :: lexemes v) :: fieldLexemes rest

end

/-- The text gives the lexemes wherever no word goes on after it. -/
def Lexes (t : Text) (ls : List Lexeme) : Prop :=
  ∀ rest, EndsWord rest → lex .between (t ++ rest) = (lex .between rest).map (ls ++ ·)

theorem join_cons (separator t : Text) (texts : List Text) :
    Text.join separator (t :: texts) = t ++ texts.flatMap (separator ++ ·) := by
  induction texts generalizing t with
  | nil => simp [Text.join]
  | cons u texts ih =>
    rw [Text.join, List.intersperse_cons_cons, List.flatten_cons, List.flatten_cons, ← Text.join,
      ih, List.flatMap_cons, List.append_assoc]

theorem endsWord_parts {depth : Nat} {parts : List Text} {rest : Text} (hrest : EndsWord rest) :
    EndsWord (parts.flatMap ((CodePoint.ofChar ',' :: lineAt depth) ++ ·) ++ rest) := by
  cases parts with
  | nil => exact hrest
  | cons t parts =>
    intro c hc
    obtain rfl : CodePoint.ofChar ',' = c := Option.some.inj hc
    rfl

/-- Parts that follow another one, each after a comma and on its own line. -/
theorem lex_parts {depth : Nat} {parts : List Text} {groups : List (List Lexeme)}
    (h : List.Forall₂ Lexes parts groups) {rest : Text} (hrest : EndsWord rest) :
    lex .between (parts.flatMap ((CodePoint.ofChar ',' :: lineAt depth) ++ ·) ++ rest) =
      (lex .between rest).map (groups.flatMap (.comma :: ·) ++ ·) := by
  induction h with
  | nil => exact Option.map_id'.symm
  | @cons t g parts groups ht _ ih =>
    have hcomma : start (CodePoint.ofChar ',') = ([.comma], .between) := rfl
    rw [List.flatMap_cons, List.append_assoc, List.append_assoc, List.cons_append, lex_mark hcomma,
      lex_lineAt, ht _ (endsWord_parts hrest), ih, Option.map_map, Option.map_map,
      List.flatMap_cons]
    congr 1
    funext ls
    simp

theorem lexes_enclose {opening closing : CodePoint} {first last : Lexeme} {parts : List Text}
    {groups : List (List Lexeme)} (hopen : start opening = ([first], .between))
    (hclose : start closing = ([last], .between)) (h : List.Forall₂ Lexes parts groups)
    (depth : Nat) :
    Lexes (enclose opening closing depth parts) (first :: separated groups ++ [last]) := by
  intro rest _
  cases h with
  | nil =>
    have hempty : enclose opening closing depth [] = [opening, closing] := rfl
    rw [hempty, List.cons_append, List.singleton_append, lex_mark hopen, lex_mark hclose,
      Option.map_map]
    rfl
  | @cons t g parts groups ht hparts =>
    have hline : EndsWord (lineAt depth ++ ([closing] ++ rest)) := by
      intro c hc
      obtain rfl : CodePoint.newline = c := Option.some.inj hc
      rfl
    rw [enclose, if_neg (by simp), join_cons]
    simp only [List.append_assoc, List.cons_append (a := opening)]
    rw [lex_mark hopen, lex_lineAt, ht _ (endsWord_parts hline), lex_parts hparts hline, lex_lineAt,
      List.singleton_append, lex_mark hclose]
    simp only [Option.map_map, separated]
    congr 1
    funext ls
    simp

mutual

theorem lexes_print (depth : Nat) : ∀ v : Json, Lexes (v.print depth) v.lexemes
  | .text t => by
    intro rest _
    rw [print, lexemes, lex_string]
    rfl
  | .int i => by
    intro rest hrest
    rw [print, lexemes, lex_ofInt i hrest]
    rfl
  | .array items => by
    rw [print, lexemes]
    exact lexes_enclose rfl rfl (lexes_printItems (depth + 1) items) depth
  | .object fields => by
    rw [print, lexemes]
    exact lexes_enclose rfl rfl (lexes_printFields (depth + 1) fields) depth

theorem lexes_printItems (depth : Nat) :
    ∀ items : List Json, List.Forall₂ Lexes (printItems depth items) (itemLexemes items)
  | [] => by
    rw [printItems, itemLexemes]
    exact .nil
  | v :: rest => by
    rw [printItems, itemLexemes]
    exact .cons (lexes_print depth v) (lexes_printItems depth rest)

theorem lexes_printFields (depth : Nat) :
    ∀ fields : List (Text × Json),
      List.Forall₂ Lexes (printFields depth fields) (fieldLexemes fields)
  | [] => by
    rw [printFields, fieldLexemes]
    exact .nil
  | (key, v) :: rest => by
    rw [printFields, fieldLexemes]
    refine .cons ?_ (lexes_printFields depth rest)
    intro after hafter
    have hcolon : start (CodePoint.ofChar ':') = ([.colon], .between) := rfl
    have hlit : lit ": " = [CodePoint.ofChar ':', CodePoint.space] := rfl
    rw [hlit, List.append_assoc, List.append_assoc, lex_string, List.cons_append, lex_mark hcolon,
      List.singleton_append, lex_white (by decide), lexes_print depth v after hafter,
      Option.map_map, Option.map_map]
    rfl

end

end Json

end HiddenText
