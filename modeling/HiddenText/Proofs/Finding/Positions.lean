import HiddenText.Proofs.Finding.Collect
import Mathlib.Data.List.Forall2
import Mathlib.Data.List.Induction

/-!
# The findings of a text by offset

The line of an offset is counted in the text in front of it (`Finding.lineAt`), and only a line feed
starts another one (`Finding.lineAt_succ`).  With it the finding at an offset can be told without
going through the text (`Finding.found?`), and the findings of a text are those at its offsets, one
after the other (`Finding.all_eq_filterMap`): a text that grows by a character grows by one offset,
and what is found further in front stays what it was.

Main statement: `Finding.exists_offsets_all`.
-/

namespace HiddenText

/-! ## Labels -/

namespace Numeral

/-- The number that is written with some digits in a base, the highest first. -/
def valueIn (base : Nat) (ds : List Nat) : Nat := ds.foldl (fun n d => base * n + d) 0

theorem valueIn_append_singleton (base : Nat) (ds : List Nat) (d : Nat) :
    valueIn base (ds ++ [d]) = base * valueIn base ds + d := by
  rw [valueIn, List.foldl_append]
  rfl

theorem valueIn_digits (base n : Nat) : valueIn base (digits base n) = n := by
  induction n using Nat.strongRecOn with
  | _ n ih =>
    rw [digits]
    split
    · next h =>
      rw [valueIn_append_singleton, ih _ (Nat.div_lt_self (by omega) h.1)]
      exact Nat.div_add_mod n base
    · rw [valueIn, List.foldl_cons, Nat.mul_zero, Nat.zero_add, List.foldl_nil]

theorem valueIn_zeros_append (base k : Nat) (ds : List Nat) :
    valueIn base (List.replicate k 0 ++ ds) = valueIn base ds := by
  induction k with
  | zero => rfl
  | succ k ih =>
    rw [← ih, List.replicate_succ, List.cons_append, valueIn, List.foldl_cons]
    rfl

end Numeral

open Numeral in
/-- A label writes the number of its character in hexadecimal, with no less than four digits. -/
theorem CodePoint.exists_digits_label (c : CodePoint) : ∃ ds : List Nat,
    c.label = lit "U+" ++ ds.map (hexChar 0x41) ∧ ds.length = max 4 (digits 16 c.val).length ∧
      (∀ d ∈ ds, d < 16) ∧ valueIn 16 ds = c.val := by
  refine ⟨List.replicate (4 - (digits 16 c.val).length) 0 ++ digits 16 c.val, ?_, ?_, ?_, ?_⟩
  · rw [label, hexCapital, pad, List.length_map, List.map_append, List.map_replicate]
    rfl
  · rw [List.length_append, List.length_replicate]
    omega
  · intro d hd
    rcases List.mem_append.mp hd with hd | hd
    · rw [List.eq_of_mem_replicate hd]
      decide
    · exact digits_lt (by decide) c.val d hd
  · rw [valueIn_zeros_append, valueIn_digits]

open Numeral in
theorem exists_digits_label_of_mem {e : CodePoint × Text} (h : e ∈ catalogue) :
    ∃ ds : List Nat, e.1.label = lit "U+" ++ ds.map (hexChar 0x41) ∧ ds.length = 4 ∧
      (∀ d ∈ ds, d < 16) ∧ valueIn 16 ds = e.1.val := by
  have hall : ∀ e ∈ catalogue, (digits 16 e.1.val).length = 4 := by decide +kernel
  obtain ⟨ds, hlabel, hlength, hlt, hvalue⟩ := e.1.exists_digits_label
  rw [hall e h, Nat.max_self] at hlength
  exact ⟨ds, hlabel, hlength, hlt, hvalue⟩

/-- What a function gives stands beside that for which it gives something. -/
theorem forall₂_filter_filterMap {α β : Type} (f : α → Option β) (l : List α) :
    List.Forall₂ (fun a b => f a = some b) (l.filter fun a => (f a).isSome) (l.filterMap f) := by
  induction l with
  | nil => exact .nil
  | cons a l ih =>
    cases hf : f a with
    | none => rwa [List.filter_cons_of_neg (by simp [hf]), List.filterMap_cons_none hf]
    | some b =>
      rw [List.filter_cons_of_pos (by simp [hf]), List.filterMap_cons_some hf]
      exact .cons hf ih

/-! ## Lines -/

namespace Finding

variable {s t : Text} {c : CodePoint} {i j : Nat}

/-- The line in which an offset of a text lies. -/
def lineAt (t : Text) (i : Nat) : Nat := 1 + (t.take i).count CodePoint.newline

/-- A line feed starts a line behind it, and no other character does. -/
theorem lineAt_succ (h : t[i]? = some c) :
    lineAt t (i + 1) = if c = CodePoint.newline then lineAt t i + 1 else lineAt t i := by
  rw [lineAt, List.take_add_one, h, List.count_append, ← Nat.add_assoc, ← lineAt]
  exact (lineAfter_eq_add c (lineAt t i)).symm

theorem lineAt_mono (t : Text) (h : i ≤ j) : lineAt t i ≤ lineAt t j :=
  Nat.add_le_add_left ((List.take_sublist_take_left h).count_le _) 1

theorem lineAt_append (h : i ≤ s.length) (t : Text) : lineAt (s ++ t) i = lineAt s i := by
  rw [lineAt, lineAt, List.take_append_of_le_length h]

/-! ## Findings -/

/-- The finding for the character at an offset, if it is in the catalogue. -/
def found? (t : Text) (i : Nat) : Option Finding :=
  t[i]?.bind fun c => c.name?.map fun name => ofChar c name i (lineAt t i)

theorem found?_append (h : i < s.length) (t : Text) : found? (s ++ t) i = found? s i := by
  rw [found?, found?, List.getElem?_append_left h, lineAt_append (Nat.le_of_lt h)]

theorem toList_found?_length (t : Text) (c : CodePoint) :
    (found? (t ++ [c]) t.length).toList = here c t.length (lineAt t t.length) := by
  rw [found?, List.getElem?_concat_length, Option.bind_some, lineAt_append (Nat.le_refl _), here]
  cases c.name? <;> rfl

theorem all_eq_filterMap (t : Text) : all t = (List.range t.length).filterMap (found? t) := by
  induction t using List.reverseRecOn with
  | nil => rfl
  | append_singleton t c ih =>
    have hbefore : (List.range t.length).filterMap (found? (t ++ [c])) = all t := by
      rw [ih]
      exact List.filterMap_congr fun i hi => found?_append (List.mem_range.mp hi) [c]
    have hlast : [t.length].filterMap (found? (t ++ [c])) =
        here c t.length (lineAt t t.length) := by
      rw [← toList_found?_length, List.filterMap_cons, List.filterMap_nil]
      cases found? (t ++ [c]) t.length <;> rfl
    rw [List.length_append, List.length_singleton, List.range_succ, List.filterMap_append, hbefore,
      hlast, all, collect_append, collect_cons, lineAt, List.take_length, Nat.zero_add, ← all]
    exact congrArg (all t ++ ·) (List.append_nil _)

theorem found?_eq_some_iff {f : Finding} : found? t i = some f ↔
    ∃ c name, t[i]? = some c ∧ (c, name) ∈ catalogue ∧
      f = { char := [c], codepoint := c.label, name, position := i, line := lineAt t i } := by
  rw [found?, Option.bind_eq_some_iff]
  constructor
  · rintro ⟨c, hc, hf⟩
    obtain ⟨name, hname, rfl⟩ := Option.map_eq_some_iff.mp hf
    exact ⟨c, name, hc, mem_catalogue_of_name? hname, rfl⟩
  · rintro ⟨c, name, hc, hname, rfl⟩
    exact ⟨c, hc, Option.map_eq_some_iff.mpr ⟨name, name?_of_mem_catalogue hname, rfl⟩⟩

theorem isSome_found?_iff :
    (found? t i).isSome ↔ ∃ c name, t[i]? = some c ∧ (c, name) ∈ catalogue := by
  simp only [Option.isSome_iff_exists, found?_eq_some_iff]
  constructor
  · rintro ⟨f, c, name, hc, hname, -⟩
    exact ⟨c, name, hc, hname⟩
  · rintro ⟨c, name, hc, hname⟩
    exact ⟨_, c, name, hc, hname, rfl⟩

/-- **A text has one finding for each catalogued character in it.**  The findings stand in the order
of the offsets at which a character of the catalogue stands, one for each such offset.  A finding
names its character, its offset, and the line of that offset; so along the list offsets increase,
and lines do not decrease.  Only a line feed ends a line.  The label of a catalogued character has
its number in four hexadecimal digits. -/
theorem exists_offsets_all (t : Text) :
    (∃ offsets : List Nat, offsets.Pairwise (· < ·) ∧
      (∀ i, i ∈ offsets ↔ ∃ c name, t[i]? = some c ∧ (c, name) ∈ catalogue) ∧
      List.Forall₂ (fun i f => ∃ c name, t[i]? = some c ∧ (c, name) ∈ catalogue ∧
          f = { char := [c], codepoint := c.label, name, position := i, line := lineAt t i })
        offsets (all t)) ∧
    (all t).Pairwise (fun f g => f.position < g.position ∧ f.line ≤ g.line) ∧
    (∀ i c, t[i]? = some c →
      lineAt t (i + 1) = if c = CodePoint.newline then lineAt t i + 1 else lineAt t i) ∧
    ∀ e ∈ catalogue, ∃ ds : List Nat,
      e.1.label = lit "U+" ++ ds.map (Numeral.hexChar 0x41) ∧ ds.length = 4 ∧
        (∀ d ∈ ds, d < 16) ∧ Numeral.valueIn 16 ds = e.1.val := by
  refine ⟨⟨(List.range t.length).filter fun i => (found? t i).isSome, ?_, ?_, ?_⟩, ?_,
    fun i c => lineAt_succ, fun e => exists_digits_label_of_mem⟩
  · exact List.pairwise_lt_range.filter _
  · intro i
    rw [List.mem_filter, isSome_found?_iff, List.mem_range]
    refine and_iff_right_of_imp ?_
    rintro ⟨c, name, hc, -⟩
    exact (List.getElem?_eq_some_iff.mp hc).1
  · rw [all_eq_filterMap]
    exact (forall₂_filter_filterMap (found? t) _).imp fun i f => found?_eq_some_iff.mp
  · rw [all_eq_filterMap, List.pairwise_filterMap]
    refine List.pairwise_lt_range.imp fun {i j} hij f hf g hg => ?_
    obtain ⟨c, name, -, -, rfl⟩ := found?_eq_some_iff.mp hf
    obtain ⟨d, name', -, -, rfl⟩ := found?_eq_some_iff.mp hg
    exact ⟨Int.ofNat_lt.mpr hij, Int.ofNat_le.mpr (lineAt_mono t (Nat.le_of_lt hij))⟩

/-- A carriage return and a line separator end no line. -/
example : (all (lit "\r\u202E\n\u2028\u200B")).map (fun f => (f.position, f.line)) =
    [(1, 1), (4, 2)] := by decide

end Finding

end HiddenText
