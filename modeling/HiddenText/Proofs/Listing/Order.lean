import HiddenText.Proofs.Listing.Reach

/-!
# The order of a listing

A walk takes the entries of a directory in the dictionary order of their decoded names, a total
preorder (`entryOrder_trans`, `entryOrder_total`), and lists what they contribute in that order
(`Walker.visit_eq_ok_iff`).  Different names are never the same when they are decoded, so that
entries with different names come strictly one after the other (`Walker.sorted_sortBy`).
-/

namespace HiddenText

theorem dictionaryLe_trans {α : Type} (key : α → Nat) (s : List α) : ∀ t u : List α,
    dictionaryLe key s t → dictionaryLe key t u → dictionaryLe key s u := by
  induction s with
  | nil => exact fun _ _ _ _ => rfl
  | cons a s ih =>
    intro t u hst htu
    cases t with
    | nil => cases hst
    | cons b t =>
      cases u with
      | nil => cases htu
      | cons c u =>
        simp only [dictionaryLe, Bool.or_eq_true, decide_eq_true_eq, Bool.and_eq_true,
          beq_iff_eq] at hst htu ⊢
        rcases hst with hab | ⟨hab, hst⟩
        · rcases htu with hbc | ⟨hbc, -⟩ <;> exact .inl (by omega)
        · rcases htu with hbc | ⟨hbc, htu⟩
          · exact .inl (by omega)
          · exact .inr ⟨by omega, ih t u hst htu⟩

theorem dictionaryLe_total {α : Type} (key : α → Nat) (s : List α) : ∀ t : List α,
    dictionaryLe key s t || dictionaryLe key t s := by
  induction s with
  | nil => exact fun _ => rfl
  | cons a s ih =>
    intro t
    cases t with
    | nil => rfl
    | cons b t =>
      have htail := ih t
      simp only [dictionaryLe, Bool.or_eq_true, decide_eq_true_eq, Bool.and_eq_true,
        beq_iff_eq] at htail ⊢
      rcases Nat.lt_trichotomy (key a) (key b) with hab | hab | hab
      · exact .inl (.inl hab)
      · rcases htail with htail | htail
        · exact .inl (.inr ⟨hab, htail⟩)
        · exact .inr (.inr ⟨hab.symm, htail⟩)
      · exact .inr (.inl hab)

theorem Text.lt_of_le {s t : Text} (h : s.le t) (hne : s ≠ t) : s < t := by
  induction s generalizing t with
  | nil =>
    cases t with
    | nil => exact absurd rfl hne
    | cons d t => exact .nil
  | cons c s ih =>
    cases t with
    | nil => cases h
    | cons d t =>
      rw [le, dictionaryLe, Bool.or_eq_true, decide_eq_true_eq, Bool.and_eq_true, beq_iff_eq] at h
      rw [List.cons_lt_cons_iff]
      rcases h with hlt | ⟨heq, h⟩
      · exact .inl hlt
      · obtain rfl := Fin.ext heq
        exact .inr ⟨rfl, ih h fun hst => hne (congrArg (c :: ·) hst)⟩

section

variable {α β : Type} {le : α → α → Bool}

theorem insertBy_map {le' : β → β → Bool} {f : α → β} (hf : ∀ a b, le' (f a) (f b) = le a b)
    (a : α) (l : List α) : insertBy le' (f a) (l.map f) = (insertBy le a l).map f := by
  induction l with
  | nil => rfl
  | cons b l ih =>
    rw [List.map_cons, insertBy, insertBy, hf, ih]
    split <;> rfl

/-- Sorting sees no more of the elements than the order does. -/
theorem sortBy_map {le' : β → β → Bool} {f : α → β} (hf : ∀ a b, le' (f a) (f b) = le a b)
    (l : List α) : sortBy le' (l.map f) = (sortBy le l).map f := by
  induction l with
  | nil => rfl
  | cons a l ih =>
    rw [List.map_cons, sortBy, List.foldr_cons, ← sortBy, ih, insertBy_map hf]
    rfl

end

namespace Walker

open Node

variable {w : Walker} {levels : Nat} {name path : Text} {es : List (Name × Node)}
  {paths : List Text}

/-- The order in which the entries of a directory are taken. -/
def entryOrder (a b : Name × Node) : Bool :=
  (Utf8.decodeEscaped a.1).le (Utf8.decodeEscaped b.1)

theorem contributions_eq (w : Walker) (levels : Nat) (path : Text) (es : List (Name × Node)) :
    w.contributions levels path es = (sortBy entryOrder es).map (w.visitEntry levels path) := by
  rw [contributions, visitEntries_eq_map, sortBy_map (fun _ _ => rfl), List.map_map]
  rfl

theorem entryOrder_trans (a b c : Name × Node) :
    entryOrder a b → entryOrder b c → entryOrder a c :=
  dictionaryLe_trans _ _ _ _

theorem entryOrder_total (a b : Name × Node) : entryOrder a b || entryOrder b a :=
  dictionaryLe_total _ _ _

/-- Sorted by name, entries without repeats come strictly one after the other. -/
theorem sorted_sortBy (hnodup : (es.map Prod.fst).Nodup) : (sortBy entryOrder es).Pairwise
    fun a b => Utf8.decodeEscaped a.1 < Utf8.decodeEscaped b.1 := by
  have hperm := (sortBy_perm entryOrder es).map Prod.fst
  have hne : (sortBy entryOrder es).Pairwise fun a b => a.1 ≠ b.1 :=
    List.pairwise_map.mp (hperm.nodup_iff.mpr hnodup)
  refine (sortBy_pairwise entryOrder_trans entryOrder_total es).imp₂ (fun a b hle hab => ?_) hne
  exact Text.lt_of_le hle fun heq => hab (Utf8.decodeEscaped_injective heq)

/-- A directory that is walked is not entered, and contributes nothing whatever is in it, or there
was a level left for it. -/
theorem visit_dir_cases (hvisit : (w.visit levels name path (.dir es)).result = .ok paths) :
    (¬(name ≠ excludedName ∧ w.listingError? path = none) ∧ paths = [] ∧
      ∀ es', (w.visit levels name path (.dir es')).result = .ok []) ∨
    ∃ below, levels = below + 1 ∧ name ≠ excludedName ∧ w.listingError? path = none := by
  by_cases hname : name = excludedName
  · subst hname
    rw [visit_excluded] at hvisit
    refine .inl ⟨fun h => h.1 rfl, (Except.ok.inj hvisit).symm, fun es' => ?_⟩
    rw [visit_excluded]
  cases levels with
  | zero =>
    rw [visit_zero hname] at hvisit
    cases hvisit
  | succ below =>
    cases hlist : w.listingError? path with
    | none => exact .inr ⟨below, rfl, hname, rfl⟩
    | some e =>
      rw [visit_unlisted hname hlist] at hvisit
      refine .inl ⟨nofun, (Except.ok.inj hvisit).symm, fun es' => ?_⟩
      rw [visit_unlisted hname hlist]

/-- What a walk lists in a directory is what its entries contribute. -/
theorem visit_eq_ok_iff (hname : name ≠ excludedName) (hlist : w.listingError? path = none) :
    (w.visit (levels + 1) name path (.dir es)).result = .ok paths ↔
      ∃ pieces : List (List Text),
        (sortBy entryOrder es).map (fun e => (w.visitEntry levels path e).result) =
          pieces.map .ok ∧ paths = pieces.flatten := by
  have hturn : ∀ pieces, (inTurn (w.contributions levels path es)).result = .ok pieces ↔
      (sortBy entryOrder es).map (fun e => (w.visitEntry levels path e).result) =
        pieces.map .ok := by
    intro pieces
    rw [inTurn_result_eq_ok_iff, contributions_eq, List.map_map]
    rfl
  simp only [visit_listed hname hlist, ← hturn]
  cases (inTurn (w.contributions levels path es)).result with
  | error e => simp [Except.map]
  | ok pieces =>
    simp only [Except.map, Except.ok.injEq, exists_eq_left']
    exact eq_comm

end Walker

end HiddenText
