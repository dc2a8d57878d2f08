import HiddenText.Files.Access
import HiddenText.Proofs.Utf8.Joined
import Mathlib.Data.List.TakeWhile

/-!
# The steps of joined and parted paths

For a lookup a path is a list of steps, and what it does there shows in them: a name joined to a
directory is one more step (`named_join`), and the parent of a path takes the steps before its last
name (`toBytes_parent`).  Paths are joined and parted as texts, but the slashes of a text are those of its
bytes.
-/

namespace HiddenText

namespace Path

theorem toBytes_eq_ok_iff {path : Text} {bytes : Bytes} :
    toBytes path = .ok bytes ↔ Utf8.encode? path = some bytes ∧ 0 ∉ bytes := by
  rw [toBytes]
  cases hencode : Utf8.encode? path with
  | none => simp
  | some b =>
    simp only [Option.some.injEq]
    split
    · next hzero =>
      rw [List.contains_iff_mem] at hzero
      constructor
      · intro h
        cases h
      · rintro ⟨rfl, hnot⟩
        exact absurd hzero hnot
    · next hzero =>
      rw [List.contains_iff_mem] at hzero
      constructor
      · intro h
        obtain rfl := Except.ok.inj h
        exact ⟨rfl, hzero⟩
      · rintro ⟨rfl, -⟩
        rfl

/-! ## Names and steps -/

/-- What the name of an entry may be. -/
structure IsName (n : Name) : Prop where
  ne_nil : n ≠ []
  no_null : 0 ∉ n
  no_slash : 0x2F ∉ n
  ne_here : n ≠ [0x2E]
  ne_up : n ≠ [0x2E, 0x2E]
  length_le : n.length ≤ nameLimit

instance (n : Name) : Decidable (IsName n) :=
  decidable_of_iff (n ≠ [] ∧ 0 ∉ n ∧ 0x2F ∉ n ∧ n ≠ [0x2E] ∧ n ≠ [0x2E, 0x2E] ∧
      n.length ≤ nameLimit)
    ⟨fun ⟨h₁, h₂, h₃, h₄, h₅, h₆⟩ => ⟨h₁, h₂, h₃, h₄, h₅, h₆⟩,
      fun ⟨h₁, h₂, h₃, h₄, h₅, h₆⟩ => ⟨h₁, h₂, h₃, h₄, h₅, h₆⟩⟩

/-- The steps of a path, but for the slash at its end. -/
def named (path : Bytes) : List Step :=
  ((Text.split 0x2F path).filter fun n => !n.isEmpty).map Step.ofName

theorem steps_eq (path : Bytes) :
    steps path = named path ∨
      steps path = named path ++ [.slash] ∧ path.getLast? = some 0x2F := by
  rw [steps, ← named]
  split
  · exact .inl rfl
  · next h =>
    simp only [Bool.or_eq_true, not_or, bne_iff_ne, ne_eq, Decidable.not_not] at h
    exact .inr ⟨rfl, h.2⟩

theorem steps_of_no_slash {path : Bytes} (h : path.getLast? ≠ some 0x2F) :
    steps path = named path := by
  rcases steps_eq path with heq | ⟨-, hlast⟩
  · exact heq
  · exact absurd hlast h

theorem steps_of_named_eq_nil {path : Bytes} (h : named path = []) : steps path = [] := by
  rw [steps, ← named, h]
  rfl

theorem named_append_cons (path rest : Bytes) :
    named (path ++ 0x2F :: rest) = named path ++ named rest := by
  rw [named, Text.split_append_cons, List.filter_append, List.map_append, ← named, ← named]

theorem named_of_no_slash {n : Name} (hne : n ≠ []) (h : 0x2F ∉ n) :
    named n = [Step.ofName n] := by
  rw [named, Text.split_of_not_mem h]
  simp [hne]

theorem ofName_of_isName {n : Name} (h : IsName n) : Step.ofName n = .name n := by
  rw [Step.ofName, if_neg h.ne_here, if_neg h.ne_up]

theorem named_slashes_append {slashes : Bytes} (h : ∀ b ∈ slashes, b = 0x2F) (path : Bytes) :
    named (slashes ++ path) = named path := by
  induction slashes with
  | nil => rfl
  | cons b slashes ih =>
    obtain ⟨rfl, hrest⟩ := List.forall_mem_cons.mp h
    have hcons := named_append_cons [] (slashes ++ path)
    rw [List.nil_append] at hcons
    rw [List.cons_append, hcons, ih hrest]
    rfl

theorem named_append_slashes {slashes : Bytes} (h : ∀ b ∈ slashes, b = 0x2F) (path : Bytes) :
    named (path ++ slashes) = named path := by
  cases slashes with
  | nil => rw [List.append_nil]
  | cons b slashes =>
    obtain ⟨rfl, hrest⟩ := List.forall_mem_cons.mp h
    have hnil := named_slashes_append hrest []
    rw [List.append_nil] at hnil
    rw [named_append_cons, hnil]
    exact List.append_nil _

/-! ## Joining -/

/-- The bytes of a name below a directory. -/
def join (directory : Bytes) (n : Name) : Bytes :=
  if directory.getLast? = some 0x2F then directory ++ n else directory ++ 0x2F :: n

theorem isAbsolute_join {directory : Bytes} (h : directory ≠ []) (n : Name) :
    isAbsolute (join directory n) = isAbsolute directory := by
  obtain ⟨b, rest, rfl⟩ := List.exists_cons_of_ne_nil h
  rw [join]
  split <;> rfl

theorem named_join (directory : Bytes) {n : Name} (hn : IsName n) :
    named (join directory n) = named directory ++ [.name n] := by
  rw [← ofName_of_isName hn, ← named_of_no_slash hn.ne_nil hn.no_slash, join]
  split
  · next hlast =>
    obtain ⟨above, rfl⟩ := List.getLast?_eq_some_iff.mp hlast
    have hnil : named (above ++ [0x2F]) = named above := by
      rw [named_append_cons]
      exact List.append_nil _
    rw [List.append_assoc, List.singleton_append, named_append_cons, hnil]
  · exact named_append_cons directory n

theorem toBytes_child {directory : Text} {bytes : Bytes} (h : toBytes directory = .ok bytes)
    {n : Name} (hn : 0 ∉ n) :
    toBytes (child directory (Utf8.decodeEscaped n)) = .ok (join bytes n) := by
  rw [toBytes_eq_ok_iff] at h ⊢
  have hname := Utf8.encode?_decodeEscaped n
  have hslash : Utf8.encode? [CodePoint.slash] = some [0x2F] := by decide
  rw [child, join]
  by_cases hlast : bytes.getLast? = some 0x2F
  · rw [if_pos hlast, if_pos ((Utf8.getLast?_eq_slash_iff h.1).mp hlast)]
    refine ⟨Utf8.encode?_append h.1 hname, ?_⟩
    simp [h.2, hn]
  · rw [if_neg hlast, if_neg fun ht => hlast ((Utf8.getLast?_eq_slash_iff h.1).mpr ht)]
    refine ⟨Utf8.encode?_append h.1 (Utf8.encode?_append hslash hname), ?_⟩
    simp [h.2, hn]

/-- The path of a place below a directory. -/
def descend (directory : Text) (place : Place) : Text :=
  place.foldl (fun path n => child path (Utf8.decodeEscaped n)) directory

theorem join_ne_nil (directory : Bytes) {n : Name} (hn : IsName n) : join directory n ≠ [] := by
  rw [join]
  split <;> simp [hn.ne_nil]

/-- A path grows by no more than a slash and the name with every step down. -/
theorem length_toBytes_descend {directory : Text} {bytes : Bytes} {place : Place} {size : Nat}
    (hplace : ∀ n ∈ place, 0 ∉ n ∧ n.length ≤ size) (h : toBytes directory = .ok bytes) :
    ∃ below, toBytes (descend directory place) = .ok below ∧
      below.length ≤ bytes.length + place.length * (size + 1) := by
  induction place generalizing directory bytes with
  | nil => exact ⟨bytes, h, Nat.le_add_right _ _⟩
  | cons n place ih =>
    obtain ⟨hn, hrest⟩ := List.forall_mem_cons.mp hplace
    obtain ⟨below, hbelow, hlength⟩ := ih hrest (toBytes_child h hn.1)
    refine ⟨below, hbelow, hlength.trans ?_⟩
    have hjoin : (join bytes n).length ≤ bytes.length + (size + 1) := by
      rw [join]
      split <;> simp only [List.length_append, List.length_cons] <;> omega
    rw [List.length_cons, Nat.succ_mul]
    omega

/-- The names of a place below a directory are that many steps more. -/
theorem toBytes_descend {directory : Text} {bytes : Bytes} {place : Place}
    (hplace : ∀ n ∈ place, IsName n) (h : toBytes directory = .ok bytes) (hne : bytes ≠ []) :
    ∃ below, toBytes (descend directory place) = .ok below ∧
      isAbsolute below = isAbsolute bytes ∧ named below = named bytes ++ place.map Step.name := by
  induction place generalizing directory bytes with
  | nil => exact ⟨bytes, h, rfl, (List.append_nil _).symm⟩
  | cons n place ih =>
    obtain ⟨hn, hrest⟩ := List.forall_mem_cons.mp hplace
    obtain ⟨below, hbelow, habsolute, hnamed⟩ :=
      ih hrest (toBytes_child h hn.no_null) (join_ne_nil bytes hn)
    refine ⟨below, hbelow, habsolute.trans (isAbsolute_join hne n), ?_⟩
    rw [hnamed, named_join bytes hn, List.append_assoc]
    rfl

/-! ## Parting -/

theorem slash_not_mem_base (path : Text) : CodePoint.slash ∉ base path := by
  intro h
  rw [base, List.mem_reverse] at h
  have hnot := List.mem_takeWhile_imp h
  simp [notSlash] at hnot

/-- A path is its parent and its last name, with slashes between them. -/
theorem exists_parent_append_base (path : Text) :
    ∃ slashes, path = parent path ++ slashes ++ base path ∧ (∀ c ∈ slashes, c = CodePoint.slash) ∧
      ((∀ c ∈ parent path, c = CodePoint.slash) ∧ slashes = [] ∨
        slashes ≠ [] ∧ (parent path).getLast? ≠ some CodePoint.slash) := by
  have hsplit : path = (path.reverse.dropWhile notSlash).reverse ++ base path := by
    rw [base, ← List.reverse_append, List.takeWhile_append_dropWhile, List.reverse_reverse]
  rw [parent]
  split
  · next hall =>
    refine ⟨[], ?_, ?_, .inl ⟨?_, rfl⟩⟩
    · rw [List.append_nil]
      exact hsplit
    · intro c hc
      cases hc
    · intro c hc
      exact eq_of_beq (List.all_eq_true.mp hall c (List.mem_reverse.mp hc))
  · next hall =>
    generalize hhead : path.reverse.dropWhile notSlash = head at hsplit hall ⊢
    refine ⟨(head.takeWhile isSlash).reverse, ?_, ?_, .inr ⟨?_, ?_⟩⟩
    · rw [← List.reverse_append, List.takeWhile_append_dropWhile]
      exact hsplit
    · intro c hc
      have hslash : isSlash c = true := List.mem_takeWhile_imp (List.mem_reverse.mp hc)
      exact eq_of_beq hslash
    · cases head with
      | nil => simp at hall
      | cons c rest =>
        have hnot := List.head?_dropWhile_not notSlash path.reverse
        rw [hhead] at hnot
        have hslash : isSlash c = true := by
          simpa [notSlash, isSlash] using hnot
        simp [hslash]
    · rw [List.getLast?_reverse]
      intro hfirst
      have hnot := List.head?_dropWhile_not isSlash head
      rw [hfirst] at hnot
      exact absurd hnot (by decide)

theorem eq_slash_of_mem_encoded {t : Text} {bytes : Bytes} (h : Utf8.encode? t = some bytes)
    (ht : ∀ c ∈ t, c = CodePoint.slash) : ∀ b ∈ bytes, b = 0x2F := by
  intro b hb
  rw [← (Utf8.encode?_eq_some_iff.mp h).2] at hb
  obtain ⟨c, hc, hb⟩ := List.mem_flatMap.mp hb
  rw [ht c hc, Utf8.encodeOne_slash] at hb
  exact List.mem_singleton.mp hb

theorem toBytes_parent {path : Text} {bytes : Bytes} (h : toBytes path = .ok bytes)
    (hne : parent path ≠ []) :
    ∃ p n, toBytes (parent path) = .ok p ∧ p ≠ [] ∧ p.length ≤ bytes.length ∧
      isAbsolute p = isAbsolute bytes ∧ steps p = named p ∧ named bytes = named p ++ named n ∧
      Utf8.encode? (base path) = some n := by
  obtain ⟨slashes, hpath, hslashes, hparent⟩ := exists_parent_append_base path
  obtain ⟨hencode, hzero⟩ := toBytes_eq_ok_iff.mp h
  rw [hpath] at hencode
  obtain ⟨above, n, habove, hn, rfl⟩ := Utf8.exists_of_encode?_append hencode
  obtain ⟨p, s, hp, hs, rfl⟩ := Utf8.exists_of_encode?_append habove
  have hpne : p ≠ [] := Utf8.ne_nil_of_encode? hp hne
  have hsep := eq_slash_of_mem_encoded hs hslashes
  refine ⟨p, n, ?_, hpne, ?_, ?_, ?_⟩
  · rw [toBytes_eq_ok_iff]
    refine ⟨hp, fun hmem => hzero ?_⟩
    simp [hmem]
  · simp only [List.length_append]
    omega
  · obtain ⟨b, rest, rfl⟩ := List.exists_cons_of_ne_nil hpne
    rfl
  rcases hparent with ⟨hall, hnil⟩ | ⟨hsne, hlast⟩
  · have hsnil : s = [] := by
      rw [hnil] at hs
      exact (Option.some.inj hs).symm
    have hpall := eq_slash_of_mem_encoded hp hall
    have hnamed : named p = [] := by
      have h := named_slashes_append hpall []
      rw [List.append_nil] at h
      exact h
    refine ⟨?_, ?_, hn⟩
    · rw [steps_of_named_eq_nil hnamed, hnamed]
    · rw [hnamed, hsnil, List.append_nil, named_slashes_append hpall, List.nil_append]
  · have hpsteps : steps p = named p :=
      steps_of_no_slash fun h => hlast ((Utf8.getLast?_eq_slash_iff hp).mp h)
    obtain ⟨b, rest, rfl⟩ := List.exists_cons_of_ne_nil (Utf8.ne_nil_of_encode? hs hsne)
    obtain ⟨rfl, hrest⟩ := List.forall_mem_cons.mp hsep
    refine ⟨hpsteps, ?_, hn⟩
    rw [List.append_assoc, List.cons_append, named_append_cons, named_slashes_append hrest]

end Path

namespace FileSystem

/-- The steps of a path for which a name is left over when its parent is taken. -/
theorem toBytes_parentAndBase {path : Text} {bytes : Bytes} (h : Path.toBytes path = .ok bytes)
    (hparent : (parentAndBase path).1 ≠ []) (hbase : (parentAndBase path).2 ≠ []) :
    ∃ p last, Path.toBytes (parentAndBase path).1 = .ok p ∧ p ≠ [] ∧ p.length ≤ bytes.length ∧
      Path.isAbsolute p = Path.isAbsolute bytes ∧ Path.steps p = Path.named p ∧
      Path.named bytes = Path.named p ++ last ∧ last ≠ [] := by
  have hlast : ∀ {t : Text} {n : Bytes}, Utf8.encode? (Path.base t) = some n → Path.base t ≠ [] →
      Path.named n ≠ [] := by
    intro t n hn hne
    have hslash : 0x2F ∉ n := by
      rw [Utf8.slash_mem_iff hn]
      exact Path.slash_not_mem_base t
    rw [Path.named_of_no_slash (Utf8.ne_nil_of_encode? hn hne) hslash]
    exact List.cons_ne_nil _ _
  rw [parentAndBase] at hparent hbase ⊢
  by_cases hempty : (Path.base path).isEmpty = true
  · rw [if_pos hempty] at hparent hbase ⊢
    have hfirst : Path.parent path ≠ [] := by
      intro hnil
      rw [hnil] at hparent
      exact hparent rfl
    obtain ⟨p, n, hp, -, hlength, habsolute, -, hnamed, hn⟩ := Path.toBytes_parent h hfirst
    obtain ⟨p', n', hp', hpne', hlength', habsolute', hsteps', hnamed', hn'⟩ :=
      Path.toBytes_parent hp hparent
    have hnil : n = [] := by
      rw [List.isEmpty_iff.mp hempty] at hn
      exact (Option.some.inj hn).symm
    rw [hnil] at hnamed
    refine ⟨p', Path.named n', hp', hpne', by omega, habsolute'.trans habsolute, hsteps', ?_,
      hlast hn' hbase⟩
    rw [hnamed, hnamed']
    exact List.append_nil _
  · rw [if_neg hempty] at hparent hbase ⊢
    obtain ⟨p, n, hp, hpne, hlength, habsolute, hsteps, hnamed, hn⟩ := Path.toBytes_parent h hparent
    exact ⟨p, Path.named n, hp, hpne, hlength, habsolute, hsteps, hnamed, hlast hn hbase⟩

/-- The entry that is looked up when a path is made. -/
def trimmed (bytes : Bytes) : Bytes :=
  if (withoutSlash bytes).isEmpty then bytes else withoutSlash bytes

theorem exists_withoutSlash_append (bytes : Bytes) :
    ∃ slashes : Bytes, bytes = withoutSlash bytes ++ slashes ∧ (∀ b ∈ slashes, b = 0x2F) ∧
      (withoutSlash bytes).getLast? ≠ some 0x2F := by
  refine ⟨(bytes.reverse.takeWhile (· == 0x2F)).reverse, ?_, ?_, ?_⟩
  · rw [withoutSlash, ← List.reverse_append, List.takeWhile_append_dropWhile, List.reverse_reverse]
  · intro b hb
    have hslash : (b == 0x2F) = true :=
      List.mem_takeWhile_imp (p := (· == 0x2F)) (List.mem_reverse.mp hb)
    exact eq_of_beq hslash
  · rw [withoutSlash, List.getLast?_reverse]
    intro hfirst
    have hnot := List.head?_dropWhile_not (· == 0x2F) bytes.reverse
    rw [hfirst] at hnot
    exact absurd hnot (by decide)

theorem steps_trimmed (bytes : Bytes) :
    Path.isAbsolute (trimmed bytes) = Path.isAbsolute bytes ∧
      Path.steps (trimmed bytes) = Path.named bytes := by
  obtain ⟨slashes, hsplit, hslashes, hlast⟩ := exists_withoutSlash_append bytes
  have hnamed : Path.named bytes = Path.named (withoutSlash bytes) := by
    rw [hsplit, Path.named_append_slashes hslashes, ← hsplit]
  rw [trimmed]
  split
  · next hempty =>
    rw [List.isEmpty_iff.mp hempty] at hnamed
    refine ⟨rfl, ?_⟩
    rw [hnamed]
    exact Path.steps_of_named_eq_nil hnamed
  · next hempty =>
    rw [List.isEmpty_iff] at hempty
    refine ⟨?_, ?_⟩
    · obtain ⟨b, rest, hcons⟩ := List.exists_cons_of_ne_nil hempty
      rw [hcons] at hsplit ⊢
      rw [hsplit]
      rfl
    · rw [Path.steps_of_no_slash hlast, hnamed]

end FileSystem

end HiddenText
