import HiddenText.Files.Tree

/-!
# Nodes at places

What `Node.set` does to a tree: the place itself holds the new node (`get?_set_self`), and when that
is a file in the place of a file or of nothing, every other place keeps the kind of its node
(`get?_set_file`).  What is put at a place last is all that counts (`set_set`).  Kinds are all that
a lookup reads, besides which names there are.
-/

namespace HiddenText.Node

/-! ## Directory listings -/

theorem lookup_eq_none_of_any {es : List (Name × Node)} {n : Name}
    (h : es.any (·.1 == n) = false) : es.lookup n = none := by
  rw [List.lookup_eq_none_iff]
  intro e he
  rw [List.any_eq_false] at h
  have hne := h e he
  rw [beq_iff_eq] at hne
  exact bne_iff_ne.mpr (Ne.symm hne)

theorem lookup_bind_self (es : List (Name × Node)) (n : Name) (node : Node) :
    (bind es n node).lookup n = some node := by
  rw [bind]
  split
  · next h =>
    induction es with
    | nil => cases h
    | cons e es ih =>
      rw [List.map_cons]
      by_cases he : e.1 = n
      · rw [if_pos (beq_iff_eq.mpr he), List.lookup_cons_self]
      · have hne : (e.1 == n) = false := beq_eq_false_iff_ne.mpr he
        have hne' : (n == e.1) = false := beq_eq_false_iff_ne.mpr (Ne.symm he)
        rw [List.any_cons, hne, Bool.false_or] at h
        rw [hne, if_neg Bool.false_ne_true, List.lookup_cons, hne']
        exact ih h
  · next h =>
    rw [List.lookup_append, lookup_eq_none_of_any (Bool.eq_false_iff.mpr h), Option.none_or,
      List.lookup_cons_self]

theorem lookup_bind_ne {k n : Name} (h : k ≠ n) (es : List (Name × Node)) (node : Node) :
    (bind es n node).lookup k = es.lookup k := by
  have hkn : (k == n) = false := beq_eq_false_iff_ne.mpr h
  rw [bind]
  split
  · next hany =>
    clear hany
    induction es with
    | nil => rfl
    | cons e es ih =>
      rw [List.map_cons, List.lookup_cons, List.lookup_cons, ih]
      by_cases he : e.1 = n
      · rw [if_pos (beq_iff_eq.mpr he), he, hkn]
      · rw [if_neg (fun heq => he (beq_iff_eq.mp heq))]
  · rw [List.lookup_append, List.lookup_cons, hkn]
    exact Option.or_none

theorem rel_cases {α β : Type} {r : α → β → Prop} {x : Option α} {y : Option β}
    (h : Option.Rel r x y) :
    x = none ∧ y = none ∨ ∃ a b, x = some a ∧ y = some b ∧ r a b := by
  cases h with
  | none => exact .inl ⟨rfl, rfl⟩
  | some h => exact .inr ⟨_, _, rfl, rfl, h⟩

theorem get?_nil (node : Node) : node.get? [] = some node := by cases node <;> rfl

theorem get?_dir_cons (es : List (Name × Node)) (n : Name) (place : Place) :
    (dir es).get? (n :: place) = (es.lookup n).bind (·.get? place) := by
  rw [get?, child?, entries]
  cases es.lookup n <;> rfl

/-- What stands below a first name stands below an entry of a directory. -/
theorem get?_cons_eq_some {node a : Node} {n : Name} {place : Place}
    (h : node.get? (n :: place) = some a) : ∃ es below, node = dir es ∧
      es.lookup n = some below ∧ below.get? place = some a := by
  cases node with
  | dir es =>
    rw [get?_dir_cons, Option.bind_eq_some_iff] at h
    obtain ⟨below, hlookup, ha⟩ := h
    exact ⟨es, below, rfl, hlookup, ha⟩
  | file data => cases h
  | link target => cases h

theorem set_nil (node new : Node) : node.set [] new = new := by cases node <;> rfl

theorem set_of_not_dir {node : Node} (h : node.isDir = false) (n : Name) (place : Place)
    (new : Node) : node.set (n :: place) new = node := by
  cases node with
  | dir es => cases h
  | file data => rfl
  | link target => rfl

theorem get?_append (p q : Place) : ∀ node : Node,
    node.get? (p ++ q) = (node.get? p).bind (·.get? q) := by
  induction p with
  | nil =>
    intro node
    rw [List.nil_append, get?_nil, Option.bind_some]
  | cons n p ih =>
    intro node
    rw [List.cons_append, get?, get?]
    cases node.child? n with
    | none => rfl
    | some below => exact ih below

theorem get?_append_singleton {node : Node} {place : Place} {es : List (Name × Node)}
    (h : node.get? place = some (.dir es)) (n : Name) :
    node.get? (place ++ [n]) = es.lookup n := by
  rw [get?_append, h, Option.bind_some, get?_dir_cons]
  cases es.lookup n with
  | none => rfl
  | some below => exact get?_nil below

/-- A place at which something can be put: the root, or a name in a directory. -/
def IsOpen (node : Node) (place : Place) : Prop :=
  place = [] ∨ ∃ es, node.get? place.dropLast = some (.dir es)

theorem IsOpen.of_cons_cons {es : List (Name × Node)} {m n : Name} {place : Place}
    (h : (dir es).IsOpen (m :: n :: place)) :
    ∃ below, es.lookup m = some below ∧ below.IsOpen (n :: place) := by
  obtain h | ⟨es', h⟩ := h
  · cases h
  · rw [List.dropLast_cons_cons] at h
    obtain ⟨_, below, heq, hlookup, h⟩ := get?_cons_eq_some h
    obtain rfl := dir.inj heq
    exact ⟨below, hlookup, .inr ⟨es', h⟩⟩

theorem isOpen_of_get? {node a : Node} {place : Place} (h : node.get? place = some a) :
    node.IsOpen place := by
  rcases List.eq_nil_or_concat place with rfl | ⟨above, n, rfl⟩
  · exact .inl rfl
  · rw [List.concat_eq_append, get?_append, Option.bind_eq_some_iff] at h
    obtain ⟨b, hb, h⟩ := h
    cases b with
    | dir es => exact .inr ⟨es, by rw [List.concat_eq_append, List.dropLast_concat]; exact hb⟩
    | file data => cases h
    | link target => cases h

theorem get?_set_self (new : Node) (place : Place) :
    ∀ node : Node, node.IsOpen place → (node.set place new).get? place = some new := by
  induction place with
  | nil =>
    intro node _
    rw [set_nil, get?_nil]
  | cons m place ih =>
    intro node hopen
    cases place with
    | nil =>
      obtain h | ⟨es, h⟩ := hopen
      · cases h
      · rw [List.dropLast_singleton, get?_nil] at h
        obtain rfl := Option.some.inj h
        have hset : (dir es).set [m] new = .dir (bind es m new) := by
          rw [set]
          cases es.lookup m with
          | none => rfl
          | some below => exact congrArg (fun b => dir (bind es m b)) (set_nil below new)
        rw [hset, get?_dir_cons, lookup_bind_self, Option.bind_some, get?_nil]
    | cons n place =>
      cases node with
      | dir es =>
        obtain ⟨below, hlookup, hbelow⟩ := hopen.of_cons_cons
        rw [set, hlookup]
        simp only
        rw [get?_dir_cons, lookup_bind_self, Option.bind_some]
        exact ih below hbelow
      | file data =>
        obtain h | ⟨es, h⟩ := hopen <;> cases h
      | link target =>
        obtain h | ⟨es, h⟩ := hopen <;> cases h

/-- Two nodes that a lookup treats alike. -/
inductive SameKind : Node → Node → Prop
  | file (data data' : Bytes) : SameKind (.file data) (.file data')
  | link (target : Bytes) : SameKind (.link target) (.link target)
  | dir (es es' : List (Name × Node)) : SameKind (.dir es) (.dir es')

theorem SameKind.refl : ∀ a : Node, SameKind a a
  | .file data => .file data data
  | .link target => .link target
  | .dir es => .dir es es

/-- A file that is put in the place of a file, or where there was nothing, changes the kind of no
node. -/
theorem get?_set_file (data : Bytes) (place : Place) :
    ∀ node : Node, (∀ a, node.get? place = some a → SameKind a (.file data)) →
      ∀ q a, node.get? q = some a →
        ∃ b, (node.set place (.file data)).get? q = some b ∧ SameKind a b := by
  induction place with
  | nil =>
    intro node hplace q a ha
    have hkind := hplace node (get?_nil node)
    rw [set_nil]
    cases node with
    | file old =>
      cases q with
      | nil =>
        obtain rfl := Option.some.inj ha
        exact ⟨_, rfl, hkind⟩
      | cons k q => cases ha
    | link target => cases hkind
    | dir es => cases hkind
  | cons m place ih =>
    intro node hplace q a ha
    cases node with
    | file old =>
      rw [set_of_not_dir rfl]
      exact ⟨a, ha, .refl a⟩
    | link target =>
      rw [set_of_not_dir rfl]
      exact ⟨a, ha, .refl a⟩
    | dir es =>
      rw [get?_dir_cons] at hplace
      rw [set]
      cases q with
      | nil =>
        rw [get?_nil] at ha
        obtain rfl := Option.some.inj ha
        split
        · exact ⟨_, get?_nil _, .dir _ _⟩
        · split
          · exact ⟨_, get?_nil _, .dir _ _⟩
          · exact ⟨_, get?_nil _, .dir _ _⟩
      | cons k q =>
        rw [get?_dir_cons] at ha
        by_cases hk : k = m
        · subst hk
          cases hlookup : es.lookup k with
          | none => rw [hlookup] at ha; cases ha
          | some below =>
            rw [hlookup, Option.bind_some] at ha hplace
            simp only
            rw [get?_dir_cons, lookup_bind_self, Option.bind_some]
            exact ih below hplace q a ha
        · have hother : ∀ new, ((dir (bind es m new)).get? (k :: q)) = some a := by
            intro new
            rw [get?_dir_cons, lookup_bind_ne hk]
            exact ha
          split
          · exact ⟨a, hother _, .refl a⟩
          · split
            · exact ⟨a, hother _, .refl a⟩
            · exact ⟨a, by rw [get?_dir_cons]; exact ha, .refl a⟩

end HiddenText.Node
