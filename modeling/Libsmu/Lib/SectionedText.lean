import Mathlib.Data.List.Basic

/-!
# Texts Read Line by Line and Section by Section

A reader with a buffer of `n` items takes a text in *pieces*: a piece ends after a separator,
at the bound or with the text. A list of items, such as lines, falls into *sections*: an item
that `opens` a section is followed by the items of the section, up to one that `shuts` it. What
shuts a section may depend on the items that the section has so far.

## Main results

* `flatten_pieces`: the pieces are the text, nothing lost and nothing read twice.
* `pieces_of_ne_nil`: the pieces come from taking one piece after the other.
* `pieces_flatMap_line`: lines that fit the buffer are its pieces.
* `Sections.foldl_read_shut`: a section is read from its first item to its end.
* `Sections.getElem?_closed_read`: a section that is closed stays in its place.
-/

namespace SectionedText

variable {α : Type*}

/-! ### Pieces -/

section Pieces

variable [DecidableEq α] (sep : α)

/-- The first piece of a text, at most `n` items long, and the text after it. -/
def takePiece : ℕ → List α → List α × List α
  | 0, s => ([], s)
  | _ + 1, [] => ([], [])
  | n + 1, c :: s =>
      if c = sep then ([c], s) else (c :: (takePiece n s).1, (takePiece n s).2)

/-- The pieces of a text, at most `k` of them. -/
def piecesUpTo (n : ℕ) : ℕ → List α → List (List α)
  | 0, _ => []
  | _ + 1, [] => []
  | k + 1, c :: s =>
      (takePiece sep n (c :: s)).1 :: piecesUpTo n k (takePiece sep n (c :: s)).2

/-- The pieces of a text. A piece takes an item at least, so that there are no more pieces than
items. -/
def pieces (n : ℕ) (s : List α) : List (List α) := piecesUpTo sep n s.length s

/-- A piece and the rest are the text. -/
theorem takePiece_append (n : ℕ) (s : List α) :
    (takePiece sep n s).1 ++ (takePiece sep n s).2 = s := by
  induction n generalizing s with
  | zero => rfl
  | succ n ih =>
      cases s with
      | nil => rfl
      | cons c s =>
          rw [takePiece]
          split
          · rfl
          · rw [List.cons_append, ih]

/-- A piece takes the first item of a text, at least. -/
theorem length_takePiece_lt {n : ℕ} (hn : 0 < n) (c : α) (s : List α) :
    (takePiece sep n (c :: s)).2.length < (c :: s).length := by
  obtain ⟨n, rfl⟩ := Nat.exists_eq_succ_of_ne_zero (Nat.pos_iff_ne_zero.mp hn)
  rw [takePiece]
  split
  · exact Nat.lt_succ_self _
  · have happ := congrArg List.length (takePiece_append sep n s)
    rw [List.length_append] at happ
    simp only [List.length_cons]
    omega

/-- Room for more pieces than there are items makes no difference. -/
theorem piecesUpTo_eq {n : ℕ} (hn : 0 < n) {j k : ℕ} {s : List α} (hj : s.length ≤ j)
    (hk : s.length ≤ k) : piecesUpTo sep n j s = piecesUpTo sep n k s := by
  induction j generalizing k s with
  | zero =>
      obtain rfl := List.length_eq_zero_iff.mp (Nat.le_zero.mp hj)
      cases k <;> rfl
  | succ j ih =>
      cases s with
      | nil => cases k <;> rfl
      | cons c s =>
          have hlt := length_takePiece_lt sep hn c s
          rw [List.length_cons] at hj hk hlt
          cases k with
          | zero => omega
          | succ k => rw [piecesUpTo, piecesUpTo, ih (by omega) (by omega : _ ≤ k)]

@[simp] theorem pieces_nil (n : ℕ) : pieces sep n ([] : List α) = [] := rfl

/-- **The pieces of a text are read one after the other.** -/
theorem pieces_of_ne_nil {n : ℕ} (hn : 0 < n) {s : List α} (hs : s ≠ []) :
    pieces sep n s = (takePiece sep n s).1 :: pieces sep n (takePiece sep n s).2 := by
  cases s with
  | nil => exact absurd rfl hs
  | cons c s =>
      have hlt := length_takePiece_lt sep hn c s
      rw [List.length_cons] at hlt
      rw [pieces, pieces, List.length_cons, piecesUpTo,
        piecesUpTo_eq sep hn (Nat.le_of_lt_succ hlt) (Nat.le_refl _)]

/-- What holds of no text left and carries over from the text after a piece to the text holds
of every text. -/
theorem pieces_induction {n : ℕ} (hn : 0 < n) {P : List α → Prop} (nil : P [])
    (piece : ∀ s, s ≠ [] → P (takePiece sep n s).2 → P s) (s : List α) : P s := by
  induction hk : s.length using Nat.strongRecOn generalizing s with
  | ind k ih =>
      cases s with
      | nil => exact nil
      | cons c s =>
          exact piece _ (List.cons_ne_nil c s)
            (ih _ (hk ▸ length_takePiece_lt sep hn c s) _ rfl)

/-- **The pieces of a text make up the text.** -/
theorem flatten_pieces {n : ℕ} (hn : 0 < n) (s : List α) : (pieces sep n s).flatten = s := by
  induction s using pieces_induction sep hn with
  | nil => rfl
  | piece s hs ih => rw [pieces_of_ne_nil sep hn hs, List.flatten_cons, ih, takePiece_append]

/-- A line that fits the buffer is one piece. -/
theorem takePiece_line {n : ℕ} {line : List α} (hsep : sep ∉ line) (hn : line.length < n)
    (s : List α) : takePiece sep n (line ++ sep :: s) = (line ++ [sep], s) := by
  induction line generalizing n with
  | nil =>
      obtain ⟨n, rfl⟩ := Nat.exists_eq_succ_of_ne_zero (Nat.ne_of_gt hn)
      rw [List.nil_append, takePiece, if_pos rfl, List.nil_append]
  | cons c line ih =>
      obtain ⟨n, rfl⟩ := Nat.exists_eq_succ_of_ne_zero (Nat.ne_of_gt (Nat.zero_lt_of_lt hn))
      rw [List.mem_cons, not_or] at hsep
      rw [List.cons_append, takePiece, if_neg (Ne.symm hsep.1),
        ih hsep.2 (Nat.lt_of_succ_lt_succ hn), List.cons_append]

/-- **The pieces of a text of lines that fit the buffer are the lines.** -/
theorem pieces_flatMap_line {n : ℕ} {ls : List (List α)}
    (h : ∀ line ∈ ls, sep ∉ line ∧ line.length < n) :
    pieces sep n (ls.flatMap (· ++ [sep])) = ls.map (· ++ [sep]) := by
  induction ls with
  | nil => rfl
  | cons line ls ih =>
      obtain ⟨hsep, hn⟩ := h line List.mem_cons_self
      have hne : line ++ sep :: ls.flatMap (· ++ [sep]) ≠ [] := List.append_ne_nil_of_right_ne_nil _
        (List.cons_ne_nil _ _)
      rw [List.flatMap_cons, List.append_assoc, List.singleton_append,
        pieces_of_ne_nil sep (Nat.zero_lt_of_lt hn) hne, takePiece_line sep hsep hn,
        ih fun line hline => h line (List.mem_cons_of_mem _ hline), List.map_cons]

end Pieces

/-- What is found in a text, and does not have an item of it, is found in front of the item or
behind it. -/
theorem infix_append_cons_iff {x s t : List α} {c : α} (hc : c ∉ x) :
    x <:+: s ++ c :: t ↔ x <:+: s ∨ x <:+: t := by
  constructor
  · rintro ⟨a, b, h⟩
    rcases List.append_eq_append_iff.mp h with ⟨u, hs, -⟩ | ⟨u, hax, hu⟩
    · exact Or.inl ⟨a, u, hs.symm⟩
    · rcases u with - | ⟨d, u⟩
      · exact Or.inl ⟨a, [], by rw [hax, List.append_nil, List.append_nil]⟩
      · obtain ⟨rfl, rfl⟩ := List.cons.inj hu
        rcases List.append_eq_append_iff.mp hax with ⟨v, -, hx⟩ | ⟨v, -, hv⟩
        · exact absurd (hx ▸ List.mem_append_right v List.mem_cons_self) hc
        · rcases v with - | ⟨e, v⟩
          · obtain rfl := hv
            exact absurd List.mem_cons_self hc
          · obtain ⟨-, rfl⟩ := List.cons.inj hv
            exact Or.inr ⟨v, b, rfl⟩
  · rintro (h | h)
    · exact List.infix_append_of_infix_left h
    · exact List.infix_append_of_infix_right (h.trans (List.suffix_cons c t).isInfix)

end SectionedText

/-! ### Sections -/

/-- The sections of a list of items: those that are closed, and the items that the open one has
so far. -/
structure Sections (α : Type*) where
  closed : List (List α)
  current : Option (List α)
  deriving DecidableEq

namespace Sections

variable {α : Type*} (opens : α → Bool) (shuts : List α → α → Bool)

/-- One more item. Outside a section only an item that opens one counts. -/
def read (n : Sections α) (x : α) : Sections α :=
  match n.current with
  | none => if opens x then { n with current := some [] } else n
  | some sec =>
      if shuts sec x then ⟨n.closed ++ [sec], none⟩ else { n with current := some (sec ++ [x]) }

/-- The sections of a list of items. -/
def of (xs : List α) : Sections α := xs.foldl (read opens shuts) ⟨[], none⟩

variable {opens shuts}

theorem of_concat (xs : List α) (x : α) :
    of opens shuts (xs ++ [x]) = (of opens shuts xs).read opens shuts x :=
  List.foldl_concat _ _ _ _

variable {n : Sections α} {x : α}

theorem read_of_none (h : n.current = none) :
    n.read opens shuts x = if opens x then { n with current := some [] } else n := by
  rw [read, h]

theorem read_of_shuts {sec : List α} (h : n.current = some sec) (hx : shuts sec x = true) :
    n.read opens shuts x = ⟨n.closed ++ [sec], none⟩ := by
  simp only [read, h, hx, if_true]

theorem read_of_not_shuts {sec : List α} (h : n.current = some sec) (hx : shuts sec x = false) :
    n.read opens shuts x = { n with current := some (sec ++ [x]) } := by
  simp only [read, h, hx, Bool.false_eq_true, if_false]

/-! ### Several items -/

/-- Items that open no section are passed over. -/
theorem foldl_read_outside (h : n.current = none) {xs : List α}
    (hxs : ∀ x ∈ xs, opens x = false) : xs.foldl (read opens shuts) n = n := by
  induction xs with
  | nil => rfl
  | cons x xs ih =>
      rw [List.foldl_cons, read_of_none h, hxs x List.mem_cons_self, if_neg Bool.false_ne_true]
      exact ih fun y hy => hxs y (List.mem_cons_of_mem _ hy)

/-- Items that shut no section are taken into the open one. -/
theorem foldl_read_inside {sec : List α} (h : n.current = some sec) {xs : List α}
    (hxs : ∀ x ∈ xs, ∀ sec, shuts sec x = false) :
    xs.foldl (read opens shuts) n = { n with current := some (sec ++ xs) } := by
  induction xs generalizing n sec with
  | nil =>
      rw [List.foldl_nil, List.append_nil, ← h]
  | cons x xs ih =>
      rw [List.foldl_cons, read_of_not_shuts h (hxs x List.mem_cons_self sec),
        ih rfl fun y hy => hxs y (List.mem_cons_of_mem _ hy), List.append_assoc,
        List.singleton_append]

/-- **A section**, from inside it to its end. -/
theorem foldl_read_shut {sec : List α} (h : n.current = some sec) {xs : List α}
    (hxs : ∀ x ∈ xs, ∀ sec, shuts sec x = false) {x : α} (hx : shuts (sec ++ xs) x = true) :
    (xs ++ [x]).foldl (read opens shuts) n = ⟨n.closed ++ [sec ++ xs], none⟩ := by
  rw [List.foldl_append, foldl_read_inside h hxs, List.foldl_cons, List.foldl_nil,
    read_of_shuts rfl hx]

/-- An item closes one section more, at most. -/
theorem closed_read (n : Sections α) (x : α) : (n.read opens shuts x).closed = n.closed ∨
    ∃ sec, n.current = some sec ∧ (n.read opens shuts x).closed = n.closed ++ [sec] := by
  cases hcur : n.current with
  | none =>
      rw [read_of_none hcur]
      split
      · exact Or.inl rfl
      · exact Or.inl rfl
  | some sec =>
      cases hx : shuts sec x with
      | false => exact Or.inl (by rw [read_of_not_shuts hcur hx])
      | true => exact Or.inr ⟨sec, rfl, by rw [read_of_shuts hcur hx]⟩

/-- **A section that is closed stays in its place.** -/
theorem getElem?_closed_read {j : ℕ} {sec : List α} (h : n.closed[j]? = some sec) :
    (n.read opens shuts x).closed[j]? = some sec := by
  have hread : (n.read opens shuts x).closed = n.closed ∨ _ := closed_read n x
  rcases hread with heq | ⟨_, _, heq⟩
  · rw [heq, h]
  · obtain ⟨hlt, -⟩ := List.getElem?_eq_some_iff.mp h
    rw [heq, List.getElem?_append_left hlt, h]

end Sections
