/-
  BimEditor.Proofs.Scan.Openings

  The brackets that a text opens, each with the depth at which it lies. They are found by looking at
  the text alone: brackets in strings do not count, and neither does anything behind a quote that is
  never closed.

  `Spot.Opens` says what a piece of text opens, whatever follows it. Each kind of piece has its
  lemma, and pieces are put together with `Spot.Opens.trans`.
-/
import BimEditor.Proofs.Scan.Balance

namespace BimEditor.Scan

open BimEditor.Text

/-- An opening bracket: where it stands, and how many brackets are open behind it. -/
structure Opening where
  offset : Nat
  depth : Nat
deriving DecidableEq, Repr

/-- The opening brackets behind the cursor, with `depth` brackets open before it. -/
def openingsFrom (depth : Nat) : Cursor → List Opening
  | ⟨_, []⟩ => []
  | ⟨here, '"' :: rest⟩ =>
    match skipString (here + 1) rest with
    | none => []
    | some ⟨next, _⟩ => openingsFrom depth next
  | ⟨here, c :: rest⟩ =>
    if c = '{' ∨ c = '[' then ⟨here, depth + 1⟩ :: openingsFrom (depth + 1) ⟨here + 1, rest⟩
    else if c = '}' ∨ c = ']' then openingsFrom (depth - 1) ⟨here + 1, rest⟩
    else openingsFrom depth ⟨here + c.utf8Size, rest⟩
termination_by c => c.rest.length
decreasing_by
  all_goals simp only [List.length_cons] at *
  all_goals omega

/-- The opening brackets of a text, in order. -/
def openings (text : List Char) : List Opening :=
  openingsFrom 0 (Cursor.atStart text)

/-! ## One step -/

section

variable {depth o : Nat} {c : Char} {rest : List Char}

@[simp]
theorem openingsFrom_nil : openingsFrom depth ⟨o, []⟩ = [] := by
  rw [openingsFrom]

theorem openingsFrom_quote :
    openingsFrom depth ⟨o, '"' :: rest⟩
      = ((afterString ⟨o + 1, rest⟩).map (openingsFrom depth)).getD [] := by
  rw [openingsFrom, afterString]
  cases skipString (o + 1) rest <;> rfl

theorem openingsFrom_opening (hopen : c = '{' ∨ c = '[') :
    openingsFrom depth ⟨o, c :: rest⟩
      = ⟨o, depth + 1⟩ :: openingsFrom (depth + 1) ⟨o + 1, rest⟩ := by
  rw [openingsFrom, if_pos hopen]
  rcases hopen with rfl | rfl <;> decide

theorem openingsFrom_closing (hclose : c = '}' ∨ c = ']') :
    openingsFrom depth ⟨o, c :: rest⟩ = openingsFrom (depth - 1) ⟨o + 1, rest⟩ := by
  have hopen : ¬ (c = '{' ∨ c = '[') := by rcases hclose with rfl | rfl <;> decide
  rw [openingsFrom, if_neg hopen, if_pos hclose]
  rcases hclose with rfl | rfl <;> decide

/-- A comma counts for the elements of an array, but not here. -/
theorem openingsFrom_other (hc : isMark c = false ∨ c = ',') :
    openingsFrom depth ⟨o, c :: rest⟩ = openingsFrom depth ⟨o + c.utf8Size, rest⟩ := by
  obtain ⟨hquote, hopen, hclose⟩ := not_quote_nor_bracket hc
  rw [openingsFrom, if_neg hopen, if_neg hclose]
  exact hquote

/-- A text that means nothing to a scanner is passed. -/
theorem openingsFrom_unmarked {s : List Char} (hs : Unmarked s) :
    openingsFrom depth ⟨o, s ++ rest⟩ = openingsFrom depth ⟨o + byteLength s, rest⟩ := by
  induction s generalizing o with
  | nil => rfl
  | cons x s ih =>
    obtain ⟨hx, hs⟩ := List.forall_mem_cons.1 hs
    rw [List.cons_append, openingsFrom_other (.inl hx), ih hs, byteLength_cons, Nat.add_assoc]

/-- A string that breaks off hides everything in it. -/
theorem openingsFrom_brokenString {k : List Char} (hk : Quoted k) :
    openingsFrom depth ⟨o, '"' :: k⟩ = [] := by
  have hnone : ∀ o, afterString ⟨o, k⟩ = none := by
    induction hk with
    | nil => exact fun _ => rfl
    | plain hquote hslash _ ih =>
      intro o
      rw [afterString_other hquote hslash]
      exact ih _
    | hidden _ ih =>
      intro o
      rw [afterString_slash]
      exact ih _
  rw [openingsFrom_quote, hnone]
  rfl

end

/-! ## What a piece opens -/

/-- A place in a text together with the number of brackets that are open before it. -/
structure Spot where
  depth : Nat
  place : Cursor

namespace Spot

/-- Reading `s` from `p` leads to `q` and opens the brackets `xs`, whatever follows `s`. -/
structure Opens (p : Spot) (s : List Char) (xs : List Opening) (q : Spot) : Prop where
  passes : p.place.Passes s q.place
  opens : ∀ rest, openingsFrom p.depth ⟨p.place.offset, s ++ rest⟩
    = xs ++ openingsFrom q.depth ⟨q.place.offset, rest⟩

namespace Opens

variable {p q r : Spot} {s t : List Char} {xs ys : List Opening} {depth : Nat} {c e : Cursor}

theorem refl (p : Spot) : p.Opens [] [] p :=
  ⟨.refl _, fun _ => rfl⟩

theorem trans (h : p.Opens s xs q) (h' : q.Opens t ys r) : p.Opens (s ++ t) (xs ++ ys) r := by
  refine ⟨h.passes.trans h'.passes, fun rest => ?_⟩
  rw [List.append_assoc, h.opens, h'.opens, List.append_assoc]

/-- A piece that means nothing to a scanner opens nothing. -/
theorem unmarked (h : c.Passes s e) (hs : Unmarked s) : Opens ⟨depth, c⟩ s [] ⟨depth, e⟩ := by
  refine ⟨h, fun rest => ?_⟩
  obtain ⟨-, hoffset⟩ := h
  show openingsFrom depth ⟨c.offset, s ++ rest⟩ = openingsFrom depth ⟨e.offset, rest⟩
  rw [hoffset]
  exact openingsFrom_unmarked hs

theorem comma (h : c.Passes [','] e) : Opens ⟨depth, c⟩ [','] [] ⟨depth, e⟩ := by
  refine ⟨h, fun rest => ?_⟩
  obtain ⟨-, hoffset⟩ := h
  show openingsFrom depth ⟨c.offset, ',' :: rest⟩ = openingsFrom depth ⟨e.offset, rest⟩
  rw [openingsFrom_other (.inr rfl), hoffset]
  rfl

theorem string {k : List Char} (h : c.Passes ('"' :: (k ++ ['"'])) e) (hk : Quoted k) :
    Opens ⟨depth, c⟩ ('"' :: (k ++ ['"'])) [] ⟨depth, e⟩ := by
  refine ⟨h, fun rest => ?_⟩
  show openingsFrom depth ⟨c.offset, '"' :: (k ++ ['"'] ++ rest)⟩
    = openingsFrom depth ⟨e.offset, rest⟩
  rw [List.append_assoc, List.singleton_append, openingsFrom_quote, afterString_string hk, ← h.2]
  rfl

theorem opening {x : Char} (h : c.Passes [x] e) (hx : x = '{' ∨ x = '[') :
    Opens ⟨depth, c⟩ [x] [⟨c.offset, depth + 1⟩] ⟨depth + 1, e⟩ := by
  refine ⟨h, fun rest => ?_⟩
  have hsize : x.utf8Size = 1 := by rcases hx with rfl | rfl <;> rfl
  have hend : e.offset = c.offset + 1 := by
    rw [h.2, byteLength_cons, hsize]
    rfl
  show openingsFrom depth ⟨c.offset, x :: rest⟩
    = ⟨c.offset, depth + 1⟩ :: openingsFrom (depth + 1) ⟨e.offset, rest⟩
  rw [openingsFrom_opening hx, hend]

theorem closing {x : Char} (h : c.Passes [x] e) (hx : x = '}' ∨ x = ']') :
    Opens ⟨depth, c⟩ [x] [] ⟨depth - 1, e⟩ := by
  refine ⟨h, fun rest => ?_⟩
  have hsize : x.utf8Size = 1 := by rcases hx with rfl | rfl <;> rfl
  have hend : e.offset = c.offset + 1 := by
    rw [h.2, byteLength_cons, hsize]
    rfl
  show openingsFrom depth ⟨c.offset, x :: rest⟩ = openingsFrom (depth - 1) ⟨e.offset, rest⟩
  rw [openingsFrom_closing hx, hend]

end Opens

end Spot

end BimEditor.Scan
