/-
  BimEditor.Proofs.Json.Viability

  Beginnings of JSON texts. A text is grammatical if the grammar derives some value from it, however
  large its numbers are (`Grammatical`), and a beginning is viable if some grammatical text goes on
  from it (`Viable`). Every text has a longest viable beginning (`LongestViable`): there it departs
  from the grammar.

  What stands around such a place are the tokens of a text that goes on from it: strings with their
  escapes and groups of hexadecimal digits, and words (`TokenIn`).

  For proofs, a text is grammatical if and only if it is read by rules without any limit
  (`grammatical_iff`).
-/
import BimEditor.Proofs.Json.Acceptance

namespace BimEditor.Json

open BimEditor.Text

/-! ## Grammatical texts -/

/-- A numeral may stand for any number, since its size does not count for the grammar. -/
def anyNumber (_ : Numeral) (_ : Number) : Prop :=
  True

/-- The grammar derives a value from the text. -/
def Grammatical (text : List Char) : Prop :=
  ∃ v, DerivesText anyNumber text v

/-- Some grammatical text starts with `s`. -/
def Viable (s : List Char) : Prop :=
  ∃ r, Grammatical (s ++ r)

/-- Of the beginnings of the text that are viable, `u` is the longest. -/
structure LongestViable (text u : List Char) : Prop where
  begins : u <+: text
  viable : Viable u
  longest : ∀ v, v <+: text → Viable v → v <+: u

/-- The text holds the tree between blanks, whatever its numbers are. -/
def Holds (text : List Char) (t : Tree) : Prop :=
  ∃ b₁ s b₂, text = b₁ ++ (s ++ b₂) ∧ Blanks b₁ ∧ Blanks b₂
    ∧ Located anyNumber (byteLength b₁) s (.value t)

theorem Holds.grammatical {text : List Char} {t : Tree} (h : Holds text t) : Grammatical text := by
  obtain ⟨b₁, s, b₂, htext, hb₁, hb₂, hloc⟩ := h
  exact ⟨t.plain, b₁, s, b₂, htext, hb₁, hloc.derives, hb₂⟩

theorem Viable.of_append {s t : List Char} (h : Viable (s ++ t)) : Viable s := by
  obtain ⟨r, hr⟩ := h
  refine ⟨t ++ r, ?_⟩
  rwa [← List.append_assoc]

/-- Of a property that all beginnings of a text share with it, a beginning that has it lies within
    the longest one that does. -/
theorem prefix_of_longest {P : List Char → Prop} {u rest v : List Char}
    (hclosed : ∀ s t, P (s ++ t) → P s) (hrest : ∀ x ∈ rest.head?, ¬ P (u ++ [x]))
    (hv : v <+: u ++ rest) (hP : P v) : v <+: u := by
  rcases List.prefix_or_prefix_of_prefix hv (List.prefix_append u rest) with h | ⟨t, rfl⟩
  · exact h
  · -- a longer beginning goes on with the character behind `u`
    cases t with
    | nil => exact ⟨[], by simp⟩
    | cons x t =>
      rw [List.prefix_append_right_inj] at hv
      obtain ⟨rest, rfl⟩ := hv
      refine absurd ?_ (hrest x rfl)
      apply hclosed (u ++ [x]) t
      rwa [List.append_assoc]

/-- A beginning is the longest viable one if it is not viable any more with the character behind
    it. -/
theorem longestViable_of_head {u rest : List Char} (hu : Viable u)
    (hrest : ∀ x ∈ rest.head?, ¬ Viable (u ++ [x])) : LongestViable (u ++ rest) u where
  begins := List.prefix_append u rest
  viable := hu
  longest _ hv hviable := prefix_of_longest (fun _ _ => Viable.of_append) hrest hv hviable

/-! ## Tokens -/

/-- The span of a string of the phrase, keys included, or of a word. -/
inductive Phrase.IsToken (p : Phrase Key Tree) : Span → Prop where
  | key {k : Key} : k ∈ p.keys → p.IsToken k.span
  | leaf {span : Span} {x : Scalar} :
      Tree.leaf span x ∈ p.nodes → (∀ n, x ≠ .number n) → p.IsToken span

/-- Behind `n` bytes of what stands between two quotes there is an escape, or four hexadecimal
    digits of one. -/
inductive StringPart : List Char → Nat → List Char → Prop where
  | escape {k e k' cs cs' : List Char} {c : Char} :
      Characters k cs → Character ('\\' :: e) c → Characters k' cs' →
      StringPart (k ++ ('\\' :: e ++ k')) (byteLength k) ('\\' :: e)
  | digits {k e e' ds : List Char} {n code : Nat} :
      StringPart k n (e ++ '\\' :: 'u' :: (ds ++ e')) → HexCode ds code →
      StringPart k (n + byteLength (e ++ ['\\', 'u'])) ds

/-- The span of a token of the text `s`, which stands at byte `o` and holds the phrase `p`: a
    string, a word, an escape, or four hexadecimal digits. -/
inductive TokenIn (o : Nat) (s : List Char) (p : Phrase Key Tree) : Span → Prop where
  | whole {span : Span} : p.IsToken span → TokenIn o s p span
  | inner {span : Span} {k piece : List Char} {n : Nat} :
      p.IsToken span →
      HasPart o s (fun here part => span = spanAt here part ∧ part = '"' :: (k ++ ['"'])) →
      StringPart k n piece → TokenIn o s p (spanAt (span.start + 1 + n) piece)

/-- The phrase `q` has all the values and keys of `p`. -/
def Phrase.Includes (q p : Phrase Key Tree) : Prop :=
  (∀ t ∈ p.nodes, t ∈ q.nodes) ∧ ∀ k ∈ p.keys, k ∈ q.keys

theorem Phrase.includes_refl (p : Phrase Key Tree) : p.Includes p :=
  ⟨fun _ h => h, fun _ h => h⟩

theorem Phrase.IsToken.mono {p q : Phrase Key Tree} {span : Span} (h : p.IsToken span)
    (hq : q.Includes p) : q.IsToken span := by
  cases h with
  | key hk => exact .key (hq.2 _ hk)
  | leaf ht hx => exact .leaf (hq.1 _ ht) hx

/-- A token of a part of a text is a token of the text. -/
theorem TokenIn.inside {o : Nat} {s whole : List Char} {p q : Phrase Key Tree} {span : Span}
    (before after : List Char) (hwhole : whole = before ++ (s ++ after)) (hq : q.Includes p)
    (h : TokenIn (o + byteLength before) s p span) : TokenIn o whole q span := by
  cases h with
  | whole h => exact .whole (h.mono hq)
  | inner h hpart hstring => exact .inner (h.mono hq) (hpart.inside before after hwhole) hstring

/-- What is part of a string is part of it behind another character. -/
theorem StringPart.after {s k piece : List Char} {c : Char} {n : Nat} (hs : Character s c)
    (h : StringPart k n piece) : StringPart (s ++ k) (byteLength s + n) piece := by
  induction h with
  | escape hk he hk' =>
    rw [← byteLength_append, ← List.append_assoc]
    exact .escape (.cons hs hk) he hk'
  | digits _ hds ih =>
    rw [← Nat.add_assoc]
    exact .digits ih hds

/-! ## Reading grammatical texts -/

/-- The rules by which every grammatical text is read: no limit on the depth, and some number for
    every numeral. -/
def openRules : Rules :=
  ⟨none, fun _ => some default⟩

/-- The phrases are of the same kind. -/
inductive Phrase.SameKind {κ α : Type} : Phrase κ α → Phrase κ α → Prop where
  | value (v w : α) : SameKind (.value v) (.value w)
  | items (vs ws : List α) : SameKind (.items vs) (.items ws)
  | members (ms ns : List (κ × α)) : SameKind (.members ms) (.members ns)

section

variable {denotes denotes' : Numeral → Number → Prop}

theorem ScalarText.renumber {s : List Char} {x : Scalar} (h : ScalarText denotes s x)
    (htotal : ∀ n, ∃ x, denotes' n x) : ∃ y, ScalarText denotes' s y := by
  cases h with
  | nullWord => exact ⟨_, .nullWord⟩
  | trueWord => exact ⟨_, .trueWord⟩
  | falseWord => exact ⟨_, .falseWord⟩
  | string hcs => exact ⟨_, .string hcs⟩
  | @number s n x hspells _ =>
    obtain ⟨y, hy⟩ := htotal n
    exact ⟨_, .number hspells hy⟩

/-- What the numbers stand for may be changed, if every numeral still stands for one. -/
theorem Derives.renumber {s : List Char} {p : Phrase String Value} (h : Derives denotes s p)
    (htotal : ∀ n, ∃ x, denotes' n x) : ∃ q, Derives denotes' s q ∧ p.SameKind q := by
  induction h with
  | scalar h =>
    obtain ⟨y, hy⟩ := h.renumber htotal
    exact ⟨_, .scalar hy, .value _ _⟩
  | emptyArray hb => exact ⟨_, .emptyArray hb, .value _ _⟩
  | emptyObject hb => exact ⟨_, .emptyObject hb, .value _ _⟩
  | array hb _ ih =>
    obtain ⟨_, hs, ⟨⟩⟩ := ih
    exact ⟨_, .array hb hs, .value _ _⟩
  | object hb _ ih =>
    obtain ⟨_, hs, ⟨⟩⟩ := ih
    exact ⟨_, .object hb hs, .value _ _⟩
  | lastItem _ hb ih =>
    obtain ⟨_, hs, ⟨⟩⟩ := ih
    exact ⟨_, .lastItem hs hb, .items _ _⟩
  | item _ hb₁ hb₂ _ ih ih' =>
    obtain ⟨_, hs, ⟨⟩⟩ := ih
    obtain ⟨_, ht, ⟨⟩⟩ := ih'
    exact ⟨_, .item hs hb₁ hb₂ ht, .items _ _⟩
  | lastMember hk hb₁ hb₂ _ hb₃ ih =>
    obtain ⟨_, hs, ⟨⟩⟩ := ih
    exact ⟨_, .lastMember hk hb₁ hb₂ hs hb₃, .members _ _⟩
  | member hk hb₁ hb₂ _ hb₃ hb₄ _ ih ih' =>
    obtain ⟨_, hs, ⟨⟩⟩ := ih
    obtain ⟨_, ht, ⟨⟩⟩ := ih'
    exact ⟨_, .member hk hb₁ hb₂ hs hb₃ hb₄ ht, .members _ _⟩

theorem ScalarText.mono {s : List Char} {x : Scalar} (h : ScalarText denotes s x)
    (himp : ∀ n x, denotes n x → denotes' n x) : ScalarText denotes' s x := by
  cases h with
  | nullWord => exact .nullWord
  | trueWord => exact .trueWord
  | falseWord => exact .falseWord
  | string hcs => exact .string hcs
  | number hspells hx => exact .number hspells (himp _ _ hx)

theorem Located.mono {o : Nat} {s : List Char} {p : Phrase Key Tree} (h : Located denotes o s p)
    (himp : ∀ n x, denotes n x → denotes' n x) : Located denotes' o s p := by
  induction h with
  | scalar h => exact .scalar (h.mono himp)
  | emptyArray hb => exact .emptyArray hb
  | array hb _ ih => exact .array hb ih
  | emptyObject hb => exact .emptyObject hb
  | object hb _ ih => exact .object hb ih
  | lastItem _ hb ih => exact .lastItem ih hb
  | item _ hb₁ hb₂ _ ih ih' => exact .item ih hb₁ hb₂ ih'
  | lastMember hk hb₁ hb₂ _ hb₃ ih => exact .lastMember hk hb₁ hb₂ ih hb₃
  | member hk hb₁ hb₂ _ hb₃ hb₄ _ ih ih' => exact .member hk hb₁ hb₂ ih hb₃ hb₄ ih'

end

theorem HoldsTree.holds {text : List Char} {t : Tree} (h : HoldsTree openRules text t) :
    Holds text t := by
  obtain ⟨b₁, s, b₂, htext, hb₁, hb₂, hloc, -⟩ := h
  exact ⟨b₁, s, b₂, htext, hb₁, hb₂, hloc.mono fun _ _ _ => trivial⟩

/-- A text is grammatical if and only if it is read by the open rules. -/
theorem grammatical_iff {text : List Char} :
    Grammatical text ↔ ∃ t, readBy openRules text = .ok t := by
  constructor
  · rintro ⟨v, b₁, s, b₂, htext, hb₁, hderives, hb₂⟩
    have htotal : ∀ n, ∃ x, ByRule openRules.number? n x := fun n => ⟨default, rfl⟩
    obtain ⟨_, hs, ⟨⟩⟩ := hderives.renumber htotal
    obtain ⟨t, ht, -⟩ := DerivesText.holdsTree ⟨b₁, s, b₂, htext, hb₁, hs, hb₂⟩ (withinLimit_none _)
    exact ⟨t, readBy_eq_ok ht⟩
  · rintro ⟨t, ht⟩
    exact (readBy_eq_ok_iff.1 ht).holds.grammatical

end BimEditor.Json
