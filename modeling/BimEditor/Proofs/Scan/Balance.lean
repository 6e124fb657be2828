/-
  BimEditor.Proofs.Scan.Balance

  Texts that leave a scanner as they found it. In a balanced text every quote and every bracket is
  closed, and the commas outside of them are counted (`Balanced`). The search for a closing bracket
  passes such a text (`closeFrom_append`), and the scan over the body of an array counts its commas
  if it meets them at depth zero, and nothing of it at any other (`foldl_step`).

  The second half says that the grammar of JSON has balanced texts only, and how many commas a
  phrase has (`Located.balanced`). So the elements of an array are counted right
  (`countElements_items`).
-/
import BimEditor.Proofs.Json.Reading
import BimEditor.Proofs.Scan.Steps

namespace BimEditor.Scan

open BimEditor.Text BimEditor.Json

variable {d : Delimiter} {inner o m n : Nat} {s t k rest : List Char}

/-- A character that means something to a scanner: a quote, a bracket or a comma. -/
def isMark (c : Char) : Bool :=
  c == '"' || c == ',' || c == '{' || c == '[' || c == '}' || c == ']'

/-- A text that means nothing to a scanner. -/
def Unmarked (s : List Char) : Prop :=
  ∀ c ∈ s, isMark c = false

instance : DecidablePred Unmarked := fun s =>
  List.decidableBAll (fun c => isMark c = false) s

/-- What may stand between two quotes: a quote or a backslash only behind another backslash. -/
inductive Quoted : List Char → Prop where
  | nil : Quoted []
  | plain {c : Char} {s : List Char} : c ≠ '"' → c ≠ '\\' → Quoted s → Quoted (c :: s)
  | hidden {c : Char} {s : List Char} : Quoted s → Quoted ('\\' :: c :: s)

/-- A text whose strings and brackets are all closed, with that many commas outside of them. -/
inductive Balanced : List Char → Nat → Prop where
  | nil : Balanced [] 0
  | plain {c : Char} {s : List Char} {n : Nat} :
      isMark c = false → Balanced s n → Balanced (c :: s) n
  -- only commas are counted that stand in no string and between no brackets
  | comma {s : List Char} {n : Nat} : Balanced s n → Balanced (',' :: s) (n + 1)
  | string {k s : List Char} {n : Nat} :
      Quoted k → Balanced s n → Balanced ('"' :: (k ++ '"' :: s)) n
  | group {s t : List Char} {m n : Nat} (d : Delimiter) :
      Balanced s m → Balanced t n → Balanced (d.opening :: (s ++ d.closing :: t)) n

/-! ## Building balanced texts -/

theorem Quoted.append (hs : Quoted s) (ht : Quoted t) : Quoted (s ++ t) := by
  induction hs with
  | nil => exact ht
  | plain hquote hslash _ ih => exact .plain hquote hslash ih
  | hidden _ ih => exact .hidden ih

theorem Quoted.of_forall (h : ∀ c ∈ s, c ≠ '"' ∧ c ≠ '\\') : Quoted s := by
  induction s with
  | nil => exact .nil
  | cons c s ih =>
    obtain ⟨hquote, hslash⟩ := h c List.mem_cons_self
    exact .plain hquote hslash (ih fun x hx => h x (List.mem_cons_of_mem c hx))

theorem Balanced.append (hs : Balanced s m) (ht : Balanced t n) : Balanced (s ++ t) (m + n) := by
  induction hs with
  | nil => rwa [Nat.zero_add]
  | plain hc _ ih => exact .plain hc ih
  | comma _ ih =>
    rw [Nat.succ_add]
    exact .comma ih
  | string hk _ ih =>
    rw [List.cons_append, List.append_assoc]
    exact .string hk ih
  | group d hs _ _ ih =>
    rw [List.cons_append, List.append_assoc]
    exact .group d hs ih

theorem Unmarked.append (hs : Unmarked s) (ht : Unmarked t) : Unmarked (s ++ t) :=
  List.forall_mem_append.2 ⟨hs, ht⟩

theorem Unmarked.cons {c : Char} (hc : isMark c = false) (hs : Unmarked s) : Unmarked (c :: s) :=
  List.forall_mem_cons.2 ⟨hc, hs⟩

theorem Unmarked.balanced (h : Unmarked s) : Balanced s 0 := by
  induction s with
  | nil => exact .nil
  | cons c s ih =>
    obtain ⟨hc, hs⟩ := List.forall_mem_cons.1 h
    exact .plain hc (ih hs)

/-! ## The search for a closing bracket -/

/-- A string is skipped up to its closing quote. -/
theorem afterString_quoted (hk : Quoted k) :
    afterString ⟨o, k ++ '"' :: rest⟩ = some ⟨o + byteLength k + 1, rest⟩ := by
  induction hk generalizing o with
  | nil => rfl
  | plain hquote hslash _ ih =>
    rw [List.cons_append, afterString_other hquote hslash, ih, byteLength_cons, Nat.add_assoc o]
  | @hidden c s _ ih =>
    have hsize : '\\'.utf8Size = 1 := rfl
    rw [List.cons_append, List.cons_append, afterString_slash, ih, byteLength_cons, byteLength_cons,
      hsize]
    congr 2
    omega

/-- Behind its opening quote, a string is skipped to the end of the string with both quotes. -/
theorem afterString_string (hk : Quoted k) :
    afterString ⟨o + 1, k ++ '"' :: rest⟩ = some ⟨o + byteLength ('"' :: (k ++ ['"'])), rest⟩ := by
  have hplace : o + 1 + byteLength k + 1 = o + byteLength ('"' :: (k ++ ['"'])) := by
    have hsize : '"'.utf8Size = 1 := rfl
    simp only [byteLength_append, byteLength_cons, byteLength_nil, hsize]
    omega
  rw [afterString_quoted hk, hplace]

theorem ne_of_isMark {c x : Char} (hc : isMark c = false) (hx : isMark x = true) : c ≠ x := by
  rintro rfl
  rw [hx] at hc
  cases hc

/-- What means nothing to a scanner, or only ends an element, is neither a quote nor a bracket. -/
theorem not_quote_nor_bracket {c : Char} (hc : isMark c = false ∨ c = ',') :
    c ≠ '"' ∧ ¬ (c = '{' ∨ c = '[') ∧ ¬ (c = '}' ∨ c = ']') := by
  have hne : ∀ x, isMark x = true → x ≠ ',' → c ≠ x := by
    intro x hmark hcomma
    rcases hc with hc | rfl
    · exact ne_of_isMark hc hmark
    · exact hcomma.symm
  refine ⟨hne '"' rfl (by decide), ?_, ?_⟩
  · rintro (h | h)
    · exact hne '{' rfl (by decide) h
    · exact hne '[' rfl (by decide) h
  · rintro (h | h)
    · exact hne '}' rfl (by decide) h
    · exact hne ']' rfl (by decide) h

theorem isMark_opening (d : Delimiter) : isMark d.opening = true := by
  cases d <;> rfl

theorem isMark_closing (d : Delimiter) : isMark d.closing = true := by
  cases d <;> rfl

theorem comma_ne_opening (d : Delimiter) : ',' ≠ d.opening := by
  cases d <;> decide

theorem comma_ne_closing (d : Delimiter) : ',' ≠ d.closing := by
  cases d <;> decide

theorem opening_ne_of_ne {d' : Delimiter} (h : d' ≠ d) :
    d'.opening ≠ d.opening ∧ d'.opening ≠ d.closing := by
  revert h
  cases d <;> cases d' <;> decide

theorem closing_ne_of_ne {d' : Delimiter} (h : d' ≠ d) :
    d'.closing ≠ d.opening ∧ d'.closing ≠ d.closing := by
  revert h
  cases d <;> cases d' <;> decide

/-- The search for a closing bracket passes a balanced text. -/
theorem closeFrom_append (hs : Balanced s n) :
    closeFrom d inner ⟨o, s ++ rest⟩ = closeFrom d inner ⟨o + byteLength s, rest⟩ := by
  induction hs generalizing o inner rest with
  | nil => rfl
  | plain hc _ ih =>
    rw [List.cons_append, closeFrom_other (ne_of_isMark hc rfl) (ne_of_isMark hc (isMark_opening d))
      (ne_of_isMark hc (isMark_closing d)), ih, byteLength_cons, Nat.add_assoc]
  | comma _ ih =>
    rw [List.cons_append, closeFrom_other (by decide) (comma_ne_opening d) (comma_ne_closing d), ih,
      byteLength_cons, Nat.add_assoc]
  | @string k s n hk _ ih =>
    have hplace : o + 1 + byteLength k + 1 + byteLength s
        = o + byteLength ('"' :: (k ++ '"' :: s)) := by
      have hsize : '"'.utf8Size = 1 := rfl
      simp only [byteLength_cons, byteLength_append, hsize]
      omega
    rw [List.cons_append, List.append_assoc, List.cons_append, closeFrom_quote,
      afterString_quoted hk, Option.bind_some, ih, hplace]
  | @group s t m n d' _ _ ihs iht =>
    have hplace : o + 1 + byteLength s + 1 + byteLength t
        = o + byteLength (d'.opening :: (s ++ d'.closing :: t)) := by
      simp only [byteLength_cons, byteLength_append, utf8Size_opening, utf8Size_closing]
      omega
    rw [List.cons_append, List.append_assoc, List.cons_append]
    by_cases hfamily : d' = d
    · -- one more pair is open until its bracket closes it
      subst hfamily
      rw [closeFrom_opening, ihs, closeFrom_closing_succ, iht, hplace]
    · -- brackets of the other family are passed like any character
      obtain ⟨hopen, hopen'⟩ := opening_ne_of_ne hfamily
      obtain ⟨hclose, hclose'⟩ := closing_ne_of_ne hfamily
      rw [closeFrom_other (opening_ne_quote d') hopen hopen', utf8Size_opening, ihs,
        closeFrom_other (closing_ne_quote d') hclose hclose', utf8Size_closing, iht, hplace]

/-- The bracket behind a balanced text is the one that is looked for. -/
theorem closeFrom_body (hs : Balanced s n) :
    closeFrom d 0 ⟨o, s ++ d.closing :: rest⟩ = some (o + byteLength s) := by
  rw [closeFrom_append hs, closeFrom_closing_zero]

/-! ## Counting elements -/

/-- A scan over the body of an array, outside of strings. -/
def outside (commas depth : Nat) : ElementScan :=
  ⟨commas, depth, false, false⟩

theorem step_plain {c : Char} (commas depth : Nat) (hc : isMark c = false) :
    (outside commas depth).step c = outside commas depth := by
  simp only [isMark, Bool.or_eq_false_iff, beq_eq_false_iff_ne] at hc
  obtain ⟨⟨⟨⟨⟨hquote, hcomma⟩, hbrace⟩, hbracket⟩, hbrace'⟩, hbracket'⟩ := hc
  simp [outside, ElementScan.step, *]

theorem step_opening (commas depth : Nat) :
    (outside commas depth).step d.opening = outside commas (depth + 1) := by
  cases d <;> rfl

theorem step_closing (commas depth : Nat) :
    (outside commas (depth + 1)).step d.closing = outside commas depth := by
  cases d <;> rfl

/-- A string leaves the scan outside of strings again. -/
theorem foldl_step_string (commas depth : Nat) (hk : Quoted k) :
    ('"' :: (k ++ '"' :: rest)).foldl ElementScan.step (outside commas depth)
      = rest.foldl ElementScan.step (outside commas depth) := by
  show (k ++ '"' :: rest).foldl ElementScan.step ⟨commas, depth, true, false⟩ = _
  induction hk with
  | nil => rfl
  | plain hquote hslash _ ih =>
    rw [← ih, List.cons_append, List.foldl_cons]
    simp [ElementScan.step, hquote, hslash]
  | hidden _ ih => exact ih

/-- A balanced text changes at most the number of commas, and that only at depth zero. -/
theorem foldl_step (commas depth : Nat) (hs : Balanced s n) :
    (s ++ rest).foldl ElementScan.step (outside commas depth)
      = rest.foldl ElementScan.step (outside (if depth = 0 then commas + n else commas) depth) := by
  induction hs generalizing commas depth rest with
  | nil => rw [Nat.add_zero, ite_self, List.nil_append]
  | plain hc _ ih => rw [List.cons_append, List.foldl_cons, step_plain commas depth hc, ih]
  | @comma s n _ ih =>
    rw [List.cons_append, List.foldl_cons]
    cases depth with
    | zero =>
      show (s ++ rest).foldl ElementScan.step (outside (commas + 1) 0) = _
      rw [ih, if_pos rfl, if_pos rfl, Nat.add_right_comm, Nat.add_assoc]
    -- a comma inside of brackets belongs to an inner list
    | succ depth => exact ih commas (depth + 1)
  | string hk _ ih =>
    rw [List.cons_append, List.append_assoc, List.cons_append, foldl_step_string commas depth hk,
      ih]
  | group d _ _ ihs iht =>
    rw [List.cons_append, List.append_assoc, List.cons_append, List.foldl_cons, step_opening, ihs,
      if_neg (Nat.succ_ne_zero _), List.foldl_cons, step_closing, iht]

/-- A text with a character that is no blank does not vanish when it is trimmed. -/
theorem trim_ne_nil {c : Char} (hmem : c ∈ s) (hc : isBlank c = false) : trim s ≠ [] := by
  have hkept : ∀ {s : List Char}, c ∈ s → c ∈ trimStart s := by
    intro s hmem
    rw [← List.takeWhile_append_dropWhile (p := isBlank) (l := s), List.mem_append] at hmem
    refine hmem.resolve_left fun htaken => ?_
    rw [List.all_eq_true.1 List.all_takeWhile c htaken] at hc
    cases hc
  -- both ends are trimmed in the same way, the second one from behind
  have htrim : c ∈ trim s := by
    rw [trim, List.mem_reverse]
    exact hkept (List.mem_reverse.2 (hkept hmem))
  exact List.ne_nil_of_mem htrim

theorem countElements_balanced {c : Char} (hs : Balanced s n) (hmem : c ∈ s)
    (hc : isBlank c = false) : countElements s = n + 1 := by
  have hscan := @foldl_step n s [] 0 0 hs
  rw [List.append_nil] at hscan
  -- the scan begins outside of strings and at depth zero
  rw [countElements, if_neg (by simpa using trim_ne_nil hmem hc)]
  show (s.foldl ElementScan.step (outside 0 0)).commas + 1 = _
  rw [hscan]
  show 0 + n + 1 = n + 1
  rw [Nat.zero_add]

/-- Blanks hold no element. -/
theorem countElements_blanks (hs : Blanks s) : countElements s = 0 := by
  have hempty : trimStart s = [] := by
    have hblank : ∀ c ∈ s, isBlank c = true :=
      fun c hc => isBlank_of_isJsonBlank (blanks_iff.1 hs c hc)
    have hdrop := @List.dropWhile_append_of_pos _ isBlank s [] hblank
    rwa [List.append_nil] at hdrop
  rw [countElements, trim, hempty]
  rfl

end BimEditor.Scan

/-! ## The grammar -/

namespace BimEditor.Json

open BimEditor.Numeric BimEditor.Text BimEditor.Scan

variable {denotes : Numeral → Number → Prop} {o : Nat} {s : List Char}

theorem HexCode.quoted {n : Nat} (h : HexCode s n) : Quoted s := by
  obtain ⟨a, b, c, d, rfl, hall, -⟩ := hexCode_iff.1 h
  refine .of_forall fun x hx => ?_
  have hdigit : isHexDigit x = true := List.all_eq_true.1 hall x hx
  constructor <;> (rintro rfl; exact absurd hdigit (by decide))

theorem Character.quoted {c : Char} (h : Character s c) : Quoted s := by
  cases h with
  | plain _ hquote hslash => exact .plain hquote hslash .nil
  | letter _ => exact .hidden .nil
  | code hcode => exact .hidden hcode.quoted
  | pair hhigh _ _ hlow _ _ _ => exact .hidden (hhigh.quoted.append (.hidden hlow.quoted))

theorem Characters.quoted {cs : List Char} (h : Characters s cs) : Quoted s := by
  induction h with
  | nil => exact .nil
  | cons hc _ ih => exact hc.quoted.append ih

theorem Blanks.unmarked (h : Blanks s) : Unmarked s := by
  intro c hc
  rcases h c hc with rfl | rfl | rfl | rfl <;> rfl

theorem Blanks.balanced (h : Blanks s) : Balanced s 0 :=
  h.unmarked.balanced

theorem isMark_of_isDigit {c : Char} (h : isDigit c = true) : isMark c = false := by
  cases hmark : isMark c with
  | false => rfl
  | true =>
    simp only [isMark, Bool.or_eq_true, beq_iff_eq] at hmark
    rcases hmark with ((((rfl | rfl) | rfl) | rfl) | rfl) | rfl <;> cases h

theorem unmarked_digits (h : ∀ c ∈ s, isDigit c = true) : Unmarked s :=
  fun c hc => isMark_of_isDigit (h c hc)

theorem Whole.unmarked (h : Whole s) : Unmarked s := by
  cases h with
  | zero => decide
  | digits hd _ hds => exact .cons (isMark_of_isDigit hd) (unmarked_digits hds)

theorem Fraction.unmarked {x : Option (List Char)} (h : Fraction s x) : Unmarked s := by
  cases h with
  | absent => decide
  | present hds => exact .cons rfl (unmarked_digits hds.2)

theorem Exponent.unmarked {x : Option (Bool × List Char)} (h : Exponent s x) : Unmarked s := by
  cases h with
  | absent => decide
  | @present mark sign ds negative hmark hsign hds =>
    have hsigned : Unmarked sign := by cases hsign <;> decide
    refine .cons ?_ (hsigned.append (unmarked_digits hds.2))
    rcases hmark with rfl | rfl <;> rfl

theorem Spells.unmarked {n : Numeral} (h : Spells s n) : Unmarked s := by
  obtain @⟨negative, w, f, e, fraction, exponent, hw, hf, he⟩ := h
  have hminus : Unmarked (minusSign negative) := by cases negative <;> decide
  exact hminus.append (hw.unmarked.append (hf.unmarked.append he.unmarked))

/-- A value without parts is a string or means nothing to a scanner. -/
theorem ScalarText.unmarked_or_quoted {x : Scalar} (h : ScalarText denotes s x) :
    Unmarked s ∨ ∃ k, s = '"' :: (k ++ ['"']) ∧ Quoted k := by
  cases h with
  | nullWord => exact .inl (by decide)
  | trueWord => exact .inl (by decide)
  | falseWord => exact .inl (by decide)
  | number hspells _ => exact .inl hspells.unmarked
  | string hcs => exact .inr ⟨_, rfl, hcs.quoted⟩

theorem ScalarText.balanced {x : Scalar} (h : ScalarText denotes s x) : Balanced s 0 := by
  rcases h.unmarked_or_quoted with hs | ⟨k, rfl, hk⟩
  · exact hs.balanced
  · exact .string hk .nil

/-- The commas between the parts of a phrase. -/
def Phrase.commas {κ α : Type} : Phrase κ α → Nat
  | .value _ => 0
  | .items vs => vs.length - 1
  | .members ms => ms.length - 1

theorem Located.items_length_pos {ts : List Tree} (h : Located denotes o s (.items ts)) :
    0 < ts.length := by
  cases h <;> exact Nat.succ_pos _

theorem Located.members_length_pos {ms : List (Key × Tree)}
    (h : Located denotes o s (.members ms)) : 0 < ms.length := by
  cases h <;> exact Nat.succ_pos _

/-- A list with one more part has one more comma. -/
theorem balanced_listed {b₁ b₂ r : List Char} {n : Nat} (hs : Balanced s 0) (hb₁ : Blanks b₁)
    (hb₂ : Blanks b₂) (hr : Balanced r (n - 1)) (hn : 0 < n) :
    Balanced (s ++ (b₁ ++ ',' :: (b₂ ++ r))) n := by
  have h := hs.append (hb₁.balanced.append (.comma (hb₂.balanced.append hr)))
  have hcount : 0 + (0 + (0 + (n - 1) + 1)) = n := by omega
  rwa [hcount] at h

theorem balanced_keyed {k cs b₁ b₂ : List Char} {n : Nat} (hk : Characters k cs) (hb₁ : Blanks b₁)
    (hb₂ : Blanks b₂) (hs : Balanced s n) :
    Balanced ('"' :: (k ++ '"' :: (b₁ ++ ':' :: (b₂ ++ s)))) n := by
  refine .string hk.quoted ?_
  have h := hb₁.balanced.append (.plain (c := ':') rfl (hb₂.balanced.append hs))
  rwa [Nat.zero_add, Nat.zero_add] at h

/-- The text of a phrase is balanced. -/
theorem Located.balanced {p : Phrase Key Tree} (h : Located denotes o s p) :
    Balanced s p.commas := by
  induction h with
  | scalar h => exact h.balanced
  | emptyArray hb => exact .group .bracket hb.balanced .nil
  -- the commas between the items do not count outside of the brackets
  | array hb _ ih =>
    rw [← List.append_assoc]
    exact .group .bracket (hb.balanced.append ih) .nil
  | emptyObject hb => exact .group .brace hb.balanced .nil
  | object hb _ ih =>
    rw [← List.append_assoc]
    exact .group .brace (hb.balanced.append ih) .nil
  | lastItem _ hb ih => exact ih.append hb.balanced
  | item _ hb₁ hb₂ h' ih ih' => exact balanced_listed ih hb₁ hb₂ ih' h'.items_length_pos
  | lastMember hk hb₁ hb₂ _ hb₃ ih => exact balanced_keyed hk hb₁ hb₂ (ih.append hb₃.balanced)
  | member hk hb₁ hb₂ _ hb₃ hb₄ h' ih ih' =>
    exact balanced_keyed hk hb₁ hb₂ (balanced_listed ih hb₃ hb₄ ih' h'.members_length_pos)

theorem isBlank_of_startsValue {x : Char} (h : startsValue x = true) : isBlank x = false := by
  simp only [startsValue, Bool.or_eq_true, beq_iff_eq] at h
  rcases h with ((((((rfl | rfl) | rfl) | rfl) | rfl) | rfl) | rfl) | hdigit
  case inr =>
    have := toNat_of_isDigit hdigit
    simp only [isBlank, blankRanges, List.any_cons, List.any_nil, Bool.or_false,
      Bool.or_eq_false_iff, Bool.and_eq_false_iff, decide_eq_false_iff_not]
    omega
  all_goals decide

/-- The body of an array has as many elements as the array has items. -/
theorem Located.countElements_items {b : List Char} {ts : List Tree} (hb : Blanks b)
    (h : Located denotes o s (.items ts)) : countElements (b ++ s) = ts.length := by
  obtain ⟨d, r, rfl, hd⟩ := h.items_head
  have hblank : isBlank d = false := isBlank_of_startsValue hd
  have hpos := h.items_length_pos
  have hbody : Balanced (b ++ d :: r) (0 + (ts.length - 1)) := hb.balanced.append h.balanced
  rw [countElements_balanced hbody (List.mem_append_right b List.mem_cons_self) hblank]
  omega

end BimEditor.Json
