/-
  BimEditor.Proofs.Json.Lookahead

  How much of a text a reader has seen. Reading by some rules goes the same way as reading by the
  open rules, up to a number beyond the format or a bracket that lies too deep (`treeAgrees`). And
  what was read as a value depends on nothing but its own text and the character behind it, at which
  a number may end (`tree_keeps`).
-/
import BimEditor.Proofs.Json.Viability

namespace BimEditor.Json

open BimEditor.Numeric BimEditor.Text

/-! ## Rules and open rules -/

/-- The fault is none of the grammar: a bracket lies too deep, or a number is beyond the format. -/
def Fault.BeyondGrammar : Fault → Prop
  | .tooLarge _ _ => True
  | .tooDeep _ _ => True
  | .malformed _ cause => ∃ literal, cause = .outOfRange literal

/-- The second computation stops at the same place as the first one, or fails in the same way; only
    where the first one fails beyond the grammar, it may do anything. -/
inductive Agrees {α β : Type} {c : Cursor} : Outcome α c → Outcome β c → Prop where
  | ok {r : Reading α c} {r' : Reading β c} : r.next = r'.next → Agrees (.ok r) (.ok r')
  | error (e : Fault) : Agrees (.error e) (.error e)
  | beyond {e : Fault} {y : Outcome β c} : e.BeyondGrammar → Agrees (.error e) y

namespace Agrees

variable {α β γ δ : Type} {c d : Cursor}

theorem refl (x : Outcome α c) : Agrees x x := by
  cases x with
  | ok r => exact .ok rfl
  | error e => exact .error e

theorem bind {x : Outcome α c} {y : Outcome β c} {f : Reading α c → Outcome γ d}
    {g : Reading β c → Outcome δ d} (h : Agrees x y)
    (hfg : ∀ r r', r.next = r'.next → Agrees (f r) (g r')) : Agrees (x >>= f) (y >>= g) := by
  cases h with
  | ok hnext => exact hfg _ _ hnext
  | error e => exact .error e
  | beyond he => exact .beyond he

/-- A step that both computations take in the same way. -/
theorem after {x : Outcome α c} {f : Reading α c → Outcome γ d} {g : Reading α c → Outcome δ d}
    (hfg : ∀ r, Agrees (f r) (g r)) : Agrees (x >>= f) (x >>= g) := by
  cases x with
  | ok r => exact hfg r
  | error e => exact .error e

/-- Only the first computation may find a bracket too deep. -/
theorem enter {maxDepth : Option Nat} {depth here : Nat} {f g : Unit → Outcome α c}
    (h : Agrees (f ()) (g ())) :
    Agrees (Json.enter maxDepth depth here >>= f) (Json.enter none depth here >>= g) := by
  rw [enter_eq_ok (withinLimit_none depth), ok_bind]
  unfold Json.enter
  split
  · exact .beyond trivial
  · exact h

end Agrees

theorem number_agrees (value? : Numeral → Option Number) (c : Cursor) :
    Agrees (number value? c) (number openRules.number? c) := by
  unfold number
  apply Agrees.after
  rintro ⟨n, next, h⟩
  dsimp only
  split
  · exact .ok rfl
  · exact .beyond ⟨_, rfl⟩

theorem scalar_agrees (value? : Numeral → Option Number) (c : Cursor) :
    Agrees (scalar value? c) (scalar openRules.number? c) := by
  unfold scalar
  split
  · exact .refl _
  · exact .refl _
  · exact .refl _
  · exact .refl _
  · split
    · apply (number_agrees value? _).bind
      rintro ⟨n, next, h⟩ ⟨n', _, h'⟩ rfl
      exact .ok rfl
    · exact .refl _
  · exact .refl _

/-- The readers of values go the same way by all rules. -/
theorem treeAgrees (rules : Rules) (depth : Nat) (c : Cursor) :
    Agrees (tree rules depth c) (tree openRules depth c) := by
  refine tree.induct (fun depth c => Agrees (tree rules depth c) (tree openRules depth c))
    (fun depth c => Agrees (arrayBody rules depth c) (arrayBody openRules depth c))
    (fun depth c => Agrees (items rules depth c) (items openRules depth c))
    (fun depth c => Agrees (objectBody rules depth c) (objectBody openRules depth c))
    (fun depth c => Agrees (members rules depth c) (members openRules depth c))
    ?_ ?_ ?_ ?_ ?_ ?_ ?_ ?_ ?_ ?_ depth c
  · intro depth here rest ih
    rw [tree, tree]
    apply Agrees.enter
    apply Agrees.bind ih
    rintro ⟨ms, next, h⟩ ⟨ms', _, h'⟩ rfl
    exact .ok rfl
  · intro depth here rest ih
    rw [tree, tree]
    apply Agrees.enter
    apply Agrees.bind ih
    rintro ⟨ts, next, h⟩ ⟨ts', _, h'⟩ rfl
    exact .ok rfl
  · intro depth c hobject harray
    rw [tree.eq_3 rules depth c hobject harray, tree.eq_3 openRules depth c hobject harray]
    apply (scalar_agrees rules.number? c).bind
    rintro ⟨x, next, h⟩ ⟨x', _, h'⟩ rfl
    exact .ok rfl
  · intro depth here rest
    rw [arrayBody, arrayBody]
    exact .ok rfl
  · intro depth c hclose ih
    rw [arrayBody.eq_2 rules depth c hclose, arrayBody.eq_2 openRules depth c hclose]
    exact ih
  · intro depth c ih ih'
    rw [items, items]
    apply Agrees.bind ih
    rintro ⟨t, afterItem, h₁⟩ ⟨t', _, h₁'⟩ rfl
    apply Agrees.after
    rintro ⟨more, afterEnd, h₂⟩
    cases more with
    | false => exact .ok rfl
    | true =>
      apply Agrees.bind (ih' afterItem h₁ afterEnd h₂)
      rintro ⟨ts, next, h₃⟩ ⟨ts', _, h₃'⟩ rfl
      exact .ok rfl
  · intro depth here rest
    rw [objectBody, objectBody]
    exact .ok rfl
  · intro depth c hclose ih
    rw [objectBody.eq_2 rules depth c hclose, objectBody.eq_2 openRules depth c hclose]
    exact ih
  · intro depth here rest ih ih'
    rw [members, members]
    apply Agrees.after
    rintro ⟨name, afterKey, h₁⟩
    apply Agrees.after
    rintro ⟨_, afterColon, h₂⟩
    apply Agrees.bind (ih afterKey h₁ afterColon h₂)
    rintro ⟨t, afterValue, h₃⟩ ⟨t', _, h₃'⟩ rfl
    apply Agrees.after
    rintro ⟨more, afterEnd, h₄⟩
    cases more with
    | false => exact .ok rfl
    | true =>
      apply Agrees.bind (ih' afterKey h₁ afterColon h₂ afterValue h₃ afterEnd h₄)
      rintro ⟨ms, next, h₅⟩ ⟨ms', _, h₅'⟩ rfl
      exact .ok rfl
  · intro depth c hquote
    rw [members.eq_2 rules depth c hquote, members.eq_2 openRules depth c hquote]
    exact .refl _

/-- A fault of the grammar is the same by the open rules. -/
theorem readBy_openRules {rules : Rules} {text : List Char} {e : Fault}
    (h : readBy rules text = .error e) (he : ¬ e.BeyondGrammar) :
    readBy openRules text = .error e := by
  have hagree := treeAgrees rules 0 (Cursor.atStart text).skipBlanks
  unfold readBy at h ⊢
  generalize tree rules 0 (Cursor.atStart text).skipBlanks = x at h hagree
  generalize tree openRules 0 (Cursor.atStart text).skipBlanks = y at hagree ⊢
  cases hagree with
  | error e' => exact h
  | beyond he' =>
    cases h
    exact absurd he' he
  | @ok r r' hnext =>
    obtain ⟨t, next, hlt⟩ := r
    obtain ⟨t', _, hlt'⟩ := r'
    obtain rfl : next = _ := hnext
    rw [ok_bind] at h ⊢
    dsimp only at h ⊢
    generalize finish next = z at h ⊢
    cases z with
    | error e' => exact h
    | ok _ => cases h

/-! ## Where numbers end -/

theorem head?_append_congr {s t : List Char} (u : List Char) (h : s.head? = t.head?) :
    (u ++ s).head? = (u ++ t).head? := by
  cases u with
  | nil => exact h
  | cons x u => rfl

/-- Two facts about the result of a computation. -/
theorem Ensures.and {α : Type} {good good' : α → Prop} {bad bad' : Fault → Prop}
    {x : Except Fault α} (h : Ensures good bad x) (h' : Ensures good' bad' x) :
    Ensures (fun a => good a ∧ good' a) bad x := by
  cases h with
  | ok h => exact .ok ⟨h, h'.of_ok⟩
  | error h => exact .error h

theorem someDigits_ends (expected : Expected) (c : Cursor) :
    Ensures (fun r => Cursor.StopsAt isDigit r.next.rest) Fault.IsMalformed
      (someDigits expected c) := by
  unfold someDigits
  split
  · split
    · exact .ok (Cursor.stopsAt_skip isDigit _)
    · exact .error trivial
  · exact .error trivial

theorem wholeDigits_ends (c : Cursor) :
    Ensures (fun r => WholeEnds r.value r.next.rest) Fault.IsMalformed (wholeDigits c) := by
  unfold wholeDigits
  split
  · exact .ok (.inl rfl)
  · exact (someDigits_ends .digit c).mono (fun _ h => .inr h) fun _ he => he

theorem fraction?_ends (c : Cursor) :
    Ensures (fun r => FractionEnds r.1 r.2.val.rest) Fault.IsMalformed (fraction? c) := by
  unfold fraction?
  split
  · apply (someDigits_ends .fractionDigit _).bind
    intro r hends
    exact .ok hends
  · next hpoint =>
    refine .ok (Cursor.stopsAt_of_ne_cons ?_)
    intro x here rest hx
    obtain rfl := beq_iff_eq.1 hx
    exact hpoint here rest

theorem exponentBody_ends (c : Cursor) :
    Ensures (fun r => Cursor.StopsAt isDigit r.2.val.rest) Fault.IsMalformed (exponentBody c) := by
  unfold exponentBody
  split
  next negative start h heq =>
  apply (someDigits_ends .exponentDigit start).bind
  intro r hends
  exact .ok hends

theorem exponent?_ends (c : Cursor) :
    Ensures (fun r => ExponentEnds r.1 r.2.val.rest) Fault.IsMalformed (exponent? c) := by
  unfold exponent?
  split
  · apply (exponentBody_ends _).bind
    intro r hends
    exact .ok hends
  · apply (exponentBody_ends _).bind
    intro r hends
    exact .ok hends
  · next hlower hupper =>
    refine .ok (Cursor.stopsAt_of_ne_cons ?_)
    intro x here rest hx
    simp only [isExponentMark, Bool.or_eq_true, beq_iff_eq] at hx
    rcases hx with rfl | rfl
    · exact hlower here rest
    · exact hupper here rest

/-- A number is read in parts, of which none goes on in what follows it. -/
theorem numeral_parts (c : Cursor) :
    Ensures (fun r => ∃ w f e, c.Passes (minusSign r.value.negative ++ (w ++ (f ++ e))) r.next
        ∧ r.value.whole = w ∧ Whole w ∧ Fraction f r.value.fraction ∧ Exponent e r.value.exponent
        ∧ WholeEnds w (f ++ (e ++ r.next.rest)) ∧ FractionEnds r.value.fraction (e ++ r.next.rest)
        ∧ ExponentEnds r.value.exponent r.next.rest)
      Fault.IsMalformed (numeral c) := by
  have hsign := sign_passes c
  unfold numeral
  split
  next negative afterSign h heq =>
  rw [heq] at hsign
  apply ((wholeDigits_ensures afterSign).and (wholeDigits_ends afterSign)).bind
  rintro ⟨whole, afterWhole, h₂⟩ ⟨⟨hpass₂, hwhole⟩, hends₂⟩
  apply ((fraction?_ensures afterWhole).and (fraction?_ends afterWhole)).bind
  rintro ⟨fraction, afterFraction, h₃⟩ ⟨⟨f, hpass₃, hfraction⟩, hends₃⟩
  apply ((exponent?_ensures afterFraction).and (exponent?_ends afterFraction)).bind
  rintro ⟨exponent, next, h₄⟩ ⟨⟨e, hpass₄, hexponent⟩, hends₄⟩
  rw [hpass₃.1, hpass₄.1] at hends₂
  rw [hpass₄.1] at hends₃
  exact .ok ⟨whole, f, e, hsign.trans (hpass₂.trans (hpass₃.trans hpass₄)), rfl, hwhole, hfraction,
    hexponent, hends₂, hends₃, hends₄⟩

theorem FractionEnds.of_head? {x : Option (List Char)} {s t : List Char} (h : FractionEnds x s)
    (hhead : t.head? = s.head?) : FractionEnds x t := by
  cases x with
  | none => exact Cursor.StopsAt.of_head? h hhead
  | some _ => exact Cursor.StopsAt.of_head? h hhead

theorem ExponentEnds.of_head? {x : Option (Bool × List Char)} {s t : List Char}
    (h : ExponentEnds x s) (hhead : t.head? = s.head?) : ExponentEnds x t := by
  cases x with
  | none => exact Cursor.StopsAt.of_head? h hhead
  | some _ => exact Cursor.StopsAt.of_head? h hhead

/-- A number depends on its own text and the character behind it. -/
theorem numeral_keeps {c next : Cursor} {n : Numeral} (h : Yields (numeral c) n next) :
    ∃ s, c.Passes s next ∧ ∀ y, y.head? = next.rest.head? →
      Yields (numeral ⟨c.offset, s ++ y⟩) n ⟨next.offset, y⟩ := by
  obtain ⟨hlt, heq⟩ := h
  have hparts := numeral_parts c
  rw [heq] at hparts
  obtain ⟨w, f, e, hpass, rfl, hw, hf, he, hwhole, hfraction, hexponent⟩ := hparts.of_ok
  refine ⟨_, hpass, ?_⟩
  intro y hy
  rw [hpass.2]
  apply numeral_yields_parts hw hf he
  · apply hwhole.imp_right
    intro hstop
    exact hstop.of_head? (head?_append_congr f (head?_append_congr e hy))
  · exact hfraction.of_head? (head?_append_congr e hy)
  · exact hexponent.of_head? hy

/-! ## Where values end -/

/-- Where a text was located by the reader that knows no limits. -/
abbrev OpenLocated : Nat → List Char → Phrase Key Tree → Prop :=
  Located (ByRule openRules.number?)

/-- A text that starts like a number is read as one, by the open rules as any. -/
theorem tree_eq_numeral {depth o : Nat} {d : Char} (hd : d = '-' ∨ isDigit d = true)
    (s : List Char) :
    tree openRules depth ⟨o, d :: s⟩ = (do
      let ⟨_, next, h⟩ ← numeral ⟨o, d :: s⟩
      return ⟨.leaf ⟨o, next.offset⟩ (.number default), next, h⟩) := by
  have hne : ∀ x : Char, x ≠ '-' → isDigit x = false → d ≠ x := by
    intro x hminus hx
    rcases hd with rfl | hd
    · exact hminus.symm
    · exact ne_of_isDigit hd hx
  rw [tree_eq_scalar (hne '{' (by decide) (by decide)) (hne '[' (by decide) (by decide)), scalar,
    if_pos hd, number]
  · cases numeral ⟨o, d :: s⟩ with
    | ok r => rfl
    | error e => rfl
  · exact hne '"' (by decide) (by decide)
  · exact hne 't' (by decide) (by decide)
  · exact hne 'f' (by decide) (by decide)
  · exact hne 'n' (by decide) (by decide)

theorem tree_keeps_number {depth : Nat} {c next : Cursor} {t : Tree} {s : List Char} {d : Char}
    (hd : d = '-' ∨ isDigit d = true) (hs : c.Passes (d :: s) next)
    (h : Yields (tree openRules depth c) t next) :
    ∀ y, y.head? = next.rest.head? →
      Yields (tree openRules depth ⟨c.offset, d :: s ++ y⟩) t ⟨next.offset, y⟩ := by
  obtain ⟨o, text⟩ := c
  obtain rfl : text = d :: (s ++ next.rest) := hs.1
  intro y hy
  rw [tree_eq_numeral hd] at h
  obtain ⟨⟨n, next', hlt⟩, hnumeral, hpure⟩ := h.of_bind
  obtain ⟨hlt', heq⟩ := hpure
  cases heq
  obtain ⟨s', hpass, hkeeps⟩ := numeral_keeps ⟨hlt, hnumeral⟩
  -- the number takes all of the text that was passed
  obtain rfl : d :: s = s' := List.append_cancel_right (hs.1.symm.trans hpass.1)
  rw [List.cons_append, tree_eq_numeral hd]
  apply (hkeeps y hy).bind
  intro hlt'
  exact Yields.pure

/-- A value depends on its own text and the character behind it. -/
theorem tree_keeps {depth : Nat} {c next : Cursor} {t : Tree}
    (h : Yields (tree openRules depth c) t next) :
    ∃ s, c.Passes s next ∧ OpenLocated c.offset s (.value t) ∧ ∀ y, y.head? = next.rest.head? →
      Yields (tree openRules depth ⟨c.offset, s ++ y⟩) t ⟨next.offset, y⟩ := by
  have hensures := treeEnsures openRules depth c (withinLimit_none _)
  obtain ⟨hlt, heq⟩ := h
  have h : Yields (tree openRules depth c) t next := ⟨hlt, heq⟩
  rw [heq] at hensures
  obtain ⟨s, hread⟩ := hensures.of_ok
  have hpass : c.Passes s next := by simpa using hread.passes
  have hloc : OpenLocated c.offset s (.value t) := hread.located
  refine ⟨s, hpass, hloc, ?_⟩
  have hsealed : TreeYields openRules c.offset s t → ∀ y, y.head? = next.rest.head? →
      Yields (tree openRules depth ⟨c.offset, s ++ y⟩) t ⟨next.offset, y⟩ := by
    intro hyields y _
    rw [hpass.2]
    exact hyields depth y (withinLimit_none _)
  cases hloc with
  | emptyArray hb => exact hsealed (yields_emptyArray hb)
  | array hb hs => exact hsealed (yields_array hb hs.items_head hs.yields)
  | emptyObject hb => exact hsealed (yields_emptyObject hb)
  | object hb hs => exact hsealed (yields_object hb hs.members_head hs.yields)
  | @scalar _ _ x hx =>
    by_cases hnumber : ∃ n, x = .number n
    · obtain ⟨n, rfl⟩ := hnumber
      cases hx with
      | number hspells _ =>
        obtain ⟨d, s, rfl, hd⟩ := hspells.head
        exact tree_keeps_number hd hpass h
    · rw [not_exists] at hnumber
      apply hsealed
      intro depth rest _
      exact tree_yields_scalar hx (scalar_yields_closed hx hnumber rest)

end BimEditor.Json
