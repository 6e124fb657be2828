/-
  BimEditor.Proofs.Json.ValueFaults

  Where the readers of values get stuck. Like a token, a value that fails may still be completed up
  to some place and not behind it, and the fault points at that place or at the token around it
  (`treeStuck`). What was read before that place is read again in every text that starts in the same
  way.
-/
import BimEditor.Proofs.Json.TokenFaults

namespace BimEditor.Json

open BimEditor.Numeric BimEditor.Text

variable {α : Type} {o depth : Nat} {e : Fault}

/-! ## Where faults point -/

/-- Behind `u`, which starts at byte `o`, the text `s` of a phrase goes on. The fault is reported
    there, or where a token of the phrase starts that reaches over that place. -/
def Fault.PointsIn (o : Nat) (u s : List Char) (p : Phrase Key Tree) (e : Fault) : Prop :=
  ∃ before, before <+: u ∧ e.offset? = some (o + byteLength before)
    ∧ (before = u ∨ ∃ span, TokenIn o s p span ∧ span.start = o + byteLength before
      ∧ o + byteLength u < span.stop)

namespace Fault.PointsIn

variable {u s : List Char} {p q : Phrase Key Tree}

theorem here (h : e.offset? = some (o + byteLength u)) : e.PointsIn o u s p :=
  ⟨u, List.prefix_refl u, h, .inl rfl⟩

/-- A fault in a part of a text points into the whole text. -/
theorem inside {whole : List Char} (before after : List Char)
    (h : e.PointsIn (o + byteLength before) u s p) (hwhole : whole = before ++ (s ++ after))
    (hq : q.Includes p) : e.PointsIn o (before ++ u) whole q := by
  obtain ⟨v, hv, hoffset, hplace⟩ := h
  refine ⟨before ++ v, (List.prefix_append_right_inj before).2 hv, ?_, ?_⟩
  · rw [hoffset, byteLength_append, Nat.add_assoc]
  · rw [byteLength_append, byteLength_append, ← Nat.add_assoc, ← Nat.add_assoc]
    rcases hplace with rfl | ⟨span, htoken, hstart, hstop⟩
    · exact .inl rfl
    · exact .inr ⟨span, htoken.inside before after hwhole hq, hstart, hstop⟩

end Fault.PointsIn

/-- A fault in a string, which is a token of the phrase. -/
theorem Fault.PointsInString.pointsIn {u r : List Char} {p : Phrase Key Tree}
    (h : e.PointsInString o (o + 1) u (u ++ r)) (after : List Char)
    (htoken : p.IsToken (spanAt o ('"' :: (u ++ r ++ ['"'])))) :
    e.PointsIn o ('"' :: u) ('"' :: (u ++ r ++ ['"']) ++ after) p := by
  have hquote : '"'.utf8Size = 1 := rfl
  rcases h with h | h | ⟨before, piece, hbefore, hoffset, hpart, hlt⟩
  · refine ⟨[], List.nil_prefix, h, .inr ⟨_, .whole htoken, rfl, ?_⟩⟩
    simp only [spanAt, byteLength_cons, byteLength_append, hquote]
    omega
  · apply Fault.PointsIn.here
    rw [h, byteLength_cons, hquote, Nat.add_assoc]
  · refine ⟨'"' :: before, (List.prefix_cons_inj _).2 hbefore, ?_, .inr ⟨_,
      .inner htoken ⟨[], '"' :: (u ++ r ++ ['"']), after, rfl, rfl, rfl⟩ hpart, ?_, ?_⟩⟩
    · rw [hoffset, byteLength_cons, hquote, Nat.add_assoc]
    · simp only [spanAt, byteLength_cons, hquote]
      omega
    · simp only [spanAt, byteLength_cons, hquote]
      omega

/-- A text that starts with `u` is a phrase of that kind, and the fault points into it. -/
def Completes (mk : α → Phrase Key Tree) (o : Nat) (u : List Char) (e : Fault) : Prop :=
  ∃ r a, OpenLocated o (u ++ r) (mk a) ∧ e.PointsIn o u (u ++ r) (mk a)

theorem Completes.of_located {mk : α → Phrase Key Tree} {u s : List Char} {a : α} (r : List Char)
    (hs : s = u ++ r) (hloc : OpenLocated o s (mk a)) (hpoints : e.PointsIn o u s (mk a)) :
    Completes mk o u e := by
  subst hs
  exact ⟨r, a, hloc, hpoints⟩

/-- Where the reader of a phrase fails, it has come to a place up to which some text is a phrase, and
    behind which it refuses every text. -/
def Stuck (mk : α → Phrase Key Tree) (f : (c : Cursor) → Outcome α c) (c : Cursor) : Prop :=
  ∀ e, f c = .error e → ∃ u rest, c.rest = u ++ rest ∧ Refuses f c.offset u rest
    ∧ Completes mk c.offset u e

/-! ## Blanks and marks -/

/-- The character behind `u` decides how a text starts. -/
theorem exists_cons_of_append {u rest s : List Char} {d x : Char} (h : u ++ rest = d :: s)
    (hx : x ∈ rest.head?) (y : List Char) : ∃ t, u ++ x :: y = d :: t := by
  cases u with
  | nil =>
    obtain rfl : rest = d :: s := h
    cases hx
    exact ⟨y, rfl⟩
  | cons d' u =>
    obtain ⟨rfl, -⟩ := List.cons.inj h
    exact ⟨u ++ x :: y, rfl⟩

theorem head?_append_cons {u rest : List Char} {x : Char} (hx : x ∈ rest.head?) (y : List Char) :
    (u ++ x :: y).head? = (u ++ rest).head? :=
  head?_append_congr u hx.symm

/-- The blanks behind a place are passed in every text that goes on with the same character. -/
theorem skipBlanks_keeps (c : Cursor) :
    ∃ b, Blanks b ∧ c.Passes b c.skipBlanks ∧ ∀ y, y.head? = c.skipBlanks.rest.head? →
      Cursor.skipBlanks ⟨c.offset, b ++ y⟩ = ⟨c.skipBlanks.offset, y⟩ := by
  obtain ⟨b, hpass, hb⟩ := passes_skipBlanks c
  refine ⟨b, hb, hpass, ?_⟩
  intro y hy
  rw [hpass.2]
  apply skipBlanks_append hb
  exact (Cursor.stopsAt_skip isJsonBlank c).of_head? hy

/-- The reader looks at one character, and fails where it stands. -/
def FailsByHead (f : (c : Cursor) → Outcome α c) : Prop :=
  ∀ c e, f c = .error e → e.offset? = some c.offset
    ∧ ∀ x ∈ c.rest.head?, ∀ o y, ∃ e', f ⟨o, x :: y⟩ = .error e'

/-- A reader that takes some marks and complains about every other character. -/
theorem failsByHead_of_marks {f : (c : Cursor) → Outcome α c} {expected : Expected}
    (marks : List Char) (hmarks : ∀ m ∈ marks, ∀ o y, ∃ r, f ⟨o, m :: y⟩ = .ok r)
    (hothers : ∀ c, (∀ m ∈ marks, ∀ here rest, c = ⟨here, m :: rest⟩ → False) →
      f c = .error (unexpectedAt expected c)) : FailsByHead f := by
  intro c e h
  have hne : ∀ m ∈ marks, ∀ here rest, c = ⟨here, m :: rest⟩ → False := by
    rintro m hm here rest rfl
    obtain ⟨r, hr⟩ := hmarks m hm here rest
    rw [hr] at h
    cases h
  rw [hothers c hne] at h
  cases h
  refine ⟨rfl, ?_⟩
  intro x hx o y
  obtain ⟨rest, hrest⟩ := List.head?_eq_some_iff.1 hx
  refine ⟨_, hothers ⟨o, x :: y⟩ ?_⟩
  rintro m hm here tail ⟨⟩
  exact hne x hm c.offset rest (by rw [← hrest])

theorem colon_failsByHead : FailsByHead colon := by
  apply failsByHead_of_marks [':']
  · intro m hm o y
    obtain rfl := List.mem_singleton.1 hm
    exact ⟨_, rfl⟩
  · intro c hc
    exact colon.eq_2 c (hc ':' (by simp))

theorem itemEnd_failsByHead : FailsByHead itemEnd := by
  apply failsByHead_of_marks [',', ']']
  · intro m hm o y
    obtain rfl | rfl : m = ',' ∨ m = ']' := by simpa using hm
    · exact ⟨_, rfl⟩
    · exact ⟨_, rfl⟩
  · intro c hc
    exact itemEnd.eq_3 c (hc ',' (by simp)) (hc ']' (by simp))

theorem memberEnd_failsByHead : FailsByHead memberEnd := by
  apply failsByHead_of_marks [',', '}']
  · intro m hm o y
    obtain rfl | rfl : m = ',' ∨ m = '}' := by simpa using hm
    · exact ⟨_, rfl⟩
    · exact ⟨_, rfl⟩
  · intro c hc
    exact memberEnd.eq_3 c (hc ',' (by simp)) (hc '}' (by simp))

/-- A mark behind blanks is read again, whatever follows it. -/
theorem mark_keeps {f : (c : Cursor) → Outcome α c} {a : α} {m : Char} {c d : Cursor}
    (hf : ∀ o t, Yields (f ⟨o, m :: t⟩) a ⟨o + 1, t⟩) (hm : m.utf8Size = 1)
    (hpass : c.skipBlanks.Passes [m] d) :
    ∃ b, Blanks b ∧ c.Passes (b ++ [m]) d
      ∧ ∀ y, Yields (f (Cursor.skipBlanks ⟨c.offset, b ++ m :: y⟩)) a ⟨d.offset, y⟩ := by
  obtain ⟨b, hb, hblank, hkeeps⟩ := skipBlanks_keeps c
  refine ⟨b, hb, hblank.trans hpass, ?_⟩
  intro y
  have hoffset : d.offset = c.skipBlanks.offset + 1 := by
    rw [hpass.2, byteLength_cons, hm]
    rfl
  rw [hkeeps (m :: y) (by rw [hpass.1]; rfl), hoffset]
  exact hf _ y

/-- A mark that is missing behind blanks is missed in every text that goes on with the same
    character. -/
theorem mark_stuck {f : (c : Cursor) → Outcome α c} (hf : FailsByHead f) {c : Cursor}
    (h : f c.skipBlanks = .error e) :
    ∃ b, Blanks b ∧ c.Passes b c.skipBlanks ∧ e.offset? = some c.skipBlanks.offset
      ∧ ∀ x ∈ c.skipBlanks.rest.head?, ∀ y a d,
        ¬ Yields (f (Cursor.skipBlanks ⟨c.offset, b ++ x :: y⟩)) a d := by
  obtain ⟨b, hb, hblank, hkeeps⟩ := skipBlanks_keeps c
  obtain ⟨hoffset, hfails⟩ := hf _ _ h
  refine ⟨b, hb, hblank, hoffset, ?_⟩
  intro x hx y a d hread
  obtain ⟨e', he'⟩ := hfails x hx c.skipBlanks.offset y
  rw [hkeeps (x :: y) hx.symm, he'] at hread
  exact not_yields_error hread

/-! ## Scalars -/

theorem openLocated_zero (o : Nat) :
    OpenLocated o ['0'] (.value (.leaf (spanAt o ['0']) (.number default))) :=
  .scalar (.number (@Spells.parts false _ _ _ _ _ .zero .absent .absent) rfl)

/-- Where a value should start, there may stand a zero. -/
theorem completes_value (h : e.offset? = some o) : Completes .value o [] e :=
  ⟨['0'], _, openLocated_zero o, .here h⟩

theorem scalar_of_tree {d : Char} {s : List Char} {t : Tree} {next : Cursor} (hbrace : d ≠ '{')
    (hbracket : d ≠ '[') (h : Yields (tree openRules depth ⟨o, d :: s⟩) t next) :
    ∃ x next, Yields (scalar openRules.number? ⟨o, d :: s⟩) x next := by
  rw [tree_eq_scalar hbrace hbracket] at h
  exact h.first

theorem scalar_error_of_tree {d : Char} {s : List Char} (hbrace : d ≠ '{') (hbracket : d ≠ '[')
    (h : tree openRules depth ⟨o, d :: s⟩ = .error e) :
    scalar openRules.number? ⟨o, d :: s⟩ = .error e := by
  rw [tree_eq_scalar hbrace hbracket] at h
  exact first_eq_error h fun _ => ⟨_, rfl⟩

theorem tree_stuck_string {rest : List Char} :
    Stuck .value (tree openRules depth) ⟨o, '"' :: rest⟩ := by
  intro e h
  have hscalar := scalar_error_of_tree (by decide) (by decide) h
  rw [scalar] at hscalar
  have hbody : stringBody o ⟨o + 1, rest⟩ = .error e := by
    exact first_eq_error hscalar fun _ => ⟨_, rfl⟩
  obtain ⟨u, rest, r, cs, rfl, hrefuses, hcs, hpoints⟩ := stringBody_stuck o _ hbody
  refine ⟨'"' :: u, rest, rfl, ?_, ?_⟩
  · intro x hx y a d hread
    obtain ⟨_, _, hread⟩ := scalar_of_tree (by decide) (by decide) hread
    rw [scalar] at hread
    obtain ⟨q, next, hq⟩ := hread.first
    exact hrefuses x hx y q next hq
  · have hloc : OpenLocated o ('"' :: (u ++ r ++ ['"']))
        (.value (.leaf _ (.string (String.ofList cs)))) := .scalar (.string hcs)
    have htoken : (Phrase.value (.leaf (spanAt o ('"' :: (u ++ r ++ ['"'])))
        (.string (String.ofList cs)))).IsToken (spanAt o ('"' :: (u ++ r ++ ['"']))) := by
      apply Phrase.IsToken.leaf List.mem_cons_self
      intro n hn
      cases hn
    apply Completes.of_located (r ++ ['"']) (by simp) hloc
    simpa using hpoints.pointsIn [] htoken

/-- A value that starts like a word is read as that word. -/
theorem tree_stuck_word {spelling : String} {meaning : Scalar} {d : Char} {s : List Char}
    (hscalar : ∀ o t, scalar openRules.number? ⟨o, d :: t⟩ = word spelling meaning ⟨o, d :: t⟩)
    (htext : ScalarText (ByRule openRules.number?) spelling.toList meaning)
    (hmeaning : ∀ n, meaning ≠ .number n) (hbrace : d ≠ '{') (hbracket : d ≠ '[') :
    Stuck .value (tree openRules depth) ⟨o, d :: s⟩ := by
  have hspelling : spelling.toList ≠ [] := by
    obtain ⟨x, t, ht, -⟩ := htext.head
    rw [ht]
    exact List.cons_ne_nil x t
  intro e h
  have hword := scalar_error_of_tree hbrace hbracket h
  rw [hscalar] at hword
  obtain ⟨u, rest, r, hs, hrefuses, hr, hne, hoffset⟩ := word_stuck hspelling hword
  refine ⟨u, rest, hs, ?_, ?_⟩
  · intro x hx y a f hread
    obtain ⟨t, ht⟩ := exists_cons_of_append hs.symm hx y
    rw [ht] at hread
    obtain ⟨m, next, hread⟩ := scalar_of_tree hbrace hbracket hread
    rw [hscalar, ← ht] at hread
    exact hrefuses x hx y m next hread
  · have hpos := byteLength_pos hne
    have hlen := congrArg byteLength hr
    rw [byteLength_append] at hlen
    apply Completes.of_located r hr.symm (.scalar htext)
    refine ⟨[], List.nil_prefix, hoffset, .inr ⟨_, .whole (.leaf List.mem_cons_self hmeaning), rfl, ?_⟩⟩
    simp only [spanAt]
    omega

theorem tree_stuck_number {d : Char} {s : List Char} (hd : d = '-' ∨ isDigit d = true) :
    Stuck .value (tree openRules depth) ⟨o, d :: s⟩ := by
  intro e h
  rw [tree_eq_numeral hd] at h
  have hnumeral : numeral ⟨o, d :: s⟩ = .error e := by
    exact first_eq_error h fun _ => ⟨_, rfl⟩
  obtain ⟨u, rest, n, hs, hrefuses, hspells, hoffset⟩ := numeral_stuck hnumeral
  refine ⟨u, rest, hs, ?_, ['0'], .leaf (spanAt o (u ++ ['0'])) (.number default),
    .scalar (.number hspells rfl), .here hoffset⟩
  intro x hx y a f hread
  have hrefused := hrefuses x hx y
  obtain ⟨t, ht⟩ := exists_cons_of_append hs.symm hx y
  rw [ht] at hrefused hread
  rw [tree_eq_numeral hd] at hread
  obtain ⟨q, next, hq⟩ := hread.first
  exact hrefused q next hq

/-- No value starts with any other character. -/
theorem tree_eq_error {d : Char} (hd : startsValue d = false) (s : List Char) :
    tree openRules depth ⟨o, d :: s⟩ = .error (unexpectedAt .value ⟨o, d :: s⟩) := by
  have hne : ∀ x, startsValue x = true → d ≠ x := by
    rintro x hx rfl
    rw [hx] at hd
    cases hd
  have hnumber : ¬ (d = '-' ∨ isDigit d = true) := by
    rintro (rfl | hdigit)
    · cases hd
    · rw [startsValue_of_isDigit hdigit] at hd
      cases hd
  rw [tree_eq_scalar (hne '{' rfl) (hne '[' rfl), scalar, if_neg hnumber]
  · rfl
  · exact hne '"' rfl
  · exact hne 't' rfl
  · exact hne 'f' rfl
  · exact hne 'n' rfl

theorem tree_stuck_other {s : List Char} (hs : Cursor.StopsAt startsValue s) :
    Stuck .value (tree openRules depth) ⟨o, s⟩ := by
  intro e h
  have hoffset : e.offset? = some o := by
    cases s with
    | nil =>
      rw [tree] at h
      · cases h
        rfl
      · intro here rest heq
        cases heq
      · intro here rest heq
        cases heq
    | cons d s =>
      rw [tree_eq_error ((Cursor.stopsAt_cons _ _ _).1 hs)] at h
      cases h
      rfl
  refine ⟨[], s, rfl, ?_, completes_value hoffset⟩
  intro x hx y a f hread
  rw [List.nil_append, tree_eq_error (hs x hx)] at hread
  exact not_yields_error hread

theorem tree_stuck_scalar {c : Cursor} (hobject : ∀ here rest, c = ⟨here, '{' :: rest⟩ → False)
    (harray : ∀ here rest, c = ⟨here, '[' :: rest⟩ → False) :
    Stuck .value (tree openRules depth) c := by
  obtain ⟨o, s⟩ := c
  cases s with
  | nil => exact tree_stuck_other (Cursor.stopsAt_nil _)
  | cons d s =>
    cases hd : startsValue d with
    | false => exact tree_stuck_other ((Cursor.stopsAt_cons _ _ _).2 hd)
    | true =>
      simp only [startsValue, Bool.or_eq_true, beq_iff_eq] at hd
      rcases hd with ((((((rfl | rfl) | rfl) | rfl) | rfl) | rfl) | rfl) | hd
      · exact (hobject o s rfl).elim
      · exact (harray o s rfl).elim
      · exact tree_stuck_string
      · exact tree_stuck_word (fun _ _ => rfl) .trueWord (by simp) (by decide) (by decide)
      · exact tree_stuck_word (fun _ _ => rfl) .falseWord (by simp) (by decide) (by decide)
      · exact tree_stuck_word (fun _ _ => rfl) .nullWord (by simp) (by decide) (by decide)
      · exact tree_stuck_number (.inl rfl)
      · exact tree_stuck_number (.inr hd)

/-! ## Containers -/

theorem enter_openRules (depth here : Nat) : enter openRules.maxDepth depth here = .ok () :=
  enter_eq_ok (withinLimit_none depth)

/-- What does not start with a mark does not start with it in any text that goes on in the same
    way. -/
theorem ne_cons_of_head {c : Cursor} {u rest : List Char} {m x : Char}
    (hm : ∀ here t, c = ⟨here, m :: t⟩ → False) (hrest : c.rest = u ++ rest) (hx : x ∈ rest.head?)
    (y : List Char) : ∀ here t, (⟨c.offset, u ++ x :: y⟩ : Cursor) = ⟨here, m :: t⟩ → False := by
  intro here t heq
  have hhead : c.rest.head? = some m := by
    rw [hrest, ← head?_append_cons hx y, (Cursor.mk.inj heq).2]
    rfl
  obtain ⟨t', ht'⟩ := List.head?_eq_some_iff.1 hhead
  exact hm c.offset t' (by rw [← ht'])

/-- A container that does not close at once is stuck where its parts are. -/
theorem Stuck.of_open {mk : α → Phrase Key Tree} {f g : (c : Cursor) → Outcome α c} {m : Char}
    (heq : ∀ c, (∀ here rest, c = ⟨here, m :: rest⟩ → False) → f c = g c) {c : Cursor}
    (hm : ∀ here rest, c = ⟨here, m :: rest⟩ → False) (h : Stuck mk g c) : Stuck mk f c := by
  intro e he
  rw [heq c hm] at he
  obtain ⟨u, rest, hrest, hrefuses, hcompletes⟩ := h e he
  refine ⟨u, rest, hrest, ?_, hcompletes⟩
  intro x hx y a d hread
  rw [heq _ (ne_cons_of_head hm hrest hx y)] at hread
  exact hrefuses x hx y a d hread

/-- A container is stuck where its body is, which follows the opening mark and blanks. -/
theorem Stuck.of_body {mk : α → Phrase Key Tree} {body : (c : Cursor) → Outcome α c}
    {rest : List Char} {opening : Char} (closing : Char) (hopening : opening.utf8Size = 1)
    (hfails : ∀ e, tree openRules depth ⟨o, opening :: rest⟩ = .error e →
      body (Cursor.skipBlanks ⟨o + 1, rest⟩) = .error e)
    (hreads : ∀ rest t d, Yields (tree openRules depth ⟨o, opening :: rest⟩) t d →
      ∃ a d, Yields (body (Cursor.skipBlanks ⟨o + 1, rest⟩)) a d)
    (hlocated : ∀ b s a, Blanks b → OpenLocated (o + byteLength (opening :: b)) s (mk a) →
      ∃ t, OpenLocated o (opening :: (b ++ (s ++ [closing]))) (.value t)
        ∧ (Phrase.value t).Includes (mk a))
    (ih : Stuck mk body (Cursor.skipBlanks ⟨o + 1, rest⟩)) :
    Stuck .value (tree openRules depth) ⟨o, opening :: rest⟩ := by
  intro e h
  obtain ⟨b, hb, hpass, hkeeps⟩ := skipBlanks_keeps ⟨o + 1, rest⟩
  obtain ⟨u, rest', hrest, hrefuses, r, a, hloc, hpoints⟩ := ih e (hfails e h)
  have hopen : Cursor.Passes ⟨o, opening :: rest⟩ (opening :: b)
      (Cursor.skipBlanks ⟨o + 1, rest⟩) := hpass.byte hopening
  refine ⟨opening :: b ++ u, rest', ?_, ?_, ?_⟩
  · rw [hopen.1, hrest, List.append_assoc]
  · intro x hx y t d hread
    have hskip := hkeeps (u ++ x :: y) (by rw [hrest]; exact head?_append_cons hx y)
    rw [List.append_assoc, List.cons_append] at hread
    obtain ⟨q, next, hq⟩ := hreads _ t d hread
    rw [hskip] at hq
    exact hrefuses x hx y q next hq
  · rw [hopen.2] at hloc hpoints
    obtain ⟨t, hloc', hincludes⟩ := hlocated b (u ++ r) a hb hloc
    apply Completes.of_located (r ++ [closing]) (by simp) hloc'
    exact hpoints.inside (opening :: b) [closing] rfl hincludes

/-! ## Items and members -/

/-- What stands between two items, or between two members. -/
structure EndMark (mark : (c : Cursor) → Outcome Bool c) : Prop where
  fails : FailsByHead mark
  comma : ∀ o t, Yields (mark ⟨o, ',' :: t⟩) true ⟨o + 1, t⟩
  passes : ∀ c d, Yields (mark c) true d → c.Passes [','] d

theorem endMark_itemEnd : EndMark itemEnd where
  fails := itemEnd_failsByHead
  comma _ _ := ⟨_, rfl⟩
  passes c d := by
    rintro ⟨h, heq⟩
    have hmark := itemEnd_ensures c
    rw [heq] at hmark
    exact hmark.of_ok

theorem endMark_memberEnd : EndMark memberEnd where
  fails := memberEnd_failsByHead
  comma _ _ := ⟨_, rfl⟩
  passes c d := by
    rintro ⟨h, heq⟩
    have hmark := memberEnd_ensures c
    rw [heq] at hmark
    exact hmark.of_ok

section

variable (mark : (c : Cursor) → Outcome Bool c) (others : (c : Cursor) → Outcome α c) (depth : Nat)

/-- A value is read, behind it a mark, and behind a comma the other parts of the container. -/
def ReadsPart (c : Cursor) : Prop :=
  ∃ t afterValue more afterMark, Yields (tree openRules depth c) t afterValue
    ∧ Yields (mark afterValue.skipBlanks) more afterMark
    ∧ (more = true → ∃ a d, Yields (others afterMark.skipBlanks) a d)

/-- The value is refused, or the mark behind it, or the other parts of the container. -/
inductive FailsPart (c : Cursor) (e : Fault) : Prop where
  | value : tree openRules depth c = .error e → FailsPart c e
  | mark {t : Tree} {afterValue : Cursor} :
      Yields (tree openRules depth c) t afterValue → mark afterValue.skipBlanks = .error e →
      FailsPart c e
  | others {t : Tree} {afterValue afterMark : Cursor} :
      Yields (tree openRules depth c) t afterValue →
      Yields (mark afterValue.skipBlanks) true afterMark → others afterMark.skipBlanks = .error e →
      FailsPart c e

end

/-- The text `u` is the beginning of a value and what follows it: it ends in the value, behind the
    value where a mark should stand, or behind a comma. -/
inductive CompletesPart (mk : α → Phrase Key Tree) (o : Nat) (e : Fault) : List Char → Prop where
  | value {u : List Char} : Completes .value o u e → CompletesPart mk o e u
  | mark {s b : List Char} {t : Tree} :
      OpenLocated o s (.value t) → Blanks b → e.offset? = some (o + byteLength (s ++ b)) →
      CompletesPart mk o e (s ++ b)
  | others {s b₁ b₂ u : List Char} {t : Tree} :
      OpenLocated o s (.value t) → Blanks b₁ → Blanks b₂ →
      Completes mk (o + byteLength (s ++ (b₁ ++ ',' :: b₂))) u e →
      CompletesPart mk o e (s ++ (b₁ ++ ',' :: b₂) ++ u)

/-- A value with what follows it, in an array or an object, may be completed up to some place and
    not behind it. -/
theorem part_stuck {mk : α → Phrase Key Tree} {mark : (c : Cursor) → Outcome Bool c}
    {others : (c : Cursor) → Outcome α c} {c : Cursor} (hmark : EndMark mark)
    (ih : Stuck .value (tree openRules depth) c)
    (ih' : ∀ afterValue : Cursor, afterValue.rest.length < c.rest.length →
      ∀ afterMark : Cursor, afterMark.rest.length < afterValue.skipBlanks.rest.length →
        Stuck mk others afterMark.skipBlanks)
    (h : FailsPart mark others depth c e) :
    ∃ u rest, c.rest = u ++ rest
      ∧ (∀ x ∈ rest.head?, ∀ y, ¬ ReadsPart mark others depth ⟨c.offset, u ++ x :: y⟩)
      ∧ CompletesPart mk c.offset e u := by
  cases h with
  | value h =>
    obtain ⟨u, rest, hrest, hrefuses, hcompletes⟩ := ih e h
    refine ⟨u, rest, hrest, ?_, .value hcompletes⟩
    rintro x hx y ⟨t, afterValue, -, -, hread, -⟩
    exact hrefuses x hx y t afterValue hread
  | @mark t afterValue htree h =>
    obtain ⟨s, hpass, hloc, hkeeps⟩ := tree_keeps htree
    obtain ⟨b, hb, hblank, hoffset, hrefuses⟩ := mark_stuck hmark.fails h
    have hbefore : c.Passes (s ++ b) afterValue.skipBlanks := hpass.trans hblank
    refine ⟨s ++ b, afterValue.skipBlanks.rest, hbefore.1, ?_, .mark hloc hb ?_⟩
    · rintro x hx y ⟨t', next, more, afterMark, hread, hmark', -⟩
      -- the same character stands behind the value as before, so even a number ends there again
      have hvalue := hkeeps (b ++ x :: y) (by rw [hblank.1]; exact head?_append_cons hx y)
      rw [List.append_assoc] at hread
      obtain rfl := hread.next_unique hvalue
      exact hrefuses x hx y more afterMark hmark'
    · rw [hoffset, hbefore.2]
  | @others t afterValue afterMark htree hcomma h =>
    obtain ⟨s, hpass, hloc, hkeeps⟩ := tree_keeps htree
    obtain ⟨b₁, hb₁, hpass₁, hkeeps₁⟩ := mark_keeps hmark.comma rfl (hmark.passes _ _ hcomma)
    obtain ⟨b₂, hb₂, hblank₂, hkeeps₂⟩ := skipBlanks_keeps afterMark
    obtain ⟨hlt, -⟩ := htree
    obtain ⟨hlt', -⟩ := hcomma
    obtain ⟨u, rest, hrest, hrefuses, hcompletes⟩ := ih' afterValue hlt afterMark hlt' e h
    have hbefore : c.Passes (s ++ (b₁ ++ ',' :: b₂)) afterMark.skipBlanks := by
      simpa using hpass.trans (hpass₁.trans hblank₂)
    refine ⟨s ++ (b₁ ++ ',' :: b₂) ++ u, rest, ?_, ?_, .others hloc hb₁ hb₂ ?_⟩
    · rw [hbefore.1, hrest, ← List.append_assoc]
    · rintro x hx y ⟨t', next, more, next', hread, hmark', hothers⟩
      have hshape : s ++ (b₁ ++ ',' :: b₂) ++ u ++ x :: y
          = s ++ (b₁ ++ ',' :: (b₂ ++ (u ++ x :: y))) := by simp
      -- up to the other parts, everything is read as before
      have hvalue := hkeeps (b₁ ++ ',' :: (b₂ ++ (u ++ x :: y)))
        (by rw [hpass₁.1]; simp [List.head?_append])
      rw [hshape] at hread
      obtain rfl := hread.next_unique hvalue
      have hcomma := hkeeps₁ (b₂ ++ (u ++ x :: y))
      obtain rfl := hmark'.next_unique hcomma
      obtain ⟨a, d, hread'⟩ := hothers (hmark'.unique hcomma)
      rw [hkeeps₂ (u ++ x :: y) (by rw [hrest]; exact head?_append_cons hx y)] at hread'
      exact hrefuses x hx y a d hread'
    · rwa [hbefore.2] at hcompletes

/-! ## Arrays -/

theorem includes_array (span : Span) (ts : List Tree) :
    (Phrase.value (.array span ts)).Includes (.items ts) :=
  ⟨fun _ h => List.mem_cons_of_mem _ h, fun _ h => h⟩

theorem includes_firstItem (t : Tree) (ts : List Tree) :
    (Phrase.items (t :: ts)).Includes (.value t) :=
  ⟨fun _ h => List.mem_append_left _ h, fun _ h => List.mem_append_left _ h⟩

theorem includes_otherItems (t : Tree) (ts : List Tree) :
    (Phrase.items (t :: ts)).Includes (.items ts) :=
  ⟨fun _ h => List.mem_append_right _ h, fun _ h => List.mem_append_right _ h⟩

theorem tree_stuck_array {rest : List Char}
    (ih : Stuck .items (arrayBody openRules (depth + 1)) (Cursor.skipBlanks ⟨o + 1, rest⟩)) :
    Stuck .value (tree openRules depth) ⟨o, '[' :: rest⟩ := by
  refine Stuck.of_body ']' rfl ?_ ?_ ?_ ih
  · intro e h
    rw [tree, enter_openRules, ok_bind] at h
    exact first_eq_error h fun _ => ⟨_, rfl⟩
  · intro rest t d hread
    rw [tree, enter_openRules, ok_bind] at hread
    exact hread.first
  · intro b s ts hb hs
    exact ⟨_, .array hb hs, includes_array _ ts⟩

theorem items_reads {c d : Cursor} {ts : List Tree} (h : Yields (items openRules depth c) ts d) :
    ReadsPart itemEnd (items openRules depth) depth c := by
  rw [items] at h
  obtain ⟨⟨t, afterItem, h₁⟩, htree, h⟩ := h.of_bind
  obtain ⟨⟨more, afterEnd, h₂⟩, hend, h⟩ := h.of_bind
  refine ⟨t, afterItem, more, afterEnd, ⟨h₁, htree⟩, ⟨h₂, hend⟩, ?_⟩
  rintro rfl
  exact h.first

theorem items_fails {c : Cursor} (h : items openRules depth c = .error e) :
    FailsPart itemEnd (items openRules depth) depth c e := by
  rw [items] at h
  rcases bind_eq_error h with h | ⟨⟨t, afterItem, h₁⟩, htree, h⟩
  · exact .value h
  rcases bind_eq_error h with h | ⟨⟨more, afterEnd, h₂⟩, hend, h⟩
  · exact .mark ⟨h₁, htree⟩ h
  cases more with
  | false => cases h
  | true =>
    replace h := first_eq_error h fun _ => ⟨_, rfl⟩
    exact .others ⟨h₁, htree⟩ ⟨h₂, hend⟩ h

theorem CompletesPart.items {u : List Char} (h : CompletesPart .items o e u) :
    Completes .items o u e := by
  cases h with
  | value h =>
    obtain ⟨r, t, hloc, hpoints⟩ := h
    apply Completes.of_located r (List.append_nil _) (.lastItem hloc blanks_nil)
    exact hpoints.inside [] [] rfl (includes_firstItem t [])
  | mark hloc hb hoffset =>
    exact Completes.of_located [] (List.append_nil _).symm (.lastItem hloc hb) (.here hoffset)
  | @others s b₁ b₂ u t hloc hb₁ hb₂ h =>
    obtain ⟨r, ts, hloc', hpoints⟩ := h
    apply Completes.of_located r (by simp) (.item hloc hb₁ hb₂ hloc')
    exact hpoints.inside (s ++ (b₁ ++ ',' :: b₂)) [] (by simp) (includes_otherItems t ts)

theorem items_stuck {c : Cursor} (ih : Stuck .value (tree openRules depth) c)
    (ih' : ∀ afterItem : Cursor, afterItem.rest.length < c.rest.length →
      ∀ afterEnd : Cursor, afterEnd.rest.length < afterItem.skipBlanks.rest.length →
        Stuck .items (items openRules depth) afterEnd.skipBlanks) :
    Stuck .items (items openRules depth) c := by
  intro e h
  obtain ⟨u, rest, hrest, hrefuses, hcompletes⟩ :=
    part_stuck endMark_itemEnd ih ih' (items_fails h)
  refine ⟨u, rest, hrest, ?_, hcompletes.items⟩
  intro x hx y a d hread
  exact hrefuses x hx y (items_reads hread)

/-! ## Objects -/

theorem includes_object (span : Span) (ms : List (Key × Tree)) :
    (Phrase.value (.object span ms)).Includes (.members ms) :=
  ⟨fun _ h => List.mem_cons_of_mem _ h, fun _ h => h⟩

theorem includes_firstMember (k : Key) (t : Tree) (ms : List (Key × Tree)) :
    (Phrase.members ((k, t) :: ms)).Includes (.value t) :=
  ⟨fun _ h => List.mem_append_left _ h,
    fun _ h => List.mem_cons_of_mem _ (List.mem_append_left _ h)⟩

theorem includes_otherMembers (k : Key) (t : Tree) (ms : List (Key × Tree)) :
    (Phrase.members ((k, t) :: ms)).Includes (.members ms) :=
  ⟨fun _ h => List.mem_append_right _ h,
    fun _ h => List.mem_cons_of_mem _ (List.mem_append_right _ h)⟩

theorem tree_stuck_object {rest : List Char}
    (ih : Stuck .members (objectBody openRules (depth + 1)) (Cursor.skipBlanks ⟨o + 1, rest⟩)) :
    Stuck .value (tree openRules depth) ⟨o, '{' :: rest⟩ := by
  refine Stuck.of_body '}' rfl ?_ ?_ ?_ ih
  · intro e h
    rw [tree, enter_openRules, ok_bind] at h
    exact first_eq_error h fun _ => ⟨_, rfl⟩
  · intro rest t d hread
    rw [tree, enter_openRules, ok_bind] at hread
    exact hread.first
  · intro b s ms hb hs
    exact ⟨_, .object hb hs, includes_object _ ms⟩

theorem members_reads {rest : List Char} {ms : List (Key × Tree)} {d : Cursor}
    (h : Yields (members openRules depth ⟨o, '"' :: rest⟩) ms d) :
    ∃ name afterKey afterColon, Yields (stringBody o ⟨o + 1, rest⟩) name afterKey
      ∧ Yields (colon afterKey.skipBlanks) () afterColon
      ∧ ReadsPart memberEnd (members openRules depth) depth afterColon.skipBlanks := by
  rw [members] at h
  obtain ⟨⟨name, afterKey, h₁⟩, hkey, h⟩ := h.of_bind
  obtain ⟨⟨_, afterColon, h₂⟩, hcolon, h⟩ := h.of_bind
  obtain ⟨⟨t, afterValue, h₃⟩, htree, h⟩ := h.of_bind
  obtain ⟨⟨more, afterEnd, h₄⟩, hend, h⟩ := h.of_bind
  refine ⟨name, afterKey, afterColon, ⟨h₁, hkey⟩, ⟨h₂, hcolon⟩, t, afterValue, more, afterEnd,
    ⟨h₃, htree⟩, ⟨h₄, hend⟩, ?_⟩
  rintro rfl
  exact h.first

theorem members_fails {rest : List Char}
    (h : members openRules depth ⟨o, '"' :: rest⟩ = .error e) :
    stringBody o ⟨o + 1, rest⟩ = .error e
      ∨ ∃ name afterKey, Yields (stringBody o ⟨o + 1, rest⟩) name afterKey
        ∧ (colon afterKey.skipBlanks = .error e
          ∨ ∃ afterColon, Yields (colon afterKey.skipBlanks) () afterColon
            ∧ FailsPart memberEnd (members openRules depth) depth afterColon.skipBlanks e) := by
  rw [members] at h
  rcases bind_eq_error h with h | ⟨⟨name, afterKey, h₁⟩, hkey, h⟩
  · exact .inl h
  refine .inr ⟨name, afterKey, ⟨h₁, hkey⟩, ?_⟩
  rcases bind_eq_error h with h | ⟨⟨_, afterColon, h₂⟩, hcolon, h⟩
  · exact .inl h
  refine .inr ⟨afterColon, ⟨h₂, hcolon⟩, ?_⟩
  rcases bind_eq_error h with h | ⟨⟨t, afterValue, h₃⟩, htree, h⟩
  · exact .value h
  rcases bind_eq_error h with h | ⟨⟨more, afterEnd, h₄⟩, hend, h⟩
  · exact .mark ⟨h₃, htree⟩ h
  cases more with
  | false => cases h
  | true =>
    replace h := first_eq_error h fun _ => ⟨_, rfl⟩
    exact .others ⟨h₃, htree⟩ ⟨h₄, hend⟩ h

/-- A string that was read is read again, whatever follows its closing quote. -/
theorem stringBody_keeps {opening : Nat} {c next : Cursor} {cs : List Char}
    (h : Yields (stringBody opening c) cs next) :
    ∃ k, Characters k cs ∧ c.Passes (k ++ ['"']) next
      ∧ ∀ y, Yields (stringBody opening ⟨c.offset, k ++ '"' :: y⟩) cs ⟨next.offset, y⟩ := by
  obtain ⟨hlt, heq⟩ := h
  have hensures := stringBody_ensures opening c
  rw [heq] at hensures
  obtain ⟨k, hpass, hk⟩ := hensures.of_ok
  refine ⟨k, hk, hpass, ?_⟩
  intro y
  have hoffset : next.offset = c.offset + byteLength k + 1 := by
    rw [hpass.2, byteLength_append]
    rfl
  rw [hoffset]
  exact stringBody_yields hk

/-- Where a key should stand, there may stand an empty one, with some value behind it. -/
theorem members_stuck_start {c : Cursor} (hquote : ∀ here rest, c = ⟨here, '"' :: rest⟩ → False) :
    Stuck .members (members openRules depth) c := by
  intro e h
  rw [members.eq_2 openRules depth c hquote] at h
  cases h
  refine ⟨[], c.rest, rfl, ?_, ?_⟩
  · intro x hx y a d hread
    rw [members.eq_2 openRules depth _ (ne_cons_of_head hquote rfl hx y)] at hread
    exact not_yields_error hread
  · have hloc := Located.lastMember (o := c.offset) .nil blanks_nil blanks_nil (openLocated_zero _)
      blanks_nil
    exact ⟨_, _, hloc, .here rfl⟩

/-- A key that fails may be completed, with some value behind it. -/
theorem members_stuck_key {rest : List Char} (h : stringBody o ⟨o + 1, rest⟩ = .error e) :
    ∃ u rest', '"' :: rest = u ++ rest' ∧ Refuses (members openRules depth) o u rest'
      ∧ Completes .members o u e := by
  obtain ⟨u, rest, r, cs, rfl, hrefuses, hcs, hpoints⟩ := stringBody_stuck o _ h
  refine ⟨'"' :: u, rest, rfl, ?_, ?_⟩
  · intro x hx y a d hread
    obtain ⟨name, afterKey, -, hkey, -⟩ := members_reads hread
    exact hrefuses x hx y name afterKey hkey
  · have hloc := Located.lastMember (o := o) hcs blanks_nil blanks_nil (openLocated_zero _)
      blanks_nil
    apply Completes.of_located (r ++ ['"', ':', '0']) (by simp) hloc
    have hshape : '"' :: (u ++ r ++ '"' :: ([] ++ ':' :: ([] ++ (['0'] ++ []))))
        = '"' :: (u ++ r ++ ['"']) ++ [':', '0'] := by simp
    rw [hshape]
    exact hpoints.pointsIn [':', '0'] (.key (k := ⟨String.ofList cs, _⟩) List.mem_cons_self)

/-- A key without a colon may be followed by one, and some value behind it. -/
theorem members_stuck_colon {rest name : List Char} {afterKey : Cursor}
    (hkey : Yields (stringBody o ⟨o + 1, rest⟩) name afterKey)
    (h : colon afterKey.skipBlanks = .error e) :
    ∃ u rest', '"' :: rest = u ++ rest' ∧ Refuses (members openRules depth) o u rest'
      ∧ Completes .members o u e := by
  obtain ⟨k, hk, hpass, hkeeps⟩ := stringBody_keeps hkey
  obtain ⟨b, hb, hblank, hoffset, hrefuses⟩ := mark_stuck colon_failsByHead h
  have hquoted : Cursor.Passes ⟨o, '"' :: rest⟩ ('"' :: (k ++ ['"'])) afterKey := hpass.byte rfl
  have hbefore : Cursor.Passes ⟨o, '"' :: rest⟩ ('"' :: (k ++ '"' :: b)) afterKey.skipBlanks := by
    simpa using hquoted.trans hblank
  refine ⟨'"' :: (k ++ '"' :: b), afterKey.skipBlanks.rest, hbefore.1, ?_, ?_⟩
  · intro x hx y a d hread
    have hshape : '"' :: (k ++ '"' :: b) ++ x :: y = '"' :: (k ++ '"' :: (b ++ x :: y)) := by simp
    rw [hshape] at hread
    obtain ⟨name', next, afterColon, hkey', hcolon, -⟩ := members_reads hread
    obtain rfl := hkey'.next_unique (hkeeps (b ++ x :: y))
    exact hrefuses x hx y () afterColon hcolon
  · have hloc := Located.lastMember (o := o) hk hb blanks_nil (openLocated_zero _) blanks_nil
    apply Completes.of_located [':', '0'] (by simp) hloc
    apply Fault.PointsIn.here
    rw [hoffset, hbefore.2]

/-- What completes the value of a member, with what follows it, completes the members. -/
theorem CompletesPart.members {k cs b₁ b₂ u : List Char} (hk : Characters k cs) (hb₁ : Blanks b₁)
    (hb₂ : Blanks b₂)
    (h : CompletesPart .members (o + byteLength ('"' :: (k ++ '"' :: (b₁ ++ ':' :: b₂)))) e u) :
    Completes .members o ('"' :: (k ++ '"' :: (b₁ ++ ':' :: b₂)) ++ u) e := by
  cases h with
  | value h =>
    obtain ⟨r, t, hloc, hpoints⟩ := h
    apply Completes.of_located r (by simp) (.lastMember hk hb₁ hb₂ hloc blanks_nil)
    exact hpoints.inside _ [] (by simp) (includes_firstMember _ t [])
  | mark hloc hb hoffset =>
    apply Completes.of_located [] (by simp) (.lastMember hk hb₁ hb₂ hloc hb)
    apply Fault.PointsIn.here
    rw [hoffset, Nat.add_assoc, ← byteLength_append]
  | @others s b₃ b₄ u t hloc hb₃ hb₄ h =>
    obtain ⟨r, ms, hloc', hpoints⟩ := h
    rw [Nat.add_assoc, ← byteLength_append] at hloc' hpoints
    have hshape : '"' :: (k ++ '"' :: (b₁ ++ ':' :: b₂)) ++ (s ++ (b₃ ++ ',' :: b₄))
        = '"' :: (k ++ '"' :: (b₁ ++ ':' :: (b₂ ++ (s ++ (b₃ ++ ',' :: b₄))))) := by simp
    rw [← List.append_assoc]
    rw [hshape] at hloc' hpoints ⊢
    apply Completes.of_located r (by simp) (.member hk hb₁ hb₂ hloc hb₃ hb₄ hloc')
    exact hpoints.inside _ [] (by simp) (includes_otherMembers _ t ms)

theorem members_stuck {rest : List Char}
    (ih : ∀ afterKey : Cursor, afterKey.rest.length < rest.length →
      ∀ afterColon : Cursor, afterColon.rest.length < afterKey.skipBlanks.rest.length →
        Stuck .value (tree openRules depth) afterColon.skipBlanks)
    (ih' : ∀ afterKey : Cursor, afterKey.rest.length < rest.length →
      ∀ afterColon : Cursor, afterColon.rest.length < afterKey.skipBlanks.rest.length →
        ∀ afterValue : Cursor, afterValue.rest.length < afterColon.skipBlanks.rest.length →
          ∀ afterEnd : Cursor, afterEnd.rest.length < afterValue.skipBlanks.rest.length →
            Stuck .members (members openRules depth) afterEnd.skipBlanks) :
    Stuck .members (members openRules depth) ⟨o, '"' :: rest⟩ := by
  intro e h
  rcases members_fails h with h | ⟨name, afterKey, hkey, h | ⟨afterColon, hcolon, h⟩⟩
  · exact members_stuck_key h
  · exact members_stuck_colon hkey h
  -- the key and the colon stand there, so what fails is the value or something behind it
  obtain ⟨k, hk, hpass, hkeeps⟩ := stringBody_keeps hkey
  obtain ⟨h₁, -⟩ := hkey
  obtain ⟨h₂, heq⟩ := hcolon
  have hmark := colon_ensures afterKey.skipBlanks
  rw [heq] at hmark
  obtain ⟨b₁, hb₁, hpass₁, hkeeps₁⟩ :=
    mark_keeps (fun o t => (⟨_, rfl⟩ : Yields (colon ⟨o, ':' :: t⟩) () ⟨o + 1, t⟩)) rfl hmark.of_ok
  obtain ⟨b₂, hb₂, hblank₂, hkeeps₂⟩ := skipBlanks_keeps afterColon
  have hquoted : Cursor.Passes ⟨o, '"' :: rest⟩ ('"' :: (k ++ ['"'])) afterKey := hpass.byte rfl
  have hbefore : Cursor.Passes ⟨o, '"' :: rest⟩ ('"' :: (k ++ '"' :: (b₁ ++ ':' :: b₂)))
      afterColon.skipBlanks := by
    simpa using hquoted.trans (hpass₁.trans hblank₂)
  obtain ⟨u, rest', hrest, hrefuses, hcompletes⟩ := part_stuck endMark_memberEnd
    (ih afterKey h₁ afterColon h₂) (ih' afterKey h₁ afterColon h₂) h
  rw [hbefore.2] at hcompletes
  refine ⟨'"' :: (k ++ '"' :: (b₁ ++ ':' :: b₂)) ++ u, rest', ?_, ?_, hcompletes.members hk hb₁ hb₂⟩
  · rw [hbefore.1, hrest, List.append_assoc]
  · intro x hx y a d hread
    have hshape : '"' :: (k ++ '"' :: (b₁ ++ ':' :: b₂)) ++ u ++ x :: y
        = '"' :: (k ++ '"' :: (b₁ ++ ':' :: (b₂ ++ (u ++ x :: y)))) := by simp
    rw [hshape] at hread
    obtain ⟨name', next, next', hkey', hcolon', hpart⟩ := members_reads hread
    obtain rfl := hkey'.next_unique (hkeeps _)
    obtain rfl := hcolon'.next_unique (hkeeps₁ _)
    rw [hkeeps₂ (u ++ x :: y) (by rw [hrest]; exact head?_append_cons hx y)] at hpart
    exact hrefuses x hx y hpart

/-! ## Values -/

/-- A value that fails may be completed up to some place and not behind it, and the fault points
    there. -/
theorem treeStuck (depth : Nat) (c : Cursor) : Stuck .value (tree openRules depth) c := by
  -- as in `treeEnsures`, the five readers are taken together
  refine tree.induct (fun depth c => Stuck .value (tree openRules depth) c)
    (fun depth c => Stuck .items (arrayBody openRules depth) c)
    (fun depth c => Stuck .items (items openRules depth) c)
    (fun depth c => Stuck .members (objectBody openRules depth) c)
    (fun depth c => Stuck .members (members openRules depth) c)
    ?_ ?_ ?_ ?_ ?_ ?_ ?_ ?_ ?_ ?_ depth c
  · intro depth here rest ih
    exact tree_stuck_object ih
  · intro depth here rest ih
    exact tree_stuck_array ih
  · intro depth c hobject harray
    exact tree_stuck_scalar hobject harray
  · intro depth here rest e h
    rw [arrayBody] at h
    cases h
  · intro depth c hclose ih
    exact Stuck.of_open (arrayBody.eq_2 openRules depth) hclose ih
  · intro depth c ih ih'
    exact items_stuck ih ih'
  · intro depth here rest e h
    rw [objectBody] at h
    cases h
  · intro depth c hclose ih
    exact Stuck.of_open (objectBody.eq_2 openRules depth) hclose ih
  · intro depth here rest ih ih'
    exact members_stuck ih ih'
  · intro depth c hquote
    exact members_stuck_start hquote

end BimEditor.Json
