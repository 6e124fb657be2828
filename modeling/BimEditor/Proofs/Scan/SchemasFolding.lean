/-
  BimEditor.Proofs.Scan.SchemasFolding

  The scan for the block of schemas sees the members of the root object. It counts brackets of both
  families in one depth and takes a string at depth one for a key if a colon and a brace follow. On
  a text that is read as a tree,

    * what lies deeper is balanced, so the scan leaves it at the depth at which it met it
      (`schemasFrom_enclosed`);
    * a string at depth one is a key or has no colon behind it (`schemasFrom_string`);
    * each member of the root is looked at once, in order (`findsSchemas_member`).

  So the region that is found is that of the first member whose key is spelled without escapes and
  whose value is an object (`schemasRegion_eq_find?`).
-/
import BimEditor.Proofs.Json.KeyedLists
import BimEditor.Proofs.Json.StringOrder
import BimEditor.Proofs.Scan.ArrayFolding
import BimEditor.Proofs.Scan.Containers
import BimEditor.Proofs.Scan.Stability

namespace BimEditor

open BimEditor.Text BimEditor.Json BimEditor.Scan

variable {denotes : Numeral → Number → Prop} {depth n o : Nat}
  {s k b₁ b₂ body rest text : List Char} {v : Tree}

namespace Scan

/-! ## Passing a text -/

/-- A character that is neither a quote nor a bracket leaves the depth. -/
theorem schemasFrom_plain {c : Char} (hc : isMark c = false ∨ c = ',') :
    schemasFrom depth ⟨o, c :: rest⟩ = schemasFrom depth ⟨o + c.utf8Size, rest⟩ := by
  obtain ⟨hquote, hopen, hclose⟩ := not_quote_nor_bracket hc
  exact schemasFrom_other hquote hopen hclose

theorem schemasFrom_append (hs : ∀ c ∈ s, isMark c = false ∨ c = ',') :
    schemasFrom depth ⟨o, s ++ rest⟩ = schemasFrom depth ⟨o + byteLength s, rest⟩ := by
  induction s generalizing o with
  | nil => rfl
  | cons c s ih =>
    obtain ⟨hc, hs⟩ := List.forall_mem_cons.1 hs
    rw [List.cons_append, schemasFrom_plain hc, ih hs, byteLength_cons, Nat.add_assoc]

theorem schemasFrom_openingBracket (d : Delimiter) :
    schemasFrom depth ⟨o, d.opening :: rest⟩ = schemasFrom (depth + 1) ⟨o + 1, rest⟩ :=
  schemasFrom_opening (by cases d <;> simp [Delimiter.opening])

theorem schemasFrom_closingBracket (d : Delimiter) :
    schemasFrom (depth + 1) ⟨o, d.closing :: rest⟩ = schemasFrom depth ⟨o + 1, rest⟩ :=
  schemasFrom_closing (by cases d <;> simp [Delimiter.closing])

/-- Behind a string the scan goes on, or has found the string to be the key of the schemas. -/
theorem schemasFrom_quoted (hk : Quoted k) :
    schemasFrom depth ⟨o, '"' :: (k ++ '"' :: rest)⟩
      = schemasBehind depth (schemasKey.isPrefixOf (k ++ '"' :: rest))
          ⟨o + byteLength ('"' :: (k ++ ['"'])), rest⟩ := by
  rw [schemasFrom_quote, afterString_string hk, Option.bind_some]

/-- Only a string of the outermost brackets can be the key of the schemas. -/
theorem schemasBehind_of_ne {isKey : Bool} {next : Cursor} (hdepth : depth ≠ 1) :
    schemasBehind depth isKey next = schemasFrom depth next := by
  rw [schemasBehind, if_neg fun h => hdepth h.1]

/-- Inside of two brackets or more, the scan passes a balanced text. -/
theorem schemasFrom_balanced (hs : Balanced s n) (hdepth : 2 ≤ depth) :
    schemasFrom depth ⟨o, s ++ rest⟩ = schemasFrom depth ⟨o + byteLength s, rest⟩ := by
  induction hs generalizing o depth rest with
  | nil => rfl
  | plain hc _ ih =>
    rw [List.cons_append, schemasFrom_plain (.inl hc), ih hdepth, byteLength_cons, Nat.add_assoc]
  | comma _ ih =>
    rw [List.cons_append, schemasFrom_plain (.inr rfl), ih hdepth, byteLength_cons, Nat.add_assoc]
  | @string k s n hk _ ih =>
    rw [List.cons_append, List.append_assoc, List.cons_append, schemasFrom_quoted hk,
      schemasBehind_of_ne (by omega), ih hdepth]
    congr 2
    simp only [byteLength_append, byteLength_cons, byteLength_nil]
    omega
  | @group s t m n d _ _ ihs iht =>
    have hplace : o + 1 + byteLength s + 1 + byteLength t
        = o + byteLength (d.opening :: (s ++ d.closing :: t)) := by
      simp only [byteLength_cons, byteLength_append, utf8Size_opening, utf8Size_closing]
      omega
    rw [List.cons_append, List.append_assoc, List.cons_append, schemasFrom_openingBracket,
      ihs (Nat.le_succ_of_le hdepth), schemasFrom_closingBracket, iht hdepth, hplace]

/-- A pair of brackets at depth one or more is passed, whatever keys stand between them. -/
theorem schemasFrom_enclosed (d : Delimiter) (hbody : Balanced body n) (hdepth : 1 ≤ depth) :
    schemasFrom depth ⟨o, d.enclose body ++ rest⟩
      = schemasFrom depth ⟨o + byteLength (d.enclose body), rest⟩ := by
  have hplace : o + 1 + byteLength body + 1 = o + byteLength (d.enclose body) := by
    simp only [Delimiter.enclose, byteLength_cons, byteLength_append, byteLength_nil,
      utf8Size_opening, utf8Size_closing]
    omega
  have hshape : d.enclose body ++ rest = d.opening :: (body ++ d.closing :: rest) := by
    simp [Delimiter.enclose]
  rw [hshape, schemasFrom_openingBracket, schemasFrom_balanced hbody (Nat.succ_le_succ hdepth),
    schemasFrom_closingBracket, hplace]

/-- A string with no colon and brace behind it is no key. -/
theorem schemasFrom_string (hk : Quoted k) (hrest : Unkeyed rest) :
    schemasFrom depth ⟨o, '"' :: (k ++ '"' :: rest)⟩
      = schemasFrom depth ⟨o + byteLength ('"' :: (k ++ ['"'])), rest⟩ := by
  rw [schemasFrom_quoted hk, schemasBehind, hrest]
  exact ite_self _

/-- A string begins like the key of the schemas only if it is spelled like that key: no quote can
    stand in it that a backslash does not hide. -/
theorem isPrefixOf_quoted_iff {w : List Char} (hw : ∀ x ∈ w, x ≠ '"' ∧ x ≠ '\\') (hk : Quoted k) :
    (w ++ ['"']).isPrefixOf (k ++ '"' :: rest) = true ↔ k = w := by
  -- along the string and the word at once: the string ends where its first plain quote stands
  induction hk generalizing w with
  | nil =>
    cases w with
    | nil => simp
    | cons x w => simp [(hw x List.mem_cons_self).1]
  | @plain c s hquote hslash _ ih =>
    cases w with
    | nil => simp [Ne.symm hquote]
    | cons x w =>
      have hw := ih fun y hy => hw y (List.mem_cons_of_mem x hy)
      simp only [List.cons_append, List.isPrefixOf_cons_cons, Bool.and_eq_true, beq_iff_eq, hw,
        List.cons.injEq]
      exact and_congr_left' eq_comm
  | @hidden c s _ ih =>
    cases w with
    | nil => simp
    | cons x w => simp [(hw x List.mem_cons_self).2, Ne.symm (hw x List.mem_cons_self).2]

end Scan

/-! ## The members of the root -/

namespace Json

/-- What stands between the quotes of the key, as it is written. -/
def Key.spelling (text : List Char) (key : Key) : List Char :=
  slice key.content.start key.content.stop text

/-- A member whose key is spelled `schemas`, without escapes, and whose value is an object. -/
def isSchemasMember (text : List Char) (m : Key × Tree) : Bool :=
  m.1.spelling text == ['s', 'c', 'h', 'e', 'm', 'a', 's'] && m.2.members?.isSome

/-- The region of the first such member. -/
def schemasBlock? (text : List Char) (members : List (Key × Tree)) : Option Region :=
  (members.find? (isSchemasMember text)).map fun m => ⟨m.2.span, .schemas⟩

theorem schemasBlock?_singleton (m : Key × Tree) :
    schemasBlock? text [m]
      = if isSchemasMember text m then some ⟨m.2.span, .schemas⟩ else none := by
  rw [schemasBlock?, List.find?_singleton]
  split <;> rfl

theorem schemasBlock?_cons (m : Key × Tree) (ms : List (Key × Tree)) :
    schemasBlock? text (m :: ms) = (schemasBlock? text [m]).or (schemasBlock? text ms) := by
  rw [schemasBlock?_singleton, schemasBlock?, schemasBlock?, List.find?_cons]
  cases isSchemasMember text m <;> rfl

/-! ## Values -/

/-- A value without parts is passed at any depth. -/
theorem ScalarText.schemasFrom_append {x : Scalar} (h : ScalarText denotes s x)
    (hrest : Unkeyed rest) :
    schemasFrom depth ⟨o, s ++ rest⟩ = schemasFrom depth ⟨o + byteLength s, rest⟩ := by
  rcases h.unmarked_or_quoted with hs | ⟨k, rfl, hk⟩
  · exact Scan.schemasFrom_append fun c hc => .inl (hs c hc)
  · have hshape : '"' :: (k ++ ['"']) ++ rest = '"' :: (k ++ '"' :: rest) := by simp
    rw [hshape, schemasFrom_string hk hrest]

/-- Inside of a bracket every value is passed. -/
theorem Located.schemasFrom_append (h : Located denotes o s (.value v)) (hdepth : 1 ≤ depth)
    (hrest : Unkeyed rest) :
    schemasFrom depth ⟨o, s ++ rest⟩ = schemasFrom depth ⟨o + byteLength s, rest⟩ := by
  cases hv : v.delimiter? with
  | some d =>
    obtain ⟨body, n, rfl, hbody, -⟩ := h.encloses hv
    exact schemasFrom_enclosed d hbody hdepth
  | none =>
    cases v with
    | leaf span x => exact h.scalarText.schemasFrom_append hrest
    | array span items => cases hv
    | object span members => cases hv

/-- Behind a key, a bracket is found only if the value stands between such brackets. -/
theorem keyedOpener_eq_none {d : Delimiter} {here : Nat} (hb₁ : Blanks b₁) (hb₂ : Blanks b₂)
    (h : Located denotes here s (.value v)) (hd : v.delimiter? ≠ some d) :
    keyedOpener d ⟨o, b₁ ++ ':' :: (b₂ ++ (s ++ rest))⟩ = none := by
  obtain ⟨x, r, rfl, hstarts, hopen⟩ :
      ∃ x r, s = x :: r ∧ startsValue x = true ∧ x ≠ d.opening := by
    cases hv : v.delimiter? with
    | some d' =>
      obtain ⟨body, n, rfl, -⟩ := h.encloses hv
      have hne : d' ≠ d := fun heq => hd (heq ▸ hv)
      exact ⟨d'.opening, _, rfl, by cases d' <;> rfl, (opening_ne_of_ne hne).1⟩
    | none =>
      cases v with
      | leaf span x =>
        obtain ⟨x, r, rfl, hstarts, hbrace, hbracket⟩ := h.scalarText.head
        refine ⟨x, r, rfl, hstarts, ?_⟩
        cases d with
        | brace => exact hbrace
        | bracket => exact hbracket
      | array span items => cases hv
      | object span members => cases hv
  have hx := (Cursor.stopsAt_cons _ _ _).1 (@stopsAt_blank _ rest ⟨x, r, rfl, hstarts⟩)
  rw [List.cons_append, keyedOpener_colon hb₁ hb₂ hx, if_neg hopen]

/-- Behind a key, an object is the region between its braces. -/
theorem keyedOpener_object (rest : List Char) (hb₁ : Blanks b₁) (hb₂ : Blanks b₂)
    (h : Located denotes (o + byteLength (b₁ ++ ':' :: b₂)) s (.value v))
    (hv : v.delimiter? = some .brace) :
    ∃ inside, keyedOpener .brace ⟨o, b₁ ++ ':' :: (b₂ ++ (s ++ rest))⟩ = some inside
      ∧ schemasRegion? inside = some ⟨v.span, .schemas⟩ := by
  have hspan := h.span
  obtain ⟨body, n, rfl, hbody, -⟩ := h.encloses hv
  have hshape : Delimiter.brace.enclose body ++ rest
      = Delimiter.brace.opening :: (body ++ Delimiter.brace.closing :: rest) := by
    simp [Delimiter.enclose]
  rw [hshape, keyedOpener_colon hb₁ hb₂ rfl, if_pos rfl]
  refine ⟨_, rfl, ?_⟩
  rw [schemasRegion?, closeFrom_body hbody, Option.map_some, hspan, spanAt]
  simp only [Delimiter.enclose, byteLength_cons, byteLength_append, byteLength_nil,
    utf8Size_opening, utf8Size_closing, Option.some.injEq, Region.mk.injEq, Span.mk.injEq, and_true]
  omega

theorem Tree.isSome_members? (v : Tree) :
    v.members?.isSome = true ↔ v.delimiter? = some .brace := by
  cases v <;> simp [Tree.members?, Tree.delimiter?]

/-- Behind the key of the schemas, the value is their block if it is an object; the scan passes
    every other one. -/
theorem schemasBehind_located {isKey : Bool} (hb₁ : Blanks b₁) (hb₂ : Blanks b₂)
    (h : Located denotes (o + byteLength (b₁ ++ ':' :: b₂)) s (.value v)) (hrest : Unkeyed rest) :
    schemasBehind 1 isKey ⟨o, b₁ ++ ':' :: (b₂ ++ (s ++ rest))⟩
      = if isKey && v.members?.isSome then some ⟨v.span, .schemas⟩
        else schemasFrom 1 ⟨o + byteLength (b₁ ++ ':' :: (b₂ ++ s)), rest⟩ := by
  have hpass : schemasFrom 1 ⟨o, b₁ ++ ':' :: (b₂ ++ (s ++ rest))⟩
      = schemasFrom 1 ⟨o + byteLength (b₁ ++ ':' :: (b₂ ++ s)), rest⟩ := by
    have hcolon : ∀ c ∈ b₁ ++ ':' :: b₂, isMark c = false ∨ c = ',' :=
      fun c hc => .inl ((hb₁.unmarked.append (.cons rfl hb₂.unmarked)) c hc)
    have hshape : b₁ ++ ':' :: (b₂ ++ (s ++ rest)) = (b₁ ++ ':' :: b₂) ++ (s ++ rest) := by simp
    rw [hshape, Scan.schemasFrom_append hcolon, h.schemasFrom_append (Nat.le_refl 1) hrest]
    congr 2
    simp only [byteLength_append, byteLength_cons]
    omega
  rw [schemasBehind, hpass]
  -- only an object has a brace behind the colon
  by_cases hobject : v.delimiter? = some .brace
  · obtain ⟨inside, hinside, hregion⟩ := keyedOpener_object rest hb₁ hb₂ h hobject
    rw [(Tree.isSome_members? v).2 hobject, hinside]
    cases isKey with
    | false => rfl
    | true => exact hregion
  · have hnone : v.members?.isSome = false :=
      Bool.eq_false_iff.2 (mt (Tree.isSome_members? v).1 hobject)
    rw [keyedOpener_eq_none hb₁ hb₂ h hobject, hnone, Bool.and_false]
    exact ite_self _

/-! ## Inside of the outermost brackets -/

theorem schemasFrom_blanks (hb : Blanks b₁) :
    schemasFrom depth ⟨o, b₁ ++ rest⟩ = schemasFrom depth ⟨o + byteLength b₁, rest⟩ :=
  Scan.schemasFrom_append fun c hc => .inl (hb.unmarked c hc)

/-- At depth one the scan passes `s`, which stands at byte `o` of the text, unless it finds a
    region in it. -/
def FindsSchemas (text : List Char) (o : Nat) (s : List Char) (found : Option Region) : Prop :=
  ∀ before rest, before ++ (s ++ rest) = text → byteLength before = o → Unkeyed rest →
    schemasFrom 1 ⟨o, s ++ rest⟩ = found.or (schemasFrom 1 ⟨o + byteLength s, rest⟩)

/-- What is found behind a piece that the scan has passed. -/
theorem FindsSchemas.behind {before r : List Char} {found : Option Region}
    (hr : FindsSchemas text (o + byteLength s) r found)
    (htext : before ++ (s ++ (r ++ rest)) = text) (hbefore : byteLength before = o)
    (hrest : Unkeyed rest) :
    schemasFrom 1 ⟨o + byteLength s, r ++ rest⟩
      = found.or (schemasFrom 1 ⟨o + byteLength (s ++ r), rest⟩) := by
  have htext' : (before ++ s) ++ (r ++ rest) = text := by rw [List.append_assoc, htext]
  have hbefore' : byteLength (before ++ s) = o + byteLength s := by rw [byteLength_append, hbefore]
  rw [hr _ rest htext' hbefore' hrest, byteLength_append, Nat.add_assoc]

theorem FindsSchemas.append {r : List Char} {found found' : Option Region}
    (hs : FindsSchemas text o s found) (hr : FindsSchemas text (o + byteLength s) r found')
    (hsep : Separates r) : FindsSchemas text o (s ++ r) (found.or found') := by
  intro before rest htext hbefore hrest
  rw [List.append_assoc] at htext ⊢
  rw [hs before (r ++ rest) htext hbefore (hsep rest hrest), hr.behind htext hbefore hrest,
    Option.or_assoc]

/-- Neither quotes nor brackets stand before what is found. -/
theorem FindsSchemas.before {r : List Char} {found : Option Region}
    (hs : ∀ c ∈ s, isMark c = false ∨ c = ',')
    (hr : FindsSchemas text (o + byteLength s) r found) : FindsSchemas text o (s ++ r) found := by
  intro before rest htext hbefore hrest
  rw [List.append_assoc] at htext ⊢
  rw [Scan.schemasFrom_append hs, hr.behind htext hbefore hrest]

theorem findsSchemas_blanks (hb : Blanks b₁) : FindsSchemas text o b₁ none :=
  fun _ _ _ _ _ => schemasFrom_blanks hb

theorem FindsSchemas.blanks {found : Option Region} (hs : FindsSchemas text o s found)
    (hb : Blanks b₁) : FindsSchemas text o (s ++ b₁) found := by
  have h := hs.append (findsSchemas_blanks hb) hb.separates
  rwa [Option.or_none] at h

/-- A part of a list, and what is found behind the comma. -/
theorem FindsSchemas.listed {r : List Char} {found found' : Option Region}
    (hs : FindsSchemas text o s found) (hb₁ : Blanks b₁) (hb₂ : Blanks b₂)
    (hr : FindsSchemas text (o + byteLength (s ++ (b₁ ++ ',' :: b₂))) r found') :
    FindsSchemas text o (s ++ (b₁ ++ ',' :: (b₂ ++ r))) (found.or found') := by
  have hcomma : ∀ c ∈ b₁ ++ ',' :: b₂, isMark c = false ∨ c = ',' := by
    intro c hc
    rcases List.mem_append.1 hc with hc | hc
    · exact .inl (hb₁.unmarked c hc)
    · rcases List.mem_cons.1 hc with rfl | hc
      · exact .inr rfl
      · exact .inl (hb₂.unmarked c hc)
  rw [byteLength_append, ← Nat.add_assoc] at hr
  have hbehind := hr.before hcomma
  rw [List.append_assoc, List.cons_append] at hbehind
  exact hs.append hbehind (separates_mark hb₁ rfl (by decide))

/-- A member is looked at once: its value is the block of schemas, or nothing is found. -/
theorem findsSchemas_member {cs : List Char} (hk : Characters k cs) (hb₁ : Blanks b₁)
    (hb₂ : Blanks b₂)
    (h : Located denotes (o + byteLength ('"' :: (k ++ '"' :: (b₁ ++ ':' :: b₂)))) s (.value v)) :
    FindsSchemas text o ('"' :: (k ++ '"' :: (b₁ ++ ':' :: (b₂ ++ s))))
      (schemasBlock? text [(⟨String.ofList cs, spanAt o ('"' :: (k ++ ['"']))⟩, v)]) := by
  intro before rest htext hbefore hrest
  have hshape : '"' :: (k ++ '"' :: (b₁ ++ ':' :: (b₂ ++ s))) ++ rest
      = '"' :: (k ++ '"' :: (b₁ ++ ':' :: (b₂ ++ (s ++ rest)))) := by simp
  have hplace : o + byteLength ('"' :: (k ++ '"' :: (b₁ ++ ':' :: b₂)))
      = o + byteLength ('"' :: (k ++ ['"'])) + byteLength (b₁ ++ ':' :: b₂) := by
    simp only [byteLength_append, byteLength_cons, byteLength_nil]
    omega
  have hend : o + byteLength ('"' :: (k ++ ['"'])) + byteLength (b₁ ++ ':' :: (b₂ ++ s))
      = o + byteLength ('"' :: (k ++ '"' :: (b₁ ++ ':' :: (b₂ ++ s)))) := by
    simp only [byteLength_append, byteLength_cons, byteLength_nil]
    omega
  -- the scan compares the characters behind the quote, the member is known by its spelling
  have hspelling : Key.spelling text ⟨String.ofList cs, spanAt o ('"' :: (k ++ ['"']))⟩ = k := by
    have hcut : Cut text (spanAt o ('"' :: (k ++ ['"']))) ('"' :: (k ++ ['"'])) :=
      ⟨before, b₁ ++ ':' :: (b₂ ++ (s ++ rest)), by simp [← htext], hbefore, rfl⟩
    exact (cut_inner hcut).slice
  have hkey : schemasKey.isPrefixOf (k ++ '"' :: (b₁ ++ ':' :: (b₂ ++ (s ++ rest))))
      = (k == ['s', 'c', 'h', 'e', 'm', 'a', 's']) := by
    have hplain : ∀ x ∈ ['s', 'c', 'h', 'e', 'm', 'a', 's'], x ≠ '"' ∧ x ≠ '\\' := by simp
    rw [Bool.eq_iff_iff, beq_iff_eq]
    exact isPrefixOf_quoted_iff hplain hk.quoted
  rw [hplace] at h
  rw [hshape, schemasFrom_quoted hk.quoted, schemasBehind_located hb₁ hb₂ h hrest, hkey, hend,
    schemasBlock?_singleton, isSchemasMember, hspelling]
  split <;> rfl

/-- What the scan finds in a phrase. -/
def Phrase.schemasBlock? (text : List Char) : Phrase Key Tree → Option Region
  | .value _ => none
  | .items _ => none
  | .members ms => Json.schemasBlock? text ms

/-- Inside of the outermost brackets, the scan finds the first member of the schemas, and nothing in
    values and items. -/
theorem Located.findsSchemas {p : Phrase Key Tree} (h : Located denotes o s p) :
    FindsSchemas text o s (p.schemasBlock? text) := by
  have hvalue : ∀ {o : Nat} {s : List Char} {v : Tree}, Located denotes o s (.value v) →
      FindsSchemas text o s none :=
    fun h _ _ _ _ hrest => h.schemasFrom_append (Nat.le_refl 1) hrest
  induction h with
  | scalar h => exact hvalue (.scalar h)
  | emptyArray hb => exact hvalue (.emptyArray hb)
  | array hb h => exact hvalue (.array hb h)
  | emptyObject hb => exact hvalue (.emptyObject hb)
  | object hb h => exact hvalue (.object hb h)
  | lastItem h hb _ => exact (hvalue h).blanks hb
  | item h hb₁ hb₂ _ _ ih => exact (hvalue h).listed hb₁ hb₂ ih
  | @lastMember o k cs b₁ b₂ s b₃ t hk hb₁ hb₂ h hb₃ _ =>
    have hshape : '"' :: (k ++ '"' :: (b₁ ++ ':' :: (b₂ ++ (s ++ b₃))))
        = '"' :: (k ++ '"' :: (b₁ ++ ':' :: (b₂ ++ s))) ++ b₃ := by simp
    rw [hshape]
    exact (findsSchemas_member hk hb₁ hb₂ h).blanks hb₃
  | @member o k cs b₁ b₂ s b₃ b₄ r t ms hk hb₁ hb₂ h hb₃ hb₄ _ _ ih =>
    have hshape : ∀ u, '"' :: (k ++ '"' :: (b₁ ++ ':' :: (b₂ ++ (s ++ u))))
        = '"' :: (k ++ '"' :: (b₁ ++ ':' :: (b₂ ++ s))) ++ u := by simp
    rw [hshape] at ih ⊢
    have hmembers := (findsSchemas_member hk hb₁ hb₂ h).listed hb₃ hb₄ ih
    rwa [Phrase.schemasBlock?, ← schemasBlock?_cons] at hmembers

/-! ## The whole text -/

/-- A key without escapes is read as it is spelled. -/
theorem Characters.eq_of_plain {cs : List Char} (h : Characters k cs) (hk : '\\' ∉ k) : cs = k := by
  induction h with
  | nil => rfl
  | cons hc _ ih =>
    obtain ⟨hfirst, hothers⟩ := not_or.1 (mt List.mem_append.2 hk)
    rw [ih hothers]
    cases hc with
    | plain _ _ _ => rfl
    | letter _ => exact absurd List.mem_cons_self hfirst
    | code _ => exact absurd List.mem_cons_self hfirst
    | pair _ _ _ _ _ _ _ => exact absurd List.mem_cons_self hfirst

variable {limits : Limits} {t : Tree}

theorem name_of_isSchemasMember (h : read limits text = .ok t) {m : Key × Tree}
    (hm : m ∈ t.members?.getD []) (hschemas : isSchemasMember text m = true) :
    m.1.name = "schemas" := by
  have hkey : m.1 ∈ t.keys := by
    cases hmembers : t.members? with
    | none =>
      rw [hmembers] at hm
      cases hm
    | some ms =>
      rw [hmembers] at hm
      exact Tree.mem_keys_of_members? hmembers hm
  obtain ⟨k, cs, hcut, hk, hname⟩ := content_cut_of_read h hkey
  rw [isSchemasMember, Bool.and_eq_true, beq_iff_eq, Key.spelling, hcut.slice] at hschemas
  rw [hname, hk.eq_of_plain (by simp [hschemas.1]), hschemas.1]

/-- Around the outermost brackets nothing is found. -/
theorem FindsSchemas.enclosed {before : List Char} {found : Option Region} (d : Delimiter)
    (h : FindsSchemas text (o + 1) body found) (htext : before ++ (d.enclose body ++ rest) = text)
    (hbefore : byteLength before = o) (hrest : '"' ∉ rest) :
    schemasFrom 0 ⟨o, d.enclose body ++ rest⟩ = found := by
  have hshape : d.enclose body ++ rest = d.opening :: (body ++ d.closing :: rest) := by
    simp [Delimiter.enclose]
  have hunkeyed : Unkeyed (d.closing :: rest) := by
    cases d <;> exact unkeyed_cons rfl (by decide)
  have hnone : ∀ here, schemasFrom 1 ⟨here, d.closing :: rest⟩ = none := by
    intro here
    refine schemasFrom_eq_none ?_
    rw [List.mem_cons, not_or]
    exact ⟨(closing_ne_quote d).symm, hrest⟩
  rw [hshape] at htext ⊢
  rw [schemasFrom_openingBracket,
    h (before ++ [d.opening]) _ (by simp [← htext]) (by simp [hbefore]) hunkeyed, hnone,
    Option.or_none]

/-- The same for the items or members between the brackets, with blanks before them. -/
theorem Located.schemasFrom_enclosed {p : Phrase Key Tree} {b before : List Char} (d : Delimiter)
    (hb : Blanks b) (h : Located denotes (o + byteLength (d.opening :: b)) s p)
    (htext : before ++ (d.enclose (b ++ s) ++ rest) = text) (hbefore : byteLength before = o)
    (hrest : '"' ∉ rest) :
    schemasFrom 0 ⟨o, d.enclose (b ++ s) ++ rest⟩ = p.schemasBlock? text := by
  rw [byteLength_cons, utf8Size_opening, ← Nat.add_assoc] at h
  have hbody : FindsSchemas text (o + 1) (b ++ s) (p.schemasBlock? text) :=
    h.findsSchemas.before fun c hc => .inl (hb.unmarked c hc)
  exact hbody.enclosed d htext hbefore hrest

/-- The scan finds the first member of the root that holds the schemas. -/
theorem schemasRegion_eq_schemasBlock? (h : read limits text = .ok t) :
    schemasRegion text = schemasBlock? text (t.members?.getD []) := by
  obtain ⟨-, b₁, s, b₂, rfl, hb₁, hb₂, hloc, -⟩ := read_eq_ok_iff.1 h
  have hquote := hb₂.quote_not_mem
  rw [schemasRegion, Cursor.atStart, schemasFrom_blanks hb₁, Nat.zero_add]
  -- the root has brackets of its own, so that the depth is one inside of it and zero behind it
  cases hloc with
  | scalar hscalar =>
    have hrest : Unkeyed b₂ := by simpa using unkeyed_nil.blanks hb₂
    rw [hscalar.schemasFrom_append hrest]
    exact schemasFrom_eq_none hquote
  | emptyArray hb => exact (findsSchemas_blanks hb).enclosed .bracket rfl rfl hquote
  | @array _ b s ts hb hitems =>
    rw [← List.append_assoc b]
    exact hitems.schemasFrom_enclosed .bracket hb rfl rfl hquote
  | emptyObject hb => exact (findsSchemas_blanks hb).enclosed .brace rfl rfl hquote
  | @object _ b s ms hb hmembers =>
    rw [← List.append_assoc b]
    exact hmembers.schemasFrom_enclosed .brace hb rfl rfl hquote

/-- On a text that is read as a tree, the block of schemas is the value of the first member of the
    root whose key is spelled `schemas` without escapes and whose value is an object. If no other
    member has that name, it is the value that a lookup of the name finds. -/
theorem schemasRegion_eq_find? (h : read limits text = .ok t) :
    schemasRegion text
        = ((t.members?.getD []).find? (isSchemasMember text)).map
            (fun m => ⟨m.2.span, .schemas⟩)
      ∧ ∀ m ∈ t.members?.getD [], isSchemasMember text m = true →
          (∀ other ∈ t.members?.getD [], other.1.name = "schemas" → other = m) →
            t.get? "schemas" = some m.2 ∧ schemasRegion text = some ⟨m.2.span, .schemas⟩ := by
  refine ⟨schemasRegion_eq_schemasBlock? h, fun m hm hschemas hothers => ⟨?_, ?_⟩⟩
  · obtain ⟨members, hmembers⟩ : ∃ members, t.members? = some members := by
      cases hmembers : t.members? with
      | none =>
        rw [hmembers] at hm
        cases hm
      | some members => exact ⟨members, rfl⟩
    have hname := name_of_isSchemasMember h hm hschemas
    rw [hmembers, Option.getD_some] at hm hothers
    have hlast : (members.reverse.find? fun other => other.1.name == "schemas") = some m := by
      refine find?_eq_some_of_unique (List.mem_reverse.2 hm) (beq_iff_eq.2 hname) ?_
      intro other hother hnamed
      exact hothers other (List.mem_reverse.1 hother) (beq_iff_eq.1 hnamed)
    rw [Tree.get?, Tree.entry?, hmembers, Option.bind_some, hlast, Option.map_some]
  · have hfirst : (t.members?.getD []).find? (isSchemasMember text) = some m := by
      refine find?_eq_some_of_unique hm hschemas ?_
      intro other hother hspelled
      exact hothers other hother (name_of_isSchemasMember h hother hspelled)
    rw [schemasRegion_eq_schemasBlock? h, schemasBlock?, hfirst, Option.map_some]

/-- A key of the schemas that is nested, a string like that key, and the key itself. -/
def nestedSchemas : List Char :=
  "\x7b\"h\":\x7b\"schemas\":\x7b\x7d\x7d,".toList
    ++ "\"v\":\"schemas\", \"schemas\" :\x7b\"\x7d\":[]\x7d\x7d".toList

/-- A key that is spelled with an escape, one whose value is no object, and the one that counts. -/
def repeatedSchemas : List Char :=
  "\x7b\"sch\\u0065mas\":\x7b\x7d,\"schemas\":[],\"schemas\":\x7b\x7d\x7d".toList

theorem schemasRegion_eq_find?_nested :
    schemasRegion nestedSchemas = some ⟨⟨46, 54⟩, .schemas⟩
      ∧ schemasRegion repeatedSchemas = some ⟨⟨42, 44⟩, .schemas⟩ := by
  have hnested : read .standard nestedSchemas
      = .ok (.object ⟨0, 55⟩
          [(⟨"h", ⟨1, 4⟩⟩, .object ⟨5, 19⟩ [(⟨"schemas", ⟨6, 15⟩⟩, .object ⟨16, 18⟩ [])]),
            (⟨"v", ⟨20, 23⟩⟩, .leaf ⟨24, 33⟩ (.string "schemas")),
            (⟨"schemas", ⟨35, 44⟩⟩, .object ⟨46, 54⟩
              [(⟨"\x7d", ⟨47, 50⟩⟩, .array ⟨51, 53⟩ [])])]) := by
    with_unfolding_all rfl
  have hrepeated : read .standard repeatedSchemas
      = .ok (.object ⟨0, 45⟩
          [(⟨"schemas", ⟨1, 15⟩⟩, .object ⟨16, 18⟩ []),
            (⟨"schemas", ⟨19, 28⟩⟩, .array ⟨29, 31⟩ []),
            (⟨"schemas", ⟨32, 41⟩⟩, .object ⟨42, 44⟩ [])]) := by
    with_unfolding_all rfl
  refine ⟨((schemasRegion_eq_find? hnested).2 _ (.tail _ (.tail _ (.head _))) ?_ ?_).2, ?_⟩
  · with_unfolding_all rfl
  · rintro other hother hname
    simp only [Tree.members?, Option.getD_some, List.mem_cons, List.not_mem_nil, or_false] at hother
    rcases hother with rfl | rfl | rfl
    · exact absurd hname (by decide)
    · exact absurd hname (by decide)
    · rfl
  · rw [(schemasRegion_eq_find? hrepeated).1]
    with_unfolding_all rfl

end Json

end BimEditor
