/-
  BimEditor.Proofs.Scan.Stability

  What is folded before a place of a text does not depend on the text behind it. Every scanner of
  raw text finds in a text that is cut at byte `k` exactly what it finds in the whole text up to
  that byte (`arrayRegions_takeBytes`, `schemasRegion_takeBytes`), valid or not. So two texts with
  the same first `k` bytes have the same regions up to there (`regions_eq_of_bytes_eq`): an edit
  behind a region does not make it flicker.

  The proofs follow the scanners from left to right. At each character that still lies before the
  cut both scans do the same; from the first one that does not, the scan of the cut text has ended,
  and what the other one finds ends behind the cut.
-/
import BimEditor.Proofs.Scan.Steps
import BimEditor.Proofs.Text.Beginning

namespace BimEditor.Scan

open BimEditor.Text

variable {d : Delimiter} {inner depth least k o : Nat} {x : Char} {rest : List Char}

/-- What is found is dropped, if it does not count. -/
theorem filter_eq_none {α : Type} {found : Option α} {counts : α → Prop} [DecidablePred counts]
    (h : ∀ a, found = some a → ¬ counts a) : found.filter (fun a => counts a) = none := by
  rw [Option.filter_eq_none_iff]
  intro a ha
  rw [decide_eq_true_eq]
  exact h a ha

/-! ## Strings -/

/-- A string is skipped in the cut text if it ends before the cut. -/
theorem afterString_upTo (k : Nat) (c : Cursor) :
    afterString (c.upTo k)
      = ((afterString c).filter fun next => next.offset ≤ k).map (Cursor.upTo k) := by
  induction c using stringInduction with
  | nil o => rfl
  | quote o rest =>
    rw [afterString_quote, Option.filter_some]
    by_cases hfits : o + 1 ≤ k
    · rw [Cursor.upTo_cons_of_le hfits, afterString_quote, if_pos (by simpa using hfits)]
      rfl
    · rw [Cursor.upTo_cons_of_lt (Nat.lt_of_not_le hfits), if_neg (by simpa using hfits)]
      rfl
  | lastSlash o =>
    by_cases hfits : o + 1 ≤ k
    · rw [Cursor.upTo_cons_of_le hfits]
      rfl
    · rw [Cursor.upTo_cons_of_lt (Nat.lt_of_not_le hfits)]
      rfl
  | slash o c rest ih =>
    rw [afterString_slash]
    by_cases hfits : o + 1 + c.utf8Size ≤ k
    · rw [Cursor.upTo_byte_of_le rfl (by omega), Cursor.upTo_cons_of_le hfits, afterString_slash,
        ← ih]
      rfl
    · -- neither a backslash alone nor nothing is a string
      have hnone : afterString (Cursor.upTo k ⟨o, '\\' :: c :: rest⟩) = none := by
        by_cases hfirst : o + 1 ≤ k
        · rw [Cursor.upTo_byte_of_le rfl hfirst, Cursor.upTo_cons_of_lt (Nat.lt_of_not_le hfits)]
          rfl
        · rw [Cursor.upTo_cons_of_lt (Nat.lt_of_not_le hfirst)]
          rfl
      rw [hnone, filter_eq_none]
      · rfl
      · intro next hnext
        have hlt := lt_offset_of_afterString hnext
        dsimp only at hlt
        omega
  | other o c rest hquote hslash ih =>
    rw [afterString_other hquote hslash]
    by_cases hfits : o + c.utf8Size ≤ k
    · rw [Cursor.upTo_cons_of_le hfits, afterString_other hquote hslash, ← ih]
      rfl
    · rw [Cursor.upTo_cons_of_lt (Nat.lt_of_not_le hfits), filter_eq_none]
      · rfl
      · intro next hnext
        have hlt := lt_offset_of_afterString hnext
        dsimp only at hlt
        omega

/-- What is found behind a string agrees, if it agrees from the end of the string on, and if nothing
    counts that is found from behind the cut. -/
theorem bind_afterString_upTo {α : Type} {p : α → Bool} {find find' : Cursor → Option α}
    {c : Cursor}
    (hbefore : ∀ next, afterString c = some next → next.offset ≤ k →
      find (next.upTo k) = (find' next).filter p)
    (hbehind : ∀ next, afterString c = some next → k < next.offset → (find' next).filter p = none) :
    (afterString (c.upTo k)).bind find = ((afterString c).bind find').filter p := by
  rw [afterString_upTo]
  cases hnext : afterString c with
  | none => rfl
  | some next =>
    by_cases hle : next.offset ≤ k
    · simp only [Option.filter_some, hle, decide_true, if_true, Option.map_some, Option.bind_some]
      exact hbefore next hnext hle
    · simp only [Option.filter_some, hle, decide_false, Option.bind_some]
      exact (hbehind next hnext (Nat.lt_of_not_le hle)).symm

/-! ## Matching brackets -/

/-- A bracket is closed in the cut text if it is closed before the cut. -/
theorem closeFrom_upTo (d : Delimiter) (inner k : Nat) (c : Cursor) :
    closeFrom d inner (c.upTo k) = (closeFrom d inner c).filter fun close => close < k := by
  have hnone : ∀ {o x rest inner}, k < o + x.utf8Size →
      (closeFrom d inner ⟨o, x :: rest⟩).filter (fun close => close < k) = none := by
    intro o x rest inner hk
    refine filter_eq_none fun close hclose => ?_
    have hle := le_of_closeFrom_cons hclose
    omega
  induction c using scanInduction generalizing inner with
  | nil o =>
    rw [Cursor.upTo_nil, closeFrom_nil]
    rfl
  | quote o rest ih =>
    by_cases hfits : o + 1 ≤ k
    · rw [Cursor.upTo_byte_of_le rfl hfits, closeFrom_quote, closeFrom_quote]
      refine bind_afterString_upTo (fun next hnext _ => ih next hnext inner) ?_
      intro next hnext hk
      refine filter_eq_none fun close hclose => ?_
      have hle := offset_le_of_closeFrom hclose
      omega
    · rw [Cursor.upTo_cons_of_lt (Nat.lt_of_not_le hfits), closeFrom_nil]
      exact (hnone (Nat.lt_of_not_le hfits)).symm
  | other o c rest hquote ih =>
    by_cases hfits : o + c.utf8Size ≤ k
    · rw [Cursor.upTo_cons_of_le hfits]
      rcases closeFrom_step d inner hquote with ⟨hsize, hfound⟩ | ⟨inner', hnext⟩
      · rw [hfound, hfound, Option.filter_some, if_pos (by rw [decide_eq_true_eq]; omega)]
      · rw [hnext, hnext, ← ih]
        rfl
    · rw [Cursor.upTo_cons_of_lt (Nat.lt_of_not_le hfits), closeFrom_nil]
      exact (hnone (Nat.lt_of_not_le hfits)).symm

/-! ## Keys -/

theorem offset_lt_of_keyedOpener {c inside : Cursor} (h : keyedOpener d c = some inside) :
    c.offset < inside.offset := by
  obtain ⟨b₁, b₂, -, -, -, hoffset⟩ := keyedOpener_eq_some_iff.1 h
  simp only [byteLength_append, byteLength_cons, utf8Size_opening] at hoffset
  omega

/-- A key is followed by a bracket in the cut text if the bracket lies before the cut. -/
theorem keyedOpener_upTo {c : Cursor} (hk : c.offset ≤ k) :
    keyedOpener d (c.upTo k)
      = ((keyedOpener d c).filter fun inside => inside.offset ≤ k).map (Cursor.upTo k) := by
  ext inside
  simp only [Option.map_eq_some_iff, Option.filter_eq_some_iff, decide_eq_true_eq,
    keyedOpener_eq_some_iff, Cursor.passes_upTo_iff hk]
  constructor
  · rintro ⟨b₁, b₂, hb₁, hb₂, place, hpass, hle, rfl⟩
    exact ⟨place, ⟨⟨b₁, b₂, hb₁, hb₂, hpass⟩, hle⟩, rfl⟩
  · rintro ⟨place, ⟨⟨b₁, b₂, hb₁, hb₂, hpass⟩, hle⟩, rfl⟩
    exact ⟨b₁, b₂, hb₁, hb₂, place, hpass, hle, rfl⟩

/-! ## Large arrays -/

/-- A region ends behind its opening bracket. -/
theorem offset_lt_of_arrayRegion? {c : Cursor} {r : Region} (h : arrayRegion? least c = some r) :
    c.offset < r.span.stop := by
  rw [arrayRegion?_eq, Option.bind_eq_some_iff] at h
  obtain ⟨inside, hinside, h⟩ := h
  obtain ⟨close, hclose, hregion⟩ := Option.bind_eq_some_iff.1 h
  have hopen := offset_lt_of_keyedOpener hinside
  have hle := offset_le_of_closeFrom hclose
  rw [stop_of_regionTo? hregion]
  omega

/-- A region before the cut has the same elements in the text that is cut. -/
theorem regionTo?_upTo {inside : Cursor} {close : Nat} (hk : close < k) :
    regionTo? least (inside.upTo k) close = regionTo? least inside close := by
  have hle : close - inside.offset ≤ k - inside.offset := by omega
  simp only [regionTo?, Cursor.upTo, takeBytes_takeBytes hle]

theorem filter_regionTo? {inside : Cursor} (close : Nat) :
    (regionTo? least inside close).filter (fun r => r.span.stop ≤ k)
      = if close < k then regionTo? least inside close else none := by
  cases hregion : regionTo? least inside close with
  | none =>
    split <;> rfl
  | some r =>
    rw [Option.filter_some, stop_of_regionTo? hregion]
    by_cases hk : close < k
    · rw [if_pos hk, if_pos (decide_eq_true (Nat.succ_le_of_lt hk))]
    · rw [if_neg hk, if_neg (by rw [decide_eq_true_eq]; omega)]

/-- The value of a key is a region of the cut text if it is one that ends before the cut. -/
theorem arrayRegion?_upTo {c : Cursor} (hk : c.offset ≤ k) :
    arrayRegion? least (c.upTo k) = (arrayRegion? least c).filter fun r => r.span.stop ≤ k := by
  rw [arrayRegion?_eq, arrayRegion?_eq, keyedOpener_upTo hk]
  cases keyedOpener .bracket c with
  | none => rfl
  | some inside =>
    rw [Option.filter_some, Option.bind_some]
    by_cases hle : inside.offset ≤ k
    · rw [if_pos (decide_eq_true hle), Option.map_some, Option.bind_some, closeFrom_upTo]
      cases closeFrom .bracket 0 inside with
      | none => rfl
      | some close =>
        rw [Option.filter_some, Option.bind_some, filter_regionTo?]
        by_cases hclose : close < k
        · rw [if_pos (decide_eq_true hclose), if_pos hclose]
          exact regionTo?_upTo hclose
        · rw [if_neg hclose, if_neg (by simpa using hclose)]
          rfl
    · -- a bracket that is opened behind the cut is not closed before it
      rw [if_neg (by simpa using hle), Option.map_none, Option.bind_none, filter_eq_none]
      intro r hr
      obtain ⟨close, hclose, hregion⟩ := Option.bind_eq_some_iff.1 hr
      have := offset_le_of_closeFrom hclose
      rw [stop_of_regionTo? hregion]
      omega

theorem mem_regionsBehind {next : Cursor} {r : Region} :
    r ∈ regionsBehind least next
      ↔ arrayRegion? least next = some r ∨ r ∈ arraysFrom least next := by
  rw [regionsBehind, List.mem_append, Option.mem_toList]

theorem mem_arraysFrom_quote {r : Region} :
    r ∈ arraysFrom least ⟨o, '"' :: rest⟩
      ↔ ∃ next, afterString ⟨o + 1, rest⟩ = some next ∧ r ∈ regionsBehind least next := by
  rw [arraysFrom_quote]
  cases afterString ⟨o + 1, rest⟩ <;> simp

/-- Every region ends behind the place where the scan began. -/
theorem offset_lt_of_mem_arraysFrom {c : Cursor} {r : Region} (h : r ∈ arraysFrom least c) :
    c.offset < r.span.stop := by
  induction c using scanInduction with
  | nil o =>
    rw [arraysFrom_nil] at h
    cases h
  | quote o rest ih =>
    obtain ⟨next, hnext, hr⟩ := mem_arraysFrom_quote.1 h
    have hlt := lt_offset_of_afterString hnext
    dsimp only at hlt ⊢
    rcases mem_regionsBehind.1 hr with hregion | hlater
    · have := offset_lt_of_arrayRegion? hregion
      omega
    · have := ih next hnext hlater
      omega
  | other o c rest hquote ih =>
    rw [arraysFrom_other hquote] at h
    exact Nat.lt_of_le_of_lt (Nat.le_add_right _ _) (ih h)

theorem offset_lt_of_mem_regionsBehind {next : Cursor} {r : Region}
    (h : r ∈ regionsBehind least next) : next.offset < r.span.stop := by
  rcases mem_regionsBehind.1 h with hregion | hlater
  · exact offset_lt_of_arrayRegion? hregion
  · exact offset_lt_of_mem_arraysFrom hlater

/-- It ends behind the first character. -/
theorem lt_of_mem_arraysFrom_cons {r : Region} (h : r ∈ arraysFrom least ⟨o, x :: rest⟩) :
    o + x.utf8Size < r.span.stop := by
  by_cases hquote : x = '"'
  · subst hquote
    obtain ⟨next, hnext, hr⟩ := mem_arraysFrom_quote.1 h
    exact Nat.lt_trans (lt_offset_of_afterString hnext) (offset_lt_of_mem_regionsBehind hr)
  · rw [arraysFrom_other hquote] at h
    exact offset_lt_of_mem_arraysFrom h

/-- The large arrays of the cut text are those that end before the cut. -/
theorem arraysFrom_upTo (least k : Nat) (c : Cursor) :
    arraysFrom least (c.upTo k) = (arraysFrom least c).filter fun r => r.span.stop ≤ k := by
  have hnone : ∀ {regions : List Region}, (∀ r ∈ regions, k < r.span.stop) →
      regions.filter (fun r => r.span.stop ≤ k) = [] := by
    intro regions hbehind
    rw [List.filter_eq_nil_iff]
    intro r hr
    have := hbehind r hr
    rw [decide_eq_true_eq]
    omega
  induction c using scanInduction with
  | nil o =>
    rw [Cursor.upTo_nil, arraysFrom_nil]
    rfl
  | quote o rest ih =>
    by_cases hfits : o + 1 ≤ k
    · rw [Cursor.upTo_byte_of_le rfl hfits, arraysFrom_quote, arraysFrom_quote]
      show ((afterString (Cursor.upTo k ⟨o + 1, rest⟩)).map (regionsBehind least)).getD [] = _
      rw [afterString_upTo]
      cases hnext : afterString ⟨o + 1, rest⟩ with
      | none => rfl
      | some next =>
        rw [Option.filter_some, Option.map_some, Option.getD_some]
        by_cases hle : next.offset ≤ k
        · rw [if_pos (decide_eq_true hle), Option.map_some, Option.map_some, Option.getD_some,
            regionsBehind, regionsBehind, List.filter_append, arrayRegion?_upTo hle, ih next hnext,
            Option.toList_filter]
        · have hlt : k < next.offset := Nat.lt_of_not_le hle
          rw [if_neg (by simpa using hle), hnone]
          · rfl
          · intro r hr
            exact Nat.lt_trans hlt (offset_lt_of_mem_regionsBehind hr)
    · have hlt : k < o + 1 := Nat.lt_of_not_le hfits
      rw [Cursor.upTo_cons_of_lt hlt, arraysFrom_nil, hnone]
      intro r hr
      exact Nat.lt_trans hlt (lt_of_mem_arraysFrom_cons hr)
  | other o c rest hquote ih =>
    by_cases hfits : o + c.utf8Size ≤ k
    · rw [Cursor.upTo_cons_of_le hfits, arraysFrom_other hquote, arraysFrom_other hquote, ← ih]
      rfl
    · have hlt : k < o + c.utf8Size := Nat.lt_of_not_le hfits
      rw [Cursor.upTo_cons_of_lt hlt, arraysFrom_nil, hnone]
      intro r hr
      exact Nat.lt_trans hlt (lt_of_mem_arraysFrom_cons hr)

/-! ## The block of schemas -/

/-- A text without quotes has no keys. -/
theorem schemasFrom_eq_none {c : Cursor} (h : '"' ∉ c.rest) : schemasFrom depth c = none := by
  induction c using scanInduction generalizing depth with
  | nil o => exact schemasFrom_nil
  | quote o rest ih => exact absurd List.mem_cons_self h
  | other o c rest hquote ih =>
    obtain ⟨depth', hnext⟩ := schemasFrom_step depth hquote
    rw [hnext]
    exact ih fun hmem => h (List.mem_cons_of_mem _ hmem)

theorem offset_lt_of_schemasRegion? {inside : Cursor} {r : Region}
    (h : schemasRegion? inside = some r) : inside.offset < r.span.stop := by
  obtain ⟨close, hclose, rfl⟩ := Option.map_eq_some_iff.1 h
  exact Nat.lt_succ_of_le (offset_le_of_closeFrom hclose)

theorem schemasRegion?_upTo (k : Nat) (inside : Cursor) :
    schemasRegion? (inside.upTo k)
      = (schemasRegion? inside).filter fun r => r.span.stop ≤ k := by
  rw [schemasRegion?, schemasRegion?, closeFrom_upTo, Option.filter_map]
  rfl

/-- The first key of a string is spelled the same in the cut text, if it ends before the cut. -/
theorem isPrefixOf_upTo {c next : Cursor} (hnext : afterString c = some next)
    (hk : next.offset ≤ k) :
    schemasKey.isPrefixOf (c.upTo k).rest = schemasKey.isPrefixOf c.rest := by
  rw [Bool.eq_iff_iff, List.isPrefixOf_iff_prefix, List.isPrefixOf_iff_prefix]
  constructor
  · intro h
    exact h.trans (takeBytes_isPrefix _ _)
  · rintro ⟨after, hafter⟩
    obtain ⟨o, text⟩ := c
    dsimp only at hafter
    subst hafter
    have hkey : afterString ⟨o, schemasKey ++ after⟩ = some ⟨o + byteLength schemasKey, after⟩ := by
      have hplain : ∀ x ∈ ['s', 'c', 'h', 'e', 'm', 'a', 's'], x ≠ '"' ∧ x ≠ '\\' := by
        simp
      exact afterString_append hplain
    obtain rfl := Option.some.inj (hnext.symm.trans hkey)
    have hpass : Cursor.Passes ⟨o, schemasKey ++ after⟩ schemasKey
        ⟨o + byteLength schemasKey, after⟩ := ⟨rfl, rfl⟩
    exact ⟨_, (hpass.upTo hk).1.symm⟩

/-- Behind a string: the block of schemas that it is the key of, or one that is found later. -/
theorem schemasBehind_cases {isKey : Bool} {next : Cursor} {r : Region}
    (h : schemasBehind depth isKey next = some r) :
    (∃ inside, keyedOpener .brace next = some inside ∧ schemasRegion? inside = some r)
      ∨ schemasFrom depth next = some r := by
  rw [schemasBehind] at h
  split at h
  · split at h
    · next inside hinside => exact .inl ⟨inside, hinside, h⟩
    · exact .inr h
  · exact .inr h

/-- The block of schemas ends behind the place where the scan began. -/
theorem offset_lt_of_schemasFrom {c : Cursor} {r : Region} (h : schemasFrom depth c = some r) :
    c.offset < r.span.stop := by
  induction c using scanInduction generalizing depth with
  | nil o =>
    rw [schemasFrom_nil] at h
    cases h
  | quote o rest ih =>
    rw [schemasFrom_quote, Option.bind_eq_some_iff] at h
    obtain ⟨next, hnext, hr⟩ := h
    have hlt := lt_offset_of_afterString hnext
    dsimp only at hlt ⊢
    rcases schemasBehind_cases hr with ⟨inside, hinside, hregion⟩ | hlater
    · have := offset_lt_of_keyedOpener hinside
      have := offset_lt_of_schemasRegion? hregion
      omega
    · have := ih next hnext hlater
      omega
  | other o c rest hquote ih =>
    obtain ⟨depth', hnext⟩ := schemasFrom_step depth hquote
    rw [hnext] at h
    exact Nat.lt_of_le_of_lt (Nat.le_add_right _ _) (ih h)

theorem offset_lt_of_schemasBehind {isKey : Bool} {next : Cursor} {r : Region}
    (h : schemasBehind depth isKey next = some r) : next.offset < r.span.stop := by
  rcases schemasBehind_cases h with ⟨inside, hinside, hregion⟩ | hlater
  · exact Nat.lt_trans (offset_lt_of_keyedOpener hinside) (offset_lt_of_schemasRegion? hregion)
  · exact offset_lt_of_schemasFrom hlater

/-- It ends behind the first character. -/
theorem lt_of_schemasFrom_cons {r : Region} (h : schemasFrom depth ⟨o, x :: rest⟩ = some r) :
    o + x.utf8Size < r.span.stop := by
  by_cases hquote : x = '"'
  · subst hquote
    rw [schemasFrom_quote, Option.bind_eq_some_iff] at h
    obtain ⟨next, hnext, hr⟩ := h
    exact Nat.lt_trans (lt_offset_of_afterString hnext) (offset_lt_of_schemasBehind hr)
  · obtain ⟨depth', hnext⟩ := schemasFrom_step depth hquote
    rw [hnext] at h
    exact offset_lt_of_schemasFrom h

/-- Where a key's value is opened behind the cut, no string follows the key before the cut. -/
theorem quote_not_mem_upTo {next inside : Cursor} (h : keyedOpener .brace next = some inside)
    (hk : k < inside.offset) : '"' ∉ (next.upTo k).rest := by
  obtain ⟨b₁, b₂, hb₁, hb₂, hrest, hoffset⟩ := keyedOpener_eq_some_iff.1 h
  have hcut : takeBytes (k - next.offset) next.rest
      <+: b₁ ++ ':' :: (b₂ ++ [Delimiter.brace.opening]) := by
    rw [hrest]
    exact takeBytes_append_isPrefix (by omega)
  intro hmem
  have hquote := hcut.subset hmem
  simp only [List.mem_append, List.mem_cons, List.not_mem_nil, or_false] at hquote
  rcases hquote with hquote | hquote | hquote | hquote
  · exact absurd (hb₁ _ hquote) (by decide)
  · exact absurd hquote (by decide)
  · exact absurd (hb₂ _ hquote) (by decide)
  · exact absurd hquote (by decide)

theorem schemasBehind_upTo {isKey : Bool} {next : Cursor} (hk : next.offset ≤ k)
    (hlater : schemasFrom depth (next.upTo k)
      = (schemasFrom depth next).filter fun r => r.span.stop ≤ k) :
    schemasBehind depth isKey (next.upTo k)
      = (schemasBehind depth isKey next).filter fun r => r.span.stop ≤ k := by
  rw [schemasBehind, schemasBehind]
  split
  · rw [keyedOpener_upTo hk]
    cases hinside : keyedOpener .brace next with
    | none => exact hlater
    | some inside =>
      rw [Option.filter_some]
      by_cases hle : inside.offset ≤ k
      · rw [if_pos (decide_eq_true hle)]
        exact schemasRegion?_upTo k inside
      · -- the scan of the cut text goes on behind the key and finds nothing more
        have hlt : k < inside.offset := Nat.lt_of_not_le hle
        rw [if_neg (by simpa using hle)]
        show schemasFrom depth (next.upTo k) = (schemasRegion? inside).filter _
        rw [schemasFrom_eq_none (quote_not_mem_upTo hinside hlt), filter_eq_none]
        intro r hr
        have := offset_lt_of_schemasRegion? hr
        omega
  · exact hlater

/-- The block of schemas of the cut text is that of the whole text, if it ends before the cut. -/
theorem schemasFrom_upTo (depth k : Nat) (c : Cursor) :
    schemasFrom depth (c.upTo k) = (schemasFrom depth c).filter fun r => r.span.stop ≤ k := by
  induction c using scanInduction generalizing depth with
  | nil o =>
    rw [Cursor.upTo_nil, schemasFrom_nil]
    rfl
  | quote o rest ih =>
    by_cases hfits : o + 1 ≤ k
    · rw [Cursor.upTo_byte_of_le rfl hfits, schemasFrom_quote, schemasFrom_quote]
      refine bind_afterString_upTo (fun next hnext hle => ?_) (fun next hnext hlt => ?_)
      · rw [isPrefixOf_upTo hnext hle]
        exact schemasBehind_upTo hle (ih next hnext depth)
      · exact filter_eq_none fun r hr =>
          Nat.not_le_of_lt (Nat.lt_trans hlt (offset_lt_of_schemasBehind hr))
    · have hlt : k < o + 1 := Nat.lt_of_not_le hfits
      rw [Cursor.upTo_cons_of_lt hlt, schemasFrom_nil, filter_eq_none]
      exact fun r hr => Nat.not_le_of_lt (Nat.lt_trans hlt (lt_of_schemasFrom_cons hr))
  | other o c rest hquote ih =>
    by_cases hfits : o + c.utf8Size ≤ k
    · obtain ⟨depth', hnext⟩ := schemasFrom_step depth hquote
      rw [Cursor.upTo_cons_of_le hfits, hnext, hnext, ← ih]
      rfl
    · have hlt : k < o + c.utf8Size := Nat.lt_of_not_le hfits
      rw [Cursor.upTo_cons_of_lt hlt, schemasFrom_nil, filter_eq_none]
      exact fun r hr => Nat.not_le_of_lt (Nat.lt_trans hlt (lt_of_schemasFrom_cons hr))

/-! ## Whole texts -/

theorem upTo_atStart (k : Nat) (text : List Char) :
    (Cursor.atStart text).upTo k = Cursor.atStart (takeBytes k text) := rfl

/-- The large arrays of the beginning of a text are those that end in it. -/
theorem arrayRegions_takeBytes (least k : Nat) (text : List Char) :
    arrayRegions least (takeBytes k text)
      = (arrayRegions least text).filter fun r => r.span.stop ≤ k := by
  rw [arrayRegions, ← upTo_atStart, arraysFrom_upTo]
  rfl

/-- The block of schemas of the beginning of a text is that of the text, if it ends there. -/
theorem schemasRegion_takeBytes (k : Nat) (text : List Char) :
    schemasRegion (takeBytes k text)
      = (schemasRegion text).filter fun r => r.span.stop ≤ k := by
  rw [schemasRegion, ← upTo_atStart, schemasFrom_upTo]
  rfl

/-- Two texts with the same first `k` bytes have the same large arrays that end at or before byte
    `k`, with the same numbers of elements and in the same order; and a block of schemas that ends
    there in one of them is that of the other. -/
theorem regions_eq_of_bytes_eq {k : Nat} {text text' : List Char}
    (h : (utf8Bytes text).take k = (utf8Bytes text').take k) :
    (∀ least, (arrayRegions least text).filter (fun r => r.span.stop ≤ k)
        = (arrayRegions least text').filter (fun r => r.span.stop ≤ k))
      ∧ ∀ r, schemasRegion text = some r → r.span.stop ≤ k → schemasRegion text' = some r := by
  have hbeginning := takeBytes_eq_of_bytes_eq h
  constructor
  · intro least
    rw [← arrayRegions_takeBytes, ← arrayRegions_takeBytes, hbeginning]
  · intro r hr hk
    have hsame : (schemasRegion text).filter (fun r => r.span.stop ≤ k)
        = (schemasRegion text').filter (fun r => r.span.stop ≤ k) := by
      rw [← schemasRegion_takeBytes, ← schemasRegion_takeBytes, hbeginning]
    rw [hr, Option.filter_some, if_pos (decide_eq_true hk)] at hsame
    exact (Option.filter_eq_some_iff.1 hsame.symm).1

/-- An object that ends inside of a string. -/
def halfTyped : List Char :=
  "\x7b\"schemas\":\x7b\"a\":1\x7d,\"p\":[1,\"]\"],\"q\":[3,\"é".toList

/-- The same object with its last array typed otherwise, and closed. -/
def typedOut : List Char :=
  "\x7b\"schemas\":\x7b\"a\":1\x7d,\"p\":[1,\"]\"],\"q\":[3,4]\x7d".toList

/-- The first array and the schemas are the same; the last array is one of the longer text only. -/
theorem regions_eq_of_bytes_eq_halfTyped :
    (utf8Bytes halfTyped).take 38 = (utf8Bytes typedOut).take 38
      ∧ (arrayRegions 2 typedOut).filter (fun r => r.span.stop ≤ 38) = [⟨⟨23, 30⟩, .array 2⟩]
      ∧ arrayRegions 2 typedOut = [⟨⟨23, 30⟩, .array 2⟩, ⟨⟨35, 40⟩, .array 2⟩]
      ∧ schemasRegion typedOut = some ⟨⟨11, 18⟩, .schemas⟩ := by
  have hbytes : (utf8Bytes halfTyped).take 38 = (utf8Bytes typedOut).take 38 := by
    decide +kernel
  have hhalf : arrayRegions 2 halfTyped = [⟨⟨23, 30⟩, .array 2⟩] := by decide +kernel
  obtain ⟨harrays, hschemas⟩ := regions_eq_of_bytes_eq hbytes
  refine ⟨hbytes, ?_, by decide +kernel, hschemas _ (by decide +kernel) (by decide)⟩
  rw [← harrays, hhalf]
  rfl

end BimEditor.Scan
