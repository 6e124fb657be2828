/-
  BimEditor.Proofs.Bytes.Scanners

  The scanners of raw text, walking over its bytes by offsets. They jump from one mark to the next,
  look up the bytes there and cut out what lies between, each time by an access that may be refused;
  the outer `Option` of a result stands for that, and for a scan that never ends. No scan is
  refused: each comes to the result that walking over characters gives (`matchingClose_eq`,
  `schemasRegion_eq`, `arrayRegions_eq`).

  Behind a backslash a scanner goes on one byte later, which may be inside of a character.
-/
import BimEditor.Proofs.Bytes.Access
import BimEditor.Proofs.Scan.Steps

namespace BimEditor.Bytes

open BimEditor.Text BimEditor.Scan

/-! ## Strings -/

/-- A quote or a backslash. -/
def endsRunByte (b : UInt8) : Bool :=
  isByte '"' b || isByte '\\' b

/-- The place behind a string literal whose opening quote was just passed, if it has a closing
    quote. -/
def skipString (text : Bytes) (pos : Nat) : Option (Option Nat) := do
  match ← find endsRunByte text pos with
  | none => return none
  | some i =>
    let mark ← byteAt text i
    if isByte '\\' mark then
      -- the byte behind the backslash is hidden, whatever it belongs to
      if byteLength text < i + 2 then return none
      else text |>.skipString (i + 2)
    else return some (i + 1)
partial_fixpoint

/-! ## Matching brackets -/

/-- A quote, or a bracket of the family. -/
def isDelimiterByte (d : Delimiter) (b : UInt8) : Bool :=
  isByte d.opening b || isByte d.closing b || isByte '"' b

/-- The bracket that brings the depth down to zero. -/
def closeLoop (d : Delimiter) (text : Bytes) (depth pos : Nat) : Option (Option Nat) := do
  match ← find (isDelimiterByte d) text pos with
  | none => return none
  | some i =>
    let mark ← byteAt text i
    if isByte '"' mark then
      match ← skipString text (i + 1) with
      | none => return none
      | some after => text |>.closeLoop d depth after
    else if isByte d.opening mark then text |>.closeLoop d (depth + 1) (i + 1)
    else if depth - 1 = 0 then return some i
    else text |>.closeLoop d (depth - 1) (i + 1)
partial_fixpoint

/-- The bracket that closes the pair whose opening bracket ends at byte `start`. -/
def matchingClose (d : Delimiter) (text : Bytes) (start : Nat) : Option (Option Nat) :=
  if byteLength text < start then some none else closeLoop d text 1 start

/-! ## Regions -/

/-- What JSON allows between two tokens. -/
def isBlankByte (b : UInt8) : Bool :=
  isByte ' ' b || isByte '\t' b || isByte '\n' b || isByte '\r' b

/-- Behind a key: the opening bracket of the key's value. -/
def keyedOpener (d : Delimiter) (text : Bytes) (pos : Nat) : Option Nat :=
  let colon := skipBytes isBlankByte text pos
  if sees (isByte ':') text colon then
    let opening := skipBytes isBlankByte text (colon + 1)
    if sees (isByte d.opening) text opening then some opening else none
  else none

/-- The region of the schemas whose brace stands at `opening`. -/
def schemasRegion? (text : Bytes) (opening : Nat) : Option (Option Region) := do
  match ← matchingClose .brace text (opening + 1) with
  | none => return none
  | some close => return some ⟨⟨opening, close + 1⟩, .schemas⟩

/-- The string between `pos` and `after` is a key of the outermost brackets that names the
    schemas. -/
def isSchemasKey (text : Bytes) (depth pos after : Nat) : Option Bool :=
  if depth = 1 then
    (charsBetween text (pos + 1) (after - 1)).map (· == ['s', 'c', 'h', 'e', 'm', 'a', 's'])
  else some false

/-- The block of schemas behind `pos`, with `depth` open brackets before it. -/
def schemasLoop (text : Bytes) (depth pos : Nat) : Option (Option Region) := do
  if byteLength text ≤ pos then return none
  else
    let b ← byteAt text pos
    if isByte '"' b then
      match ← skipString text (pos + 1) with
      | none => return none
      | some after =>
        let isKey ← isSchemasKey text depth pos after
        match if isKey then keyedOpener .brace text after else none with
        | some opening => schemasRegion? text opening
        | none => text |>.schemasLoop depth after
    else if isByte '{' b || isByte '[' b then text |>.schemasLoop (depth + 1) (pos + 1)
    else if isByte '}' b || isByte ']' b then text |>.schemasLoop (depth - 1) (pos + 1)
    else text |>.schemasLoop depth (pos + 1)
partial_fixpoint

/-- The block of schemas of a text. -/
def schemasRegion (text : Bytes) : Option (Option Region) :=
  schemasLoop text 0 0

/-- Behind a key: the region of the key's value, if that is an array of at least `least`
    elements. -/
def arrayRegion? (least : Nat) (text : Bytes) (after : Nat) : Option (Option Region) := do
  match keyedOpener .bracket text after with
  | none => return none
  | some opening =>
    match ← matchingClose .bracket text (opening + 1) with
    | none => return none
    | some close =>
      let body ← charsBetween text (opening + 1) close
      let elements := countElements body
      if least ≤ elements then return some ⟨⟨opening, close + 1⟩, .array elements⟩
      else return none

/-- The regions of large arrays behind `pos`. -/
def arraysLoop (least : Nat) (text : Bytes) (pos : Nat) : Option (List Region) := do
  match ← find (isByte '"') text pos with
  | none => return []
  | some quote =>
    match ← skipString text (quote + 1) with
    | none => return []
    | some after =>
      let region ← arrayRegion? least text after
      let others ← text |>.arraysLoop least after
      return region.toList ++ others
partial_fixpoint

/-- The regions of all large arrays of a text. -/
def arrayRegions (least : Nat) (text : Bytes) : Option (List Region) :=
  arraysLoop least text 0

/-! ## No access is refused -/

section

variable {text : List Char} {c : Cursor} {d : Delimiter} {pos depth inner least : Nat}

theorem byteClass_endsRun :
    ByteClass endsRunByte (fun x => x == '"' || x == '\\') :=
  (ByteClass.single (by decide)).or (.single (by decide))

theorem byteClass_delimiter (d : Delimiter) :
    ByteClass (isDelimiterByte d) (fun x => x == d.opening || x == d.closing || x == '"') := by
  have hopening : d.opening.toNat < 0x80 := by cases d <;> decide
  have hclosing : d.closing.toNat < 0x80 := by cases d <;> decide
  exact ((ByteClass.single hopening).or (.single hclosing)).or (.single (by decide))

theorem byteClass_blank : ByteClass isBlankByte isJsonBlank :=
  (((ByteClass.single (by decide)).or (.single (by decide))).or (.single (by decide))).or
    (.single (by decide))

/-! ### Strings -/

/-- A string is skipped from any byte near the cursor on. -/
theorem skipString_eq (h : Near text pos c) :
    skipString text pos = some ((afterString c).map (·.offset)) := by
  induction hlength : c.rest.length using Nat.strongRecOn generalizing pos c with
  | ind n ih =>
    obtain ⟨o, rest⟩ := c
    dsimp only at hlength
    rw [skipString]
    rcases h.find_cases byteClass_endsRun with ⟨hfind, hnone⟩ | ⟨s, x, tail, hrest, hs, hx, hfind⟩
    · have hplain : ∀ y ∈ rest, y ≠ '"' ∧ y ≠ '\\' := by simpa using hnone
      have hskip := @afterString_append o [] rest hplain
      rw [List.append_nil, afterString_nil] at hskip
      rw [hfind, hskip]
      rfl
    · dsimp only at hrest hfind
      subst hrest
      have hplain : ∀ y ∈ s, y ≠ '"' ∧ y ≠ '\\' := by simpa using hs
      have hin : In text ⟨o + byteLength s, x :: tail⟩ := h.isIn.passes ⟨rfl, rfl⟩
      obtain ⟨b, hbyte, hb⟩ := hin.byteAt_cons
      have hslash := hb (.single (by decide : '\\'.toNat < 0x80))
      rw [hfind, afterString_append hplain]
      simp only [Option.bind_eq_bind, Option.bind_some, hbyte, hslash]
      rcases Bool.or_eq_true_iff.1 hx with hx | hx
      · obtain rfl := beq_iff_eq.1 hx
        rfl
      · obtain rfl := beq_iff_eq.1 hx
        have hlast := hin.offset_add
        rw [if_pos (by rfl)]
        cases tail with
        | nil =>
          dsimp only [byteLength_cons, byteLength_nil] at hlast
          have hsize : '\\'.utf8Size = 1 := rfl
          rw [if_pos (by omega)]
          rfl
        | cons y tail =>
          -- the search goes on behind the first byte of the hidden character
          have hy := y.utf8Size_pos
          have hslash : In text ⟨o + byteLength s + 1, y :: tail⟩ := hin.byte rfl
          have hnear := hslash.near_cons (k := 1) (by omega) hy
          have hlength' := hnear.le
          rw [if_neg (by omega), afterString_slash]
          refine ih tail.length ?_ hnear rfl
          simp only [← hlength, List.length_append, List.length_cons]
          omega

theorem skipString_at (h : In text c) :
    skipString text c.offset = some ((afterString c).map (·.offset)) :=
  skipString_eq h.near

theorem In.afterString {next : Cursor} (h : In text c) (hnext : afterString c = some next) :
    In text next := by
  obtain ⟨s, hpass⟩ := passes_afterString hnext
  exact h.passes hpass

/-! ### Matching brackets -/

theorem closeFrom_skip {s rest : List Char} {o : Nat}
    (h : ∀ x ∈ s, (x == d.opening || x == d.closing || x == '"') = false) :
    closeFrom d inner ⟨o, s ++ rest⟩ = closeFrom d inner ⟨o + byteLength s, rest⟩ := by
  induction s generalizing o with
  | nil => rfl
  | cons x s ih =>
    obtain ⟨hx, hs⟩ := List.forall_mem_cons.1 h
    simp only [Bool.or_eq_false_iff, beq_eq_false_iff_ne] at hx
    rw [List.cons_append, closeFrom_other hx.2 hx.1.1 hx.1.2, ih hs, byteLength_cons, Nat.add_assoc]

/-- A bracket is searched from any byte near the cursor on. -/
theorem closeLoop_eq (h : Near text pos c) :
    closeLoop d text (inner + 1) pos = some (closeFrom d inner c) := by
  induction hlength : c.rest.length using Nat.strongRecOn generalizing pos c inner with
  | ind n ih =>
    obtain ⟨o, rest⟩ := c
    dsimp only at hlength
    rw [closeLoop]
    rcases h.find_cases (byteClass_delimiter d) with
      ⟨hfind, hnone⟩ | ⟨s, x, tail, hrest, hs, hx, hfind⟩
    · have hskip := @closeFrom_skip d inner rest [] o hnone
      rw [List.append_nil, closeFrom_nil] at hskip
      rw [hfind, hskip]
      rfl
    · dsimp only at hrest hfind
      subst hrest
      have hin : In text ⟨o + byteLength s, x :: tail⟩ := h.isIn.passes ⟨rfl, rfl⟩
      obtain ⟨b, hbyte, hb⟩ := hin.byteAt_cons
      have hquote := hb (.single (by decide : '"'.toNat < 0x80))
      have hopening := hb (.single (by cases d <;> decide : d.opening.toNat < 0x80))
      have hshorter : tail.length < n := by
        simp only [← hlength, List.length_append, List.length_cons]
        omega
      rw [hfind, closeFrom_skip hs]
      simp only [Option.bind_eq_bind, Option.bind_some, hbyte, hquote, hopening]
      -- a quote, or a bracket of either kind
      by_cases hx' : x = '"'
      · subst hx'
        have hstring : In text ⟨o + byteLength s + 1, tail⟩ := hin.byte rfl
        rw [if_pos (by rfl), closeFrom_quote, skipString_at hstring, Option.bind_some]
        cases hnext : Scan.afterString ⟨o + byteLength s + 1, tail⟩ with
        | none => rfl
        | some next =>
          obtain ⟨k, hpass, -⟩ := passes_afterString hnext
          refine ih next.rest.length ?_ (hstring.afterString hnext).near rfl
          have := congrArg List.length hpass
          simp only [List.length_append] at this
          omega
      · rw [if_neg (by simpa using hx')]
        by_cases hopen : x = d.opening
        · subst hopen
          have hnext : In text ⟨o + byteLength s + 1, tail⟩ := hin.byte (utf8Size_opening d)
          rw [if_pos (by simp), closeFrom_opening]
          exact ih tail.length hshorter hnext.near rfl
        · have hclose : x = d.closing := by
            simp only [Bool.or_eq_true, beq_iff_eq] at hx
            rcases hx with (hx | hx) | hx
            · exact absurd hx hopen
            · exact hx
            · exact absurd hx hx'
          subst hclose
          have hnext : In text ⟨o + byteLength s + 1, tail⟩ := hin.byte (utf8Size_closing d)
          rw [if_neg (by simpa using hopen), Nat.add_sub_cancel]
          cases inner with
          | zero =>
            rw [if_pos rfl, closeFrom_closing_zero]
            rfl
          | succ inner =>
            rw [if_neg (Nat.succ_ne_zero _), closeFrom_closing_succ]
            exact ih tail.length hshorter hnext.near rfl

/-- The closing bracket is found from every offset on, also inside of a character and behind the end
    of the text. -/
theorem matchingClose_eq (d : Delimiter) (text : List Char) (start : Nat) :
    matchingClose d text start = some (Scan.matchingClose d text start) := by
  unfold matchingClose Scan.matchingClose
  split
  · rfl
  · next hle => exact closeLoop_eq (near_ofOffset (Nat.le_of_not_lt hle))

theorem matchingClose_at (h : In text c) :
    matchingClose d text c.offset = some (closeFrom d 0 c) := by
  rw [matchingClose, if_neg (Nat.not_lt_of_le h.near.le)]
  exact closeLoop_eq h.near

/-! ### Keys -/

theorem keyedOpener_at (h : In text c) :
    keyedOpener d text c.offset = (Scan.keyedOpener d c).map (·.offset - 1) := by
  have hopening : d.opening.toNat < 0x80 := by cases d <;> decide
  have hblanks : In text c.skipBlanks := h.skip _
  have hskip : skipBytes isBlankByte text c.offset = c.skipBlanks.offset :=
    h.skipBytes_eq byteClass_blank
  have hcolon := hblanks.sees_eq (.single (by decide : ':'.toNat < 0x80))
  simp only [keyedOpener, Scan.keyedOpener, hskip, hcolon]
  -- a colon, and behind it a bracket
  generalize c.skipBlanks = colon at hblanks
  obtain ⟨o, rest⟩ := colon
  cases rest with
  | nil => rfl
  | cons x rest =>
    by_cases hx : x = ':'
    · subst hx
      have hbehind : In text ⟨o + 1, rest⟩ := hblanks.byte rfl
      have hblanks' : In text (Cursor.skipBlanks ⟨o + 1, rest⟩) := hbehind.skip _
      have hskip' : skipBytes isBlankByte text (o + 1) = (Cursor.skipBlanks ⟨o + 1, rest⟩).offset :=
        hbehind.skipBytes_eq byteClass_blank
      have hbracket := hblanks'.sees_eq (.single hopening)
      simp only [List.head?_cons, Option.any_some, BEq.rfl, if_true, hskip', hbracket]
      generalize Cursor.skipBlanks ⟨o + 1, rest⟩ = opener at hblanks'
      obtain ⟨o', rest'⟩ := opener
      cases rest' with
      | nil => rfl
      | cons y rest' =>
        simp only [List.head?_cons, Option.any_some, beq_iff_eq]
        split <;> rfl
    · rw [if_neg (by simpa using hx)]
      split
      · next heq =>
        injection heq with _ heq
        exact absurd (List.cons.inj heq).1 hx
      · rfl

theorem In.keyedOpener {inside : Cursor} (h : In text c)
    (hinside : Scan.keyedOpener d c = some inside) :
    In text inside ∧ inside.offset - 1 + 1 = inside.offset := by
  obtain ⟨b₁, b₂, -, -, hpass⟩ := keyedOpener_eq_some_iff.1 hinside
  refine ⟨h.passes hpass, ?_⟩
  have := hpass.2
  simp only [byteLength_append, byteLength_cons, utf8Size_opening] at this
  omega

/-! ### The block of schemas -/

theorem schemasRegion?_at {inside : Cursor} (h : In text inside)
    (hoffset : inside.offset - 1 + 1 = inside.offset) :
    schemasRegion? text (inside.offset - 1) = some (Scan.schemasRegion? inside) := by
  rw [schemasRegion?, hoffset, matchingClose_at h, Scan.schemasRegion?]
  cases closeFrom .brace 0 inside <;> rfl

theorem isSchemasKey_at {o : Nat} {rest : List Char} {next : Cursor}
    (h : In text ⟨o, '"' :: rest⟩) (hnext : afterString ⟨o + 1, rest⟩ = some next) :
    isSchemasKey text depth o next.offset
      = some (decide (depth = 1 ∧ schemasKey.isPrefixOf rest = true)) := by
  obtain ⟨s, hpass⟩ := passes_afterString hnext
  have hstring : In text ⟨o + 1, rest⟩ := h.byte rfl
  have hquote : '"'.utf8Size = 1 := rfl
  have hcontent : Cursor.Passes ⟨o + 1, rest⟩ s ⟨next.offset - 1, '"' :: next.rest⟩ := by
    obtain ⟨hrest, hoffset⟩ := hpass
    refine ⟨by simpa using hrest, ?_⟩
    simp only [byteLength_append, byteLength_cons, byteLength_nil, hquote] at hoffset ⊢
    omega
  have hkey : (s == ['s', 'c', 'h', 'e', 'm', 'a', 's']) = schemasKey.isPrefixOf rest := by
    rw [Bool.eq_iff_iff, beq_iff_eq, List.isPrefixOf_iff_prefix]
    have hrest : rest = s ++ '"' :: next.rest := hcontent.1
    constructor
    · rintro rfl
      exact ⟨next.rest, hrest.symm⟩
    · rintro ⟨tail, htail⟩
      -- the string ends at the quote that the spelling of the key ends with
      have hends : afterString ⟨o + 1, rest⟩ = some ⟨o + 1 + 7 + 1, tail⟩ := by
        rw [← htail]
        apply @afterString_append (o + 1) ('"' :: tail) ['s', 'c', 'h', 'e', 'm', 'a', 's']
        simp
      obtain rfl := Option.some.inj (hnext.symm.trans hends)
      rw [← htail] at hrest
      apply List.append_cancel_right hrest.symm
  unfold isSchemasKey
  split
  · next hdepth =>
    rw [hstring.charsBetween_eq hcontent, Option.map_some, hkey]
    simp only [hdepth, true_and, Bool.decide_eq_true]
  · next hdepth => simp [hdepth]

theorem isByte_of_high {y : Char} {b : UInt8} (hy : y.toNat < 0x80) (hb : 0x80 ≤ b.toNat) :
    isByte y b = false :=
  (ByteClass.single hy).high b hb

/-- The bytes inside of a character mean nothing to the scan. -/
theorem schemasLoop_near (h : Near text pos c) :
    schemasLoop text depth pos = schemasLoop text depth c.offset := by
  obtain ⟨hin, bytes, hdrop, hpos, hbytes⟩ := h
  induction bytes generalizing pos with
  | nil => rw [← hpos, List.length_nil, Nat.add_zero]
  | cons b bytes ih =>
    obtain ⟨hb, hbytes⟩ := List.forall_mem_cons.1 hbytes
    have hlength := hin.offset_add
    rw [List.length_cons] at hpos
    have hbyte : byteAt text pos = some b := by
      rw [byteAt, ← Nat.add_zero pos, ← List.getElem?_drop, hdrop]
      rfl
    have hnext : schemasLoop text depth pos = schemasLoop text depth (pos + 1) := by
      have hmark : ∀ y : Char, y.toNat < 0x80 → isByte y b = false := by
        intro y hy
        exact isByte_of_high hy hb
      rw [schemasLoop, if_neg (by omega), hbyte]
      simp [hmark '"' (by decide), hmark '{' (by decide), hmark '[' (by decide),
        hmark '}' (by decide), hmark ']' (by decide)]
    rw [hnext]
    refine ih ?_ (by omega) hbytes
    rw [← List.drop_drop, hdrop]
    rfl

theorem schemasLoop_at (h : In text c) :
    schemasLoop text depth c.offset = some (schemasFrom depth c) := by
  induction c using scanInduction generalizing depth with
  | nil o =>
    have hlength := h.offset_add
    dsimp only [byteLength_nil] at hlength
    rw [schemasLoop, if_pos (by dsimp only; omega), schemasFrom_nil]
    rfl
  | quote o rest ih =>
    have hlength := h.offset_add
    have hquote : '"'.utf8Size = 1 := rfl
    have hstring : In text ⟨o + 1, rest⟩ := h.byte rfl
    obtain ⟨b, hbyte, hb⟩ := h.byteAt_cons
    dsimp only [byteLength_cons] at hlength
    have hskip : skipString text (o + 1) = some ((afterString ⟨o + 1, rest⟩).map (·.offset)) :=
      skipString_at hstring
    rw [schemasLoop, if_neg (by dsimp only; omega), hbyte, schemasFrom_quote]
    simp only [Option.bind_eq_bind, Option.bind_some,
      hb (.single (by decide : '"'.toNat < 0x80)), BEq.rfl, if_true, hskip]
    cases hnext : afterString ⟨o + 1, rest⟩ with
    | none => rfl
    | some next =>
      have hin := hstring.afterString hnext
      simp only [Option.map_some, Option.bind_some, isSchemasKey_at h hnext, schemasBehind,
        decide_eq_true_eq]
      by_cases hkey : depth = 1 ∧ schemasKey.isPrefixOf rest = true
      · simp only [if_pos hkey, keyedOpener_at hin]
        cases hinside : Scan.keyedOpener .brace next with
        | none => exact ih next hnext hin
        | some inside =>
          obtain ⟨hin', hoffset⟩ := hin.keyedOpener hinside
          exact schemasRegion?_at hin' hoffset
      · simp only [if_neg hkey]
        exact ih next hnext hin
  | other o x rest hquote ih =>
    have hlength := h.offset_add
    have hsize := x.utf8Size_pos
    dsimp only [byteLength_cons] at hlength
    obtain ⟨b, hbyte, hb⟩ := h.byteAt_cons
    have hnext : ∀ depth', schemasLoop text depth' (o + 1)
        = some (schemasFrom depth' ⟨o + x.utf8Size, rest⟩) := by
      intro depth'
      rw [schemasLoop_near (h.near_cons (k := 1) (by omega) hsize)]
      exact ih h.cons
    have hmark : ∀ y : Char, y.toNat < 0x80 → isByte y b = (x == y) := fun y hy => hb (.single hy)
    rw [schemasLoop, if_neg (by dsimp only; omega), hbyte]
    simp only [Option.bind_eq_bind, Option.bind_some, hmark '"' (by decide), hmark '{' (by decide),
      hmark '[' (by decide), hmark '}' (by decide), hmark ']' (by decide), Bool.or_eq_true,
      beq_iff_eq, hnext]
    rw [if_neg hquote]
    by_cases hopen : x = '{' ∨ x = '['
    · have hone : x.utf8Size = 1 := by rcases hopen with rfl | rfl <;> rfl
      rw [if_pos hopen, schemasFrom_opening hopen, hone]
    · rw [if_neg hopen]
      by_cases hclose : x = '}' ∨ x = ']'
      · have hone : x.utf8Size = 1 := by rcases hclose with rfl | rfl <;> rfl
        rw [if_pos hclose, schemasFrom_closing hclose, hone]
      · rw [if_neg hclose, schemasFrom_other hquote hopen hclose]

theorem schemasRegion_eq (text : List Char) :
    schemasRegion text = some (Scan.schemasRegion text) :=
  schemasLoop_at (in_atStart text)

/-! ### Large arrays -/

/-- The bracket that is found stands at its offset. -/
theorem passes_closeFrom {close : Nat} (h : closeFrom d inner c = some close) :
    ∃ s rest, c.Passes s ⟨close, d.closing :: rest⟩ := by
  induction c using scanInduction generalizing inner with
  | nil o =>
    rw [closeFrom_nil] at h
    cases h
  | quote o rest ih =>
    rw [closeFrom_quote, Option.bind_eq_some_iff] at h
    obtain ⟨next, hnext, hclose⟩ := h
    obtain ⟨k, hstring⟩ := passes_afterString hnext
    obtain ⟨s, tail, hpass⟩ := ih next hnext hclose
    have hquoted : Cursor.Passes ⟨o, '"' :: rest⟩ ('"' :: (k ++ ['"'])) next := hstring.byte rfl
    exact ⟨_, tail, hquoted.trans hpass⟩
  | other o x rest hquote ih =>
    have hchar : Cursor.Passes ⟨o, x :: rest⟩ [x] ⟨o + x.utf8Size, rest⟩ :=
      (Cursor.Passes.refl _).cons
    by_cases hopen : x = d.opening
    · subst hopen
      rw [closeFrom_opening, ← utf8Size_opening d] at h
      obtain ⟨s, tail, hpass⟩ := ih h
      exact ⟨_, tail, hchar.trans hpass⟩
    · by_cases hclose : x = d.closing
      · subst hclose
        cases inner with
        | zero =>
          rw [closeFrom_closing_zero] at h
          obtain rfl := Option.some.inj h
          exact ⟨[], rest, .refl _⟩
        | succ inner =>
          rw [closeFrom_closing_succ, ← utf8Size_closing d] at h
          obtain ⟨s, tail, hpass⟩ := ih h
          exact ⟨_, tail, hchar.trans hpass⟩
      · rw [closeFrom_other hquote hopen hclose] at h
        obtain ⟨s, tail, hpass⟩ := ih h
        exact ⟨_, tail, hchar.trans hpass⟩

theorem arrayRegion?_at (h : In text c) :
    arrayRegion? least text c.offset = some (Scan.arrayRegion? least c) := by
  rw [arrayRegion?, keyedOpener_at h, Scan.arrayRegion?_eq]
  cases hinside : Scan.keyedOpener .bracket c with
  | none => rfl
  | some inside =>
    obtain ⟨hin, hoffset⟩ := h.keyedOpener hinside
    simp only [Option.map_some, hoffset, matchingClose_at hin, Option.bind_eq_bind,
      Option.bind_some]
    cases hclose : closeFrom .bracket 0 inside with
    | none => rfl
    | some close =>
      -- the body lies between the two brackets
      obtain ⟨s, tail, hpass⟩ := passes_closeFrom hclose
      have hbody : takeBytes (close - inside.offset) inside.rest = s := by
        have hlength : close - inside.offset = byteLength s := by
          have := hpass.2
          dsimp only at this
          omega
        rw [hlength, hpass.1, takeBytes_append]
      have hchars : charsBetween text inside.offset close = some s := hin.charsBetween_eq hpass
      simp only [hchars, Option.bind_some, regionTo?, hbody]
      split <;> rfl

theorem arraysFrom_skip {s rest : List Char} {o : Nat} (h : ∀ x ∈ s, (x == '"') = false) :
    arraysFrom least ⟨o, s ++ rest⟩ = arraysFrom least ⟨o + byteLength s, rest⟩ := by
  induction s generalizing o with
  | nil => rfl
  | cons x s ih =>
    obtain ⟨hx, hs⟩ := List.forall_mem_cons.1 h
    rw [List.cons_append, arraysFrom_other (beq_eq_false_iff_ne.1 hx), ih hs, byteLength_cons,
      Nat.add_assoc]

theorem arraysLoop_at (h : In text c) :
    arraysLoop least text c.offset = some (arraysFrom least c) := by
  induction hlength : c.rest.length using Nat.strongRecOn generalizing c with
  | ind n ih =>
    obtain ⟨o, rest⟩ := c
    dsimp only at hlength
    rw [arraysLoop]
    rcases h.near.find_cases (.single (by decide : '"'.toNat < 0x80)) with
      ⟨hfind, hnone⟩ | ⟨s, x, tail, hrest, hs, hx, hfind⟩
    · have hskip := @arraysFrom_skip least rest [] o hnone
      rw [List.append_nil, arraysFrom_nil] at hskip
      rw [hfind, hskip]
      rfl
    · dsimp only at hrest hfind
      obtain rfl := beq_iff_eq.1 hx
      subst hrest
      have hin : In text ⟨o + byteLength s, '"' :: tail⟩ := h.passes ⟨rfl, rfl⟩
      have hstring : In text ⟨o + byteLength s + 1, tail⟩ := hin.byte rfl
      have hskip : skipString text (o + byteLength s + 1)
          = some ((afterString ⟨o + byteLength s + 1, tail⟩).map (·.offset)) :=
        skipString_at hstring
      rw [hfind, arraysFrom_skip hs, arraysFrom_quote]
      simp only [Option.bind_eq_bind, Option.bind_some, hskip]
      cases hnext : afterString ⟨o + byteLength s + 1, tail⟩ with
      | none => rfl
      | some next =>
        obtain ⟨k, hpass, -⟩ := passes_afterString hnext
        have hshorter : next.rest.length < n := by
          have := congrArg List.length hpass
          simp only [← hlength, List.length_append, List.length_cons] at this ⊢
          omega
        have hnextIn := hstring.afterString hnext
        simp only [Option.map_some, arrayRegion?_at hnextIn, ih _ hshorter hnextIn rfl,
          Option.bind_some]
        rfl

theorem arrayRegions_eq (least : Nat) (text : List Char) :
    arrayRegions least text = some (Scan.arrayRegions least text) :=
  arraysLoop_at (in_atStart text)

end

end BimEditor.Bytes
