/-
  BimEditor.Proofs.Scan.ArrayFolding

  The scan for large arrays sees what the reader sees. It knows neither keys nor nesting: it takes
  every string with a colon behind it for a key and looks for the bracket that closes the value. On
  a text that is read as a tree it still finds the arrays of the tree, those that stand as the value
  of a member and have enough items, each before the ones inside of it
  (`arrayRegions_eq_filterMap`).
-/
import BimEditor.Proofs.Json.Acceptance
import BimEditor.Proofs.Scan.Balance

namespace BimEditor.Json

open BimEditor.Text BimEditor.Scan

variable {denotes : Numeral → Number → Prop} {least o : Nat} {s t k b b₁ b₂ rest : List Char}

/-! ## The arrays of a tree -/

namespace Tree

mutual
/-- All members of the objects in the tree, each before those of its value. -/
def allMembers : Tree → List (Key × Tree)
  | .leaf _ _ => []
  | .array _ items => itemMembers items
  | .object _ members => nestedMembers members

/-- All members of the objects in the items. -/
def itemMembers : List Tree → List (Key × Tree)
  | [] => []
  | t :: ts => allMembers t ++ itemMembers ts

/-- The members and all those inside of them. -/
def nestedMembers : List (Key × Tree) → List (Key × Tree)
  | [] => []
  | (k, t) :: ms => (k, t) :: (allMembers t ++ nestedMembers ms)
end

/-- The region of an array with at least `least` items. -/
def largeArray? (least : Nat) : Tree → Option Region
  | .array span items =>
    if least ≤ items.length then some ⟨span, .array items.length⟩ else none
  | _ => none

/-- The large arrays among the values of members. -/
def largeArrays (least : Nat) (members : List (Key × Tree)) : List Region :=
  members.filterMap fun member => member.2.largeArray? least

@[simp]
theorem largeArrays_append (ms ns : List (Key × Tree)) :
    largeArrays least (ms ++ ns) = largeArrays least ms ++ largeArrays least ns :=
  List.filterMap_append

theorem largeArrays_cons (m : Key × Tree) (ms : List (Key × Tree)) :
    largeArrays least (m :: ms) = (m.2.largeArray? least).toList ++ largeArrays least ms := by
  cases h : m.2.largeArray? least <;> simp [largeArrays, h]

end Tree

/-- All members of the objects in the phrase. -/
def Phrase.allMembers : Phrase Key Tree → List (Key × Tree)
  | .value t => t.allMembers
  | .items ts => Tree.itemMembers ts
  | .members ms => Tree.nestedMembers ms

/-! ## Behind a key -/

/-- Behind a key and its colon, the first character of the value tells whether it is an array. -/
theorem keyedOpener_colon {d : Delimiter} {x : Char} (hb₁ : Blanks b₁) (hb₂ : Blanks b₂)
    (hx : isJsonBlank x = false) :
    keyedOpener d ⟨o, b₁ ++ ':' :: (b₂ ++ x :: rest)⟩
      = if x = d.opening then some ⟨o + byteLength (b₁ ++ ':' :: b₂) + 1, rest⟩ else none := by
  have hplace : o + byteLength b₁ + 1 + byteLength b₂ = o + byteLength (b₁ ++ ':' :: b₂) := by
    have hsize : ':'.utf8Size = 1 := rfl
    simp only [byteLength_append, byteLength_cons, hsize]
    omega
  rw [keyedOpener, skipBlanks_mark _ hb₁ rfl]
  simp only [skipBlanks_mark _ hb₂ hx, hplace]

/-- The region of an array, its elements counted between its brackets. -/
theorem arrayRegion?_body {n : Nat} (hb₁ : Blanks b₁) (hb₂ : Blanks b₂) (hs : Balanced s n) :
    arrayRegion? least ⟨o, b₁ ++ ':' :: (b₂ ++ '[' :: (s ++ ']' :: rest))⟩
      = if least ≤ countElements s then
          some ⟨spanAt (o + byteLength (b₁ ++ ':' :: b₂)) ('[' :: (s ++ [']'])),
            .array (countElements s)⟩
        else none := by
  have hclose := @closeFrom_body .bracket (o + byteLength (b₁ ++ ':' :: b₂) + 1) n s rest hs
  -- the bracket behind the body is the one that closes it, and cuts the body out
  rw [arrayRegion?_eq, keyedOpener_colon hb₁ hb₂ rfl, if_pos (by rfl), Option.bind_some]
  show (closeFrom _ 0 ⟨_, s ++ Delimiter.bracket.closing :: rest⟩).bind _ = _
  rw [hclose, Option.bind_some, regionTo?, Nat.add_sub_cancel_left, takeBytes_append]
  have hspan : spanAt (o + byteLength (b₁ ++ ':' :: b₂)) ('[' :: (s ++ [']']))
      = ⟨o + byteLength (b₁ ++ ':' :: b₂) + 1 - 1,
        o + byteLength (b₁ ++ ':' :: b₂) + 1 + byteLength s + 1⟩ := by
    have hopen : '['.utf8Size = 1 := rfl
    have hclose : ']'.utf8Size = 1 := rfl
    simp only [spanAt, byteLength_append, byteLength_cons, byteLength_nil, hopen, hclose,
      Span.mk.injEq]
    omega
  rw [hspan]

/-- Behind a key, the value's region is found if the value is a large array. -/
theorem arrayRegion?_located {v : Tree} (hb₁ : Blanks b₁) (hb₂ : Blanks b₂)
    (h : Located denotes (o + byteLength (b₁ ++ ':' :: b₂)) s (.value v)) :
    arrayRegion? least ⟨o, b₁ ++ ':' :: (b₂ ++ (s ++ rest))⟩ = v.largeArray? least := by
  -- a value that starts with no bracket has no region
  have hother : ∀ {x : Char} {r : List Char}, s = x :: r → startsValue x = true → x ≠ '[' →
      arrayRegion? least ⟨o, b₁ ++ ':' :: (b₂ ++ (s ++ rest))⟩ = none := by
    rintro x r rfl hstarts hbracket
    have hx := (Cursor.stopsAt_cons _ _ _).1 (@stopsAt_blank _ rest ⟨x, r, rfl, hstarts⟩)
    rw [arrayRegion?_eq, List.cons_append, keyedOpener_colon hb₁ hb₂ hx]
    show (if x = '[' then _ else none).bind _ = none
    rw [if_neg hbracket]
    rfl
  cases h with
  | scalar h =>
    obtain ⟨x, r, rfl, hstarts, -, hbracket⟩ := h.head
    exact hother rfl hstarts hbracket
  | emptyObject hb => exact hother rfl rfl (by decide)
  | object hb _ => exact hother rfl rfl (by decide)
  | @emptyArray _ b hb =>
    rw [List.cons_append, List.append_assoc]
    exact (arrayRegion?_body hb₁ hb₂ hb.balanced).trans (by rw [countElements_blanks hb]; rfl)
  | @array _ b s ts hb h =>
    rw [← List.append_assoc b, List.cons_append, List.append_assoc (b ++ s)]
    refine (arrayRegion?_body hb₁ hb₂ (hb.balanced.append h.balanced)).trans ?_
    rw [h.countElements_items hb]
    rfl

/-! ## Between values -/

/-- No key ends before `rest`: there is no colon with a bracket. -/
def Unkeyed (rest : List Char) : Prop :=
  ∀ d o, keyedOpener d ⟨o, rest⟩ = none

theorem unkeyed_nil : Unkeyed [] :=
  fun _ _ => rfl

theorem unkeyed_cons {x : Char} (hx : isJsonBlank x = false) (hcolon : x ≠ ':') :
    Unkeyed (x :: rest) := by
  intro d o
  have hskip := @skipBlanks_mark o [] x rest (by simp [Blanks]) hx
  rw [List.nil_append] at hskip
  rw [keyedOpener, hskip]
  split
  · next heq =>
    injection heq with _ heq
    injection heq with heq _
    exact absurd heq hcolon
  · rfl

theorem Unkeyed.blanks (hb : Blanks b) (h : Unkeyed rest) : Unkeyed (b ++ rest) := by
  intro d o
  have hskip : Cursor.skipBlanks ⟨o, b ++ rest⟩ = Cursor.skipBlanks ⟨o + byteLength b, rest⟩ := by
    have hblank := blanks_iff.1 hb
    simp [Cursor.skipBlanks, Cursor.skip, List.takeWhile_append_of_pos hblank,
      List.dropWhile_append_of_pos hblank, Nat.add_assoc]
  rw [keyedOpener, hskip]
  exact h d (o + byteLength b)

/-- What stands before `s` is no key, if what stands before the text behind `s` would be none. -/
def Separates (s : List Char) : Prop :=
  ∀ rest, Unkeyed rest → Unkeyed (s ++ rest)

theorem Blanks.separates (hb : Blanks b) : Separates b :=
  fun _ hrest => hrest.blanks hb

theorem separates_mark {x : Char} (hb : Blanks b) (hx : isJsonBlank x = false) (hcolon : x ≠ ':') :
    Separates (b ++ x :: s) := by
  intro rest _
  rw [List.append_assoc]
  exact (unkeyed_cons hx hcolon).blanks hb

/-! ## The scan -/

/-- The scan passes `s`, which stands at byte `o`, and finds these regions. -/
def Finds (least o : Nat) (s : List Char) (found : List Region) : Prop :=
  ∀ rest, Unkeyed rest →
    arraysFrom least ⟨o, s ++ rest⟩ = found ++ arraysFrom least ⟨o + byteLength s, rest⟩

theorem Finds.append {found found' : List Region} (hs : Finds least o s found)
    (ht : Finds least (o + byteLength s) t found') (hsep : Separates t) :
    Finds least o (s ++ t) (found ++ found') := by
  intro rest hrest
  rw [List.append_assoc, hs _ (hsep rest hrest), ht rest hrest, List.append_assoc,
    byteLength_append, Nat.add_assoc]

/-- Without quotes nothing is found. -/
theorem arraysFrom_append (hs : '"' ∉ s) :
    arraysFrom least ⟨o, s ++ rest⟩ = arraysFrom least ⟨o + byteLength s, rest⟩ := by
  induction s generalizing o with
  | nil => rfl
  | cons c s ih =>
    rw [List.mem_cons, not_or] at hs
    rw [List.cons_append, arraysFrom_other (Ne.symm hs.1), ih hs.2, byteLength_cons, Nat.add_assoc]

theorem finds_nil (hs : '"' ∉ s) : Finds least o s [] :=
  fun _ _ => arraysFrom_append hs

theorem Finds.before {found : List Region} (hs : '"' ∉ s)
    (ht : Finds least (o + byteLength s) t found) : Finds least o (s ++ t) found := by
  intro rest hrest
  rw [List.append_assoc, arraysFrom_append hs, ht rest hrest, byteLength_append, Nat.add_assoc]

theorem Finds.behind {found : List Region} (hs : Finds least o s found) (ht : '"' ∉ t)
    (hsep : Separates t) : Finds least o (s ++ t) found := by
  have h := hs.append (finds_nil ht) hsep
  rwa [List.append_nil] at h

theorem arraysFrom_string (hk : Quoted k) :
    arraysFrom least ⟨o, '"' :: (k ++ '"' :: rest)⟩
      = regionsBehind least ⟨o + byteLength ('"' :: (k ++ ['"'])), rest⟩ := by
  rw [arraysFrom_quote, afterString_string hk]
  rfl

/-- A string that is no key. -/
theorem finds_string (hk : Quoted k) : Finds least o ('"' :: (k ++ ['"'])) [] := by
  intro rest hrest
  have hshape : '"' :: (k ++ ['"']) ++ rest = '"' :: (k ++ '"' :: rest) := by simp
  rw [hshape, arraysFrom_string hk, regionsBehind, arrayRegion?_eq, hrest]
  rfl

theorem Blanks.quote_not_mem (h : Blanks b) : '"' ∉ b :=
  fun hmem => absurd (h.unmarked _ hmem) (by decide)

/-- A member gives the region of its value, and then what is found in the value and behind it. -/
theorem finds_member {v : Tree} {found : List Region} (hk : Quoted k) (hb₁ : Blanks b₁)
    (hb₂ : Blanks b₂)
    (h : Located denotes (o + byteLength ('"' :: (k ++ '"' :: (b₁ ++ ':' :: b₂)))) s (.value v))
    (hfound :
      Finds least (o + byteLength ('"' :: (k ++ '"' :: (b₁ ++ ':' :: b₂)))) (s ++ t) found) :
    Finds least o ('"' :: (k ++ '"' :: (b₁ ++ ':' :: (b₂ ++ (s ++ t)))))
      ((v.largeArray? least).toList ++ found) := by
  intro rest hrest
  have hplace : o + byteLength ('"' :: (k ++ '"' :: (b₁ ++ ':' :: b₂)))
      = o + byteLength ('"' :: (k ++ ['"'])) + byteLength (b₁ ++ ':' :: b₂) := by
    simp only [byteLength_append, byteLength_cons, byteLength_nil]
    omega
  have hshape : '"' :: (k ++ '"' :: (b₁ ++ ':' :: (b₂ ++ (s ++ t)))) ++ rest
      = '"' :: (k ++ '"' :: (b₁ ++ ':' :: (b₂ ++ (s ++ (t ++ rest))))) := by simp
  have hvalue : b₁ ++ ':' :: (b₂ ++ (s ++ (t ++ rest))) = b₁ ++ ':' :: b₂ ++ (s ++ t ++ rest) := by
    simp
  -- no quote stands between the key and its value, so the scan goes on in the value
  have hcolon : '"' ∉ b₁ ++ ':' :: b₂ := by
    simp [hb₁.quote_not_mem, hb₂.quote_not_mem]
  rw [hplace] at h hfound
  rw [hshape, arraysFrom_string hk, regionsBehind, arrayRegion?_located hb₁ hb₂ h, hvalue,
    arraysFrom_append hcolon, hfound rest hrest, List.append_assoc]
  congr 4
  simp only [byteLength_append, byteLength_cons, byteLength_nil]
  omega

/-- A part of a list, and what is found behind the comma. -/
theorem Finds.listed {found found' : List Region} (hs : Finds least o s found) (hb₁ : Blanks b₁)
    (hb₂ : Blanks b₂) (ht : Finds least (o + byteLength (s ++ (b₁ ++ ',' :: b₂))) t found') :
    Finds least o (s ++ (b₁ ++ ',' :: (b₂ ++ t))) (found ++ found') := by
  rw [byteLength_append, ← Nat.add_assoc] at ht
  have hcomma : '"' ∉ b₁ ++ ',' :: b₂ := by
    simp [hb₁.quote_not_mem, hb₂.quote_not_mem]
  have hbehind := ht.before hcomma
  rw [List.append_assoc, List.cons_append] at hbehind
  exact hs.append hbehind (separates_mark hb₁ rfl (by decide))

/-- What is found between two brackets. -/
theorem Finds.closed {found : List Region} {x : Char} (hs : Finds least o s found)
    (hx : x = ']' ∨ x = '}') : Finds least o (s ++ [x]) found := by
  refine hs.behind ?_ (separates_mark (b := []) (by simp [Blanks]) ?_ ?_)
  all_goals rcases hx with rfl | rfl <;> decide

/-- The scan over a located text finds the large arrays of its members. -/
theorem Located.finds {p : Phrase Key Tree} (h : Located denotes o s p) :
    Finds least o s (Tree.largeArrays least p.allMembers) := by
  induction h with
  | scalar h =>
    -- a string is taken for a key only if a colon follows, and behind a value none does
    rcases h.unmarked_or_quoted with hs | ⟨k, rfl, hk⟩
    · exact finds_nil fun hmem => absurd (hs _ hmem) (by decide)
    · exact finds_string hk
  | emptyArray hb => exact finds_nil (by simp [hb.quote_not_mem])
  | emptyObject hb => exact finds_nil (by simp [hb.quote_not_mem])
  | array hb _ ih => exact (ih.closed (.inl rfl)).before (by simp [hb.quote_not_mem])
  | object hb _ ih => exact (ih.closed (.inr rfl)).before (by simp [hb.quote_not_mem])
  | lastItem _ hb ih =>
    rw [Phrase.allMembers, Tree.itemMembers, Tree.itemMembers, List.append_nil]
    exact ih.behind hb.quote_not_mem hb.separates
  | item _ hb₁ hb₂ _ ih ih' =>
    rw [Phrase.allMembers, Tree.itemMembers, Tree.largeArrays_append]
    exact ih.listed hb₁ hb₂ ih'
  | lastMember hk hb₁ hb₂ h hb₃ ih =>
    rw [Phrase.allMembers, Tree.nestedMembers, Tree.nestedMembers, List.append_nil,
      Tree.largeArrays_cons]
    exact finds_member hk.quoted hb₁ hb₂ h (ih.behind hb₃.quote_not_mem hb₃.separates)
  | @member o k cs b₁ b₂ s b₃ b₄ r t ms hk hb₁ hb₂ h hb₃ hb₄ _ ih ih' =>
    rw [Phrase.allMembers, Tree.nestedMembers, Tree.largeArrays_cons, Tree.largeArrays_append]
    refine finds_member hk.quoted hb₁ hb₂ h (ih.listed hb₃ hb₄ ?_)
    have hplace :
        o + byteLength ('"' :: (k ++ '"' :: (b₁ ++ ':' :: (b₂ ++ (s ++ (b₃ ++ ',' :: b₄))))))
          = o + byteLength ('"' :: (k ++ '"' :: (b₁ ++ ':' :: b₂)))
            + byteLength (s ++ (b₃ ++ ',' :: b₄)) := by
      simp only [byteLength_append, byteLength_cons]
      omega
    rwa [hplace] at ih'

/-- On a text that is read as a tree, the scan finds the members of the tree's objects, at any
    depth, whose value is an array of at least `least` items. -/
theorem arrayRegions_eq_filterMap {limits : Limits} {text : List Char} {t : Tree}
    (h : read limits text = .ok t) (least : Nat) :
    arrayRegions least text
      = t.allMembers.filterMap fun member => member.2.largeArray? least := by
  obtain ⟨b₁, s, b₂, rfl, hb₁, hb₂, hloc, -⟩ := (read_eq_ok_iff.1 h).2
  have hvalue : Finds least (0 + byteLength b₁) s (Tree.largeArrays least t.allMembers) := by
    rw [Nat.zero_add]
    exact hloc.finds
  have htext := (hvalue.behind hb₂.quote_not_mem hb₂.separates).before hb₁.quote_not_mem
  have hscan := htext [] unkeyed_nil
  rwa [List.append_nil, arraysFrom_nil, List.append_nil] at hscan

/-- An array with an object in it, whose own array has a string with a quote, a comma and a bracket;
    and an array that is too small. -/
def nestedArrays : List Char :=
  "\x7b\"o\" :[\x7b\"i\":[\"a,\\\"]\", null]\x7d, []],\"s\":[ ]\x7d".toList

theorem arrayRegions_eq_filterMap_nested :
    arrayRegions 2 nestedArrays = [⟨⟨6, 33⟩, .array 2⟩, ⟨⟨12, 27⟩, .array 2⟩] := by
  have hread : read .standard nestedArrays
      = .ok (.object ⟨0, 42⟩
          [(⟨"o", ⟨1, 4⟩⟩, .array ⟨6, 33⟩
            [.object ⟨7, 28⟩ [(⟨"i", ⟨8, 11⟩⟩, .array ⟨12, 27⟩
                [.leaf ⟨13, 20⟩ (.string "a,\"]"), .leaf ⟨22, 26⟩ .null])],
              .array ⟨30, 32⟩ []]),
            (⟨"s", ⟨34, 37⟩⟩, .array ⟨38, 41⟩ [])]) := by
    with_unfolding_all rfl
  exact arrayRegions_eq_filterMap hread 2

end BimEditor.Json
