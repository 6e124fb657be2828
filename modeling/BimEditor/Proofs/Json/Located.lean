/-
  BimEditor.Proofs.Json.Located

  The grammar of JSON with places: `Located o s p` says that the text `s`, standing at byte `o`,
  holds the phrase `p` with all spans as they should be. Each part of a text stands behind the bytes
  of what comes before it, and the span of a value covers exactly its own text.

  Forgetting the spans gives a derivation of `Derives`, and every derivation has spans at any place
  (`Located.derives`, `Derives.located`). A located text may be moved (`Located.moved`), and every
  value and key inside of it is located by itself (`Located.node`, `Located.key`).
-/
import BimEditor.Proofs.Json.TreeView
import BimEditor.Proofs.Text.Passage

namespace BimEditor.Json

open BimEditor.Text

/-- The span of the text `s` that stands at byte `o`. -/
def spanAt (o : Nat) (s : List Char) : Span :=
  ⟨o, o + byteLength s⟩

section

variable (denotes : Numeral → Number → Prop)

/-- The text of a phrase that stands at a byte of a longer text. -/
inductive Located : Nat → List Char → Phrase Key Tree → Prop where
  | scalar {o : Nat} {s : List Char} {x : Scalar} :
      ScalarText denotes s x → Located o s (.value (.leaf (spanAt o s) x))
  | emptyArray {o : Nat} {b : List Char} :
      Blanks b →
      Located o ('[' :: (b ++ [']'])) (.value (.array (spanAt o ('[' :: (b ++ [']']))) []))
  | array {o : Nat} {b s : List Char} {ts : List Tree} :
      Blanks b → Located (o + byteLength ('[' :: b)) s (.items ts) →
      Located o ('[' :: (b ++ (s ++ [']'])))
        (.value (.array (spanAt o ('[' :: (b ++ (s ++ [']'])))) ts))
  | emptyObject {o : Nat} {b : List Char} :
      Blanks b →
      Located o ('{' :: (b ++ ['}'])) (.value (.object (spanAt o ('{' :: (b ++ ['}']))) []))
  | object {o : Nat} {b s : List Char} {ms : List (Key × Tree)} :
      Blanks b → Located (o + byteLength ('{' :: b)) s (.members ms) →
      Located o ('{' :: (b ++ (s ++ ['}'])))
        (.value (.object (spanAt o ('{' :: (b ++ (s ++ ['}'])))) ms))
  -- what follows an item stands behind its bytes, the blanks and the comma
  | lastItem {o : Nat} {s b : List Char} {t : Tree} :
      Located o s (.value t) → Blanks b → Located o (s ++ b) (.items [t])
  | item {o : Nat} {s b₁ b₂ r : List Char} {t : Tree} {ts : List Tree} :
      Located o s (.value t) → Blanks b₁ → Blanks b₂ →
      Located (o + byteLength (s ++ (b₁ ++ ',' :: b₂))) r (.items ts) →
      Located o (s ++ (b₁ ++ ',' :: (b₂ ++ r))) (.items (t :: ts))
  -- the span of a key covers its quotes
  | lastMember {o : Nat} {k cs b₁ b₂ s b₃ : List Char} {t : Tree} :
      Characters k cs → Blanks b₁ → Blanks b₂ →
      Located (o + byteLength ('"' :: (k ++ '"' :: (b₁ ++ ':' :: b₂)))) s (.value t) → Blanks b₃ →
      Located o ('"' :: (k ++ '"' :: (b₁ ++ ':' :: (b₂ ++ (s ++ b₃)))))
        (.members [(⟨String.ofList cs, spanAt o ('"' :: (k ++ ['"']))⟩, t)])
  | member {o : Nat} {k cs b₁ b₂ s b₃ b₄ r : List Char} {t : Tree} {ms : List (Key × Tree)} :
      Characters k cs → Blanks b₁ → Blanks b₂ →
      Located (o + byteLength ('"' :: (k ++ '"' :: (b₁ ++ ':' :: b₂)))) s (.value t) → Blanks b₃ →
      Blanks b₄ →
      Located
        (o + byteLength ('"' :: (k ++ '"' :: (b₁ ++ ':' :: (b₂ ++ (s ++ (b₃ ++ ',' :: b₄)))))))
        r (.members ms) →
      Located o ('"' :: (k ++ '"' :: (b₁ ++ ':' :: (b₂ ++ (s ++ (b₃ ++ ',' :: (b₄ ++ r)))))))
        (.members ((⟨String.ofList cs, spanAt o ('"' :: (k ++ ['"']))⟩, t) :: ms))

end

variable {denotes : Numeral → Number → Prop}

/-! ## With and without places -/

/-- A located text derives its phrase. -/
theorem Located.derives {o : Nat} {s : List Char} {p : Phrase Key Tree}
    (h : Located denotes o s p) : Derives denotes s p.plain := by
  induction h with
  | scalar h => exact .scalar h
  | emptyArray hb => exact .emptyArray hb
  | array hb _ ih => exact .array hb ih
  | emptyObject hb => exact .emptyObject hb
  | object hb _ ih => exact .object hb ih
  | lastItem _ hb ih => exact .lastItem ih hb
  | item _ hb₁ hb₂ _ ih ih' => exact .item ih hb₁ hb₂ ih'
  | lastMember hk hb₁ hb₂ _ hb₃ ih => exact .lastMember hk hb₁ hb₂ ih hb₃
  | member hk hb₁ hb₂ _ hb₃ hb₄ _ ih ih' => exact .member hk hb₁ hb₂ ih hb₃ hb₄ ih'

/-- Every derivation has its spans, wherever the text stands. -/
theorem Derives.located {s : List Char} {q : Phrase String Value} (h : Derives denotes s q)
    (o : Nat) : ∃ p, Located denotes o s p ∧ p.plain = q := by
  induction h generalizing o with
  | scalar h => exact ⟨_, .scalar h, rfl⟩
  | emptyArray hb => exact ⟨_, .emptyArray hb, rfl⟩
  | emptyObject hb => exact ⟨_, .emptyObject hb, rfl⟩
  | array hb _ ih =>
    obtain ⟨p, hp, hplain⟩ := ih _
    obtain ⟨ts, rfl, rfl⟩ := Phrase.of_plain_items hplain
    exact ⟨_, .array hb hp, rfl⟩
  | object hb _ ih =>
    obtain ⟨p, hp, hplain⟩ := ih _
    obtain ⟨ms, rfl, rfl⟩ := Phrase.of_plain_members hplain
    exact ⟨_, .object hb hp, rfl⟩
  -- below, a part that follows another one is placed behind it
  | lastItem _ hb ih =>
    obtain ⟨p, hp, hplain⟩ := ih o
    obtain ⟨t, rfl, rfl⟩ := Phrase.of_plain_value hplain
    exact ⟨_, .lastItem hp hb, rfl⟩
  | item _ hb₁ hb₂ _ ih ih' =>
    obtain ⟨p, hp, hplain⟩ := ih o
    obtain ⟨t, rfl, rfl⟩ := Phrase.of_plain_value hplain
    obtain ⟨p', hp', hplain'⟩ := ih' _
    obtain ⟨ts, rfl, rfl⟩ := Phrase.of_plain_items hplain'
    exact ⟨_, .item hp hb₁ hb₂ hp', rfl⟩
  | lastMember hk hb₁ hb₂ _ hb₃ ih =>
    obtain ⟨p, hp, hplain⟩ := ih _
    obtain ⟨t, rfl, rfl⟩ := Phrase.of_plain_value hplain
    exact ⟨_, .lastMember hk hb₁ hb₂ hp hb₃, rfl⟩
  | member hk hb₁ hb₂ _ hb₃ hb₄ _ ih ih' =>
    obtain ⟨p, hp, hplain⟩ := ih _
    obtain ⟨t, rfl, rfl⟩ := Phrase.of_plain_value hplain
    obtain ⟨p', hp', hplain'⟩ := ih' _
    obtain ⟨ms, rfl, rfl⟩ := Phrase.of_plain_members hplain'
    exact ⟨_, .member hk hb₁ hb₂ hp hb₃ hb₄ hp', rfl⟩

/-! ## Moving a text -/

@[simp]
theorem moveSpan_spanAt (n o : Nat) (s : List Char) :
    moveSpan n (spanAt o s) = spanAt (o + n) s := by
  simp only [moveSpan, spanAt, Span.mk.injEq, true_and]
  omega

/-- The same text at a later place holds the same phrase with its spans moved. -/
theorem Located.moved {o : Nat} {s : List Char} {p : Phrase Key Tree}
    (h : Located denotes o s p) (n : Nat) : Located denotes (o + n) s (p.move n) := by
  induction h with
  | scalar h =>
    rw [Phrase.move, Tree.move, moveSpan_spanAt]
    exact .scalar h
  | emptyArray hb =>
    rw [Phrase.move, Tree.move, Tree.moveItems, moveSpan_spanAt]
    exact .emptyArray hb
  | array hb _ ih =>
    -- moving what stands behind the bracket, or standing behind a moved bracket, is the same
    rw [Nat.add_right_comm] at ih
    rw [Phrase.move, Tree.move, moveSpan_spanAt]
    exact .array hb ih
  | emptyObject hb =>
    rw [Phrase.move, Tree.move, Tree.moveMembers, moveSpan_spanAt]
    exact .emptyObject hb
  | object hb _ ih =>
    rw [Nat.add_right_comm] at ih
    rw [Phrase.move, Tree.move, moveSpan_spanAt]
    exact .object hb ih
  | lastItem _ hb ih => exact .lastItem ih hb
  | item _ hb₁ hb₂ _ ih ih' =>
    rw [Nat.add_right_comm] at ih'
    exact .item ih hb₁ hb₂ ih'
  | lastMember hk hb₁ hb₂ _ hb₃ ih =>
    rw [Nat.add_right_comm] at ih
    rw [Phrase.move, Tree.moveMembers, Tree.moveMembers, Key.move, moveSpan_spanAt]
    exact .lastMember hk hb₁ hb₂ ih hb₃
  | member hk hb₁ hb₂ _ hb₃ hb₄ _ ih ih' =>
    rw [Nat.add_right_comm] at ih ih'
    rw [Phrase.move, Tree.moveMembers, Key.move, moveSpan_spanAt]
    exact .member hk hb₁ hb₂ ih hb₃ hb₄ ih'

/-! ## Parts of a text -/

/-- The span of a value covers its text. -/
theorem Located.span {o : Nat} {s : List Char} {t : Tree} (h : Located denotes o s (.value t)) :
    t.span = spanAt o s := by
  cases h <;> rfl

/-- Some part of `s`, which stands at byte `o`, satisfies `Q` at the byte where it stands. -/
def HasPart (o : Nat) (s : List Char) (Q : Nat → List Char → Prop) : Prop :=
  ∃ before part after, s = before ++ (part ++ after) ∧ Q (o + byteLength before) part

namespace HasPart

variable {o : Nat} {s : List Char} {Q : Nat → List Char → Prop}

theorem self (h : Q o s) : HasPart o s Q :=
  ⟨[], s, [], by simp, by simpa using h⟩

/-- A part of a part is a part of the whole. -/
theorem inside {whole : List Char} (before after : List Char)
    (hwhole : whole = before ++ (s ++ after)) (h : HasPart (o + byteLength before) s Q) :
    HasPart o whole Q := by
  obtain ⟨b, part, a, rfl, hQ⟩ := h
  refine ⟨before ++ b, part, a ++ after, ?_, ?_⟩
  · rw [hwhole]
    simp
  · rwa [byteLength_append, ← Nat.add_assoc]

end HasPart

/-- Every value of a phrase stands in its text, and nests no deeper than the phrase. -/
theorem Located.node {o : Nat} {s : List Char} {p : Phrase Key Tree} {w : Tree}
    (h : Located denotes o s p) (hw : w ∈ p.nodes) :
    w.depth ≤ p.depth ∧ HasPart o s fun here part => Located denotes here part (.value w) := by
  induction h with
  | scalar h =>
    obtain rfl := List.mem_singleton.1 hw
    exact ⟨Nat.le_refl _, .self (.scalar h)⟩
  | emptyArray hb =>
    obtain rfl := List.mem_singleton.1 hw
    exact ⟨Nat.le_refl _, .self (.emptyArray hb)⟩
  | emptyObject hb =>
    obtain rfl := List.mem_singleton.1 hw
    exact ⟨Nat.le_refl _, .self (.emptyObject hb)⟩
  | @array o b s ts hb h ih =>
    rcases List.mem_cons.1 hw with rfl | hw
    · exact ⟨Nat.le_refl _, .self (.array hb h)⟩
    · obtain ⟨hdepth, hpart⟩ := ih hw
      exact ⟨Nat.le_succ_of_le hdepth, hpart.inside ('[' :: b) [']'] rfl⟩
  | @object o b s ms hb h ih =>
    rcases List.mem_cons.1 hw with rfl | hw
    · exact ⟨Nat.le_refl _, .self (.object hb h)⟩
    · obtain ⟨hdepth, hpart⟩ := ih hw
      exact ⟨Nat.le_succ_of_le hdepth, hpart.inside ('{' :: b) ['}'] rfl⟩
  | @lastItem o s b t _ _ ih =>
    have hw : w ∈ t.nodes := by simpa [Phrase.nodes, Tree.itemNodes] using hw
    obtain ⟨hdepth, hpart⟩ := ih hw
    exact ⟨Nat.le_trans hdepth (Nat.le_max_left _ _), hpart.inside [] b (by simp)⟩
  | @item o s b₁ b₂ r t ts _ _ _ _ ih ih' =>
    rcases List.mem_append.1 hw with hw | hw
    · obtain ⟨hdepth, hpart⟩ := ih hw
      exact ⟨Nat.le_trans hdepth (Nat.le_max_left _ _),
        hpart.inside [] (b₁ ++ ',' :: (b₂ ++ r)) (by simp)⟩
    · obtain ⟨hdepth, hpart⟩ := ih' hw
      exact ⟨Nat.le_trans hdepth (Nat.le_max_right _ _),
        hpart.inside (s ++ (b₁ ++ ',' :: b₂)) [] (by simp)⟩
  | @lastMember o k cs b₁ b₂ s b₃ t _ _ _ _ _ ih =>
    have hw : w ∈ t.nodes := by simpa [Phrase.nodes, Tree.memberNodes] using hw
    obtain ⟨hdepth, hpart⟩ := ih hw
    exact ⟨Nat.le_trans hdepth (Nat.le_max_left _ _),
      hpart.inside ('"' :: (k ++ '"' :: (b₁ ++ ':' :: b₂))) b₃ (by simp)⟩
  | @member o k cs b₁ b₂ s b₃ b₄ r t ms _ _ _ _ _ _ _ ih ih' =>
    rcases List.mem_append.1 hw with hw | hw
    · obtain ⟨hdepth, hpart⟩ := ih hw
      exact ⟨Nat.le_trans hdepth (Nat.le_max_left _ _),
        hpart.inside ('"' :: (k ++ '"' :: (b₁ ++ ':' :: b₂))) (b₃ ++ ',' :: (b₄ ++ r)) (by simp)⟩
    · obtain ⟨hdepth, hpart⟩ := ih' hw
      exact ⟨Nat.le_trans hdepth (Nat.le_max_right _ _),
        hpart.inside ('"' :: (k ++ '"' :: (b₁ ++ ':' :: (b₂ ++ (s ++ (b₃ ++ ',' :: b₄)))))) []
          (by simp)⟩

/-- Every key of a phrase stands in its text as a quoted string. -/
theorem Located.key {o : Nat} {s : List Char} {p : Phrase Key Tree} {key : Key}
    (h : Located denotes o s p) (hkey : key ∈ p.keys) :
    HasPart o s fun here part =>
      key.span = spanAt here part ∧ ScalarText denotes part (.string key.name) := by
  induction h with
  | scalar h => cases hkey
  | emptyArray hb => cases hkey
  | emptyObject hb => cases hkey
  | @array o b s ts _ _ ih => exact (ih hkey).inside ('[' :: b) [']'] rfl
  | @object o b s ms _ _ ih => exact (ih hkey).inside ('{' :: b) ['}'] rfl
  | @lastItem o s b t _ _ ih =>
    have hkey : key ∈ t.keys := by simpa [Phrase.keys, Tree.itemKeys] using hkey
    exact (ih hkey).inside [] b (by simp)
  | @item o s b₁ b₂ r t ts _ _ _ _ ih ih' =>
    rcases List.mem_append.1 hkey with hkey | hkey
    · exact (ih hkey).inside [] (b₁ ++ ',' :: (b₂ ++ r)) (by simp)
    · exact (ih' hkey).inside (s ++ (b₁ ++ ',' :: b₂)) [] (by simp)
  | @lastMember o k cs b₁ b₂ s b₃ t hk _ _ _ _ ih =>
    rcases List.mem_cons.1 hkey with rfl | hkey
    · refine HasPart.inside [] (b₁ ++ ':' :: (b₂ ++ (s ++ b₃))) ?_ (.self ⟨rfl, .string hk⟩)
      simp
    · have hkey : key ∈ t.keys := by simpa [Tree.memberKeys] using hkey
      exact (ih hkey).inside ('"' :: (k ++ '"' :: (b₁ ++ ':' :: b₂))) b₃ (by simp)
  | @member o k cs b₁ b₂ s b₃ b₄ r t ms hk _ _ _ _ _ _ ih ih' =>
    rcases List.mem_cons.1 hkey with rfl | hkey
    · refine HasPart.inside [] (b₁ ++ ':' :: (b₂ ++ (s ++ (b₃ ++ ',' :: (b₄ ++ r))))) ?_
        (.self ⟨rfl, .string hk⟩)
      simp
    rcases List.mem_append.1 hkey with hkey | hkey
    · exact (ih hkey).inside ('"' :: (k ++ '"' :: (b₁ ++ ':' :: b₂))) (b₃ ++ ',' :: (b₄ ++ r))
        (by simp)
    · exact (ih' hkey).inside
        ('"' :: (k ++ '"' :: (b₁ ++ ':' :: (b₂ ++ (s ++ (b₃ ++ ',' :: b₄)))))) [] (by simp)

end BimEditor.Json
