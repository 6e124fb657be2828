/-
  BimEditor.Proofs.Json.SpanOrder

  How the spans of a tree lie to each other. The span of a value and the span of a key lie inside
  the span of every value around them, and the items of an array stand one behind another
  (`Located.items_pairwise`). So what stands between the quotes of a key tells which item of an
  array the key belongs to (`Located.eq_of_content_inside`).
-/
import BimEditor.Proofs.Json.Located

namespace BimEditor.Text

/-- The bytes of `inner` are bytes of `outer`. -/
def Span.Inside (inner outer : Span) : Prop :=
  outer.start ≤ inner.start ∧ inner.stop ≤ outer.stop

instance (inner outer : Span) : Decidable (inner.Inside outer) :=
  inferInstanceAs (Decidable (_ ∧ _))

end BimEditor.Text

namespace BimEditor.Json

open BimEditor.Text

variable {denotes : Numeral → Number → Prop} {o : Nat} {s : List Char}

/-! ## Parts of a tree -/

namespace Tree

theorem self_mem_nodes (t : Tree) : t ∈ t.nodes := by
  cases t <;> exact List.mem_cons_self

theorem mem_itemNodes {t : Tree} {ts : List Tree} (h : t ∈ ts) : t ∈ itemNodes ts := by
  induction h with
  | head ts => exact List.mem_append_left _ (self_mem_nodes t)
  | tail u _ ih => exact List.mem_append_right _ ih

theorem mem_memberNodes {m : Key × Tree} {ms : List (Key × Tree)} (h : m ∈ ms) :
    m.2 ∈ memberNodes ms := by
  induction h with
  | head ms => exact List.mem_append_left _ (self_mem_nodes m.2)
  | tail n _ ih => exact List.mem_append_right _ ih

theorem eq_object_of_members? {t : Tree} {ms : List (Key × Tree)} (h : t.members? = some ms) :
    ∃ span, t = .object span ms := by
  cases t with
  | leaf span x => cases h
  | array span items => cases h
  | object span members =>
    obtain rfl := Option.some.inj h
    exact ⟨span, rfl⟩

theorem eq_array_of_items? {t : Tree} {ts : List Tree} (h : t.items? = some ts) :
    ∃ span, t = .array span ts := by
  cases t with
  | leaf span x => cases h
  | object span members => cases h
  | array span items =>
    obtain rfl := Option.some.inj h
    exact ⟨span, rfl⟩

theorem mem_of_entry? {name : String} {t : Tree} {m : Key × Tree} (h : t.entry? name = some m) :
    ∃ ms, t.members? = some ms ∧ m ∈ ms := by
  obtain ⟨ms, hms, hfind⟩ := Option.bind_eq_some_iff.1 h
  exact ⟨ms, hms, List.mem_reverse.1 (List.mem_of_find?_eq_some hfind)⟩

theorem mem_of_get? {name : String} {t u : Tree} (h : t.get? name = some u) :
    ∃ ms key, t.members? = some ms ∧ (key, u) ∈ ms := by
  obtain ⟨⟨key, _⟩, hentry, rfl⟩ := Option.map_eq_some_iff.1 h
  obtain ⟨ms, hms, hmem⟩ := mem_of_entry? hentry
  exact ⟨ms, key, hms, hmem⟩

/-- The value of a member is a value of the tree. -/
theorem mem_nodes_of_get? {name : String} {t u : Tree} (h : t.get? name = some u) :
    u ∈ t.nodes := by
  obtain ⟨ms, key, hms, hmem⟩ := mem_of_get? h
  obtain ⟨span, rfl⟩ := eq_object_of_members? hms
  exact List.mem_cons_of_mem _ (mem_memberNodes hmem)

theorem mem_memberKeys {m : Key × Tree} {ms : List (Key × Tree)} (h : m ∈ ms) :
    m.1 ∈ memberKeys ms := by
  induction h with
  | head ms => exact List.mem_cons_self
  | tail n _ ih => exact List.mem_cons_of_mem _ (List.mem_append_right _ ih)

theorem mem_memberKeys_of_value {m : Key × Tree} {ms : List (Key × Tree)} {key : Key}
    (h : m ∈ ms) (hkey : key ∈ m.2.keys) : key ∈ memberKeys ms := by
  induction h with
  | head ms => exact List.mem_cons_of_mem _ (List.mem_append_left _ hkey)
  | tail n _ ih => exact List.mem_cons_of_mem _ (List.mem_append_right _ ih)

/-- The key of a member is a key of the tree. -/
theorem mem_keys_of_members? {t : Tree} {ms : List (Key × Tree)} {m : Key × Tree}
    (hms : t.members? = some ms) (h : m ∈ ms) : m.1 ∈ t.keys := by
  obtain ⟨span, rfl⟩ := eq_object_of_members? hms
  exact mem_memberKeys h

/-- A key of the value of a member is a key of the tree. -/
theorem mem_keys_of_get? {name : String} {t u : Tree} {key : Key} (h : t.get? name = some u)
    (hkey : key ∈ u.keys) : key ∈ t.keys := by
  obtain ⟨ms, _, hms, hmem⟩ := mem_of_get? h
  obtain ⟨span, rfl⟩ := eq_object_of_members? hms
  exact mem_memberKeys_of_value hmem hkey

end Tree

/-! ## Spans inside spans -/

theorem HasPart.inside_spanAt {Q : Nat → List Char → Prop} {span : Span} (h : HasPart o s Q)
    (hspan : ∀ here part, Q here part → span = spanAt here part) : span.Inside (spanAt o s) := by
  obtain ⟨before, part, after, rfl, hQ⟩ := h
  obtain rfl := hspan _ _ hQ
  simp only [Span.Inside, spanAt, byteLength_append]
  omega

theorem Located.node_inside {p : Phrase Key Tree} {w : Tree} (h : Located denotes o s p)
    (hw : w ∈ p.nodes) : w.span.Inside (spanAt o s) :=
  (h.node hw).2.inside_spanAt fun _ _ hw => hw.span

/-- The text of a string starts and ends with a quote, and what stands between them is decoded to
    the string. -/
theorem ScalarText.eq_quoted {name : String} (h : ScalarText denotes s (.string name)) :
    ∃ k cs, s = '"' :: (k ++ ['"']) ∧ Characters k cs ∧ name = String.ofList cs := by
  generalize hx : Scalar.string name = x at h
  cases h with
  | string hk =>
    injection hx with hname
    exact ⟨_, _, rfl, hk, hname⟩
  | nullWord => cases hx
  | trueWord => cases hx
  | falseWord => cases hx
  | number _ _ => cases hx

/-- Between the quotes of a key there is neither the first nor the last byte of the text. -/
theorem Located.content_inside {p : Phrase Key Tree} {key : Key} (h : Located denotes o s p)
    (hkey : key ∈ p.keys) :
    o < key.content.start ∧ key.content.start ≤ key.content.stop
      ∧ key.content.stop < o + byteLength s := by
  obtain ⟨before, part, after, rfl, hspan, hpart⟩ := h.key hkey
  obtain ⟨k, -, rfl, -⟩ := hpart.eq_quoted
  have hsize : '"'.utf8Size = 1 := rfl
  simp only [Key.content, Span.inner, hspan, spanAt, byteLength_append, byteLength_cons,
    byteLength_nil, hsize]
  omega

/-! ## The items of an array -/

/-- `t` ends before `u` starts. -/
def Tree.Before (t u : Tree) : Prop :=
  t.span.stop ≤ u.span.start

/-- The items of an array stand one behind another. -/
theorem Located.items_pairwise {ts : List Tree} (h : Located denotes o s (.items ts)) :
    ts.Pairwise Tree.Before := by
  generalize hp : Phrase.items ts = p at h
  induction h generalizing ts with
  | lastItem _ _ _ =>
    obtain rfl := Phrase.items.inj hp
    exact List.pairwise_singleton _ _
  | @item o s b₁ b₂ r t us ht _ _ hus _ ih =>
    obtain rfl := Phrase.items.inj hp
    refine List.pairwise_cons.2 ⟨fun u hu => ?_, ih rfl⟩
    obtain ⟨hstart, -⟩ := hus.node_inside (Tree.mem_itemNodes hu)
    rw [Tree.Before, ht.span]
    simp only [spanAt, byteLength_append] at hstart ⊢
    omega
  | _ => cases hp

theorem Located.array_pairwise {span : Span} {ts : List Tree}
    (h : Located denotes o s (.value (.array span ts))) : ts.Pairwise Tree.Before := by
  cases h with
  | emptyArray _ => exact .nil
  | array _ h => exact h.items_pairwise

/-- Two elements of a list that is ordered are the same, or one of them comes before the other. -/
theorem eq_or_rel_of_pairwise {α : Type} {R : α → α → Prop} {xs : List α} (h : xs.Pairwise R)
    {x y : α} (hx : x ∈ xs) (hy : y ∈ xs) : x = y ∨ R x y ∨ R y x := by
  induction h with
  | nil => cases hx
  | @cons z xs hz _ ih =>
    rcases List.mem_cons.1 hx with rfl | hxtail
    · rcases List.mem_cons.1 hy with rfl | hytail
      · exact .inl rfl
      · exact .inr (.inl (hz y hytail))
    · rcases List.mem_cons.1 hy with rfl | hytail
      · exact .inr (.inr (hz x hxtail))
      · exact ih hxtail hytail

theorem Tree.mem_nodes_array {span : Span} {ts : List Tree} {t : Tree} (ht : t ∈ ts) :
    t ∈ (Tree.array span ts).nodes :=
  List.mem_cons_of_mem _ (Tree.mem_itemNodes ht)

/-- A key whose name stands inside of an item of an array is a key of that item. -/
theorem Located.eq_of_content_inside {span : Span} {ts : List Tree} {t u : Tree} {key : Key}
    (h : Located denotes o s (.value (.array span ts))) (ht : t ∈ ts) (hu : u ∈ ts)
    (hkey : key ∈ u.keys) (hinside : key.content.Inside t.span) : u = t := by
  obtain ⟨-, before, part, after, rfl, hpart⟩ := h.node (Tree.mem_nodes_array hu)
  obtain ⟨hstart, hlength, hstop⟩ := hpart.content_inside hkey
  have hspan := hpart.span
  obtain ⟨hinside₁, hinside₂⟩ := hinside
  -- the quotes keep a name away from both ends of its item, so no other item can hold it
  rcases eq_or_rel_of_pairwise h.array_pairwise hu ht with heq | hbefore | hbefore
  · exact heq
  · rw [Tree.Before, hspan] at hbefore
    simp only [spanAt] at hbefore
    omega
  · rw [Tree.Before, hspan] at hbefore
    simp only [spanAt] at hbefore
    omega

end BimEditor.Json
