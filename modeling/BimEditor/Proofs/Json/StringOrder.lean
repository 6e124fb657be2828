/-
  BimEditor.Proofs.Json.StringOrder

  Where the strings of a tree stand. Between the contents of two strings there are always two quotes
  and something that separates the values, so they come one behind another and never touch
  (`Located.strings_spaced`). A place in a text therefore belongs to at most one string, and what
  stands between two quotes tells which string it is (`eq_of_touches`).

  The strings of a part of a tree are among those of the tree, in the same order: of a member
  (`strings_sublist_of_get?`), of an item (`strings_sublist_of_items?`), and the keys of an object
  (`keyTokens_sublist_of_members?`). Each of them is a key or a value, and its span cuts out what
  stands between its quotes (`string_cut_of_read`).
-/
import BimEditor.Proofs.Json.SpanExact
import BimEditor.Proofs.Json.SpanOrder

namespace BimEditor.Json

open BimEditor.Text

variable {denotes : Numeral → Number → Prop} {o : Nat} {s : List Char}

/-! ## Strings one behind another -/

/-- The content of `t` and that of `u` behind it have at least three bytes between them. -/
def StringToken.Before (t u : StringToken) : Prop :=
  t.span.stop + 3 ≤ u.span.start

/-- The contents of the strings stand between the bytes `start` and `stop`, each with a quote on
    either side, and one behind another. -/
def Spaced (start stop : Nat) (tokens : List StringToken) : Prop :=
  (∀ t ∈ tokens, start < t.span.start ∧ t.span.start ≤ t.span.stop ∧ t.span.stop < stop)
    ∧ tokens.Pairwise StringToken.Before

namespace Spaced

variable {start stop start' stop' : Nat} {ts us : List StringToken}

theorem nil (start stop : Nat) : Spaced start stop [] :=
  ⟨fun _ ht => absurd ht List.not_mem_nil, .nil⟩

theorem mono (h : Spaced start stop ts) (hstart : start' ≤ start) (hstop : stop ≤ stop') :
    Spaced start' stop' ts := by
  refine ⟨fun t ht => ?_, h.2⟩
  have := h.1 t ht
  omega

/-- Strings behind others, with something in between. -/
theorem append (ht : Spaced start stop ts) (hu : Spaced start' stop' us) (hbetween : stop < start')
    (hstart : start ≤ start') (hstop : stop ≤ stop') : Spaced start stop' (ts ++ us) := by
  refine ⟨fun x hx => ?_, List.pairwise_append.2 ⟨ht.2, hu.2, fun t htmem u humem => ?_⟩⟩
  · rcases List.mem_append.1 hx with hx | hx
    · have := ht.1 x hx
      omega
    · have := hu.1 x hx
      omega
  · have hfirst := ht.1 t htmem
    have hsecond := hu.1 u humem
    unfold StringToken.Before
    omega

/-- One string with its quotes. -/
theorem quoted (k : List Char) (text : String) (role : StringRole) :
    Spaced o (o + byteLength ('"' :: (k ++ ['"'])))
      [⟨text, (spanAt o ('"' :: (k ++ ['"']))).inner, role⟩] := by
  refine ⟨fun t ht => ?_, List.pairwise_singleton _ _⟩
  obtain rfl := List.mem_singleton.1 ht
  have hsize : '"'.utf8Size = 1 := rfl
  simp only [Span.inner, spanAt, byteLength_cons, byteLength_append, byteLength_nil, hsize]
  omega

end Spaced

/-- All strings of a phrase. -/
def Phrase.strings : Phrase Key Tree → List StringToken
  | .value t => t.strings
  | .items ts => Tree.itemStrings ts
  | .members ms => Tree.memberStrings ms

theorem ScalarText.strings_spaced {x : Scalar} (h : ScalarText denotes s x) :
    Spaced o (o + byteLength s) (Tree.leaf (spanAt o s) x).strings := by
  cases h with
  | string _ => exact Spaced.quoted _ _ _
  | nullWord => exact Spaced.nil _ _
  | trueWord => exact Spaced.nil _ _
  | falseWord => exact Spaced.nil _ _
  | number _ _ => exact Spaced.nil _ _

/-- The strings of a text stand in it one behind another. -/
theorem Located.strings_spaced {p : Phrase Key Tree} (h : Located denotes o s p) :
    Spaced o (o + byteLength s) p.strings := by
  have hcomma : ','.utf8Size = 1 := rfl
  have hcolon : ':'.utf8Size = 1 := rfl
  have hquote : '"'.utf8Size = 1 := rfl
  induction h with
  | scalar h => exact h.strings_spaced
  | emptyArray hb => exact Spaced.nil _ _
  | emptyObject hb => exact Spaced.nil _ _
  | array _ _ ih =>
    refine Spaced.mono ih (by omega) ?_
    simp only [byteLength_cons, byteLength_append]
    omega
  | object _ _ ih =>
    refine Spaced.mono ih (by omega) ?_
    simp only [byteLength_cons, byteLength_append]
    omega
  | @lastItem o s b t _ _ ih =>
    have hstrings : (Phrase.items [t]).strings = t.strings := List.append_nil _
    rw [hstrings]
    refine Spaced.mono ih (Nat.le_refl _) ?_
    rw [byteLength_append]
    omega
  | item _ _ _ _ ih ih' =>
    simp only [byteLength_cons, byteLength_append, hcomma] at ih ih' ⊢
    exact Spaced.append ih (Spaced.mono ih' (Nat.le_refl _) (by omega))
      (by omega) (by omega) (by omega)
  -- the colon stands between a key and its value, a comma between a value and the next key
  | @lastMember o k cs b₁ b₂ s b₃ t _ _ _ _ _ ih =>
    have hstrings : (Phrase.members
          [(⟨String.ofList cs, spanAt o ('"' :: (k ++ ['"']))⟩, t)]).strings
        = [⟨String.ofList cs, (spanAt o ('"' :: (k ++ ['"']))).inner, .key⟩] ++ t.strings :=
      congrArg (List.cons _) (List.append_nil _)
    rw [hstrings]
    refine Spaced.append (Spaced.quoted k _ _) (Spaced.mono ih (Nat.le_refl _) ?_) ?_ ?_ ?_ <;>
      simp only [byteLength_cons, byteLength_append, byteLength_nil, hcolon, hquote] <;> omega
  | @member o k cs b₁ b₂ s b₃ b₄ r t ms _ _ _ _ _ _ _ ih ih' =>
    have hstrings : (Phrase.members
          ((⟨String.ofList cs, spanAt o ('"' :: (k ++ ['"']))⟩, t) :: ms)).strings
        = [⟨String.ofList cs, (spanAt o ('"' :: (k ++ ['"']))).inner, .key⟩]
          ++ (t.strings ++ Tree.memberStrings ms) := rfl
    rw [hstrings]
    refine Spaced.append (Spaced.quoted k _ _)
      (Spaced.append ih (Spaced.mono ih' (Nat.le_refl _) ?_) ?_ ?_ ?_) ?_ ?_ ?_ <;>
      simp only [byteLength_cons, byteLength_append, byteLength_nil, hcolon, hcomma, hquote] <;>
      omega

/-! ## The strings of a tree that was read -/

section

variable {limits : Limits} {text : List Char} {t : Tree}

theorem strings_spaced_of_read (h : read limits text = .ok t) :
    ∃ start stop, Spaced start stop t.strings := by
  obtain ⟨b₁, s, b₂, -, -, -, hloc, -⟩ := (read_eq_ok_iff.1 h).2
  exact ⟨_, _, hloc.strings_spaced⟩

/-- A content does not end before it starts. -/
theorem start_le_stop_of_read (h : read limits text = .ok t) {token : StringToken}
    (htoken : token ∈ t.strings) : token.span.start ≤ token.span.stop := by
  obtain ⟨start, stop, hspaced⟩ := strings_spaced_of_read h
  exact (hspaced.1 token htoken).2.1

/-- Two strings of a tree are the same one, or one stands behind the other. -/
theorem eq_or_before_of_read (h : read limits text = .ok t) {first second : StringToken}
    (hfirst : first ∈ t.strings) (hsecond : second ∈ t.strings) :
    first = second ∨ first.Before second ∨ second.Before first := by
  obtain ⟨start, stop, hspaced⟩ := strings_spaced_of_read h
  exact eq_or_rel_of_pairwise hspaced.2 hfirst hsecond

/-- A place touches one string at most. -/
theorem eq_of_touches (h : read limits text = .ok t) {first second : StringToken}
    (hfirst : first ∈ t.strings) (hsecond : second ∈ t.strings) {offset : Nat}
    (htouch : first.span.touches offset = true) (htouch' : second.span.touches offset = true) :
    first = second := by
  rw [Span.touches_iff] at htouch htouch'
  rcases eq_or_before_of_read h hfirst hsecond with heq | hbefore | hbefore
  · exact heq
  · unfold StringToken.Before at hbefore
    omega
  · unfold StringToken.Before at hbefore
    omega

/-- A string is known by its place. -/
theorem eq_of_span_eq (h : read limits text = .ok t) {first second : StringToken}
    (hfirst : first ∈ t.strings) (hsecond : second ∈ t.strings) (hspan : first.span = second.span) :
    first = second := by
  have htouch : first.span.touches first.span.start = true :=
    Span.touches_iff.2 ⟨Nat.le_refl _, start_le_stop_of_read h hfirst⟩
  exact eq_of_touches h hfirst hsecond htouch (hspan ▸ htouch)

theorem nodup_spans_of_read (h : read limits text = .ok t) : (t.strings.map (·.span)).Nodup := by
  obtain ⟨start, stop, hbounds, hpairwise⟩ := strings_spaced_of_read h
  rw [List.Nodup, List.pairwise_map]
  refine hpairwise.imp_of_mem fun {a b} ha hb hbefore heq => ?_
  have := (hbounds a ha).2.1
  rw [StringToken.Before, ← heq] at hbefore
  omega

/-- A string that is not empty is not written as nothing. -/
theorem Characters.ne_nil {k cs : List Char} (h : Characters k cs) (hcs : cs ≠ []) : k ≠ [] := by
  cases h with
  | nil => exact absurd rfl hcs
  | cons hc _ =>
    intro heq
    have hnone := (List.append_eq_nil_iff.1 heq).1
    cases hc <;> cases hnone

/-- Without its quotes a text is cut out by the inner part of its span. -/
theorem cut_inner {span : Span} {k : List Char} (h : Cut text span ('"' :: (k ++ ['"']))) :
    Cut text span.inner k := by
  obtain ⟨before, after, rfl, hstart, hstop⟩ := h
  have hquote : '"'.utf8Size = 1 := rfl
  simp only [byteLength_cons, byteLength_append, byteLength_nil, hquote] at hstop
  refine ⟨before ++ ['"'], '"' :: after, ?_, ?_, ?_⟩
  · simp
  · simp only [byteLength_append, byteLength_cons, byteLength_nil, hquote, hstart, Span.inner]
  · simp only [Span.inner]
    omega

/-- What stands between the quotes of a key is decoded to its name. -/
theorem content_cut_of_read (h : read limits text = .ok t) {key : Key} (hkey : key ∈ t.keys) :
    ∃ k cs, Cut text key.content k ∧ Characters k cs ∧ key.name = String.ofList cs := by
  obtain ⟨-, b₁, s, b₂, rfl, -, -, hloc, -⟩ := read_eq_ok_iff.1 h
  rw [← Nat.zero_add (byteLength b₁)] at hloc
  obtain ⟨part, hcut, -, -, hpart⟩ := ((hloc.key hkey).inside b₁ b₂ rfl).cut fun _ _ hk => hk.1
  obtain ⟨k, cs, rfl, hk, hname⟩ := hpart.eq_quoted
  exact ⟨k, cs, cut_inner hcut, hk, hname⟩

end

/-! ## The strings of a part -/

/-- The key of a member as a string. -/
def Key.token (key : Key) : StringToken :=
  ⟨key.name, key.content, .key⟩

namespace Tree

theorem strings_sublist_itemStrings {t : Tree} {ts : List Tree} (h : t ∈ ts) :
    t.strings.Sublist (itemStrings ts) := by
  induction h with
  | head ts => exact List.sublist_append_left _ _
  | tail u _ ih => exact ih.trans (List.sublist_append_right _ _)

theorem strings_sublist_memberStrings {m : Key × Tree} {ms : List (Key × Tree)} (h : m ∈ ms) :
    m.2.strings.Sublist (memberStrings ms) := by
  induction h with
  | head ms => exact (List.sublist_append_left _ _).cons _
  | tail n _ ih => exact (ih.trans (List.sublist_append_right _ _)).cons _

theorem keyTokens_sublist_memberStrings (ms : List (Key × Tree)) :
    (ms.map fun m => m.1.token).Sublist (memberStrings ms) := by
  induction ms with
  | nil => exact List.Sublist.refl _
  | cons m ms ih => exact (ih.trans (List.sublist_append_right _ _)).cons_cons _

/-- The strings of the value of a member are strings of the tree. -/
theorem strings_sublist_of_get? {name : String} {t u : Tree} (h : t.get? name = some u) :
    u.strings.Sublist t.strings := by
  obtain ⟨ms, key, hms, hmem⟩ := mem_of_get? h
  obtain ⟨span, rfl⟩ := eq_object_of_members? hms
  exact strings_sublist_memberStrings hmem

/-- The strings of an item are strings of the tree. -/
theorem strings_sublist_of_items? {t u : Tree} {ts : List Tree} (h : t.items? = some ts)
    (hu : u ∈ ts) : u.strings.Sublist t.strings := by
  obtain ⟨span, rfl⟩ := eq_array_of_items? h
  exact strings_sublist_itemStrings hu

/-- The keys of an object are strings of the tree. -/
theorem keyTokens_sublist_of_members? {t : Tree} {ms : List (Key × Tree)}
    (h : t.members? = some ms) : (ms.map fun m => m.1.token).Sublist t.strings := by
  obtain ⟨span, rfl⟩ := eq_object_of_members? h
  exact keyTokens_sublist_memberStrings ms

/-- The keys of the object that is the value of a member, if it is one, are strings of the tree. -/
theorem memberTokens_sublist (t : Tree) (name : String) :
    ((((t.get? name).bind members?).getD []).map fun m => m.1.token).Sublist t.strings := by
  cases hmembers : (t.get? name).bind members? with
  | none => exact List.nil_sublist _
  | some ms =>
    obtain ⟨u, hu, hms⟩ := Option.bind_eq_some_iff.1 hmembers
    exact (keyTokens_sublist_of_members? hms).trans (strings_sublist_of_get? hu)

theorem strings_of_string? {t : Tree} {x : String} (h : t.string? = some x) :
    t.strings = [⟨x, t.content, .value⟩] := by
  cases t with
  | array span items => cases h
  | object span members => cases h
  | leaf span scalar =>
    cases scalar with
    | string y =>
      obtain rfl := Option.some.inj h
      rfl
    | null => cases h
    | bool b => cases h
    | number n => cases h

/-! ## Keys and values -/

/-- The string is one of the keys, or one of the values. -/
def IsStringOf (keys : List Key) (nodes : List Tree) (token : StringToken) : Prop :=
  (∃ key ∈ keys, token = key.token)
    ∨ ∃ span x, Tree.leaf span (.string x) ∈ nodes ∧ token = ⟨x, span.inner, .value⟩

theorem IsStringOf.mono {keys keys' : List Key} {nodes nodes' : List Tree} {token : StringToken}
    (h : IsStringOf keys nodes token) (hkeys : keys ⊆ keys') (hnodes : nodes ⊆ nodes') :
    IsStringOf keys' nodes' token := by
  rcases h with ⟨key, hkey, heq⟩ | ⟨span, x, hnode, heq⟩
  · exact .inl ⟨key, hkeys hkey, heq⟩
  · exact .inr ⟨span, x, hnodes hnode, heq⟩

mutual
/-- A string of a tree is one of its keys, or one of its values. -/
theorem isStringOf_of_mem {token : StringToken} :
    (t : Tree) → token ∈ t.strings → IsStringOf t.keys t.nodes token
  | .leaf span x, h => by
    cases x with
    | string x =>
      obtain rfl := List.mem_singleton.1 h
      exact .inr ⟨span, x, List.mem_singleton.2 rfl, rfl⟩
    | null => cases h
    | bool b => cases h
    | number n => cases h
  | .array _ items, h =>
    (isStringOf_of_mem_items items h).mono (List.Subset.refl _) (List.subset_cons_self _ _)
  | .object _ members, h =>
    (isStringOf_of_mem_members members h).mono (List.Subset.refl _) (List.subset_cons_self _ _)

theorem isStringOf_of_mem_items {token : StringToken} :
    (ts : List Tree) → token ∈ itemStrings ts → IsStringOf (itemKeys ts) (itemNodes ts) token
  | [], h => absurd h List.not_mem_nil
  | t :: ts, h => by
    rcases List.mem_append.1 h with h | h
    · exact (isStringOf_of_mem t h).mono (List.subset_append_left _ _)
        (List.subset_append_left _ _)
    · exact (isStringOf_of_mem_items ts h).mono (List.subset_append_right _ _)
        (List.subset_append_right _ _)

theorem isStringOf_of_mem_members {token : StringToken} :
    (ms : List (Key × Tree)) → token ∈ memberStrings ms →
      IsStringOf (memberKeys ms) (memberNodes ms) token
  | [], h => absurd h List.not_mem_nil
  | (key, t) :: ms, h => by
    rcases List.mem_cons.1 h with rfl | h
    · exact .inl ⟨key, List.mem_cons_self, rfl⟩
    rcases List.mem_append.1 h with h | h
    · exact (isStringOf_of_mem t h).mono
        (List.subset_cons_of_subset _ (List.subset_append_left _ _))
        (List.subset_append_left _ _)
    · exact (isStringOf_of_mem_members ms h).mono
        (List.subset_cons_of_subset _ (List.subset_append_right _ _))
        (List.subset_append_right _ _)
end

end Tree

theorem Located.scalarText {span : Span} {x : Scalar}
    (h : Located denotes o s (.value (.leaf span x))) : ScalarText denotes s x := by
  cases h with
  | scalar h => exact h

/-- The span of a string cuts its content out of the text. -/
theorem string_cut_of_read {limits : Limits} {text : List Char} {t : Tree}
    (h : read limits text = .ok t) {token : StringToken} (htoken : token ∈ t.strings) :
    ∃ k, Cut text token.span k := by
  rcases Tree.isStringOf_of_mem t htoken with ⟨key, hkey, rfl⟩ | ⟨span, x, hnode, rfl⟩
  · obtain ⟨k, cs, hcut, -⟩ := content_cut_of_read h hkey
    exact ⟨k, hcut⟩
  · obtain ⟨part, hcut, hleaf⟩ := located_cut_of_read h hnode
    obtain ⟨k, -, rfl, -⟩ := hleaf.scalarText.eq_quoted
    exact ⟨k, cut_inner hcut⟩

end BimEditor.Json
