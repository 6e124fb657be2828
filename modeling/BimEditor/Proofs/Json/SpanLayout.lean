/-
  BimEditor.Proofs.Json.SpanLayout

  How the parts of a container lie in it. What stands directly inside of an array or an object (its
  items; its keys and their values) takes some bytes each, one part behind another, and all of them
  between the two brackets (`Located.laid`). The strings of the whole tree, whatever containers they
  are in, stand one behind another as well, with two quotes and a separator in between.
-/
import BimEditor.Proofs.Json.StringOrder

namespace BimEditor.Json

open BimEditor.Text

variable {denotes : Numeral → Number → Prop} {o : Nat} {s : List Char}

/-! ## Spans one behind another -/

/-- The spans are not empty, stand between the bytes `start` and `stop`, and each of them ends before
    the next one starts. -/
def Laid (start stop : Nat) (spans : List Span) : Prop :=
  (∀ span ∈ spans, start ≤ span.start ∧ span.start < span.stop ∧ span.stop ≤ stop)
    ∧ spans.Pairwise fun first second => first.stop ≤ second.start

namespace Laid

variable {start stop start' stop' : Nat} {spans spans' : List Span}

theorem nil (start stop : Nat) : Laid start stop [] :=
  ⟨fun _ hspan => absurd hspan List.not_mem_nil, .nil⟩

/-- The span of a text that is not empty. -/
theorem single (hs : s ≠ []) : Laid o (o + byteLength s) [spanAt o s] := by
  refine ⟨fun span hspan => ?_, List.pairwise_singleton _ _⟩
  obtain rfl := List.mem_singleton.1 hspan
  obtain ⟨c, s, rfl⟩ := List.exists_cons_of_ne_nil hs
  have hpos := c.utf8Size_pos
  simp only [spanAt, byteLength_cons]
  omega

theorem mono (h : Laid start stop spans) (hstart : start' ≤ start) (hstop : stop ≤ stop') :
    Laid start' stop' spans := by
  refine ⟨fun span hspan => ?_, h.2⟩
  have := h.1 span hspan
  omega

/-- Spans behind others. -/
theorem append (h : Laid start stop spans) (h' : Laid start' stop' spans')
    (hbetween : stop ≤ start') (hstart : start ≤ start') (hstop : stop ≤ stop') :
    Laid start stop' (spans ++ spans') := by
  refine ⟨fun span hspan => ?_, List.pairwise_append.2 ⟨h.2, h'.2, fun a ha b hb => ?_⟩⟩
  · rcases List.mem_append.1 hspan with hspan | hspan
    · have := h.1 span hspan
      omega
    · have := h'.1 span hspan
      omega
  · have hfirst := h.1 a ha
    have hsecond := h'.1 b hb
    omega

end Laid

/-! ## The parts of a container -/

/-- The spans of the key and of the value of each member. -/
def memberSpans (members : List (Key × Tree)) : List Span :=
  members.flatMap fun m => [m.1.span, m.2.span]

/-- The spans of what stands directly inside of a container, in source order. -/
def Tree.parts : Tree → List Span
  | .leaf _ _ => []
  | .array _ items => items.map Tree.span
  | .object _ members => memberSpans members

/-- The two brackets of a container. -/
def Tree.brackets? : Tree → Option (Char × Char)
  | .leaf _ _ => none
  | .array _ _ => some ('[', ']')
  | .object _ _ => some ('{', '}')

/-- The spans of the outermost parts of a phrase. -/
def Phrase.spans : Phrase Key Tree → List Span
  | .value t => [t.span]
  | .items ts => ts.map Tree.span
  | .members ms => memberSpans ms

theorem Located.ne_nil {t : Tree} (h : Located denotes o s (.value t)) : s ≠ [] := by
  obtain ⟨d, r, rfl, -⟩ := h.head
  exact List.cons_ne_nil _ _

theorem Located.laid_value {t : Tree} (h : Located denotes o s (.value t)) :
    Laid o (o + byteLength s) [t.span] := by
  rw [h.span]
  exact Laid.single h.ne_nil

/-- The key of a member and its value, with a colon in between. -/
theorem laid_member {k b₁ b₂ : List Char} {name : String} {t : Tree}
    (h : Located denotes (o + byteLength ('"' :: (k ++ '"' :: (b₁ ++ ':' :: b₂)))) s (.value t)) :
    Laid o (o + byteLength ('"' :: (k ++ '"' :: (b₁ ++ ':' :: b₂))) + byteLength s)
      (memberSpans [(⟨name, spanAt o ('"' :: (k ++ ['"']))⟩, t)]) := by
  have hkey : Laid o (o + byteLength ('"' :: (k ++ ['"']))) [spanAt o ('"' :: (k ++ ['"']))] :=
    Laid.single (List.cons_ne_nil _ _)
  have hspans : memberSpans [(⟨name, spanAt o ('"' :: (k ++ ['"']))⟩, t)]
      = [spanAt o ('"' :: (k ++ ['"']))] ++ [t.span] := rfl
  rw [hspans]
  refine Laid.append hkey h.laid_value ?_ ?_ ?_ <;>
    simp only [byteLength_cons, byteLength_append, byteLength_nil] <;> omega

/-- The outermost parts of a phrase stand in its text one behind another. -/
theorem Located.laid {p : Phrase Key Tree} (h : Located denotes o s p) :
    Laid o (o + byteLength s) p.spans := by
  induction h with
  | scalar h => exact (Located.scalar h).laid_value
  | emptyArray hb => exact (@Located.emptyArray denotes _ _ hb).laid_value
  | array hb h _ => exact (Located.array hb h).laid_value
  | emptyObject hb => exact (@Located.emptyObject denotes _ _ hb).laid_value
  | object hb h _ => exact (Located.object hb h).laid_value
  | lastItem h _ _ =>
    refine Laid.mono h.laid_value (Nat.le_refl _) ?_
    rw [byteLength_append]
    omega
  | item h _ _ _ _ ih' =>
    simp only [byteLength_append, byteLength_cons] at ih' ⊢
    exact Laid.append h.laid_value (ih'.mono (Nat.le_refl _) (by omega)) (by omega) (by omega)
      (by omega)
  | lastMember _ _ _ h _ _ =>
    refine Laid.mono (laid_member h) (Nat.le_refl _) ?_
    simp only [byteLength_cons, byteLength_append]
    omega
  | @member o k cs b₁ b₂ s b₃ b₄ r t ms _ _ _ h _ _ _ _ ih' =>
    -- the parts of the other members stand behind the comma
    have hfirst := @laid_member denotes o s k b₁ b₂ (String.ofList cs) t h
    simp only [byteLength_append, byteLength_cons] at hfirst ih' ⊢
    exact Laid.append hfirst (ih'.mono (Nat.le_refl _) (by omega)) (by omega) (by omega) (by omega)

/-! ## Between the brackets -/

/-- The text of a container starts and ends with its brackets, and its parts lie between them. -/
theorem Located.between {w : Tree} {opening closing : Char} (h : Located denotes o s (.value w))
    (hw : w.brackets? = some (opening, closing)) :
    ∃ body, s = opening :: (body ++ [closing]) ∧ opening.utf8Size = 1 ∧ closing.utf8Size = 1
      ∧ Laid (o + 1) (o + 1 + byteLength body) w.parts := by
  have hinner : ∀ {x : Char} {b r : List Char} {p : Phrase Key Tree}, x.utf8Size = 1 →
      Located denotes (o + byteLength (x :: b)) r p →
      Laid (o + 1) (o + 1 + byteLength (b ++ r)) p.spans := by
    intro x b r p hx hp
    refine hp.laid.mono ?_ ?_ <;> simp only [byteLength_cons, byteLength_append, hx] <;> omega
  cases h with
  | scalar _ => cases hw
  | @emptyArray _ b _ =>
    obtain ⟨rfl, rfl⟩ := Prod.mk.inj (Option.some.inj hw)
    exact ⟨b, rfl, rfl, rfl, Laid.nil _ _⟩
  | @array _ b r ts _ hitems =>
    obtain ⟨rfl, rfl⟩ := Prod.mk.inj (Option.some.inj hw)
    exact ⟨b ++ r, by rw [List.append_assoc], rfl, rfl, hinner rfl hitems⟩
  | @emptyObject _ b _ =>
    obtain ⟨rfl, rfl⟩ := Prod.mk.inj (Option.some.inj hw)
    exact ⟨b, rfl, rfl, rfl, Laid.nil _ _⟩
  | @object _ b r ms _ hmembers =>
    obtain ⟨rfl, rfl⟩ := Prod.mk.inj (Option.some.inj hw)
    exact ⟨b ++ r, by rw [List.append_assoc], rfl, rfl, hinner rfl hmembers⟩

/-- In a text that was read, the parts of every container stand one behind another between the two
    brackets, none of them empty; and the strings of the text stand one behind another with at least
    three bytes between what two of them hold. -/
theorem layout_of_read {limits : Limits} {text : List Char} {t : Tree}
    (h : read limits text = .ok t) :
    (∀ w ∈ t.nodes, ∀ opening closing, w.brackets? = some (opening, closing) →
        ∃ start stop, w.span = ⟨start, stop + 1⟩ ∧ Cut text ⟨start, start + 1⟩ [opening]
          ∧ Cut text ⟨stop, stop + 1⟩ [closing] ∧ Laid (start + 1) stop w.parts)
      ∧ (∀ token ∈ t.strings, token.span.start ≤ token.span.stop)
      ∧ t.strings.Pairwise fun first second =>
        first.span.start < second.span.start ∧ first.span.stop + 3 ≤ second.span.start := by
  refine ⟨?_, fun token htoken => start_le_stop_of_read h htoken, ?_⟩
  · intro w hw opening closing hbrackets
    obtain ⟨b₁, s, b₂, rfl, -, -, hloc, -⟩ := (read_eq_ok_iff.1 h).2
    obtain ⟨-, before, part, after, rfl, hpart⟩ := hloc.node hw
    obtain ⟨body, rfl, hopening, hclosing, hlaid⟩ := hpart.between hbrackets
    refine ⟨byteLength b₁ + byteLength before,
      byteLength b₁ + byteLength before + 1 + byteLength body, ?_, ?_, ?_, hlaid⟩
    · rw [hpart.span, spanAt]
      simp only [byteLength_cons, byteLength_append, byteLength_nil, hopening, hclosing]
      rw [Span.mk.injEq]
      omega
    · refine ⟨b₁ ++ before, body ++ closing :: (after ++ b₂), ?_, ?_, ?_⟩
      · simp
      · simp
      · simp [hopening]
    · refine ⟨b₁ ++ (before ++ opening :: body), after ++ b₂, ?_, ?_, ?_⟩
      · simp
      · simp [hopening]
        omega
      · simp [hclosing]
  · obtain ⟨start, stop, hbounds, hpairwise⟩ := strings_spaced_of_read h
    refine hpairwise.imp_of_mem fun {first second} hfirst _ hbefore => ?_
    have hlength := (hbounds first hfirst).2.1
    rw [StringToken.Before] at hbefore
    exact ⟨by omega, hbefore⟩

/-- An array between blanks that holds an object with an empty key, and behind it a string. -/
theorem layout_of_read_nested :
    ∃ t, read .standard " [\x7b\"\": [ ]\x7d , \"\"]".toList = .ok t
      ∧ t.parts = [⟨2, 11⟩, ⟨14, 16⟩] ∧ Laid 2 16 t.parts
      ∧ t.strings.map (·.span) = [⟨4, 4⟩, ⟨15, 15⟩] := by
  have hread : read .standard " [\x7b\"\": [ ]\x7d , \"\"]".toList
      = .ok (.array ⟨1, 17⟩ [.object ⟨2, 11⟩ [(⟨"", ⟨3, 5⟩⟩, .array ⟨7, 10⟩ [])],
        .leaf ⟨14, 16⟩ (.string "")]) := by
    with_unfolding_all rfl
  obtain ⟨start, stop, hspan, -, -, hlaid⟩ :=
    (layout_of_read hread).1 _ (Tree.self_mem_nodes _) '[' ']' rfl
  obtain ⟨rfl, hstop⟩ := Span.mk.inj hspan
  obtain rfl : stop = 16 := by omega
  exact ⟨_, hread, rfl, hlaid, rfl⟩

end BimEditor.Json
