/-
  BimEditor.Proofs.Json.SpanExact

  The spans of a tree are exact. What a text holds between the two ends of a value's span is read,
  by itself and under the same limits, as that value with its spans counted from its own start; and
  the span of a key holds a string that is decoded to the key's name.
-/
import BimEditor.Proofs.Json.Acceptance

namespace BimEditor.Json

open BimEditor.Text

variable {limits : Limits} {text : List Char} {t : Tree}

/-- A text at a place holds one tree only. -/
theorem Located.unique {value? : Numeral → Option Number} {o : Nat} {s : List Char} {t t' : Tree}
    (h : Located (ByRule value?) o s (.value t)) (h' : Located (ByRule value?) o s (.value t')) :
    t = t' := by
  -- both are what the reader without limits yields at that place
  have hended : Ended [] := Cursor.stopsAt_nil _
  have hyields : ∀ u, Located (ByRule value?) o s (.value u) →
      Yields (tree ⟨none, value?⟩ 0 ⟨o, s ++ []⟩) u ⟨o + byteLength s, []⟩ := by
    intro u hu
    exact @Located.yields ⟨none, value?⟩ o s (.value u) hu 0 [] hended (withinLimit_none _)
  exact (hyields t h).unique (hyields t' h')

/-- A value that stands anywhere is read from its own text alone, with its spans moved. -/
theorem read_of_located {here : Nat} {part : List Char} {w : Tree}
    (h : Located (ByRule limits.rules.number?) here part (.value w))
    (hsize : WithinLimit limits.maxSize (byteLength part))
    (hdepth : WithinLimit limits.maxDepth w.depth) :
    ∃ u, read limits part = .ok u ∧ u.move here = w := by
  -- the same text at the start of a text of its own holds some tree, which moved up is this one
  obtain ⟨p, hloc, hplain⟩ := h.derives.located 0
  obtain ⟨u, rfl, hu⟩ := Phrase.of_plain_value hplain
  have hmoved := hloc.moved here
  rw [Nat.zero_add] at hmoved
  rw [← Tree.depth_plain, ← hu, Tree.depth_plain] at hdepth
  have hholds : HoldsTree limits.rules part u :=
    ⟨[], part, [], by simp, by simp [Blanks], by simp [Blanks], hloc, hdepth⟩
  exact ⟨u, read_eq_ok_iff.2 ⟨hsize, hholds⟩, hmoved.unique h⟩

/-- A part of a text with the span that belongs to it is cut out by that span. -/
theorem HasPart.cut {Q : Nat → List Char → Prop} {span : Span} (h : HasPart 0 text Q)
    (hspan : ∀ here part, Q here part → span = spanAt here part) :
    ∃ part, Cut text span part ∧ byteLength part ≤ byteLength text ∧ Q span.start part := by
  obtain ⟨before, part, after, rfl, hQ⟩ := h
  obtain rfl := hspan _ _ hQ
  refine ⟨part, ⟨before, after, rfl, ?_, rfl⟩, ?_, hQ⟩
  · exact (Nat.zero_add _).symm
  · simp only [byteLength_append]
    omega

/-- Every value of a text that was read stands there by itself, cut out by its span. -/
theorem located_cut_of_read (h : read limits text = .ok t) {v : Tree}
    (hv : v ∈ t.nodes) :
    ∃ part, Cut text v.span part
      ∧ Located (ByRule limits.rules.number?) v.span.start part (.value v) := by
  obtain ⟨-, b₁, s, b₂, rfl, -, -, hloc, -⟩ := read_eq_ok_iff.1 h
  rw [← Nat.zero_add (byteLength b₁)] at hloc
  obtain ⟨part, hcut, -, hpart⟩ := ((hloc.node hv).2.inside b₁ b₂ rfl).cut fun _ _ hw => hw.span
  exact ⟨part, hcut, hpart⟩

/-- Every value of a tree that was read is read from the text between the ends of its span, with
    all spans moved to the start of that text; and every key's span holds a string with the key's
    name. -/
theorem read_slice_of_span (h : read limits text = .ok t) :
    (∀ w ∈ t.nodes, Cut text w.span (slice w.span.start w.span.stop text)
        ∧ ∃ u, read limits (slice w.span.start w.span.stop text) = .ok u
          ∧ u.move w.span.start = w)
      ∧ ∀ k ∈ t.keys, Cut text k.span (slice k.span.start k.span.stop text)
        ∧ ∃ u, read limits (slice k.span.start k.span.stop text) = .ok u
          ∧ u.string? = some k.name := by
  obtain ⟨hsize, b₁, s, b₂, rfl, -, -, hloc, hdepth⟩ := read_eq_ok_iff.1 h
  rw [← Nat.zero_add (byteLength b₁)] at hloc
  refine ⟨?_, ?_⟩
  · intro w hw
    obtain ⟨hle, hpart⟩ := hloc.node hw
    obtain ⟨part, hcut, hlen, hw⟩ := (hpart.inside b₁ b₂ rfl).cut fun _ _ hw => hw.span
    rw [hcut.slice]
    exact ⟨hcut, read_of_located hw (hsize.mono hlen) (hdepth.mono hle)⟩
  · intro k hk
    obtain ⟨part, hcut, hlen, -, hk⟩ := ((hloc.key hk).inside b₁ b₂ rfl).cut fun _ _ hk => hk.1
    rw [hcut.slice]
    -- a key is read by itself as the string that it is
    have hleaf : Located (ByRule limits.rules.number?) k.span.start part (.value (.leaf _ _)) :=
      .scalar hk
    obtain ⟨u, hread, hu⟩ := read_of_located hleaf (hsize.mono hlen) fun _ _ => Nat.zero_le _
    refine ⟨hcut, u, hread, ?_⟩
    cases u with
    | leaf span x =>
      injection hu with _ hx
      rw [hx]
      rfl
    | array span items => cases hu
    | object span members => cases hu

theorem read_slice_of_span_object :
    ∃ u, read .standard (slice 2 14 "[ \x7b\"é\": null\x7d ]".toList) = .ok u
      ∧ u.move 2 = .object ⟨2, 14⟩ [(⟨"é", ⟨3, 7⟩⟩, .leaf ⟨9, 13⟩ .null)] := by
  have hread : read .standard "[ \x7b\"é\": null\x7d ]".toList
      = .ok (.array ⟨0, 16⟩ [.object ⟨2, 14⟩ [(⟨"é", ⟨3, 7⟩⟩, .leaf ⟨9, 13⟩ .null)]]) := by
    with_unfolding_all rfl
  exact ((read_slice_of_span hread).1 _ (.tail _ (.head _))).2

end BimEditor.Json
