/-
  BimEditor.Proofs.Scan.Containers

  The scanners see the containers of a tree as the reader does. The text of an array or of an object
  is a balanced body between two brackets (`Located.encloses`), so the search behind the opening
  bracket ends at the closing one, whatever stands in the body and behind it
  (`Cut.matchingClose`); and the body of an array has as many elements as the array has items.
  This holds for every container of a text that was read, at any depth (`matchingClose_of_node`).
-/
import BimEditor.Proofs.Json.SpanExact
import BimEditor.Proofs.Json.SpanOrder
import BimEditor.Proofs.Scan.Balance

namespace BimEditor

open BimEditor.Text BimEditor.Json BimEditor.Scan

/-- The brackets around a container. -/
def Json.Tree.delimiter? : Tree → Option Delimiter
  | .leaf _ _ => none
  | .array _ _ => some .bracket
  | .object _ _ => some .brace

/-! ## A body between brackets -/

/-- A text between the two brackets of a pair. -/
def Scan.Delimiter.enclose (d : Delimiter) (body : List Char) : List Char :=
  d.opening :: (body ++ [d.closing])

namespace Text

variable {text body : List Char} {d : Delimiter} {span : Span}

theorem ofOffset_append (before rest : List Char) :
    Cursor.ofOffset (before ++ rest) (byteLength before) = ⟨byteLength before, rest⟩ := by
  rw [Cursor.ofOffset, dropBytes_append, byteLength_append, Nat.add_sub_cancel]

/-- The span of a text between brackets covers these, one byte each. -/
theorem Cut.enclosed (h : Cut text span (d.enclose body)) :
    span.start + 1 + byteLength body + 1 = span.stop := by
  obtain ⟨before, after, rfl, hstart, hstop⟩ := h
  simp only [Delimiter.enclose, byteLength_cons, byteLength_append, byteLength_nil,
    utf8Size_opening, utf8Size_closing] at hstop
  omega

/-- Without its brackets a text is cut out by the inner part of its span. -/
theorem Cut.between (h : Cut text span (d.enclose body)) : Cut text span.inner body := by
  have hstop := h.enclosed
  obtain ⟨before, after, rfl, hstart, -⟩ := h
  refine ⟨before ++ [d.opening], d.closing :: after, ?_, ?_, ?_⟩
  · simp [Delimiter.enclose]
  · rw [byteLength_append, byteLength_cons, byteLength_nil, utf8Size_opening, hstart]
    rfl
  · show span.start + 1 + byteLength body = span.stop - 1
    omega

/-- Behind the opening bracket the search passes a balanced body and ends at the closing one. -/
theorem Cut.matchingClose {n : Nat} (h : Cut text span (d.enclose body)) (hbody : Balanced body n) :
    matchingClose d text (span.start + 1) = some (span.stop - 1) := by
  have hstop := h.enclosed
  obtain ⟨before, after, rfl, hstart, -⟩ := h
  have htext : before ++ (d.enclose body ++ after)
      = (before ++ [d.opening]) ++ (body ++ d.closing :: after) := by
    simp [Delimiter.enclose]
  have hplace : span.start + 1 = byteLength (before ++ [d.opening]) := by
    rw [byteLength_append, byteLength_cons, byteLength_nil, utf8Size_opening, hstart]
  rw [htext, hplace, Scan.matchingClose, if_neg, ofOffset_append, closeFrom_body hbody, ← hplace]
  · congr 1
    omega
  · rw [byteLength_append (before ++ [d.opening])]
    omega

end Text

/-! ## The containers of a tree -/

namespace Json

variable {denotes : Numeral → Number → Prop} {limits : Limits} {o : Nat} {s text : List Char}
  {t v : Tree} {d : Delimiter}

/-- A container is written as a balanced body between its brackets; the body of an array has as many
    elements as the array has items. -/
theorem Located.encloses (h : Located denotes o s (.value v)) (hd : v.delimiter? = some d) :
    ∃ body n, s = d.enclose body ∧ Balanced body n
      ∧ ∀ items, v.items? = some items → countElements body = items.length := by
  cases h with
  | scalar h => cases hd
  | @emptyArray o b hb =>
    obtain rfl := Option.some.inj hd
    refine ⟨b, 0, rfl, hb.balanced, fun items hitems => ?_⟩
    obtain rfl := Option.some.inj hitems
    exact countElements_blanks hb
  | @array o b r ts hb hts =>
    obtain rfl := Option.some.inj hd
    refine ⟨b ++ r, _, ?_, hb.balanced.append hts.balanced, fun items hitems => ?_⟩
    · rw [Delimiter.enclose, List.append_assoc]
      rfl
    · obtain rfl := Option.some.inj hitems
      exact hts.countElements_items hb
  | @emptyObject o b hb =>
    obtain rfl := Option.some.inj hd
    exact ⟨b, 0, rfl, hb.balanced, fun items hitems => nomatch hitems⟩
  | @object o b r ms hb hms =>
    obtain rfl := Option.some.inj hd
    refine ⟨b ++ r, _, ?_, hb.balanced.append hms.balanced, fun items hitems => nomatch hitems⟩
    rw [Delimiter.enclose, List.append_assoc]
    rfl

/-- Behind the opening bracket of every container the search for its closing bracket ends at the last
    byte of the container; and between the brackets of every array as many elements are counted as
    the array has items. -/
theorem matchingClose_of_node (h : read limits text = .ok t) (hv : v ∈ t.nodes) :
    (∀ d, v.delimiter? = some d → v.span.start + 1 < v.span.stop
        ∧ matchingClose d text (v.span.start + 1) = some (v.span.stop - 1))
      ∧ ∀ items, v.items? = some items →
        Cut text v.span.inner (slice (v.span.start + 1) (v.span.stop - 1) text)
          ∧ countElements (slice (v.span.start + 1) (v.span.stop - 1) text) = items.length := by
  obtain ⟨part, hcut, hloc⟩ := located_cut_of_read h hv
  refine ⟨fun d hd => ?_, fun items hitems => ?_⟩
  · obtain ⟨body, n, rfl, hbody, -⟩ := hloc.encloses hd
    have hstop := hcut.enclosed
    exact ⟨by omega, hcut.matchingClose hbody⟩
  · have hd : v.delimiter? = some .bracket := by
      obtain ⟨span, rfl⟩ := Tree.eq_array_of_items? hitems
      rfl
    obtain ⟨body, n, rfl, -, hcount⟩ := hloc.encloses hd
    have hslice : slice (v.span.start + 1) (v.span.stop - 1) text = body := hcut.between.slice
    rw [hslice]
    exact ⟨hcut.between, hcount items hitems⟩

/-- Containers with brackets, quotes, backslashes and commas in their strings. -/
def bracketsInStrings : List Char :=
  "[\"]\\\\\", \x7b\"\x7d\\\"\": [null, \"[,\"]\x7d ]".toList

theorem matchingClose_of_node_bracketsInStrings :
    matchingClose .brace bracketsInStrings 9 = some 28
      ∧ matchingClose .bracket bracketsInStrings 17 = some 27
      ∧ countElements (slice 17 27 bracketsInStrings) = 2 := by
  have hread : read .standard bracketsInStrings
      = .ok (.array ⟨0, 31⟩ [.leaf ⟨1, 6⟩ (.string "]\\"),
        .object ⟨8, 29⟩ [(⟨"\x7d\"", ⟨9, 14⟩⟩,
          .array ⟨16, 28⟩ [.leaf ⟨17, 21⟩ .null, .leaf ⟨23, 27⟩ (.string "[,")])]]) := by
    with_unfolding_all rfl
  have hobject := matchingClose_of_node hread (.tail _ (.tail _ (.head _)))
  have harray := matchingClose_of_node hread (.tail _ (.tail _ (.tail _ (.head _))))
  exact ⟨(hobject.1 _ rfl).2, (harray.1 _ rfl).2, (harray.2 _ rfl).2⟩

end Json

end BimEditor
