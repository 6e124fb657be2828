/-
  BimEditor.Proofs.Json.TreeView

  Views of a tree that statements about the reader are made of: the plain value with all its
  members, the nesting depth, the tree with its spans moved, and the lists of all values and keys
  inside it. The same views exist for the items of an array and the members of an object, and so
  for a `Phrase` of the grammar.
-/
import BimEditor.Json.Tree
import BimEditor.Proofs.Json.Grammar

namespace BimEditor.Json

open BimEditor.Text

/-- The span moved up by `n` bytes. -/
def moveSpan (n : Nat) (span : Span) : Span :=
  ⟨span.start + n, span.stop + n⟩

/-- The key with its span moved up by `n` bytes. -/
def Key.move (n : Nat) (k : Key) : Key :=
  ⟨k.name, moveSpan n k.span⟩

namespace Value

mutual
/-- How many containers lie around the innermost value, at most. -/
def depth : Value → Nat
  | .scalar _ => 0
  | .array items => itemsDepth items + 1
  | .object members => membersDepth members + 1

/-- The depth of the deepest item. -/
def itemsDepth : List Value → Nat
  | [] => 0
  | v :: vs => max (depth v) (itemsDepth vs)

/-- The depth of the deepest member. -/
def membersDepth : List (String × Value) → Nat
  | [] => 0
  | (_, v) :: ms => max (depth v) (membersDepth ms)
end

end Value

namespace Tree

mutual
/-- The value without its spans. Unlike `toValue`, it lists members of a repeated name. -/
def plain : Tree → Value
  | .leaf _ s => .scalar s
  | .array _ items => .array (plainItems items)
  | .object _ members => .object (plainMembers members)

/-- The items without their spans. -/
def plainItems : List Tree → List Value
  | [] => []
  | t :: ts => plain t :: plainItems ts

/-- The members without their spans. -/
def plainMembers : List (Key × Tree) → List (String × Value)
  | [] => []
  | (k, t) :: ms => (k.name, plain t) :: plainMembers ms  -- a repeated name stays
end

mutual
/-- How many containers lie around the innermost value, at most. -/
def depth : Tree → Nat
  | .leaf _ _ => 0
  | .array _ items => itemsDepth items + 1
  | .object _ members => membersDepth members + 1

/-- The depth of the deepest item. -/
def itemsDepth : List Tree → Nat
  | [] => 0
  | t :: ts => max (depth t) (itemsDepth ts)

/-- The depth of the deepest member. -/
def membersDepth : List (Key × Tree) → Nat
  | [] => 0
  | (_, t) :: ms => max (depth t) (membersDepth ms)
end

mutual
/-- Spans do not count for the depth. -/
theorem depth_plain : (t : Tree) → t.plain.depth = t.depth
  | .leaf _ _ => rfl
  | .array _ items => congrArg (· + 1) (itemsDepth_plain items)
  | .object _ members => congrArg (· + 1) (membersDepth_plain members)

theorem itemsDepth_plain : (ts : List Tree) → Value.itemsDepth (plainItems ts) = itemsDepth ts
  | [] => rfl
  | t :: ts => by
    rw [plainItems, Value.itemsDepth, itemsDepth, depth_plain t, itemsDepth_plain ts]

theorem membersDepth_plain :
    (ms : List (Key × Tree)) → Value.membersDepth (plainMembers ms) = membersDepth ms
  | [] => rfl
  | (k, t) :: ms => by
    rw [plainMembers, Value.membersDepth, membersDepth, depth_plain t, membersDepth_plain ms]
end

mutual
/-- The tree with all its spans moved up by `n` bytes. -/
def move (n : Nat) : Tree → Tree
  | .leaf span s => .leaf (moveSpan n span) s
  | .array span items => .array (moveSpan n span) (moveItems n items)
  | .object span members => .object (moveSpan n span) (moveMembers n members)

/-- The items with all their spans moved up. -/
def moveItems (n : Nat) : List Tree → List Tree
  | [] => []
  | t :: ts => move n t :: moveItems n ts

/-- The members with all their spans moved up. -/
def moveMembers (n : Nat) : List (Key × Tree) → List (Key × Tree)
  | [] => []
  | (k, t) :: ms => (k.move n, move n t) :: moveMembers n ms
end

mutual
/-- All values of the tree, itself first, in source order. -/
def nodes : Tree → List Tree
  | .leaf span s => [.leaf span s]
  | .array span items => .array span items :: itemNodes items
  | .object span members => .object span members :: memberNodes members

/-- All values of the items. -/
def itemNodes : List Tree → List Tree
  | [] => []
  | t :: ts => nodes t ++ itemNodes ts

/-- All values of the members. -/
def memberNodes : List (Key × Tree) → List Tree
  | [] => []
  | (_, t) :: ms => nodes t ++ memberNodes ms
end

mutual
/-- All keys of the tree, in source order. -/
def keys : Tree → List Key
  | .leaf _ _ => []
  | .array _ items => itemKeys items
  | .object _ members => memberKeys members

/-- All keys of the items. -/
def itemKeys : List Tree → List Key
  | [] => []
  | t :: ts => keys t ++ itemKeys ts

/-- All keys of the members: each key, then those of its value. -/
def memberKeys : List (Key × Tree) → List Key
  | [] => []
  | (k, t) :: ms => k :: (keys t ++ memberKeys ms)
end

end Tree

namespace Phrase

/-- The phrase without its spans. -/
def plain : Phrase Key Tree → Phrase String Value
  | .value t => .value t.plain
  | .items ts => .items (Tree.plainItems ts)
  | .members ms => .members (Tree.plainMembers ms)

/-- The depth of the phrase. -/
def depth : Phrase Key Tree → Nat
  | .value t => t.depth
  | .items ts => Tree.itemsDepth ts
  | .members ms => Tree.membersDepth ms

/-- The phrase with all its spans moved up by `n` bytes. -/
def move (n : Nat) : Phrase Key Tree → Phrase Key Tree
  | .value t => .value (t.move n)
  | .items ts => .items (Tree.moveItems n ts)
  | .members ms => .members (Tree.moveMembers n ms)

/-- All values of the phrase. -/
def nodes : Phrase Key Tree → List Tree
  | .value t => t.nodes
  | .items ts => Tree.itemNodes ts
  | .members ms => Tree.memberNodes ms

/-- All keys of the phrase. -/
def keys : Phrase Key Tree → List Key
  | .value t => t.keys
  | .items ts => Tree.itemKeys ts
  | .members ms => Tree.memberKeys ms

/-! ## Forgetting spans keeps the kind of a phrase -/

variable {p : Phrase Key Tree}

theorem of_plain_value {v : Value} (h : p.plain = .value v) : ∃ t, p = .value t ∧ t.plain = v := by
  cases p with
  | value t => exact ⟨t, rfl, Phrase.value.inj h⟩
  | items ts => cases h
  | members ms => cases h

theorem of_plain_items {vs : List Value} (h : p.plain = .items vs) :
    ∃ ts, p = .items ts ∧ Tree.plainItems ts = vs := by
  cases p with
  | value t => cases h
  | items ts => exact ⟨ts, rfl, Phrase.items.inj h⟩
  | members ms => cases h

theorem of_plain_members {vs : List (String × Value)} (h : p.plain = .members vs) :
    ∃ ms, p = .members ms ∧ Tree.plainMembers ms = vs := by
  cases p with
  | value t => cases h
  | items ts => cases h
  | members ms => exact ⟨ms, rfl, Phrase.members.inj h⟩

end Phrase

end BimEditor.Json
