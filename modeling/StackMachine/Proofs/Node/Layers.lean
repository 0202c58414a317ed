import Mathlib.Data.List.Induction
import StackMachine.Node.Build
import StackMachine.Node.Spine

/-! # The layers of chains

A chain of operators wraps its head in one binary node after the other, a target with suffixes in
one suffixed node after the other. Both are layers that can be taken off again: as many steps as the
tail is long give the tail back, from its last item to its first, and arrive at the head, whatever
the head is. Where a head has no such layer of its own, the tail does not even have to be counted,
so what was built determines head and tail.

* **`Node.Layer`** — a way to wrap nodes with a way to undo it; `Node.Layer.operands` and
  `Node.Layer.targets` are the two.
* **`Node.Layer.unwind_build`** — unwinding gives back the tail and the head.
* **`Node.Layer.build_inj`** — equal results have equal heads and tails.
* **`Node.spine_of_descend?`** and **`Node.Layer.spine_build`** — the left spine goes through every
  layer to that of the head.
* **`Node.chains_lossless`** — all of this for chains of operators and for suffixes. -/

namespace StackMachine

namespace Node

/-! ## Layers -/

/-- A **layer** of a syntax tree: a node is wrapped together with an item, the wrapping can be
undone, and the left spine goes from the result to the node. -/
structure Layer (α : Type) where
  /-- Wraps a node. -/
  wrap : Node → α → Node
  /-- Takes the layer off, if there is one. -/
  peel? : Node → Option (Node × α)
  /-- What was wrapped can be peeled. -/
  peel?_wrap : ∀ inner item, peel? (wrap inner item) = some (inner, item)
  /-- The left spine goes through the layer. -/
  descend?_wrap : ∀ inner item, (wrap inner item).descend? = some inner

namespace Layer

variable {α : Type} (layer : Layer α)

/-- The layers of binary operators, from the left operand to the result. -/
def operands : Layer (Operator × Node) where
  wrap left link := .binary left link.1 link.2
  peel?
    | .binary left op right => some (left, op, right)
    | _ => none
  peel?_wrap _ _ := rfl
  descend?_wrap _ _ := rfl

/-- The layers of suffixes, from the target to the result. -/
def targets : Layer Suffix where
  wrap target suffix := .suffixed target suffix
  peel?
    | .suffixed target suffix => some (target, suffix)
    | _ => none
  peel?_wrap _ _ := rfl
  descend?_wrap _ _ := rfl

/-- A node in layers, one for each item, the first one innermost. -/
def build (head : Node) (tail : List α) : Node := tail.foldl layer.wrap head

/-- Takes a number of layers off: the items from the outermost one on, and the node that is left. -/
def unwind : Nat → Node → Option (List α × Node)
  | 0, node => some ([], node)
  | count + 1, node => do
    let (inner, item) ← layer.peel? node
    let (items, last) ← unwind count inner
    return (item :: items, last)

/-- The last item makes the outermost layer. -/
theorem build_concat (head : Node) (tail : List α) (item : α) :
    layer.build head (tail ++ [item]) = layer.wrap (layer.build head tail) item := by
  rw [build, List.foldl_append]
  rfl

/-- **Unwinding gives back what was built**: the items from the last to the first, and the head. -/
theorem unwind_build (head : Node) (tail : List α) :
    layer.unwind tail.length (layer.build head tail) = some (tail.reverse, head) := by
  induction tail using List.reverseRecOn with
  | nil => rfl
  | append_singleton tail item ih =>
    rw [build_concat, List.length_append, List.length_singleton, unwind, layer.peel?_wrap,
      List.reverse_append]
    simp [ih]

/-- A node without a layer is not what wrapping gives. -/
theorem ne_wrap_of_peel? {node : Node} (h : layer.peel? node = none) (inner : Node) (item : α) :
    node ≠ layer.wrap inner item := by
  rintro rfl
  cases h.symm.trans (layer.peel?_wrap inner item)

/-- **Equal results have equal heads and tails**, if the tails are equally long or the heads have no
layer of their own. -/
theorem build_inj {head head' : Node} {tail tail' : List α}
    (h : tail.length = tail'.length ∨ (layer.peel? head = none ∧ layer.peel? head' = none)) :
    layer.build head tail = layer.build head' tail' ↔ head = head' ∧ tail = tail' := by
  refine ⟨fun heq => ?_, fun ⟨hhead, htail⟩ => by rw [hhead, htail]⟩
  -- both tails lose their last item at a time, until one of them is empty
  induction tail using List.reverseRecOn generalizing tail' with
  | nil =>
    cases tail' using List.reverseRecOn with
    | nil => exact ⟨heq, rfl⟩
    | append_singleton tail' item' =>
      obtain hlength | ⟨hpeel, -⟩ := h
      · simp at hlength
      · rw [build_concat] at heq
        exact absurd heq (layer.ne_wrap_of_peel? hpeel _ _)
  | append_singleton tail item ih =>
    cases tail' using List.reverseRecOn with
    | nil =>
      obtain hlength | ⟨-, hpeel⟩ := h
      · simp at hlength
      · rw [build_concat] at heq
        exact absurd heq.symm (layer.ne_wrap_of_peel? hpeel _ _)
    | append_singleton tail' item' =>
      rw [build_concat, build_concat] at heq
      have hpeel := congrArg layer.peel? heq
      rw [layer.peel?_wrap, layer.peel?_wrap, Option.some.injEq, Prod.mk.injEq] at hpeel
      have hlength : tail.length = tail'.length ∨
          (layer.peel? head = none ∧ layer.peel? head' = none) :=
        h.imp_left fun hlength => by simpa using hlength
      obtain ⟨hhead, htail⟩ := ih hlength hpeel.1
      exact ⟨hhead, by rw [htail, hpeel.2]⟩

/-- A measure that counts a layer counts all layers that are built. -/
theorem depth_build {depth : Node → Nat}
    (hdepth : ∀ inner item, depth (layer.wrap inner item) = depth inner + 1) (head : Node)
    (tail : List α) : depth (layer.build head tail) = depth head + tail.length := by
  induction tail using List.reverseRecOn with
  | nil => rfl
  | append_singleton tail item ih =>
    rw [build_concat, hdepth, ih, List.length_append, List.length_singleton, Nat.add_assoc]

end Layer

/-! ## Depths -/

/-- The number of binary nodes on the way down left operands. -/
def operandDepth : Node → Nat
  | .binary left _ _ => left.operandDepth + 1
  | _ => 0

/-- The number of suffixed nodes on the way down targets. -/
def targetDepth : Node → Nat
  | .suffixed target _ => target.targetDepth + 1
  | _ => 0

/-- A spine counts on from where it starts. -/
theorem spineFrom_succ (steps : Nat) (node : Node) :
    node.spineFrom (steps + 1) = ((node.spineFrom steps).1 + 1, (node.spineFrom steps).2) := by
  fun_induction Node.spineFrom steps node with
  | case1 steps left op right ih => exact ih
  | case2 steps target suffix ih => exact ih
  | case3 steps first rest ih => exact ih
  | case4 leaf steps hbinary hsuffixed hblock =>
    rw [spineFrom]
    · exact hbinary
    · exact hsuffixed
    · exact hblock

/-- **A step down the left spine** leaves a spine that is shorter by one, with the same end. -/
theorem spine_of_descend? {node next : Node} (h : node.descend? = some next) :
    node.spine = (next.spine.1 + 1, next.spine.2) :=
  (spineFrom_of_descend? h 0).trans (spineFrom_succ 0 next)

/-- The left spine of what was built ends where that of the head ends, as many steps further
down. -/
theorem Layer.spine_build {α : Type} (layer : Layer α) (head : Node) (tail : List α) :
    (layer.build head tail).spine = (head.spine.1 + tail.length, head.spine.2) := by
  induction tail using List.reverseRecOn with
  | nil => rfl
  | append_singleton tail item ih =>
    rw [layer.build_concat, spine_of_descend? (layer.descend?_wrap _ item), ih, List.length_append,
      List.length_singleton, Nat.add_assoc]

/-! ## Chains -/

/-- The layers of operators are those of binary nodes. -/
theorem peel?_operands_eq_none {node : Node} (h : node.kind ≠ .binary) :
    Layer.operands.peel? node = none := by
  cases node with
  | binary => exact absurd rfl h
  | _ => rfl

/-- The layers of suffixes are those of suffixed nodes. -/
theorem peel?_targets_eq_none {node : Node} (h : node.kind ≠ .suffixed) :
    Layer.targets.peel? node = none := by
  cases node with
  | suffixed => exact absurd rfl h
  | _ => rfl

/-- **Chains lose nothing and reorder nothing**: unwinding a chain gives its tail from the last item
to the first and arrives at the head, the depth and the left spine grow by the length of the tail,
and chains that are equal have equal heads and tails. -/
theorem chains_lossless :
    (∀ head tail,
      Layer.operands.unwind tail.length (chain head tail) = some (tail.reverse, head) ∧
      (chain head tail).operandDepth = head.operandDepth + tail.length ∧
      (chain head tail).spine = (head.spine.1 + tail.length, head.spine.2) ∧
      ∀ head' tail', tail.length = tail'.length ∨ (head.kind ≠ .binary ∧ head'.kind ≠ .binary) →
        (chain head tail = chain head' tail' ↔ head = head' ∧ tail = tail')) ∧
    (∀ target tail,
      Layer.targets.unwind tail.length (suffixes target tail) = some (tail.reverse, target) ∧
      (suffixes target tail).targetDepth = target.targetDepth + tail.length ∧
      (suffixes target tail).spine = (target.spine.1 + tail.length, target.spine.2) ∧
      ∀ target' tail', tail.length = tail'.length ∨
        (target.kind ≠ .suffixed ∧ target'.kind ≠ .suffixed) →
        (suffixes target tail = suffixes target' tail' ↔ target = target' ∧ tail = tail')) := by
  constructor
  · intro head tail
    refine ⟨Layer.operands.unwind_build head tail,
      Layer.operands.depth_build (fun _ _ => ?_) head tail, Layer.operands.spine_build head tail,
      fun head' tail' h => Layer.operands.build_inj (h.imp_right fun hkind => ?_)⟩
    · exact operandDepth.eq_1 _ _ _
    · exact ⟨peel?_operands_eq_none hkind.1, peel?_operands_eq_none hkind.2⟩
  · intro target tail
    refine ⟨Layer.targets.unwind_build target tail,
      Layer.targets.depth_build (fun _ _ => ?_) target tail, Layer.targets.spine_build target tail,
      fun target' tail' h => Layer.targets.build_inj (h.imp_right fun hkind => ?_)⟩
    · exact targetDepth.eq_1 _ _
    · exact ⟨peel?_targets_eq_none hkind.1, peel?_targets_eq_none hkind.2⟩

/-- A shorter tail on the same head, and suffixes in another order. -/
theorem chains_lossless_ident :
    (ident "a").kind ≠ .binary ∧ (ident "a").kind ≠ .suffixed ∧
    chain (.ident "a") [(.plus, .ident "b")]
      ≠ chain (.ident "a") [(.plus, .ident "b"), (.plus, .ident "b")] ∧
    suffixes (.ident "a") [.member "b", .call []]
      ≠ suffixes (.ident "a") [.call [], .member "b"] := by
  have hbinary : (ident "a").kind ≠ .binary := by decide
  have hsuffixed : (ident "a").kind ≠ .suffixed := by decide
  obtain ⟨-, -, -, hchain⟩ := chains_lossless.1 (.ident "a") [(.plus, .ident "b")]
  obtain ⟨-, -, -, hsuffixes⟩ := chains_lossless.2 (.ident "a") [.member "b", .call []]
  refine ⟨hbinary, hsuffixed, fun heq => ?_, fun heq => ?_⟩
  · have htail := ((hchain _ _ (Or.inr ⟨hbinary, hbinary⟩)).mp heq).2
    exact absurd (congrArg List.length htail) (by decide)
  · have htail := ((hsuffixes _ _ (Or.inr ⟨hsuffixed, hsuffixed⟩)).mp heq).2
    cases (List.cons.inj htail).1

end Node

end StackMachine
