import Mathlib.Data.Tree.Basic
import Mathlib.Data.List.Nodup

/-!
# Paths in binary trees

A path leads from the root of a binary tree to a place where a subtree is. In the order of the
tree its elements are in front of those of the subtree, or behind them.
-/

namespace WiscKey

variable {α : Type}

/-- The elements of a tree, in order. -/
def inorder : BinaryTree α → List α
  | .nil => []
  | .node a l r => inorder l ++ a :: inorder r

/-- The element at the root. -/
def rootOf : BinaryTree α → Option α
  | .nil => none
  | .node a _ _ => some a

/-- A path, from the place up to the root: the place is the left or the right child. -/
inductive TreePath (α : Type)
  | root
  | left (a : α) (r : BinaryTree α) (parent : TreePath α)
  | right (a : α) (l : BinaryTree α) (parent : TreePath α)

namespace TreePath

/-- The tree with a subtree at the place. -/
def fill : TreePath α → BinaryTree α → BinaryTree α
  | root, t => t
  | left a r parent, t => parent.fill (.node a t r)
  | right a l parent, t => parent.fill (.node a l t)

/-- The elements in front of the place. -/
def before : TreePath α → List α
  | root => []
  | left _ _ parent => parent.before
  | right a l parent => parent.before ++ (inorder l ++ [a])

/-- The elements behind the place. -/
def after : TreePath α → List α
  | root => []
  | left a r parent => a :: inorder r ++ parent.after
  | right _ _ parent => parent.after

variable (path : TreePath α) (t : BinaryTree α)

theorem inorder_fill : inorder (path.fill t) = path.before ++ (inorder t ++ path.after) := by
  induction path generalizing t with
  | root => simp [fill, before, after]
  | left a r parent ih => simp [fill, before, after, ih, inorder]
  | right a l parent ih => simp [fill, before, after, ih, inorder]

theorem fill_ne_nil {t : BinaryTree α} (h : t ≠ .nil) : path.fill t ≠ .nil := by
  induction path generalizing t with
  | root => exact h
  | left a r parent ih => exact ih fun h => nomatch h
  | right a l parent ih => exact ih fun h => nomatch h

theorem fill_ne_nil_of_ne_root {path : TreePath α} (h : path ≠ root) : path.fill t ≠ .nil := by
  cases path with
  | root => exact absurd rfl h
  | left a r parent => exact parent.fill_ne_nil fun h => nomatch h
  | right a l parent => exact parent.fill_ne_nil fun h => nomatch h

/-- A place below the root is left or right of it. -/
theorem fill_of_ne_root {path : TreePath α} (h : path ≠ root) :
    ∃ (a : α) (parent : TreePath α) (s : BinaryTree α),
      (a ∈ path.after ∧ ∀ t, path.fill t = .node a (parent.fill t) s) ∨
      (a ∈ path.before ∧ ∀ t, path.fill t = .node a s (parent.fill t)) := by
  induction path with
  | root => exact absurd rfl h
  | left b r parent ih =>
    by_cases hparent : parent = root
    · subst hparent
      exact ⟨b, root, r, .inl ⟨by simp [after], fun t => rfl⟩⟩
    · obtain ⟨a, top, s, ⟨ha, hfill⟩ | ⟨ha, hfill⟩⟩ := ih hparent
      · exact ⟨a, .left b r top, s, .inl ⟨by simp [after, ha], fun t => hfill _⟩⟩
      · exact ⟨a, .left b r top, s, .inr ⟨ha, fun t => hfill _⟩⟩
  | right b l parent ih =>
    by_cases hparent : parent = root
    · subst hparent
      exact ⟨b, root, l, .inr ⟨by simp [before], fun t => rfl⟩⟩
    · obtain ⟨a, top, s, ⟨ha, hfill⟩ | ⟨ha, hfill⟩⟩ := ih hparent
      · exact ⟨a, .right b l top, s, .inl ⟨ha, fun t => hfill _⟩⟩
      · exact ⟨a, .right b l top, s, .inr ⟨by simp [before, ha], fun t => hfill _⟩⟩

end TreePath

theorem length_inorder (t : BinaryTree α) : (inorder t).length = t.numNodes := by
  induction t with
  | nil => rfl
  | node a l r ihl ihr =>
    rw [inorder, List.length_append, List.length_cons, ihl, ihr, BinaryTree.numNodes]
    omega

theorem inorder_eq_nil {t : BinaryTree α} : inorder t = [] ↔ t = .nil := by
  cases t with
  | nil => simp [inorder]
  | node a l r => simp [inorder]

/-- Every element is at the end of a path. -/
theorem exists_path {a : α} {t : BinaryTree α} (h : a ∈ inorder t) :
    ∃ (path : TreePath α) (l r : BinaryTree α), path.fill (.node a l r) = t := by
  have hbelow : ∀ (t : BinaryTree α) (path : TreePath α), a ∈ inorder t →
      ∃ (path' : TreePath α) (l r : BinaryTree α), path'.fill (.node a l r) = path.fill t := by
    intro t
    induction t with
    | nil => exact fun path h => absurd h List.not_mem_nil
    | node b l r ihl ihr =>
      intro path h
      rw [inorder, List.mem_append, List.mem_cons] at h
      rcases h with h | rfl | h
      · exact ihl (.left b r path) h
      · exact ⟨path, l, r, rfl⟩
      · exact ihr (.right b l path) h
  exact hbelow t .root h

section SubtreeAt

variable [DecidableEq α]

/-- The subtree with an element at its root, or an empty tree. -/
def subtreeAt (a : α) : BinaryTree α → BinaryTree α
  | .nil => .nil
  | .node b l r =>
    if a = b then .node b l r
    else
      match subtreeAt a l with
      | .nil => subtreeAt a r
      | t => t

theorem subtreeAt_of_notMem {a : α} {t : BinaryTree α} (h : a ∉ inorder t) :
    subtreeAt a t = .nil := by
  induction t with
  | nil => rfl
  | node b l r ihl ihr =>
    simp only [inorder, List.mem_append, List.mem_cons, not_or] at h
    rw [subtreeAt, if_neg h.2.1, ihl h.1, ihr h.2.2]

theorem subtreeAt_self (a : α) (l r : BinaryTree α) :
    subtreeAt a (.node a l r) = .node a l r := if_pos rfl

/-- The subtree at the place of a path, when its element is nowhere else. -/
theorem subtreeAt_fill {path : TreePath α} {t s : BinaryTree α} {a : α}
    (h : (inorder (path.fill t)).Nodup) (ha : a ∈ inorder t) (ht : subtreeAt a t = s)
    (hs : s ≠ .nil) : subtreeAt a (path.fill t) = s := by
  induction path generalizing t with
  | root => exact ht
  | left b r parent ih =>
    rw [TreePath.fill] at h ⊢
    rw [TreePath.inorder_fill] at h
    have hsub := (List.nodup_append.mp (List.nodup_append.mp h).2.1).1
    rw [inorder] at hsub
    have hne : a ≠ b := (List.nodup_append.mp hsub).2.2 a ha b List.mem_cons_self
    refine ih ?_ ?_ ?_
    · rw [TreePath.inorder_fill]
      exact h
    · rw [inorder]
      exact List.mem_append_left _ ha
    · rw [subtreeAt, if_neg hne, ht]
      cases s with
      | nil => exact absurd rfl hs
      | node c l' r' => rfl
  | right b l parent ih =>
    rw [TreePath.fill] at h ⊢
    rw [TreePath.inorder_fill] at h
    have hsub := (List.nodup_append.mp (List.nodup_append.mp h).2.1).1
    rw [inorder] at hsub
    have hne : a ≠ b :=
      ((List.nodup_cons.mp (List.nodup_append.mp hsub).2.1).1 <| · ▸ ha)
    have hnl : a ∉ inorder l := fun hl =>
      (List.nodup_append.mp hsub).2.2 a hl a (List.mem_cons_of_mem _ ha) rfl
    refine ih ?_ ?_ ?_
    · rw [TreePath.inorder_fill]
      exact h
    · rw [inorder]
      exact List.mem_append_right _ (List.mem_cons_of_mem _ ha)
    · rw [subtreeAt, if_neg hne, subtreeAt_of_notMem hnl, ht]

end SubtreeAt

end WiscKey
