import WiscKey.Beyond.Extents

/-!
# The operations of the search tree

Insertion and deletion work at the place in the tree where the key belongs. In the order of the
tree an insertion puts the new node between those with smaller and those with larger keys, and a
deletion takes one extent out, even where it overwrites the node with another one.
-/

namespace WiscKey.Beyond.VirtualRegion

variable {s s' s'' : VirtualRegion} {path : TreePath Pointer} {t l r : BinaryTree Pointer}
  {p q : Pointer} {ps qs : List Pointer} {key : Int}

/-- The extents of nodes. -/
def extents (s : VirtualRegion) (ps : List Pointer) : List Extent :=
  ps.map fun p => (s.memory p).toExtent

@[simp] theorem extents_nil : s.extents [] = [] := rfl

@[simp] theorem extents_cons : s.extents (p :: ps) = (s.memory p).toExtent :: s.extents ps := rfl

@[simp] theorem extents_append : s.extents (ps ++ qs) = s.extents ps ++ s.extents qs :=
  List.map_append

theorem mem_extents {e : Extent} : e ∈ s.extents ps ↔ ∃ p ∈ ps, (s.memory p).toExtent = e :=
  List.mem_map

theorem extents_congr (h : ∀ p ∈ ps, (s'.memory p).toExtent = (s.memory p).toExtent) :
    s'.extents ps = s.extents ps := List.map_congr_left h

/-- Nodes whose extents are apart have keys that go up. -/
theorem keys_increasing (h : Apart (s.extents ps)) :
    ps.Pairwise fun p q => (s.memory p).lba < (s.memory q).lba := by
  refine (List.pairwise_map.mp h.sorted).imp_of_mem fun {p q} hp hq hpq => ?_
  have hpos := h.positive _ (List.mem_map_of_mem hp)
  omega

section CachedNodes

/-- Two regions differ in the list of the cached nodes and in the states of the nodes only. -/
def SameNodes (s s' : VirtualRegion) : Prop :=
  ∃ memory cached count, s' = { s with
      memory := memory
      cachedTreeNodeList := cached
      cachedTreeNodeCount := count } ∧
    ∀ p, (memory p).toExtent = (s.memory p).toExtent

theorem sameNodes_refl (s : VirtualRegion) : SameNodes s s :=
  ⟨s.memory, s.cachedTreeNodeList, s.cachedTreeNodeCount, rfl, fun _ => rfl⟩

theorem SameNodes.trans (h : SameNodes s s') (h' : SameNodes s' s'') : SameNodes s s'' := by
  obtain ⟨memory, cached, count, rfl, hmem⟩ := h
  obtain ⟨memory', cached', count', rfl, hmem'⟩ := h'
  exact ⟨memory', cached', count', rfl, fun p => (hmem' p).trans (hmem p)⟩

theorem SameNodes.extents (h : SameNodes s s') (ps : List Pointer) :
    s'.extents ps = s.extents ps := by
  obtain ⟨memory, cached, count, rfl, hmem⟩ := h
  exact extents_congr fun p _ => hmem p

theorem sameNodes_changeCacheTreeNodeCnt (s : VirtualRegion) (num : Int) :
    SameNodes s (s.changeCacheTreeNodeCnt num) :=
  ⟨s.memory, s.cachedTreeNodeList, _, rfl, fun _ => rfl⟩

theorem sameNodes_addToCachedNodeList (s : VirtualRegion) (node : Pointer) :
    SameNodes s (s.addToCachedNodeList node) :=
  ⟨s.memory, _, s.cachedTreeNodeCount, rfl, fun _ => rfl⟩

theorem sameNodes_setCacheStatus (s : VirtualRegion) (node : Pointer) (status : Bool) :
    SameNodes s (s.setCacheStatus node status) := by
  refine ⟨_, s.cachedTreeNodeList, s.cachedTreeNodeCount, rfl, fun p => ?_⟩
  rw [Function.update_apply]
  split
  · rename_i heq
    rw [heq]
  · rfl

theorem sameNodes_deleteCachedNodeFromList (s : VirtualRegion) (node : Pointer) :
    SameNodes s (s.deleteCachedNodeFromList node) := by
  unfold deleteCachedNodeFromList
  split
  · exact sameNodes_refl s
  · rename_i del _
    obtain ⟨memory, cached, count, hset, hmem⟩ := sameNodes_setCacheStatus s del false
    refine ⟨memory, s.cachedTreeNodeList.eraseP (s.sameInterval node), count, ?_, hmem⟩
    rw [hset]

theorem sameNodes_uncache (s : VirtualRegion) (node : Pointer) : SameNodes s (s.uncache node) := by
  unfold uncache
  split
  · exact (sameNodes_changeCacheTreeNodeCnt s _).trans (sameNodes_deleteCachedNodeFromList _ node)
  · exact sameNodes_refl s

end CachedNodes

theorem findMin_ne_none (p : Pointer) (l r : BinaryTree Pointer) :
    findMin (.node p l r) ≠ none := by
  induction l generalizing p r with
  | nil => exact fun h => nomatch h
  | node q l' r' ihl _ => exact ihl q r'

section Place

/-- The key belongs at the end of the path. -/
structure Fits (s : VirtualRegion) (path : TreePath Pointer) (key : Int) : Prop where
  before : ∀ p ∈ path.before, (s.memory p).lba < key
  after : ∀ p ∈ path.after, key < (s.memory p).lba

theorem delete_of_lt (h : key < (s.memory p).lba) : s.delete key (.node p l r) =
    ((s.delete key l).1, .node p (s.delete key l).2 r) := by
  rw [delete.eq_def]
  simp only [if_pos h]

theorem delete_of_gt (h : (s.memory p).lba < key) : s.delete key (.node p l r) =
    ((s.delete key r).1, .node p l (s.delete key r).2) := by
  rw [delete.eq_def]
  simp only [if_neg (not_lt_of_gt h), if_pos h]

/-- A node with one child or none is replaced by its child. -/
theorem delete_of_eq_leaf (h : (s.memory p).lba = key) (hchild : l = .nil ∨ r = .nil) :
    s.delete key (.node p l r) = (s, if l = .nil then r else l) := by
  rw [delete.eq_def]
  subst h
  simp only [lt_irrefl, if_false]
  rcases hchild with rfl | rfl
  · cases hmin : findMin r with
    | none =>
      cases r with
      | nil => rfl
      | node q l' r' => exact absurd hmin (findMin_ne_none q l' r')
    | some temp => simp
  · cases l with
    | nil => rfl
    | node q l' r' => rfl

/-- A node with two children is overwritten with the least node behind it. -/
theorem delete_of_eq {temp : Pointer} (h : (s.memory p).lba = key) (hl : l ≠ .nil)
    (hmin : findMin r = some temp) : s.delete key (.node p l r) =
      (((s.overwrite p temp).delete ((s.overwrite p temp).memory temp).lba r).1,
        .node p l ((s.overwrite p temp).delete ((s.overwrite p temp).memory temp).lba r).2) := by
  rw [delete.eq_def]
  subst h
  simp only [lt_irrefl, if_false, hmin, if_neg hl]

/-- A deletion goes down the path to where its key belongs. -/
theorem delete_fill (h : s.Fits path key) (t : BinaryTree Pointer) :
    s.delete key (path.fill t) = ((s.delete key t).1, path.fill (s.delete key t).2) := by
  induction path generalizing t with
  | root => rfl
  | left p r parent ih =>
    have hlt : key < (s.memory p).lba :=
      h.after p (List.mem_append_left _ List.mem_cons_self)
    have hparent : s.Fits parent key := ⟨h.before, fun q hq => h.after q (List.mem_append_right _ hq)⟩
    rw [TreePath.fill, ih hparent, delete_of_lt hlt]
    rfl
  | right p l parent ih =>
    have hlt : (s.memory p).lba < key := h.before p (by simp [TreePath.before])
    have hparent : s.Fits parent key := ⟨fun q hq => h.before q (List.mem_append_left _ hq), h.after⟩
    rw [TreePath.fill, ih hparent, delete_of_gt hlt]
    rfl

/-- So does an insertion. -/
theorem insert_fill (h : s.Fits path key) (node : Pointer) (t : BinaryTree Pointer) :
    insert s.memory node key (path.fill t) =
      (path.fill (insert s.memory node key t).1, (insert s.memory node key t).2) := by
  induction path generalizing t with
  | root => rfl
  | left p r parent ih =>
    have hlt : key < (s.memory p).lba :=
      h.after p (List.mem_append_left _ List.mem_cons_self)
    have hparent : s.Fits parent key := ⟨h.before, fun q hq => h.after q (List.mem_append_right _ hq)⟩
    rw [TreePath.fill, ih hparent, insert, if_neg (by omega), if_pos hlt]
    rfl
  | right p l parent ih =>
    have hlt : (s.memory p).lba < key := h.before p (by simp [TreePath.before])
    have hparent : s.Fits parent key := ⟨fun q hq => h.before q (List.mem_append_left _ hq), h.after⟩
    rw [TreePath.fill, ih hparent, insert, if_pos hlt]
    rfl

end Place

/-- An insertion puts the node between the smaller and the larger keys. -/
theorem insert_split (hsorted : (inorder t).Pairwise fun p q => (s.memory p).lba < (s.memory q).lba)
    (hne : ∀ q ∈ inorder t, (s.memory q).lba ≠ key) (node : Pointer) :
    ∃ xs ys t', inorder t = xs ++ ys ∧ insert s.memory node key t = (t', some node) ∧
      inorder t' = xs ++ node :: ys ∧ (∀ q ∈ xs, (s.memory q).lba < key) ∧
      ∀ q ∈ ys, key < (s.memory q).lba := by
  induction t with
  | nil => exact ⟨[], [], .node node .nil .nil, rfl, rfl, rfl, by simp, by simp⟩
  | node p l r ihl ihr =>
    rw [inorder] at hsorted hne
    obtain ⟨hl, hpr, hcross⟩ := List.pairwise_append.mp hsorted
    obtain ⟨hp, hr⟩ := List.pairwise_cons.mp hpr
    rcases lt_or_gt_of_ne (hne p (List.mem_append_right _ List.mem_cons_self)) with hlt | hgt
    · obtain ⟨xs, ys, r', hsplit, hinsert, horder, hxs, hys⟩ :=
        ihr hr fun q hq => hne q (List.mem_append_right _ (List.mem_cons_of_mem _ hq))
      refine ⟨inorder l ++ p :: xs, ys, .node p l r', ?_, ?_, ?_, fun q hq => ?_, hys⟩
      · rw [inorder, hsplit]
        simp
      · rw [insert, if_pos hlt, hinsert]
      · rw [inorder, horder]
        simp
      · rcases List.mem_append.mp hq with hq | hq
        · exact (hcross q hq p List.mem_cons_self).trans hlt
        · rcases List.mem_cons.mp hq with rfl | hq
          · exact hlt
          · exact hxs q hq
    · obtain ⟨xs, ys, l', hsplit, hinsert, horder, hxs, hys⟩ :=
        ihl hl fun q hq => hne q (List.mem_append_left _ hq)
      refine ⟨xs, ys ++ p :: inorder r, .node p l' r, ?_, ?_, ?_, hxs, fun q hq => ?_⟩
      · rw [inorder, hsplit]
        simp
      · rw [insert, if_neg (by omega), if_pos hgt, hinsert]
      · rw [inorder, horder]
        simp
      · rcases List.mem_append.mp hq with hq | hq
        · exact hys q hq
        · rcases List.mem_cons.mp hq with rfl | hq
          · exact hgt
          · exact hgt.trans (hp q hq)

/-- The least node is deleted without a change of others. -/
theorem delete_findMin
    (hsorted : (inorder t).Pairwise fun p q => (s.memory p).lba < (s.memory q).lba)
    (hmin : findMin t = some q) :
    ∃ t', s.delete (s.memory q).lba t = (s, t') ∧ inorder t = q :: inorder t' := by
  induction t with
  | nil => cases hmin
  | node p l r ihl ihr =>
    cases l with
    | nil =>
      obtain rfl := Option.some.inj hmin
      exact ⟨r, delete_of_eq_leaf rfl (.inl rfl), rfl⟩
    | node p' l' r' =>
      rw [inorder] at hsorted
      obtain ⟨hl, -, hcross⟩ := List.pairwise_append.mp hsorted
      obtain ⟨t', hdelete, horder⟩ := ihl hl hmin
      have hlt := hcross q (horder ▸ List.mem_cons_self) p List.mem_cons_self
      refine ⟨.node p t' r, ?_, ?_⟩
      · rw [delete_of_lt hlt, hdelete]
      · rw [inorder, horder, inorder]
        rfl

/-- Overwriting a node copies the extent, and changes no other. -/
theorem overwrite_spec (s : VirtualRegion) (node temp : Pointer) :
    ∃ memory cached count, s.overwrite node temp = { s with
        memory := memory
        cachedTreeNodeList := cached
        cachedTreeNodeCount := count } ∧
      (memory node).toExtent = (s.memory temp).toExtent ∧
      ∀ q ≠ node, (memory q).toExtent = (s.memory q).toExtent := by
  obtain ⟨moved, hmoved⟩ : ∃ moved : TreeNode, moved =
      { s.memory temp with cacheStatus := (s.memory node).cacheStatus } := ⟨_, rfl⟩
  obtain ⟨s₁, hs₁⟩ : ∃ s₁, s₁ = { s with memory := Function.update s.memory node moved } := ⟨_, rfl⟩
  have hsame : SameNodes s₁ (s.overwrite node temp) := by
    simp only [overwrite, ← hmoved, ← hs₁]
    split
    · exact ((sameNodes_deleteCachedNodeFromList s₁ temp).trans
        (sameNodes_addToCachedNodeList _ node)).trans (sameNodes_setCacheStatus ..)
    · split
      · exact ((sameNodes_changeCacheTreeNodeCnt s₁ _).trans
          (sameNodes_deleteCachedNodeFromList _ node)).trans (sameNodes_setCacheStatus ..)
      · exact sameNodes_setCacheStatus ..
  obtain ⟨memory, cached, count, heq, hmem⟩ := hsame
  refine ⟨memory, cached, count, ?_, ?_, fun q hq => ?_⟩
  · rw [heq, hs₁]
  · rw [hmem, hs₁]
    simp [hmoved]
  · rw [hmem, hs₁]
    simp [Function.update_of_ne hq]

/-- A deletion at the root takes the extent of the root out. -/
theorem delete_root (hnodup : (inorder (.node p l r)).Nodup)
    (hapart : Apart (s.extents (inorder (.node p l r)))) :
    ∃ memory cached count t', s.delete (s.memory p).lba (.node p l r) = ({ s with
        memory := memory
        cachedTreeNodeList := cached
        cachedTreeNodeCount := count }, t') ∧
      (inorder t').Sublist (inorder (.node p l r)) ∧
      (inorder t').map (fun q => (memory q).toExtent) =
        s.extents (inorder l) ++ s.extents (inorder r) ∧
      ∀ q ≠ p, (memory q).toExtent = (s.memory q).toExtent := by
  have hkey : (s.memory p).lba = (s.memory p).lba := rfl
  cases l with
  | nil =>
    refine ⟨s.memory, s.cachedTreeNodeList, s.cachedTreeNodeCount, r,
      delete_of_eq_leaf hkey (.inl rfl), ?_, rfl, fun _ _ => rfl⟩
    exact List.sublist_cons_self p _
  | node p' l' r' =>
    cases hmin : findMin r with
    | none =>
      obtain rfl : r = .nil := by
        cases r with
        | nil => rfl
        | node q l'' r'' => exact absurd hmin (findMin_ne_none q l'' r'')
      refine ⟨s.memory, s.cachedTreeNodeList, s.cachedTreeNodeCount, .node p' l' r',
        delete_of_eq_leaf hkey (.inr rfl), ?_, (List.append_nil _).symm, fun _ _ => rfl⟩
      rw [inorder.eq_def (.node p _ _)]
      exact List.sublist_append_left ..
    | some temp =>
      have hl : BinaryTree.node p' l' r' ≠ .nil := fun h => by cases h
      generalize BinaryTree.node p' l' r' = l at *
      rw [inorder] at hnodup hapart ⊢
      obtain ⟨memory, cached, count, hover, hnode, hother⟩ := s.overwrite_spec p temp
      have hpr : p ∉ inorder r := (List.nodup_cons.mp (List.nodup_append.mp hnodup).2.1).1
      have hpl : p ∉ inorder l := fun h =>
        (List.nodup_append.mp hnodup).2.2 p h p List.mem_cons_self rfl
      have hr : (s.overwrite p temp).extents (inorder r) = s.extents (inorder r) := by
        rw [hover]
        exact extents_congr fun q hq => hother q fun h => hpr (h ▸ hq)
      rw [extents_append, extents_cons] at hapart
      have hapartR := (apart_cons.mp (apart_append.mp hapart).2.1).2.1
      obtain ⟨r', hdelete, horder⟩ := delete_findMin (keys_increasing (hr ▸ hapartR)) hmin
      rw [delete_of_eq hkey hl hmin, hdelete, hover]
      refine ⟨memory, cached, count, .node p l r', rfl, ?_, ?_, hother⟩
      · rw [inorder, horder]
        exact ((List.sublist_cons_self temp _).cons_cons p).append_left _
      · have hsame : ∀ qs : List Pointer, p ∉ qs →
            qs.map (fun q => (memory q).toExtent) = s.extents qs := fun qs hqs =>
          List.map_congr_left fun q hq => hother q fun h => hqs (h ▸ hq)
        have hpr' : p ∉ inorder r' := fun h => hpr (horder ▸ List.mem_cons_of_mem _ h)
        rw [inorder, List.map_append, List.map_cons, hsame _ hpl, hsame _ hpr', hnode, horder]
        rfl

end WiscKey.Beyond.VirtualRegion
