import WiscKey.Beyond.SearchTree

/-!
# Changes at one place of the tree

The steps of a removal change one subtree and leave the nodes around it. What a step makes of the
extents of the subtree, and how the counters of the region move against the tree, is told by one
relation, and steps in a row compose.
-/

namespace WiscKey.Beyond.VirtualRegion

variable {s s' s'' : VirtualRegion} {path : TreePath Pointer} {t l r : BinaryTree Pointer}
  {p : Pointer} {pos d d' : Int} {e : Extent} {xs ys zs : List Extent}

/-- The nodes are different, and their extents apart and in the order of the tree. -/
structure Ordered (s : VirtualRegion) : Prop where
  nodup : (inorder s.mrmTreeRoot).Nodup
  apart : Apart (s.extents (inorder s.mrmTreeRoot))

/-- What the element of the region and the free size of the list of SRAM have together. -/
def budget (s : VirtualRegion) (pos : Int) : Int := s.freeSize + s.elementSize pos

/-- The list of SRAM has room for the region as it is, if anything is buffered. -/
def HasRoom (s : VirtualRegion) (pos : Int) : Prop :=
  s.usedPageBuffer = 0 ∨ s.usedPageBuffer * lbaSize + sizeofBlockLinkedList * s.blockCount +
    sizeofTreeNode * s.nodeCount + sizeofInt * 5 ≤ s.budget pos

/-- Nothing more is buffered, and the list of SRAM has the same budget. -/
structure Spends (pos : Int) (s s' : VirtualRegion) : Prop where
  blockCount : s'.blockCount = s.blockCount
  budget : s'.budget pos = s.budget pos
  used : s'.usedPageBuffer ≤ s.usedPageBuffer
  zero : s.usedPageBuffer = 0 → s'.usedPageBuffer = 0

theorem spends_refl (pos : Int) (s : VirtualRegion) : Spends pos s s := ⟨rfl, rfl, le_rfl, id⟩

theorem Spends.trans (h : Spends pos s s') (h' : Spends pos s' s'') : Spends pos s s'' :=
  ⟨h'.blockCount.trans h.blockCount, h'.budget.trans h.budget, h'.used.trans h.used,
    fun hzero => h'.zero (h.zero hzero)⟩

theorem HasRoom.spends (h : s.HasRoom pos) (hs : Spends pos s s')
    (hcount : s'.nodeCount ≤ s.nodeCount) : s'.HasRoom pos := by
  rcases h with h | h
  · exact .inl (hs.zero h)
  · refine .inr ?_
    have hused := hs.used
    rw [hs.blockCount, hs.budget]
    simp only [lbaSize, sizeofTreeNode] at h ⊢
    omega

/-- What the count of the nodes is ahead of the tree. -/
def nodeBalance (s : VirtualRegion) : Int := s.nodeCount - (inorder s.mrmTreeRoot).length

/-- The lengths of extents. -/
def total (xs : List Extent) : Int := (xs.map Extent.length).sum

@[simp] theorem total_nil : total [] = 0 := rfl

@[simp] theorem total_cons : total (e :: xs) = e.length + total xs := by simp [total]

@[simp] theorem total_append : total (xs ++ ys) = total xs + total ys := by simp [total]

/-- What the count of the valid sub-pages is ahead of the tree. -/
def pageBalance (s : VirtualRegion) : Int :=
  s.validSubPage - total (s.extents (inorder s.mrmTreeRoot))

/-- The subtree at a path has got other extents, and the nodes around it are as they were. The
count of the nodes goes with the tree, and the count of the valid sub-pages moves by `d` against
it. -/
structure Replaced (pos : Int) (path : TreePath Pointer) (s s' : VirtualRegion) (xs : List Extent)
    (d : Int) : Prop where
  place : ∃ t, s'.mrmTreeRoot = path.fill t ∧ s'.extents (inorder t) = xs
  before : s'.extents path.before = s.extents path.before
  after : s'.extents path.after = s.extents path.after
  nodup : (inorder s'.mrmTreeRoot).Nodup
  spends : Spends pos s s'
  nodes : s'.nodeBalance = s.nodeBalance
  pages : s'.pageBalance = s.pageBalance + d

theorem extents_fill (s : VirtualRegion) (path : TreePath Pointer) (t : BinaryTree Pointer) :
    s.extents (inorder (path.fill t)) =
      s.extents path.before ++ (s.extents (inorder t) ++ s.extents path.after) := by
  rw [TreePath.inorder_fill, extents_append, extents_append]

theorem replaced_refl (pos : Int) (htree : s.mrmTreeRoot = path.fill t) (hs : s.Ordered) :
    Replaced pos path s s (s.extents (inorder t)) 0 :=
  ⟨⟨t, htree, rfl⟩, rfl, rfl, hs.nodup, spends_refl pos s, rfl, by omega⟩

theorem Replaced.trans (h : Replaced pos path s s' xs d) (h' : Replaced pos path s' s'' ys d') :
    Replaced pos path s s'' ys (d + d') := by
  refine ⟨h'.place, h'.before.trans h.before, h'.after.trans h.after, h'.nodup,
    h.spends.trans h'.spends, h'.nodes.trans h.nodes, ?_⟩
  rw [h'.pages, h.pages]
  omega

/-- A change below the left child leaves the node and what is right of it. -/
theorem Replaced.ofLeft (h : Replaced pos (.left p r path) s s' xs d) :
    ∃ l', s'.mrmTreeRoot = path.fill (.node p l' r) ∧ s'.extents (inorder l') = xs ∧
      (s'.memory p).toExtent = (s.memory p).toExtent ∧
      s'.extents (inorder r) = s.extents (inorder r) ∧
      Replaced pos path s s' (xs ++ (s.memory p).toExtent :: s.extents (inorder r)) d := by
  obtain ⟨l', htree, hxs⟩ := h.place
  have hafter := h.after
  rw [TreePath.after, List.cons_append, extents_cons, extents_cons, extents_append,
    extents_append] at hafter
  obtain ⟨hp, hrest⟩ := List.cons.inj hafter
  obtain ⟨hr, hpath⟩ := List.append_inj hrest (by simp [extents])
  refine ⟨l', htree, hxs, hp, hr, ⟨.node p l' r, htree, ?_⟩, h.before, hpath, h.nodup, h.spends,
    h.nodes, h.pages⟩
  rw [inorder, extents_append, extents_cons, hxs, hp, hr]

/-- A change below the right child leaves the node and what is left of it. -/
theorem Replaced.ofRight (h : Replaced pos (.right p l path) s s' xs d) :
    ∃ r', s'.mrmTreeRoot = path.fill (.node p l r') ∧ s'.extents (inorder r') = xs ∧
      (s'.memory p).toExtent = (s.memory p).toExtent ∧
      s'.extents (inorder l) = s.extents (inorder l) ∧
      Replaced pos path s s' (s.extents (inorder l) ++ (s.memory p).toExtent :: xs) d := by
  obtain ⟨r', htree, hxs⟩ := h.place
  have hbefore := h.before
  rw [TreePath.before, extents_append, extents_append, extents_append, extents_append] at hbefore
  obtain ⟨hpath, hrest⟩ := List.append_inj hbefore (by simp [extents])
  obtain ⟨hl, hp⟩ := List.append_inj hrest (by simp [extents])
  have hnode : (s'.memory p).toExtent = (s.memory p).toExtent := (List.cons.inj hp).1
  refine ⟨r', htree, hxs, hnode, hl, ⟨.node p l r', htree, ?_⟩, hpath, h.after, h.nodup, h.spends,
    h.nodes, h.pages⟩
  rw [inorder, extents_append, extents_cons, hxs, hl, hnode]

/-- All extents of the tree. -/
theorem Replaced.extents_eq (h : Replaced pos path s s' xs d) :
    s'.extents (inorder s'.mrmTreeRoot) =
      s.extents path.before ++ (xs ++ s.extents path.after) := by
  obtain ⟨t, htree, hxs⟩ := h.place
  rw [htree, extents_fill, hxs, h.before, h.after]

/-- The extents of the subtree at the place. -/
theorem Replaced.extents_place (h : Replaced pos path s s' xs d)
    (htree : s'.mrmTreeRoot = path.fill t) : s'.extents (inorder t) = xs := by
  have hall := h.extents_eq
  rw [htree, extents_fill, h.before, h.after] at hall
  exact List.append_cancel_right (List.append_cancel_left hall)

/-- A change at a place is a change of the whole tree. -/
theorem Replaced.whole (h : Replaced pos path s s' xs d) :
    Replaced pos .root s s' (s.extents path.before ++ (xs ++ s.extents path.after)) d :=
  ⟨⟨_, rfl, h.extents_eq⟩, rfl, rfl, h.nodup, h.spends, h.nodes, h.pages⟩

/-- The tree stays ordered when the new extents are apart from those around them. -/
theorem Replaced.ordered (h : Replaced pos path s s' xs d)
    (hapart : Apart (s.extents path.before ++ (xs ++ s.extents path.after))) : s'.Ordered := by
  refine ⟨h.nodup, ?_⟩
  rw [h.extents_eq]
  exact hapart

/-- The number of the nodes moves with the number of the extents. -/
theorem Replaced.nodeCount (h : Replaced pos path s s' xs d) (htree : s.mrmTreeRoot = path.fill t) :
    s'.nodeCount + (inorder t).length = s.nodeCount + xs.length := by
  obtain ⟨t', htree', hxs⟩ := h.place
  have hnodes := h.nodes
  have hlength : (inorder t').length = xs.length := by
    rw [← hxs]
    simp [extents]
  simp only [nodeBalance, htree, htree', TreePath.inorder_fill, List.length_append] at hnodes
  omega

theorem Replaced.numNodes (h : Replaced pos path s s' xs d) (htree : s.mrmTreeRoot = path.fill t) :
    s'.mrmTreeRoot.numNodes + (inorder t).length = s.mrmTreeRoot.numNodes + xs.length := by
  obtain ⟨t', htree', hxs⟩ := h.place
  have hlength : (inorder t').length = xs.length := by
    rw [← hxs]
    simp [extents]
  rw [← length_inorder, ← length_inorder, htree, htree', TreePath.inorder_fill,
    TreePath.inorder_fill]
  simp only [List.length_append]
  omega

theorem Replaced.congr (h : Replaced pos path s s' xs d) (hxs : xs = ys) (hd : d = d') :
    Replaced pos path s s' ys d' := by
  rw [← hxs, ← hd]
  exact h

/-- The room stays when there are not more nodes than before. -/
theorem Replaced.hasRoom (h : Replaced pos path s s' xs d) (htree : s.mrmTreeRoot = path.fill t)
    (hroom : s.HasRoom pos) (hle : xs.length ≤ (inorder t).length) : s'.HasRoom pos := by
  have hcount := h.nodeCount htree
  exact hroom.spends h.spends (by omega)

section Steps

/-- A step that leaves the extents of the nodes, the tree and the counters is no change. -/
theorem Replaced.sameNodes (h : Replaced pos path s s' xs d) (hsame : SameNodes s' s'') :
    Replaced pos path s s'' xs d := by
  obtain ⟨t, htree, hxs⟩ := h.place
  have hextents := hsame.extents
  obtain ⟨memory, cached, count, rfl, -⟩ := hsame
  refine ⟨⟨t, htree, (hextents _).trans hxs⟩, (hextents _).trans h.before,
    (hextents _).trans h.after, h.nodup, h.spends.trans ⟨rfl, rfl, le_rfl, id⟩, h.nodes, ?_⟩
  rw [← h.pages]
  simp only [pageBalance, hextents]

theorem Replaced.changeVaildSubPageCnt (h : Replaced pos path s s' xs d) (num : Int) :
    Replaced pos path s (s'.changeVaildSubPageCnt num) xs (d + num) := by
  refine ⟨h.place, h.before, h.after, h.nodup, h.spends.trans ⟨rfl, rfl, le_rfl, id⟩, h.nodes, ?_⟩
  rw [← add_assoc, ← h.pages]
  change s'.validSubPage + num - total (s'.extents (inorder s'.mrmTreeRoot)) = s'.pageBalance + num
  rw [pageBalance]
  omega

/-- With room for the region, an element of the list takes its new size. -/
theorem updateLruItemSize_spec {newSize : Int} (h : newSize ≤ s.budget pos) :
    ∃ freeSize elementSize, s.updateLruItemSize pos newSize = .ok { s with
        freeSize := freeSize
        elementSize := elementSize } ∧ freeSize + elementSize pos = s.budget pos := by
  unfold updateLruItemSize
  unfold budget at h ⊢
  split
  · refine ⟨_, _, rfl, ?_⟩
    rw [Function.update_self]
    omega
  · split
    · rw [if_neg (by omega)]
      refine ⟨_, _, rfl, ?_⟩
      rw [Function.update_self]
      omega
    · refine ⟨s.freeSize, _, rfl, ?_⟩
      rw [Function.update_self]
      omega

/-- The invalidation of sub-pages moves counters of the device only. -/
theorem Replaced.invalidateSupPage {len : Int} (h : Replaced pos path s s' xs d) (hlen : 0 ≤ len)
    (hroom : s'.HasRoom pos) (node : Pointer) :
    ∃ s'', s'.invalidateSupPage len node pos = .ok s'' ∧ s''.memory = s'.memory ∧
      s''.mrmTreeRoot = s'.mrmTreeRoot ∧ Replaced pos path s s'' xs d := by
  unfold VirtualRegion.invalidateSupPage
  simp only
  split
  · rename_i hcached
    obtain ⟨size, hsize⟩ : ∃ size, (s'.changeUsedBuffer (len * -1)).virtualRegionSizeUpdate.size =
      size := ⟨_, rfl⟩
    have hle : size ≤ s'.budget pos := by
      have hle := hroom.resolve_left hcached.2.1
      rw [← hsize]
      simp only [virtualRegionSizeUpdate, changeUsedBuffer, lbaSize] at hle ⊢
      omega
    obtain ⟨freeSize, elementSize, hupdate, hbudget⟩ :=
      @updateLruItemSize_spec (s'.changeUsedBuffer (len * -1)).virtualRegionSizeUpdate pos size hle
    rw [hsize, hupdate]
    refine ⟨_, rfl, rfl, rfl, h.place, h.before, h.after, h.nodup,
      h.spends.trans ⟨rfl, hbudget, ?_, ?_⟩, h.nodes, h.pages⟩
    · change s'.usedPageBuffer + len * -1 ≤ s'.usedPageBuffer
      omega
    · exact fun hzero => absurd hzero hcached.2.1
  · exact ⟨_, rfl, rfl, rfl, h.place, h.before, h.after, h.nodup,
      h.spends.trans ⟨rfl, rfl, le_rfl, id⟩, h.nodes, h.pages⟩

/-- The nodes around a place that has the key among its extents. -/
theorem Ordered.fits (hs : s.Ordered) (htree : s.mrmTreeRoot = path.fill t) {key : Int}
    (he : e ∈ s.extents (inorder t)) (hkey : e.lba ≤ key ∧ key < e.lba + e.length) :
    s.Fits path key := by
  have hapart := hs.apart
  rw [htree, extents_fill] at hapart
  obtain ⟨hbefore, hrest, hcross⟩ := apart_append.mp hapart
  obtain ⟨-, -, hcross'⟩ := apart_append.mp hrest
  constructor
  · intro q hq
    have hmem : (s.memory q).toExtent ∈ s.extents path.before := mem_extents.mpr ⟨q, hq, rfl⟩
    have hpos := hbefore.positive _ hmem
    have hle := hcross _ hmem e (List.mem_append_left _ he)
    omega
  · intro q hq
    have hle := hcross' e he _ (mem_extents.mpr ⟨q, hq, rfl⟩)
    omega

/-- Other regions with the same nodes around the place. -/
theorem Fits.congr {key : Int} (h : s.Fits path key)
    (hbefore : s'.extents path.before = s.extents path.before)
    (hafter : s'.extents path.after = s.extents path.after) : s'.Fits path key := by
  constructor
  · intro q hq
    have hmem : (s'.memory q).toExtent ∈ s.extents path.before :=
      hbefore ▸ mem_extents.mpr ⟨q, hq, rfl⟩
    obtain ⟨q', hq', hsame⟩ := mem_extents.mp hmem
    have hlba := congrArg Extent.lba hsame
    have hlt := h.before q' hq'
    omega
  · intro q hq
    have hmem : (s'.memory q).toExtent ∈ s.extents path.after :=
      hafter ▸ mem_extents.mpr ⟨q, hq, rfl⟩
    obtain ⟨q', hq', hsame⟩ := mem_extents.mp hmem
    have hlba := congrArg Extent.lba hsame
    have hlt := h.after q' hq'
    omega

/-- The elements of a subtree are nowhere else. -/
theorem Ordered.nodup_fill (hs : s.Ordered) (htree : s.mrmTreeRoot = path.fill t) :
    (inorder t).Nodup ∧ (∀ p ∈ inorder t, p ∉ path.before) ∧ ∀ p ∈ inorder t, p ∉ path.after := by
  have hnodup := hs.nodup
  rw [htree, TreePath.inorder_fill] at hnodup
  obtain ⟨-, hrest, hcross⟩ := List.nodup_append.mp hnodup
  obtain ⟨ht, -, hcross'⟩ := List.nodup_append.mp hrest
  exact ⟨ht, fun p hp hmem => hcross p hmem p (List.mem_append_left _ hp) rfl,
    fun p hp hmem => hcross' p hp p hmem rfl⟩

theorem replaced_deleteNode (pos : Int) (htree : s.mrmTreeRoot = path.fill (.node p l r))
    (hs : s.Ordered) : Replaced pos path s (s.deleteNode (s.memory p).lba)
      (s.extents (inorder l) ++ s.extents (inorder r)) (s.memory p).length := by
  obtain ⟨hnodup, hbefore, hafter⟩ := hs.nodup_fill htree
  have hp : p ∈ inorder (.node p l r) := by simp [inorder]
  have hapart := hs.apart
  rw [htree, extents_fill] at hapart
  have hapartT := (apart_append.mp (apart_append.mp hapart).2.1).1
  have hmem : (s.memory p).toExtent ∈ s.extents (inorder (.node p l r)) :=
    mem_extents.mpr ⟨p, hp, rfl⟩
  have hpos := hapartT.positive _ hmem
  have hfits := hs.fits htree hmem ⟨le_rfl, by omega⟩
  obtain ⟨memory, cached, count, t', hdelete, hsub, hextents, hother⟩ := delete_root hnodup hapartT
  have hstep : s.deleteNode (s.memory p).lba = { s with
      mrmTreeRoot := path.fill t'
      memory := memory
      cachedTreeNodeList := cached
      cachedTreeNodeCount := count
      nodeCount := s.nodeCount - 1 } := by
    rw [deleteNode, htree, delete_fill hfits, hdelete]
  have hframe : ∀ ps : List Pointer, p ∉ ps →
      ps.map (fun q => (memory q).toExtent) = s.extents ps := fun ps hps =>
    List.map_congr_left fun q hq => hother q fun h => hps (h ▸ hq)
  have hnodes : (inorder t').length + 1 = (inorder (.node p l r)).length := by
    have hlength := congrArg List.length hextents
    simp only [List.length_map, List.length_append, extents] at hlength
    simp only [inorder, List.length_append, List.length_cons]
    omega
  rw [hstep]
  refine ⟨⟨t', rfl, hextents⟩, hframe _ (hbefore p hp), hframe _ (hafter p hp), ?_,
    ⟨rfl, rfl, le_rfl, id⟩, ?_, ?_⟩
  · have hwhole := hs.nodup
    rw [htree, TreePath.inorder_fill] at hwhole
    rw [TreePath.inorder_fill]
    exact hwhole.sublist ((hsub.append_right _).append_left _)
  · simp only [nodeBalance, htree, TreePath.inorder_fill, List.length_append]
    omega
  · have hnew : total ((inorder (path.fill t')).map fun q => (memory q).toExtent) =
        total (s.extents path.before) + (total (s.extents (inorder l)) +
          total (s.extents (inorder r)) + total (s.extents path.after)) := by
      rw [TreePath.inorder_fill, List.map_append, List.map_append, hextents,
        hframe _ (hbefore p hp), hframe _ (hafter p hp)]
      simp only [total_append]
    have hold : total (s.extents (inorder (path.fill (.node p l r)))) =
        total (s.extents path.before) + (total (s.extents (inorder l)) + ((s.memory p).length +
          total (s.extents (inorder r))) + total (s.extents path.after)) := by
      rw [extents_fill, inorder]
      simp only [extents_append, extents_cons, total_append, total_cons]
    change s.validSubPage - total ((inorder (path.fill t')).map _) = _
    rw [pageBalance, htree, hnew, hold]
    omega

theorem malloc_notMem (s : VirtualRegion) : s.malloc ∉ inorder s.mrmTreeRoot := by
  have hle : ∀ (ps : List Pointer), ∀ p ∈ ps, p ≤ ps.foldr max 0 := by
    intro ps
    induction ps with
    | nil => exact fun p hp => absurd hp List.not_mem_nil
    | cons q ps ih =>
      intro p hp
      rw [List.foldr_cons]
      rcases List.mem_cons.mp hp with rfl | hp
      · exact le_max_left ..
      · exact (ih p hp).trans (le_max_right ..)
  exact fun h => Nat.not_succ_le_self _ (hle _ _ h)

/-- A key splits a list of extents in one way. -/
theorem split_unique {key : Int} {xs' ys' : List Extent} (h : xs ++ ys = xs' ++ ys')
    (hxs : ∀ f ∈ xs, f.lba < key) (hys : ∀ f ∈ ys, key < f.lba) (hxs' : ∀ f ∈ xs', f.lba < key)
    (hys' : ∀ f ∈ ys', key < f.lba) : xs = xs' ∧ ys = ys' := by
  have hfilter : ∀ us vs : List Extent, (∀ f ∈ us, f.lba < key) → (∀ f ∈ vs, key < f.lba) →
      (us ++ vs).filter (fun f => f.lba < key) = us := by
    intro us vs hus hvs
    rw [List.filter_append, List.filter_eq_self.mpr (by simpa using hus),
      List.filter_eq_nil_iff.mpr, List.append_nil]
    intro f hf
    simpa using (hvs f hf).le
  have hfront : xs = xs' := by
    rw [← hfilter xs ys hxs hys, h, hfilter xs' ys' hxs' hys']
  exact ⟨hfront, List.append_cancel_left (hfront ▸ h)⟩

theorem replaced_insertNode (pos : Int) (htree : s.mrmTreeRoot = path.fill t) (hs : s.Ordered)
    (hfits : s.Fits path e.lba) (hsplit : s.extents (inorder t) = xs ++ ys)
    (hxs : ∀ f ∈ xs, f.lba < e.lba) (hys : ∀ f ∈ ys, e.lba < f.lba) (hlen : 0 < e.length)
    (allCached : Bool) : ∃ s', s.insertNode e allCached = .ok s' ∧
      Replaced pos path s s' (xs ++ e :: ys) (-e.length) := by
  have hapart := hs.apart
  rw [htree, extents_fill] at hapart
  have hapartT := (apart_append.mp (apart_append.mp hapart).2.1).1
  have hne : ∀ q ∈ inorder t, (s.memory q).lba ≠ e.lba := by
    intro q hq
    have hmem : (s.memory q).toExtent ∈ xs ++ ys := hsplit ▸ mem_extents.mpr ⟨q, hq, rfl⟩
    rcases List.mem_append.mp hmem with hmem | hmem
    · exact (hxs _ hmem).ne
    · exact (hys _ hmem).ne'
  obtain ⟨ps, qs, t', horder, hinsert, horder', hps, hqs⟩ :=
    insert_split (keys_increasing hapartT) hne s.malloc
  obtain ⟨hxsEq, hysEq⟩ : s.extents ps = xs ∧ s.extents qs = ys := by
    refine @split_unique _ _ e.lba _ _ ?_ (fun f hf => ?_) (fun f hf => ?_) hxs hys
    · rw [← hsplit, horder, extents_append]
    · obtain ⟨q, hq, rfl⟩ := mem_extents.mp hf
      exact hps q hq
    · obtain ⟨q, hq, rfl⟩ := mem_extents.mp hf
      exact hqs q hq
  have hfresh := s.malloc_notMem
  rw [htree, TreePath.inorder_fill, horder] at hfresh
  simp only [List.mem_append, not_or] at hfresh
  obtain ⟨hbefore, ⟨hfreshP, hfreshQ⟩, hafter⟩ := hfresh
  have hframe : ∀ us : List Pointer, s.malloc ∉ us → us.map (fun q =>
      (Function.update s.memory s.malloc ⟨e, allCached⟩ q).toExtent) = s.extents us := by
    intro us hus
    refine List.map_congr_left fun q hq => ?_
    have hne : q ≠ s.malloc := fun h => hus (h ▸ hq)
    rw [Function.update_of_ne hne]
  have hnew : (inorder t').map (fun q =>
      (Function.update s.memory s.malloc ⟨e, allCached⟩ q).toExtent) = xs ++ e :: ys := by
    rw [horder', List.map_append, List.map_cons, hframe _ hfreshP, hframe _ hfreshQ,
      Function.update_self, hxsEq, hysEq]
  obtain ⟨cached, count, hstep⟩ : ∃ cached count, s.insertNode e allCached = .ok { s with
      mrmTreeRoot := path.fill t'
      memory := Function.update s.memory s.malloc ⟨e, allCached⟩
      cachedTreeNodeList := cached
      cachedTreeNodeCount := count
      nodeCount := s.nodeCount + 1 } := by
    rw [insertNode, if_neg hlen.ne', htree, insert_fill hfits, hinsert]
    cases allCached with
    | true => exact ⟨_, _, rfl⟩
    | false => exact ⟨_, _, rfl⟩
  refine ⟨_, hstep, ⟨t', rfl, hnew⟩, hframe _ hbefore, hframe _ hafter, ?_,
    ⟨rfl, rfl, le_rfl, id⟩, ?_, ?_⟩
  · have hwhole := List.nodup_cons.mpr ⟨s.malloc_notMem, hs.nodup⟩
    rw [htree, TreePath.inorder_fill, horder] at hwhole
    rw [TreePath.inorder_fill, horder']
    refine (List.Perm.nodup_iff ?_).mpr hwhole
    simp only [List.append_assoc, List.cons_append]
    rw [← List.append_assoc, ← List.append_assoc path.before ps]
    exact List.perm_middle
  · simp only [nodeBalance, htree, TreePath.inorder_fill, List.length_append, horder, horder',
      List.length_cons]
    omega
  · change s.validSubPage - total ((inorder (path.fill t')).map _) = _
    rw [TreePath.inorder_fill, List.map_append, List.map_append, hnew, hframe _ hbefore,
      hframe _ hafter, pageBalance, htree, extents_fill, hsplit]
    simp only [total_append, total_cons]
    omega

/-- A node gets another extent in its place. -/
theorem replaced_update (pos : Int) (htree : s.mrmTreeRoot = path.fill (.node p l r))
    (hs : s.Ordered) {node : TreeNode} (hnode : node.toExtent = e) :
    Replaced pos path s { s with memory := Function.update s.memory p node }
      (s.extents (inorder l) ++ e :: s.extents (inorder r)) ((s.memory p).length - e.length) := by
  obtain ⟨hnodup, hbefore, hafter⟩ := hs.nodup_fill htree
  have hp : p ∈ inorder (.node p l r) := by simp [inorder]
  have hpr : p ∉ inorder r := (List.nodup_cons.mp (List.nodup_append.mp hnodup).2.1).1
  have hpl : p ∉ inorder l := fun h =>
    (List.nodup_append.mp hnodup).2.2 p h p List.mem_cons_self rfl
  have hframe : ∀ us : List Pointer, p ∉ us → us.map (fun q =>
      (Function.update s.memory p node q).toExtent) = s.extents us := by
    intro us hus
    refine List.map_congr_left fun q hq => ?_
    have hne : q ≠ p := fun h => hus (h ▸ hq)
    rw [Function.update_of_ne hne]
  have hnew : (inorder (.node p l r)).map (fun q =>
      (Function.update s.memory p node q).toExtent) =
        s.extents (inorder l) ++ e :: s.extents (inorder r) := by
    rw [inorder, List.map_append, List.map_cons, hframe _ hpl, hframe _ hpr, Function.update_self,
      hnode]
  refine ⟨⟨_, htree, hnew⟩, hframe _ (hbefore p hp), hframe _ (hafter p hp), hs.nodup,
    ⟨rfl, rfl, le_rfl, id⟩, rfl, ?_⟩
  change s.validSubPage - total ((inorder s.mrmTreeRoot).map _) = _
  rw [pageBalance, htree, TreePath.inorder_fill, List.map_append, List.map_append, hnew,
    hframe _ (hbefore p hp), hframe _ (hafter p hp), extents_append, extents_append, inorder]
  simp only [extents_append, extents_cons, total_append, total_cons]
  omega

/-- A node is shortened in its place. -/
theorem replaced_shorten (pos n : Int) (htree : s.mrmTreeRoot = path.fill (.node p l r))
    (hs : s.Ordered) {node : TreeNode} (hnode : node.toExtent = (s.memory p).toExtent.take n) :
    Replaced pos path s { s with memory := Function.update s.memory p node }
      (s.extents (inorder l) ++ (s.memory p).toExtent.take n :: s.extents (inorder r))
      ((s.memory p).length - n) :=
  replaced_update pos htree hs hnode

/-- The steps that take a node out of the tree: its sub-pages are invalidated, and it is deleted. -/
theorem replaced_retire {len : Int} (num : Int) (hlen : 0 ≤ len) (hroom : s.HasRoom pos)
    (htree : s.mrmTreeRoot = path.fill (.node p l r)) (hs : s.Ordered) :
    ∃ s', s.invalidateSupPage len p pos = .ok s' ∧ Replaced pos path s
      (((s'.changeVaildSubPageCnt num).uncache p).deleteNode (s.memory p).lba)
      (s.extents (inorder l) ++ s.extents (inorder r)) ((s.memory p).length + num) := by
  obtain ⟨s₁, hstep, hmemory, hroot, h₁⟩ :=
    (replaced_refl pos htree hs).invalidateSupPage hlen hroom p
  have hsame := sameNodes_uncache (s₁.changeVaildSubPageCnt num) p
  have h₂ := (h₁.changeVaildSubPageCnt num).sameNodes hsame
  obtain ⟨s₂, hs₂⟩ : ∃ s₂, (s₁.changeVaildSubPageCnt num).uncache p = s₂ := ⟨_, rfl⟩
  rw [hs₂] at h₂ hsame
  obtain ⟨memory, cached, count, heq, hmem⟩ := hsame
  have hnode : ∀ q, (s₂.memory q).toExtent = (s.memory q).toExtent := fun q => by
    rw [heq]
    exact (hmem q).trans (congrArg (fun m : Pointer → TreeNode => (m q).toExtent) hmemory)
  have hextents : ∀ ps, s₂.extents ps = s.extents ps := fun ps => extents_congr fun q _ => hnode q
  have hroot₂ : s₂.mrmTreeRoot = s.mrmTreeRoot := by
    rw [heq]
    exact hroot
  have hordered : s₂.Ordered :=
    ⟨hroot₂ ▸ hs.nodup, by rw [hextents, hroot₂]; exact hs.apart⟩
  have hlba : (s₂.memory p).lba = (s.memory p).lba := congrArg Extent.lba (hnode p)
  have hlength : (s₂.memory p).length = (s.memory p).length := congrArg Extent.length (hnode p)
  have h₃ := replaced_deleteNode pos (hroot₂.trans htree) hordered
  rw [hlba] at h₃
  refine ⟨s₁, hstep, ?_⟩
  rw [hs₂]
  refine (h₂.trans h₃).congr ?_ (by omega)
  rw [hextents, hextents]

end Steps

end WiscKey.Beyond.VirtualRegion
