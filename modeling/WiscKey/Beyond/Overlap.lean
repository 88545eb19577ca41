import WiscKey.Beyond.Replace
import WiscKey.Library.Outcome

/-!
# The removal of an interval

`RemoveOverlapped` goes through the subtree of a node and leaves of its extents what is outside of
the interval. It looks at each position of the interval to a node, and it deletes and inserts from
the root of the tree, which must not be empty then.
-/

namespace WiscKey.Beyond.VirtualRegion

variable {g : FlashSize} {s s' : VirtualRegion} {path : TreePath Pointer}
  {t l r : BinaryTree Pointer} {p : Pointer} {lba len pos d : Int} {fuel : Nat}

section Children

theorem Ordered.subtreeAt (hs : s.Ordered) (htree : s.mrmTreeRoot = path.fill (.node p l r)) :
    subtreeAt p s.mrmTreeRoot = .node p l r := by
  have hnodup := hs.nodup
  rw [htree] at hnodup ⊢
  exact subtreeAt_fill hnodup (by simp [inorder]) (subtreeAt_self p l r) fun h => by cases h

theorem Ordered.leftChild (hs : s.Ordered) (htree : s.mrmTreeRoot = path.fill (.node p l r)) :
    s.leftChild p = rootOf l := by
  rw [VirtualRegion.leftChild, hs.subtreeAt htree]
  rfl

theorem Ordered.rightChild (hs : s.Ordered) (htree : s.mrmTreeRoot = path.fill (.node p l r)) :
    s.rightChild p = rootOf r := by
  rw [VirtualRegion.rightChild, hs.subtreeAt htree]
  rfl

end Children

/-- Where no extent of a subtree has an LBA of the interval, nothing changes. -/
theorem removeOverlapped_clear (hs : s.Ordered) (htree : s.mrmTreeRoot = path.fill (.node p l r))
    (hclear : ∀ e ∈ s.extents (inorder (.node p l r)), e.Clear lba len) (hlen : 0 < len)
    (hfuel : (BinaryTree.node p l r).numNodes ≤ fuel) :
    removeOverlapped g fuel s (some p) lba len pos = .ok s := by
  induction fuel generalizing path p l r with
  | zero => simp at hfuel
  | succ fuel ih =>
    have hbelow : ∀ (c : BinaryTree Pointer) (path' : TreePath Pointer),
        s.mrmTreeRoot = path'.fill c → c.numNodes ≤ fuel →
        (∀ e ∈ s.extents (inorder c), e.Clear lba len) →
        ifNotNull (rootOf c) s (fun child => removeOverlapped g fuel s (some child) lba len pos) =
          .ok s := by
      intro c path' htree' hfuel' hclear'
      cases c with
      | nil => rfl
      | node q l' r' => exact ih htree' hclear' hfuel'
    rw [inorder, extents_append, extents_cons] at hclear
    have hp := hclear _ (List.mem_append_right _ List.mem_cons_self)
    have hpos : 0 < (s.memory p).length := by
      refine hs.apart.positive (s.memory p).toExtent (mem_extents.mpr ⟨p, ?_, rfl⟩)
      rw [htree, TreePath.inorder_fill]
      simp [inorder]
    rw [BinaryTree.numNodes] at hfuel
    simp only [removeOverlapped, hs.leftChild htree, hs.rightChild htree]
    rcases hp with hp | hp
    · rw [if_neg (by omega), if_neg (by omega), if_neg (by omega), if_neg (by omega),
        if_neg (by omega), if_pos (by omega)]
      exact hbelow r (.right p l path) htree (by omega)
        fun e he => hclear e (List.mem_append_right _ (List.mem_cons_of_mem _ he))
    · rw [if_neg (by omega), if_neg (by omega), if_neg (by omega), if_neg (by omega),
        if_pos (by omega)]
      exact hbelow l (.left p r path) htree (by omega)
        fun e he => hclear e (List.mem_append_left _ he)

/-- The same from the root of a tree that is not empty. -/
theorem removeOverlapped_root_clear (hs : s.Ordered) (hne : s.mrmTreeRoot ≠ .nil)
    (hclear : ∀ e ∈ s.extents (inorder s.mrmTreeRoot), e.Clear lba len) (hlen : 0 < len)
    (hfuel : s.mrmTreeRoot.numNodes ≤ fuel) :
    removeOverlapped g fuel s s.root lba len pos = .ok s := by
  cases htree : s.mrmTreeRoot with
  | nil => exact absurd htree hne
  | node p l r =>
    rw [htree] at hclear hfuel
    rw [root, htree]
    exact @removeOverlapped_clear g s .root l r p lba len pos fuel hs htree hclear hlen hfuel

/-- The interval reaches into the root, and all other nodes are inside of it: the tree is empty
when what is left of the root is to be inserted. -/
def Empties (s : VirtualRegion) (lba len : Int) : Prop :=
  ∃ p l, s.mrmTreeRoot = .node p l .nil ∧ lba < (s.memory p).lba ∧
    (s.memory p).lba < lba + len ∧ lba + len < (s.memory p).lba + (s.memory p).length ∧
    ∀ e ∈ s.extents (inorder l), lba ≤ e.lba

/-- What `RemoveOverlapped` does, with enough steps. -/
def Removes (g : FlashSize) (fuel : Nat) : Prop :=
  ∀ (s : VirtualRegion) (path : TreePath Pointer) (p : Pointer) (l r : BinaryTree Pointer)
    (lba len pos : Int), s.mrmTreeRoot = path.fill (.node p l r) → s.Ordered → 0 < len →
    (∀ e ∈ s.extents (inorder (.node p l r)), e.lba ≠ lba) → s.HasRoom pos →
    (BinaryTree.node p l r).numNodes + s.mrmTreeRoot.numNodes ≤ fuel →
    (path = .root → ¬ s.Empties lba len) →
      ∃ s', removeOverlapped g fuel s (some p) lba len pos = .ok s' ∧
        Replaced pos path s s'
          (removed g.maxSubPage lba len (s.extents (inorder (.node p l r)))) 0

/-- The removal in a child. -/
theorem Removes.below (h : Removes g fuel) {c : BinaryTree Pointer}
    (htree : s.mrmTreeRoot = path.fill c) (hpath : path ≠ .root) (hs : s.Ordered) (hlen : 0 < len)
    (hne : ∀ e ∈ s.extents (inorder c), e.lba ≠ lba) (hroom : s.HasRoom pos)
    (hfuel : c.numNodes + s.mrmTreeRoot.numNodes ≤ fuel) :
    ∃ s', ifNotNull (rootOf c) s
        (fun child => removeOverlapped g fuel s (some child) lba len pos) = .ok s' ∧
      Replaced pos path s s' (removed g.maxSubPage lba len (s.extents (inorder c))) 0 := by
  cases c with
  | nil => exact ⟨s, rfl, replaced_refl pos htree hs⟩
  | node q l' r' =>
    exact h s path q l' r' lba len pos htree hs hlen hne hroom hfuel fun hroot => absurd hroot hpath

section Cases

variable (htree : s.mrmTreeRoot = path.fill (.node p l r)) (hs : s.Ordered) (hlen : 0 < len)
  (hroom : s.HasRoom pos)

include htree hs

/-- The extents around a node and in its subtree, in order. -/
theorem Ordered.apart_node : Apart ((s.extents path.before ++ s.extents (inorder l)) ++
    (s.memory p).toExtent :: (s.extents (inorder r) ++ s.extents path.after)) := by
  have hapart := hs.apart
  rw [htree, extents_fill, inorder, extents_append, extents_cons, List.append_assoc,
    List.cons_append, ← List.append_assoc] at hapart
  exact hapart

/-- The extents in the subtree of a node, in order. -/
theorem Ordered.apart_subtree :
    Apart (s.extents (inorder l) ++ (s.memory p).toExtent :: s.extents (inorder r)) := by
  have hnode := hs.apart_node htree
  rw [List.append_assoc, ← List.cons_append, ← List.append_assoc (s.extents (inorder l))] at hnode
  exact (apart_append.mp (apart_append.mp hnode).2.1).1

theorem Ordered.positive : 0 < (s.memory p).length :=
  (apart_cons.mp (apart_append.mp (hs.apart_subtree htree)).2.1).1

include hlen hroom

/-- The interval ends in front of the node. -/
theorem Removes.inFront (h : Removes g fuel)
    (hne : ∀ e ∈ s.extents (inorder (.node p l r)), e.lba ≠ lba)
    (hfuel : (BinaryTree.node p l r).numNodes + s.mrmTreeRoot.numNodes ≤ fuel + 1)
    (hp : lba + len ≤ (s.memory p).lba) :
    ∃ s', removeOverlapped g (fuel + 1) s (some p) lba len pos = .ok s' ∧
      Replaced pos path s s'
        (removed g.maxSubPage lba len (s.extents (inorder (.node p l r)))) 0 := by
  have hapart := hs.apart_subtree htree
  have hpos := hs.positive htree
  rw [inorder, extents_append, extents_cons] at hne ⊢
  rw [BinaryTree.numNodes] at hfuel
  obtain ⟨s', hbelow, hreplaced⟩ := @h.below g s (.left p r path) lba len pos fuel l htree
    (by simp) hs hlen (fun e he => hne e (List.mem_append_left _ he)) hroom (by omega)
  refine ⟨s', ?_, ?_⟩
  · simp only [removeOverlapped, hs.leftChild htree]
    rw [if_neg (by omega), if_neg (by omega), if_neg (by omega), if_neg (by omega),
      if_pos (by omega)]
    exact hbelow
  · obtain ⟨-, -, -, -, -, hwhole⟩ := hreplaced.ofLeft
    rw [hapart.removed_front (by omega), Extent.without_of_clear (.inr hp)]
    exact hwhole

/-- The interval begins behind the node. -/
theorem Removes.behind (h : Removes g fuel)
    (hne : ∀ e ∈ s.extents (inorder (.node p l r)), e.lba ≠ lba)
    (hfuel : (BinaryTree.node p l r).numNodes + s.mrmTreeRoot.numNodes ≤ fuel + 1)
    (hp : (s.memory p).lba + (s.memory p).length ≤ lba) :
    ∃ s', removeOverlapped g (fuel + 1) s (some p) lba len pos = .ok s' ∧
      Replaced pos path s s'
        (removed g.maxSubPage lba len (s.extents (inorder (.node p l r)))) 0 := by
  have hapart := hs.apart_subtree htree
  have hpos := hs.positive htree
  rw [inorder, extents_append, extents_cons] at hne ⊢
  rw [BinaryTree.numNodes] at hfuel
  obtain ⟨s', hbelow, hreplaced⟩ := @h.below g s (.right p l path) lba len pos fuel r htree
    (by simp) hs hlen
    (fun e he => hne e (List.mem_append_right _ (List.mem_cons_of_mem _ he))) hroom (by omega)
  refine ⟨s', ?_, ?_⟩
  · simp only [removeOverlapped, hs.rightChild htree]
    rw [if_neg (by omega), if_neg (by omega), if_neg (by omega), if_neg (by omega),
      if_neg (by omega), if_pos (by omega)]
    exact hbelow
  · obtain ⟨-, -, -, -, -, hwhole⟩ := hreplaced.ofRight
    rw [hapart.removed_behind (by omega), Extent.without_of_clear (.inl hp)]
    exact hwhole

/-- The interval has the end of the node. -/
theorem Removes.onTheRight (h : Removes g fuel)
    (hne : ∀ e ∈ s.extents (inorder (.node p l r)), e.lba ≠ lba)
    (hfuel : (BinaryTree.node p l r).numNodes + s.mrmTreeRoot.numNodes ≤ fuel + 1)
    (hfirst : (s.memory p).lba < lba) (hinside : lba < (s.memory p).lba + (s.memory p).length)
    (hlast : (s.memory p).lba + (s.memory p).length ≤ lba + len) :
    ∃ s', removeOverlapped g (fuel + 1) s (some p) lba len pos = .ok s' ∧
      Replaced pos path s s'
        (removed g.maxSubPage lba len (s.extents (inorder (.node p l r)))) 0 := by
  have hapart := hs.apart_subtree htree
  have hwhole := hs.apart_node htree
  have hpos := hs.positive htree
  rw [inorder, extents_append, extents_cons] at hne ⊢
  rw [BinaryTree.numNodes] at hfuel
  obtain ⟨s₁, hbelow, hreplaced⟩ := @h.below g s (.right p l path) lba len pos fuel r htree
    (by simp) hs hlen
    (fun e he => hne e (List.mem_append_right _ (List.mem_cons_of_mem _ he))) hroom (by omega)
  obtain ⟨r', htree₁, hr', hp₁, hl₁, h₁⟩ := hreplaced.ofRight
  have hlba₁ : (s₁.memory p).lba = (s.memory p).lba := congrArg Extent.lba hp₁
  have hlength₁ : (s₁.memory p).length = (s.memory p).length := congrArg Extent.length hp₁
  have hs₁ : s₁.Ordered := by
    refine h₁.ordered ?_
    have hmiddle := @Apart.removed_middle g.maxSubPage lba len (s.extents (inorder r))
      (s.extents path.before ++ (s.extents (inorder l) ++ [(s.memory p).toExtent]))
      (s.extents path.after) (by simpa using hwhole) hlen.le
    simpa using hmiddle
  have hroom₁ : s₁.HasRoom pos := by
    have hcount : (removed g.maxSubPage lba len (s.extents (inorder r))).length ≤
        (s.extents (inorder r)).length := by
      refine length_removed_le fun f hf => .inl ?_
      have hle := (apart_cons.mp (apart_append.mp hapart).2.1).2.2 f hf
      omega
    refine h₁.hasRoom htree hroom ?_
    simp only [inorder, List.length_append, List.length_cons, extents, List.length_map] at hcount ⊢
    omega
  obtain ⟨s₂, hinvalidate, hmemory₂, hroot₂, h₂⟩ := h₁.invalidateSupPage
    (by omega : 0 ≤ (s₁.memory p).lba + (s₁.memory p).length - lba) hroom₁ p
  have hextents₂ : ∀ ps, s₂.extents ps = s₁.extents ps := fun ps => by
    rw [extents, extents, hmemory₂]
  have hs₂ : s₂.Ordered := ⟨hroot₂ ▸ hs₁.nodup, by rw [hextents₂, hroot₂]; exact hs₁.apart⟩
  have hlength₂ : (s₂.memory p).length = (s.memory p).length := by rw [hmemory₂, hlength₁]
  have hpart : (s₂.memory p).length - ((s₁.memory p).lba + (s₁.memory p).length - lba) =
      lba - (s.memory p).lba := by omega
  -- the node is shortened
  obtain ⟨cut, hcut⟩ : ∃ cut : TreeNode, { s₂.memory p with length :=
      (s₂.memory p).length - ((s₁.memory p).lba + (s₁.memory p).length - lba) } = cut := ⟨_, rfl⟩
  have htake : cut.toExtent = (s₂.memory p).toExtent.take (lba - (s.memory p).lba) := by
    rw [← hcut, hpart]
    rfl
  have h₃ := replaced_shorten pos _ (hroot₂.trans htree₁) hs₂ htake
  refine ⟨_, ?_, ((h₂.trans h₃).changeVaildSubPageCnt
    (-((s₁.memory p).lba + (s₁.memory p).length - lba))).congr ?_ (by omega)⟩
  · simp only [removeOverlapped, hs.rightChild htree]
    rw [if_neg (by omega), if_pos (by omega), hbelow, ok_bind, hinvalidate, ok_bind, hcut]
  · rw [hapart.removed_behind hfirst.le, hextents₂, hextents₂, hl₁, hr', hmemory₂, hp₁,
      Extent.without, if_neg, if_pos hfirst, if_neg]
    · rfl
    · omega
    · unfold Extent.Clear
      omega

/-- The interval is inside of the node, and leaves a part on both sides. -/
theorem inTheMiddle (hfuel : s.mrmTreeRoot.numNodes ≤ fuel) (hfirst : (s.memory p).lba < lba)
    (hlast : lba + len < (s.memory p).lba + (s.memory p).length) :
    ∃ s', removeOverlapped g (fuel + 1) s (some p) lba len pos = .ok s' ∧
      Replaced pos path s s'
        (removed g.maxSubPage lba len (s.extents (inorder (.node p l r)))) 0 := by
  have hapart := hs.apart_subtree htree
  have hwhole := hs.apart_node htree
  have hfront : ∀ f ∈ s.extents (inorder l), 0 < f.length ∧
      f.lba + f.length ≤ (s.memory p).lba := fun f hf =>
    ⟨(apart_append.mp hapart).1.positive f hf,
      (apart_append.mp hapart).2.2 f hf _ List.mem_cons_self⟩
  have hback : ∀ f ∈ s.extents (inorder r), (s.memory p).lba + (s.memory p).length ≤ f.lba :=
    (apart_cons.mp (apart_append.mp hapart).2.1).2.2
  rw [inorder, extents_append, extents_cons]
  -- the node is shortened
  obtain ⟨cut, hcut⟩ : ∃ cut : TreeNode, { s.memory p with length := lba - (s.memory p).lba } = cut :=
    ⟨_, rfl⟩
  have htake : cut.toExtent = (s.memory p).toExtent.take (lba - (s.memory p).lba) := by
    rw [← hcut]
    rfl
  have h₁ := replaced_shorten pos _ htree hs htake
  obtain ⟨s₁, hs₁⟩ : ∃ s₁, { s with memory := Function.update s.memory p cut } = s₁ := ⟨_, rfl⟩
  have hroot₁ : s₁.mrmTreeRoot = s.mrmTreeRoot := by rw [← hs₁]
  rw [hs₁] at h₁
  have hroom₁ : s₁.HasRoom pos := h₁.hasRoom htree hroom (by simp [inorder, extents])
  obtain ⟨s₂, hinvalidate, hmemory₂, hroot₂, h₂⟩ := h₁.invalidateSupPage hlen.le hroom₁ p
  have hs₂ : s₂.Ordered := by
    refine h₂.ordered ?_
    have hshort := hwhole.take (n := lba - (s.memory p).lba) (by omega) (by omega)
    simpa using hshort
  -- what is behind the interval
  obtain ⟨rest, hrest⟩ : ∃ rest, (s.memory p).toExtent.drop g.maxSubPage
      (lba + len - (s.memory p).lba) = rest := ⟨_, rfl⟩
  have hrestLba : rest.lba = lba + len := by
    rw [← hrest, Extent.lba_drop]
    omega
  have hrestLength : rest.length = (s.memory p).lba + (s.memory p).length - (lba + len) := by
    rw [← hrest, Extent.length_drop]
    omega
  have htree₂ : s₂.mrmTreeRoot = path.fill (.node p l r) := hroot₂.trans (hroot₁.trans htree)
  have hnested : removeOverlapped g fuel s₂ s₂.root rest.lba rest.length pos = .ok s₂ := by
    refine removeOverlapped_root_clear hs₂ ?_ (fun f hf => ?_) (by omega) ?_
    · rw [htree₂]
      exact path.fill_ne_nil fun h => by cases h
    · rw [h₂.extents_eq] at hf
      simp only [List.append_assoc, List.cons_append, List.mem_append, List.mem_cons] at hf
      have hclear := fun hf => @Apart.clear_inside rest.lba rest.length _ f _ _ hwhole (by omega)
        (by omega) hf
      simp only [List.append_assoc, List.mem_append] at hclear
      rcases hf with hf | hf | rfl | hf | hf
      · exact hclear (.inl hf)
      · exact hclear (.inr (.inl hf))
      · refine .inl ?_
        rw [Extent.lba_take, Extent.length_take]
        omega
      · exact hclear (.inr (.inr (.inl hf)))
      · exact hclear (.inr (.inr (.inr hf)))
    · rw [hroot₂, hroot₁]
      exact hfuel
  have hmem : (s.memory p).toExtent ∈ s.extents (inorder (.node p l r)) :=
    mem_extents.mpr ⟨p, by simp [inorder], rfl⟩
  have hfits : s₂.Fits path rest.lba :=
    (hs.fits htree hmem (by omega)).congr h₂.before h₂.after
  have hkeys : ∀ f ∈ s.extents (inorder l) ++
      [(s.memory p).toExtent.take (lba - (s.memory p).lba)], f.lba < rest.lba := by
    intro f hf
    rcases List.mem_append.mp hf with hf | hf
    · have hle := hfront f hf
      omega
    · rw [List.mem_singleton.mp hf, Extent.lba_take]
      omega
  obtain ⟨s₃, hinsert, h₃⟩ := @replaced_insertNode s₂ path _ rest
    (s.extents (inorder l) ++ [(s.memory p).toExtent.take (lba - (s.memory p).lba)])
    (s.extents (inorder r)) pos htree₂ hs₂ hfits
    (by rw [h₂.extents_place htree₂]; simp) hkeys (fun f hf => by
      have hle := hback f hf
      omega) (by omega) (s.memory p).cacheStatus
  refine ⟨_, ?_, ((h₂.trans h₃).changeVaildSubPageCnt (-len)).congr ?_ (by omega)⟩
  · simp only [removeOverlapped]
    rw [if_neg (by omega), if_neg (by omega), if_pos (by omega), hcut, hs₁, hinvalidate, ok_bind,
      hrest, hnested, ok_bind, hinsert, ok_bind]
  · rw [hapart.removed_front (by omega), removed_of_clear (fun f hf => .inl (by
      have hle := hfront f hf
      omega)), Extent.without, if_neg, if_pos hfirst, if_pos hlast, hrest]
    · simp
    · unfold Extent.Clear
      omega

/-- The node is inside of the interval, which goes on behind it. -/
theorem Removes.around (h : Removes g fuel)
    (hne : ∀ e ∈ s.extents (inorder (.node p l r)), e.lba ≠ lba)
    (hfuel : (BinaryTree.node p l r).numNodes + s.mrmTreeRoot.numNodes ≤ fuel + 1)
    (hfirst : lba < (s.memory p).lba)
    (hlast : (s.memory p).lba + (s.memory p).length < lba + len) :
    ∃ s', removeOverlapped g (fuel + 1) s (some p) lba len pos = .ok s' ∧
      Replaced pos path s s'
        (removed g.maxSubPage lba len (s.extents (inorder (.node p l r)))) 0 := by
  have hapart := hs.apart_subtree htree
  have hwhole := hs.apart_node htree
  have hpos := hs.positive htree
  rw [inorder, extents_append, extents_cons] at hne ⊢
  rw [BinaryTree.numNodes] at hfuel
  -- the right child
  obtain ⟨s₁, hright, hreplaced⟩ := @h.below g s (.right p l path) lba len pos fuel r htree
    (by simp) hs hlen
    (fun e he => hne e (List.mem_append_right _ (List.mem_cons_of_mem _ he))) hroom (by omega)
  obtain ⟨r', htree₁, hr', hp₁, hl₁, h₁⟩ := hreplaced.ofRight
  have hs₁ : s₁.Ordered := by
    refine h₁.ordered ?_
    have hmiddle := @Apart.removed_middle g.maxSubPage lba len (s.extents (inorder r))
      (s.extents path.before ++ (s.extents (inorder l) ++ [(s.memory p).toExtent]))
      (s.extents path.after) (by simpa using hwhole) hlen.le
    simpa using hmiddle
  have hcount : (removed g.maxSubPage lba len (s.extents (inorder r))).length ≤
      (inorder r).length := by
    refine (length_removed_le fun f hf => .inl ?_).trans (by simp [extents])
    have hle := (apart_cons.mp (apart_append.mp hapart).2.1).2.2 f hf
    omega
  have hroom₁ : s₁.HasRoom pos := by
    refine h₁.hasRoom htree hroom ?_
    simp only [inorder, List.length_append, List.length_cons, extents, List.length_map] at hcount ⊢
    omega
  have hnodes₁ : s₁.mrmTreeRoot.numNodes ≤ s.mrmTreeRoot.numNodes := by
    have hnodes := h₁.numNodes htree
    simp only [inorder, List.length_append, List.length_cons, extents, List.length_map]
      at hcount hnodes
    omega
  -- the left child
  obtain ⟨s₂, hleft, hreplaced₂⟩ := @h.below g s₁ (.left p r' path) lba len pos fuel l htree₁
    (by simp) hs₁ hlen
    (fun e he => hne e (List.mem_append_left _ (hl₁ ▸ he))) hroom₁ (by omega)
  obtain ⟨l', htree₂, hl', hp₂, hr'', h₂⟩ := hreplaced₂.ofLeft
  rw [hl₁] at hl' h₂
  rw [hr'] at hr'' h₂
  rw [hp₁] at hp₂ h₂
  have h₁₂ := h₁.trans h₂
  have hs₂ : s₂.Ordered := by
    refine h₁₂.ordered ?_
    have hmiddle := @Apart.removed_middle g.maxSubPage lba len (s.extents (inorder l))
      (s.extents path.before) ((s.memory p).toExtent ::
        (removed g.maxSubPage lba len (s.extents (inorder r)) ++ s.extents path.after))
      (by
        have hbefore := hs₁.apart
        rw [h₁.extents_eq] at hbefore
        simpa using hbefore) hlen.le
    simpa using hmiddle
  have hcount' : (removed g.maxSubPage lba len (s.extents (inorder l))).length ≤
      (inorder l).length := by
    refine (length_removed_le fun f hf => .inr ?_).trans (by simp [extents])
    have hle := (apart_append.mp hapart).2.2 f hf _ List.mem_cons_self
    omega
  have hroom₂ : s₂.HasRoom pos := by
    refine h₁₂.hasRoom htree hroom ?_
    simp only [inorder, List.length_append, List.length_cons, extents] at hcount hcount' ⊢
    omega
  have hlba₂ : (s₂.memory p).lba = (s.memory p).lba := congrArg Extent.lba hp₂
  have hlength₂ : (s₂.memory p).length = (s.memory p).length := congrArg Extent.length hp₂
  -- the node itself
  obtain ⟨s₃, hinvalidate, h₃⟩ := replaced_retire (-(s₂.memory p).length)
    (by omega : 0 ≤ (s₂.memory p).length) hroom₂ htree₂ hs₂
  refine ⟨_, ?_, (h₁₂.trans h₃).congr ?_ (by omega)⟩
  · simp only [removeOverlapped, hs.rightChild htree]
    rw [if_neg (by omega), if_neg (by omega), if_neg (by omega), if_pos (by omega), hright, ok_bind,
      hs₁.leftChild htree₁, hleft, ok_bind, hinvalidate, ok_bind]
  · rw [hl', hr'', removed_append, removed_cons, Extent.without, if_neg, if_neg (by omega),
      if_neg (by omega)]
    · rfl
    · unfold Extent.Clear
      omega

/-- The interval has the beginning of the node. -/
theorem Removes.onTheLeft (h : Removes g fuel)
    (hne : ∀ e ∈ s.extents (inorder (.node p l r)), e.lba ≠ lba)
    (hfuel : (BinaryTree.node p l r).numNodes + s.mrmTreeRoot.numNodes ≤ fuel + 1)
    (hsafe : path = .root → ¬ s.Empties lba len)
    (hfirst : lba < (s.memory p).lba) (hinside : (s.memory p).lba < lba + len)
    (hlast : lba + len ≤ (s.memory p).lba + (s.memory p).length) :
    ∃ s', removeOverlapped g (fuel + 1) s (some p) lba len pos = .ok s' ∧
      Replaced pos path s s'
        (removed g.maxSubPage lba len (s.extents (inorder (.node p l r)))) 0 := by
  have hapart := hs.apart_subtree htree
  have hwhole := hs.apart_node htree
  have hpos := hs.positive htree
  rw [inorder, extents_append, extents_cons] at hne ⊢
  rw [BinaryTree.numNodes] at hfuel
  -- the left child
  obtain ⟨s₁, hleft, hreplaced⟩ := @h.below g s (.left p r path) lba len pos fuel l htree
    (by simp) hs hlen (fun e he => hne e (List.mem_append_left _ he)) hroom (by omega)
  obtain ⟨l', htree₁, hl', hp₁, hr₁, h₁⟩ := hreplaced.ofLeft
  have hwhole₁ : Apart ((s.extents path.before ++ removed g.maxSubPage lba len
      (s.extents (inorder l))) ++ (s.memory p).toExtent ::
        (s.extents (inorder r) ++ s.extents path.after)) := by
    have hmiddle := @Apart.removed_middle g.maxSubPage lba len (s.extents (inorder l))
      (s.extents path.before) ((s.memory p).toExtent ::
        (s.extents (inorder r) ++ s.extents path.after)) (by simpa using hwhole) hlen.le
    simpa using hmiddle
  have hs₁ : s₁.Ordered := h₁.ordered (by simpa using hwhole₁)
  have hcount : (removed g.maxSubPage lba len (s.extents (inorder l))).length ≤
      (inorder l).length := by
    refine (length_removed_le fun f hf => .inr ?_).trans (by simp [extents])
    have hle := (apart_append.mp hapart).2.2 f hf _ List.mem_cons_self
    omega
  have hroom₁ : s₁.HasRoom pos := by
    refine h₁.hasRoom htree hroom ?_
    simp only [inorder, List.length_append, List.length_cons, extents, List.length_map] at hcount ⊢
    omega
  have hlba₁ : (s₁.memory p).lba = (s.memory p).lba := congrArg Extent.lba hp₁
  have hlength₁ : (s₁.memory p).length = (s.memory p).length := congrArg Extent.length hp₁
  -- the node itself
  obtain ⟨s₂, hinvalidate, h₂⟩ := replaced_retire (-(lba + len - (s₁.memory p).lba))
    (by omega : 0 ≤ lba + len - (s₁.memory p).lba) hroom₁ htree₁ hs₁
  obtain ⟨s₃, hs₃⟩ : ∃ s₃, ((s₂.changeVaildSubPageCnt (-(lba + len - (s₁.memory p).lba))).uncache
    p).deleteNode (s₁.memory p).lba = s₃ := ⟨_, rfl⟩
  rw [hs₃, hl', hr₁] at h₂
  have h₁₂ := h₁.trans h₂
  obtain ⟨rest, hrest⟩ : ∃ rest, (s₁.memory p).toExtent.drop g.maxSubPage
      (lba + len - (s₁.memory p).lba) = rest := ⟨_, rfl⟩
  have hrestLba : rest.lba = lba + len := by
    rw [← hrest, Extent.lba_drop]
    omega
  have hrestLength : rest.length = (s.memory p).lba + (s.memory p).length - (lba + len) := by
    rw [← hrest, Extent.length_drop]
    omega
  have hstep : removeOverlapped g (fuel + 1) s (some p) lba len pos =
      if 0 < rest.length then do
        let s ← removeOverlapped g fuel s₃ s₃.root rest.lba rest.length pos
        s.insertNode rest (s₁.memory p).cacheStatus
      else .ok s₃ := by
    simp only [removeOverlapped, hs.leftChild htree]
    rw [if_pos (by omega), hleft, ok_bind, hinvalidate, ok_bind, hs₃, hrest]
  have hlist : removed g.maxSubPage lba len (s.extents (inorder l) ++ (s.memory p).toExtent ::
      s.extents (inorder r)) = removed g.maxSubPage lba len (s.extents (inorder l)) ++
        ((if 0 < rest.length then [rest] else []) ++ s.extents (inorder r)) := by
    have hclear : ¬ (s.memory p).toExtent.Clear lba len := by
      unfold Extent.Clear
      omega
    rw [hapart.removed_front hlast, Extent.without, if_neg hclear, if_neg (by omega)]
    by_cases hmore : 0 < rest.length
    · rw [if_pos hmore, if_pos (by omega), ← hrest, hp₁]
      rfl
    · rw [if_neg hmore, if_neg (by omega)]
      rfl
  rw [hstep, hlist]
  by_cases hmore : 0 < rest.length
  · rw [if_pos hmore, if_pos hmore]
    -- the tree is not empty, and has nothing where the rest is inserted
    have hs₃' : s₃.Ordered := h₁₂.ordered (by simpa using hwhole₁.erase)
    obtain ⟨t₃, htree₃, hplace₃⟩ := h₁₂.place
    have hnonempty : s₃.mrmTreeRoot ≠ .nil := by
      intro hnil
      have hroot : path = .root := by
        by_contra hne
        exact TreePath.fill_ne_nil_of_ne_root t₃ hne (htree₃ ▸ hnil)
      subst hroot
      rw [show t₃ = .nil from htree₃.symm.trans hnil] at hplace₃
      obtain ⟨hl, hr⟩ := List.append_eq_nil_iff.mp hplace₃.symm
      have hleaf : r = .nil := inorder_eq_nil.mp (List.map_eq_nil_iff.mp hr)
      refine hsafe rfl ⟨p, l, by rw [htree, hleaf]; rfl, hfirst, hinside, by omega, fun e he => ?_⟩
      exact le_lba_of_removed_eq_nil hl he
    have hnested : removeOverlapped g fuel s₃ s₃.root rest.lba rest.length pos = .ok s₃ := by
      refine removeOverlapped_root_clear hs₃' hnonempty (fun f hf => ?_) hmore ?_
      · rw [h₁₂.extents_eq, List.append_assoc, ← List.append_assoc] at hf
        exact hwhole₁.clear_inside (by omega) (by omega) hf
      · have hnodes := h₁₂.numNodes htree
        simp only [inorder, List.length_append, List.length_cons, extents, List.length_map]
          at hcount hnodes
        omega
    have hmem : (s.memory p).toExtent ∈ s.extents (inorder (.node p l r)) :=
      mem_extents.mpr ⟨p, by simp [inorder], rfl⟩
    have hfits : s₃.Fits path rest.lba :=
      (hs.fits htree hmem (by omega)).congr h₁₂.before h₁₂.after
    obtain ⟨s₄, hinsert, h₄⟩ := replaced_insertNode pos htree₃ hs₃' hfits hplace₃
      (fun f hf => by
        have hle := (apart_append.mp hwhole₁).2.2 f (List.mem_append_right _ hf) _ List.mem_cons_self
        have hpos' := (apart_append.mp hwhole₁).1.positive f (List.mem_append_right _ hf)
        omega)
      (fun f hf => by
        have hle := (apart_cons.mp (apart_append.mp hapart).2.1).2.2 f hf
        omega) hmore (s₁.memory p).cacheStatus
    refine ⟨s₄, ?_, (h₁₂.trans h₄).congr rfl (by omega)⟩
    rw [hnested, ok_bind, hinsert]
  · rw [if_neg hmore, if_neg hmore]
    exact ⟨s₃, rfl, h₁₂.congr rfl (by omega)⟩

end Cases

/-- With enough steps, the extents of the subtree are left without the interval. -/
theorem removes (g : FlashSize) (fuel : Nat) : Removes g fuel := by
  induction fuel with
  | zero =>
    intro s path p l r lba len pos _ _ _ _ _ hfuel _
    simp [BinaryTree.numNodes] at hfuel
  | succ fuel ih =>
    intro s path p l r lba len pos htree hs hlen hne hroom hfuel hsafe
    have hlba : (s.memory p).lba ≠ lba := hne _ (mem_extents.mpr ⟨p, by simp [inorder], rfl⟩)
    rcases le_or_gt (lba + len) (s.memory p).lba with hfront | hfront
    · exact ih.inFront htree hs hlen hroom hne hfuel hfront
    rcases le_or_gt ((s.memory p).lba + (s.memory p).length) lba with hbehind | hbehind
    · exact ih.behind htree hs hlen hroom hne hfuel hbehind
    rcases lt_or_gt_of_ne hlba with hfirst | hfirst
    · rcases le_or_gt ((s.memory p).lba + (s.memory p).length) (lba + len) with hlast | hlast
      · exact ih.onTheRight htree hs hlen hroom hne hfuel hfirst hbehind hlast
      · refine inTheMiddle htree hs hlen hroom ?_ hfirst hlast
        simp only [BinaryTree.numNodes] at hfuel
        omega
    · rcases le_or_gt (lba + len) ((s.memory p).lba + (s.memory p).length) with hlast | hlast
      · exact ih.onTheLeft htree hs hlen hroom hne hfuel hsafe hfirst hfront hlast
      · exact ih.around htree hs hlen hroom hne hfuel hfirst hlast

end WiscKey.Beyond.VirtualRegion
