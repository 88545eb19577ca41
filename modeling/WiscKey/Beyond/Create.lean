import WiscKey.Beyond.Overlap

/-!
# A write to the tree

`CreateMrMNode` removes the interval of a call from the tree and inserts the interval with its new
place. On the way it deletes nodes, and goes on from the root: there must be one.
-/

namespace WiscKey.Beyond

namespace VirtualRegion

variable {g : FlashSize} {s s' : VirtualRegion} {c : Call} {path : TreePath Pointer}
  {t l r : BinaryTree Pointer} {p q : Pointer} {lba len pos : Int}
  {memory : Pointer → TreeNode}

section Find

theorem find_some (h : find memory lba t = some q) : q ∈ inorder t ∧ (memory q).lba = lba := by
  induction t with
  | nil => cases h
  | node p l r ihl ihr =>
    rw [find] at h
    rw [inorder]
    split at h
    · obtain ⟨hq, hlba⟩ := ihr h
      exact ⟨List.mem_append_right _ (List.mem_cons_of_mem _ hq), hlba⟩
    · split at h
      · obtain ⟨hq, hlba⟩ := ihl h
        exact ⟨List.mem_append_left _ hq, hlba⟩
      · obtain rfl := Option.some.inj h
        exact ⟨List.mem_append_right _ List.mem_cons_self, by omega⟩

theorem find_none (hsorted : (inorder t).Pairwise fun p q => (memory p).lba < (memory q).lba)
    (h : find memory lba t = none) : ∀ q ∈ inorder t, (memory q).lba ≠ lba := by
  induction t with
  | nil => exact fun q hq => absurd hq List.not_mem_nil
  | node p l r ihl ihr =>
    rw [inorder] at hsorted ⊢
    obtain ⟨hl, hpr, hcross⟩ := List.pairwise_append.mp hsorted
    obtain ⟨hp, hr⟩ := List.pairwise_cons.mp hpr
    intro q hq
    rw [find] at h
    split at h
    · rename_i hlt
      rcases List.mem_append.mp hq with hq | hq
      · have hqp := hcross q hq p List.mem_cons_self
        omega
      · rcases List.mem_cons.mp hq with rfl | hq
        · omega
        · exact ihr hr h q hq
    · split at h
      · rename_i hgt
        rcases List.mem_append.mp hq with hq | hq
        · exact ihl hl h q hq
        · rcases List.mem_cons.mp hq with rfl | hq
          · omega
          · have hpq := hp q hq
            omega
      · cases h

end Find

/-- The removal from a tree that is not empty. -/
theorem removeFromRoot_spec (hs : s.Ordered) (hne : s.mrmTreeRoot ≠ .nil) (hlen : 0 < len)
    (hlba : ∀ e ∈ s.extents (inorder s.mrmTreeRoot), e.lba ≠ lba) (hroom : s.HasRoom pos)
    (hsafe : ¬ s.Empties lba len) : ∃ s', s.removeFromRoot g lba len pos = .ok s' ∧
      Replaced pos .root s s'
        (removed g.maxSubPage lba len (s.extents (inorder s.mrmTreeRoot))) 0 := by
  cases htree : s.mrmTreeRoot with
  | nil => exact absurd htree hne
  | node p l r =>
    rw [htree] at hlba
    rw [removeFromRoot, root, htree]
    refine removes g s.fuel s .root p l r lba len pos htree hs hlen hlba hroom ?_ fun _ => hsafe
    rw [fuel, htree]
    omega

/-- Where nothing is to be removed. -/
theorem removeFromRoot_clear (hs : s.Ordered) (hne : s.mrmTreeRoot ≠ .nil) (hlen : 0 < len)
    (hclear : ∀ e ∈ s.extents (inorder s.mrmTreeRoot), e.Clear lba len) :
    s.removeFromRoot g lba len pos = .ok s := by
  refine removeOverlapped_root_clear hs hne hclear hlen ?_
  rw [fuel]
  omega

end VirtualRegion

/-- A call that passes the checks of its arguments, and is to look for overlaps. -/
structure Call.Accepted (g : FlashSize) (c : Call) : Prop where
  positive : 1 ≤ c.extent.length
  checked : c.skipChecking = false
  span : c.extent.pageAddr + c.extent.length.tdiv g.maxSubPage ≤ g.maxPage
  pageAddr : 0 ≤ c.extent.pageAddr ∧ c.extent.pageAddr ≤ 256
  subPageOff : 0 ≤ c.extent.subPageOff ∧ c.extent.subPageOff ≤ 32

namespace VirtualRegion

variable {g : FlashSize} {s s' : VirtualRegion} {c : Call} {path : TreePath Pointer}
  {t l r : BinaryTree Pointer} {p : Pointer} {lba len pos : Int}

/-- The extent of a call is in the tree, between what is left of the others. -/
def Written (g : FlashSize) (c : Call) (s s' : VirtualRegion) : Prop :=
  ∃ xs ys, xs ++ ys = removed g.maxSubPage c.extent.lba c.extent.length
      (s.extents (inorder s.mrmTreeRoot)) ∧ Apart (xs ++ c.extent :: ys) ∧
    Replaced c.lruPos .root s s' (xs ++ c.extent :: ys) 0

/-- Insertion of the extent of a call, after its interval was removed. -/
theorem written_insertNode (hs : s.Ordered) (hlen : 0 < c.extent.length)
    (h : Replaced c.lruPos .root s s' (removed g.maxSubPage c.extent.lba c.extent.length
      (s.extents (inorder s.mrmTreeRoot))) 0) :
    ∃ s'', s'.insertNode c.extent c.allCached = .ok s'' ∧
      Written g c s (s''.changeVaildSubPageCnt c.extent.length) := by
  have hapart := @Apart.removed g.maxSubPage c.extent.lba c.extent.length _ hs.apart hlen.le
  have hs' : s'.Ordered := h.ordered (by simpa [TreePath.before, TreePath.after] using hapart)
  obtain ⟨xs, ys, hsplit, hxs, hys⟩ := hapart.split fun e he => hs.apart.clear_of_mem_removed he
  have hpos : ∀ f ∈ xs, 0 < f.length := fun f hf =>
    hapart.positive f (hsplit ▸ List.mem_append_left _ hf)
  obtain ⟨s'', hinsert, hinserted⟩ := @replaced_insertNode s' .root s'.mrmTreeRoot c.extent xs ys
    c.lruPos rfl hs' ⟨by simp [TreePath.before], by simp [TreePath.after]⟩
    ((h.extents_place rfl).trans hsplit)
    (fun f hf => by
      have hle := hxs f hf
      have hlt := hpos f hf
      omega)
    (fun f hf => by
      have hle := hys f hf
      omega) hlen c.allCached
  refine ⟨s'', hinsert, xs, ys, hsplit.symm, ?_,
    ((h.trans hinserted).changeVaildSubPageCnt _).congr rfl (by omega)⟩
  rw [hsplit] at hapart
  obtain ⟨hxsA, hysA, -⟩ := apart_append.mp hapart
  refine apart_append.mpr ⟨hxsA, apart_cons.mpr ⟨hlen, hysA, hys⟩, fun f hf y hy => ?_⟩
  rcases List.mem_cons.mp hy with rfl | hy
  · exact hxs f hf
  · have hle := hxs f hf
    have hle' := hys y hy
    omega

/-- No node begins in front of the interval, and the removal leaves none: the root is the last node
and the interval has its beginning only, or the interval begins with the root and has all nodes. -/
def TakesAll (s : VirtualRegion) (lba len : Int) : Prop :=
  ∃ p l r, s.mrmTreeRoot = .node p l r ∧
    (∀ e ∈ s.extents (inorder s.mrmTreeRoot), lba ≤ e.lba) ∧
    (r = .nil ∧ (s.memory p).lba < lba + len ∧
        lba + len < (s.memory p).lba + (s.memory p).length ∨
      (s.memory p).lba = lba ∧ len ≠ (s.memory p).length ∧
        ∀ e ∈ s.extents (inorder s.mrmTreeRoot), e.lba + e.length ≤ lba + len)

theorem Empties.takesAll (h : s.Empties lba len) : s.TakesAll lba len := by
  obtain ⟨p, l, htree, hlt, hfirst, hlast, hl⟩ := h
  refine ⟨p, l, .nil, htree, fun e he => ?_, .inl ⟨rfl, hfirst, hlast⟩⟩
  rw [htree, inorder, extents_append, extents_cons] at he
  rcases List.mem_append.mp he with he | he
  · exact hl e he
  · obtain rfl := List.mem_singleton.mp he
    exact hlt.le

@[simp] theorem changeVaildSubPageCnt_zero : s.changeVaildSubPageCnt 0 = s := by
  simp [changeVaildSubPageCnt]

/-- A tree that is empty after a change at a place was changed at the root. -/
theorem Replaced.root_of_nil {xs : List Extent} {d : Int} (h : Replaced pos path s s' xs d)
    (hnil : s'.mrmTreeRoot = .nil) : path = .root ∧ xs = [] := by
  obtain ⟨t, htree, hxs⟩ := h.place
  have hroot : path = .root := by
    by_contra hne
    exact TreePath.fill_ne_nil_of_ne_root t hne (htree ▸ hnil)
  subst hroot
  rw [show t = .nil from htree.symm.trans hnil] at hxs
  exact ⟨rfl, hxs.symm⟩

theorem inorder_eq_nil_of_extents (h : s.extents (inorder t) = []) : t = .nil :=
  inorder_eq_nil.mp (List.map_eq_nil_iff.mp h)

section Found

variable (htree : s.mrmTreeRoot = path.fill (.node p l r)) (hs : s.Ordered)
  (hlen : 0 < c.extent.length) (hroom : s.HasRoom c.lruPos)
  (hlba : (s.memory p).lba = c.extent.lba)

include htree hs

omit hs in
/-- All extents of the tree, around one of them. -/
theorem extents_around : s.extents (inorder s.mrmTreeRoot) =
    (s.extents path.before ++ s.extents (inorder l)) ++
      (s.memory p).toExtent :: (s.extents (inorder r) ++ s.extents path.after) := by
  rw [htree, extents_fill, inorder, extents_append, extents_cons]
  simp

include hlba

/-- The extent of a call takes the place of one with the same LBAs. -/
theorem written_same (hpos : 0 < c.extent.length) (hroom : s.HasRoom c.lruPos)
    (hlength : c.extent.length = (s.memory p).length) :
    ∃ s₁, s.invalidateSupPage c.extent.length p c.lruPos = .ok s₁ ∧ s₁.memory = s.memory ∧
      ∀ node : TreeNode, node.toExtent = c.extent →
        Written g c s { s₁ with memory := Function.update s₁.memory p node } := by
  obtain ⟨s₁, hinvalidate, hmemory, hroot, h₁⟩ :=
    (replaced_refl c.lruPos htree hs).invalidateSupPage hpos.le hroom p
  refine ⟨s₁, hinvalidate, hmemory, fun node hnode => ?_⟩
  have hextents₁ : ∀ ps, s₁.extents ps = s.extents ps := fun ps => by
    rw [extents, extents, hmemory]
  have hs₁ : s₁.Ordered := ⟨hroot ▸ hs.nodup, by rw [hextents₁, hroot]; exact hs.apart⟩
  have h₂ := replaced_update c.lruPos (hroot.trans htree) hs₁ hnode
  have hwhole := hs.apart_node htree
  refine ⟨s.extents path.before ++ s.extents (inorder l),
    s.extents (inorder r) ++ s.extents path.after, ?_, ?_, (h₁.trans h₂).whole.congr ?_ ?_⟩
  · rw [extents_around htree, hwhole.removed_inside (by omega) (by omega), Extent.without, if_neg,
      if_neg (by omega), if_neg (by omega)]
    · rfl
    · unfold Extent.Clear
      omega
  · obtain ⟨hfront, hrest, hcross⟩ := apart_append.mp hwhole
    obtain ⟨-, hback, hbehind⟩ := apart_cons.mp hrest
    refine apart_append.mpr ⟨hfront, apart_cons.mpr ⟨hpos, hback, fun f hf => ?_⟩,
      fun f hf y hy => ?_⟩
    · have hle := hbehind f hf
      omega
    · rcases List.mem_cons.mp hy with rfl | hy
      · have hle := hcross f hf _ List.mem_cons_self
        omega
      · exact hcross f hf y (List.mem_cons_of_mem _ hy)
  · rw [hextents₁, hextents₁]
    simp
  · rw [hmemory]
    omega

/-- The extent of a call is shorter than the one with its first LBA, of which a rest is left. -/
theorem written_shorter (hpos : 0 < c.extent.length) (hroom : s.HasRoom c.lruPos)
    (hlength : c.extent.length < (s.memory p).length)
    (hsafe : ¬ s.TakesAll c.extent.lba c.extent.length) {rest : Extent}
    (hrest : (s.memory p).toExtent.drop g.maxSubPage c.extent.length = rest) (status : Bool) :
    ∃ s₁ s₂ s₃ s₄, s.invalidateSupPage c.extent.length p c.lruPos = .ok s₁ ∧
      ((s₁.uncache p).deleteNode (s.memory p).lba).changeVaildSubPageCnt (-c.extent.length) = s₂ ∧
      s₂.removeFromRoot g rest.lba rest.length c.lruPos = .ok s₂ ∧
      s₂.insertNode rest status = .ok s₃ ∧
      s₃.removeFromRoot g c.extent.lba c.extent.length c.lruPos = .ok s₃ ∧
      s₃.insertNode c.extent c.allCached = .ok s₄ ∧
      Written g c s (s₄.changeVaildSubPageCnt c.extent.length) := by
  have hwhole := hs.apart_node htree
  have hapart := hs.apart_subtree htree
  have hrestLba : rest.lba = c.extent.lba + c.extent.length := by
    rw [← hrest, Extent.lba_drop, hlba]
  have hrestLength : rest.length = (s.memory p).length - c.extent.length := by
    rw [← hrest, Extent.length_drop]
  -- the node is deleted
  obtain ⟨s₁, hinvalidate, h₁⟩ := replaced_retire 0 hpos.le hroom htree hs
  rw [changeVaildSubPageCnt_zero] at h₁
  have h₂ := h₁.changeVaildSubPageCnt (-c.extent.length)
  obtain ⟨s₂, hs₂⟩ : ∃ s₂, ((s₁.uncache p).deleteNode (s.memory p).lba).changeVaildSubPageCnt
    (-c.extent.length) = s₂ := ⟨_, rfl⟩
  rw [hs₂] at h₂
  have hordered₂ : s₂.Ordered := h₂.ordered (by simpa using hwhole.erase)
  have hne₂ : s₂.mrmTreeRoot ≠ .nil := by
    intro hnil
    obtain ⟨rfl, hempty⟩ := h₂.root_of_nil hnil
    obtain ⟨hl, hr⟩ := List.append_eq_nil_iff.mp hempty
    obtain rfl := inorder_eq_nil_of_extents hl
    obtain rfl := inorder_eq_nil_of_extents hr
    refine hsafe ⟨p, .nil, .nil, htree, fun e he => ?_, .inl ⟨rfl, by omega, by omega⟩⟩
    rw [htree] at he
    obtain rfl := List.mem_singleton.mp he
    exact hlba.ge
  -- the rest is inserted
  have hclear₂ : ∀ e ∈ s₂.extents (inorder s₂.mrmTreeRoot), e.Clear rest.lba rest.length := by
    intro e he
    rw [h₂.extents_eq, List.append_assoc, ← List.append_assoc] at he
    exact hwhole.clear_inside (by omega) (by omega) he
  obtain ⟨t₂, htree₂, hplace₂⟩ := h₂.place
  have hmem : (s.memory p).toExtent ∈ s.extents (inorder (.node p l r)) :=
    mem_extents.mpr ⟨p, by simp [inorder], rfl⟩
  have hfits : s₂.Fits path rest.lba :=
    (hs.fits htree hmem (by omega)).congr h₂.before h₂.after
  obtain ⟨s₃, hinsert, hinserted⟩ := replaced_insertNode c.lruPos htree₂ hordered₂ hfits hplace₂
    (fun f hf => by
      have hle := (apart_append.mp hapart).2.2 f hf _ List.mem_cons_self
      have hlt := (apart_append.mp hapart).1.positive f hf
      omega)
    (fun f hf => by
      have hle := (apart_cons.mp (apart_append.mp hapart).2.1).2.2 f hf
      omega) (by omega) status
  -- the tree is without the interval of the call
  have h₃ : Replaced c.lruPos .root s s₃ (removed g.maxSubPage c.extent.lba c.extent.length
      (s.extents (inorder s.mrmTreeRoot))) 0 := by
    refine (h₂.trans hinserted).whole.congr ?_ (by omega)
    rw [extents_around htree, hwhole.removed_inside (by omega) (by omega), Extent.without, if_neg,
      if_neg (by omega), if_pos (by omega), ← hrest, hlba]
    · simp
    · unfold Extent.Clear
      omega
  have hapart₃ := @Apart.removed g.maxSubPage c.extent.lba c.extent.length _ hs.apart hpos.le
  have hordered₃ : s₃.Ordered :=
    h₃.ordered (by simpa [TreePath.before, TreePath.after] using hapart₃)
  have hne₃ : s₃.mrmTreeRoot ≠ .nil := by
    intro hnil
    obtain ⟨-, hempty⟩ := (h₂.trans hinserted).root_of_nil hnil
    exact absurd hempty (by simp)
  have hclear₃ : ∀ e ∈ s₃.extents (inorder s₃.mrmTreeRoot),
      e.Clear c.extent.lba c.extent.length := by
    intro e he
    rw [h₃.extents_place rfl] at he
    exact hs.apart.clear_of_mem_removed he
  obtain ⟨s₄, hinsert₄, hwritten⟩ := written_insertNode hs hpos h₃
  exact ⟨s₁, s₂, s₃, s₄, hinvalidate, hs₂,
    removeFromRoot_clear hordered₂ hne₂ (by omega) hclear₂, hinsert,
    removeFromRoot_clear hordered₃ hne₃ hpos hclear₃, hinsert₄, hwritten⟩

/-- After the removal behind a node and of the node itself, a tree in which the last removal takes
all nodes comes from one in which the call does. -/
theorem takesAll_of_empties {d : Int} (h : Replaced pos path s s'
      (s.extents (inorder l) ++ removed g.maxSubPage c.extent.lba c.extent.length
        (s.extents (inorder r))) d) (hempties : s'.Empties c.extent.lba c.extent.length) :
    s.TakesAll c.extent.lba c.extent.length := by
  have hwhole := hs.apart_node htree
  have hapart := hs.apart_subtree htree
  obtain ⟨hfront, hrest, hcross⟩ := apart_append.mp hwhole
  obtain ⟨hnodePos, -, hbehind⟩ := apart_cons.mp hrest
  have hall := h.extents_eq
  obtain ⟨q, l', htree', hlt, hfirst, hlast, hl'⟩ := hempties
  have hq : (s'.memory q).toExtent ∈ s'.extents (inorder s'.mrmTreeRoot) :=
    mem_extents.mpr ⟨q, by simp [htree', inorder], rfl⟩
  have hbegin : ∀ f ∈ s'.extents (inorder s'.mrmTreeRoot), c.extent.lba ≤ f.lba := by
    intro f hf
    rw [htree', inorder, extents_append, extents_cons] at hf
    rcases List.mem_append.mp hf with hf | hf
    · exact hl' f hf
    · obtain rfl := List.mem_singleton.mp hf
      exact hlt.le
  have hnotFront : ∀ f ∈ s.extents path.before ++ s.extents (inorder l),
      f.lba ≠ (s'.memory q).lba := by
    intro f hf
    have hle := hcross f hf _ List.mem_cons_self
    have hlen := hfront.positive f hf
    omega
  by_cases hroot : path = .root
  · -- what is left of the right subtree is clear of the interval
    subst hroot
    rw [hall] at hq
    simp only [TreePath.before, TreePath.after, extents_nil, List.nil_append, List.append_nil]
      at hq hnotFront
    rcases List.mem_append.mp hq with hq | hq
    · exact absurd rfl (hnotFront _ hq)
    · have hr := (apart_cons.mp (apart_append.mp hapart).2.1).2.1
      rcases hr.clear_of_mem_removed hq with hclear | hclear
      · omega
      · omega
  · obtain ⟨a, parent, t, ⟨ha, hfill⟩ | ⟨ha, hfill⟩⟩ := TreePath.fill_of_ne_root hroot
    · -- the root is behind the node, and is the last node before the removal too
      obtain ⟨t', hplace, -⟩ := h.place
      rw [htree', hfill] at hplace
      obtain ⟨rfl, -, rfl⟩ := BinaryTree.node.inj hplace
      have hsame : (s'.memory q).toExtent = (s.memory q).toExtent :=
        List.map_inj_left.mp h.after q ha
      have hlbaEq : (s'.memory q).lba = (s.memory q).lba := congrArg Extent.lba hsame
      have hlengthEq : (s'.memory q).length = (s.memory q).length := congrArg Extent.length hsame
      refine ⟨q, _, .nil, htree.trans (hfill _), fun f hf => ?_,
        .inl ⟨rfl, by omega, by omega⟩⟩
      rw [extents_around htree] at hf
      rcases List.mem_append.mp hf with hf | hf
      · refine hbegin f ?_
        rw [hall]
        simp only [List.mem_append] at hf ⊢
        tauto
      · rcases List.mem_cons.mp hf with rfl | hf
        · exact hlba.ge
        · have hle := hbehind f hf
          omega
    · -- the root is in front of the node
      obtain ⟨t', hplace, -⟩ := h.place
      rw [htree', hfill] at hplace
      obtain ⟨rfl, -, -⟩ := BinaryTree.node.inj hplace
      have hsame : (s'.memory q).toExtent = (s.memory q).toExtent :=
        List.map_inj_left.mp h.before q ha
      refine absurd (congrArg Extent.lba hsame).symm (hnotFront _ (List.mem_append_left _ ?_))
      exact mem_extents.mpr ⟨q, ha, rfl⟩

/-- The extent of a call is longer than the one with its first LBA. -/
theorem written_longer (hpos : 0 < c.extent.length) (hroom : s.HasRoom c.lruPos)
    (hlength : (s.memory p).length < c.extent.length)
    (hsafe : ¬ s.TakesAll c.extent.lba c.extent.length) :
    ∃ s₁ s₂ s₃ s₄, ifNotNull (s.rightChild p) s (fun right => removeOverlapped g s.fuel s
        (some right) c.extent.lba c.extent.length c.lruPos) = .ok s₁ ∧
      s₁.invalidateSupPage (s₁.memory p).length p c.lruPos = .ok s₂ ∧
      (((s₂.changeVaildSubPageCnt (-(s₁.memory p).length)).uncache p).deleteNode
        (s₁.memory p).lba).removeFromRoot g c.extent.lba c.extent.length c.lruPos = .ok s₃ ∧
      s₃.insertNode c.extent c.allCached = .ok s₄ ∧
      Written g c s (s₄.changeVaildSubPageCnt c.extent.length) := by
  have hwhole := hs.apart_node htree
  have hapart := hs.apart_subtree htree
  have hrightKeys : ∀ f ∈ s.extents (inorder r), (s.memory p).lba + (s.memory p).length ≤ f.lba :=
    (apart_cons.mp (apart_append.mp hapart).2.1).2.2
  have hnodePos := hs.positive htree
  -- the right child
  obtain ⟨s₁, hright, hreplaced⟩ := @Removes.below g s (.right p l path) c.extent.lba
    c.extent.length c.lruPos s.fuel (removes g s.fuel) r htree (fun h => nomatch h) hs hpos
    (fun f hf => by
      have hle := hrightKeys f hf
      omega) hroom (by
      rw [fuel, htree]
      have hle := TreePath.inorder_fill path (.node p l r)
      have hlen := congrArg List.length hle
      rw [length_inorder, List.length_append, List.length_append, length_inorder] at hlen
      simp only [BinaryTree.numNodes] at hlen ⊢
      omega)
  obtain ⟨r', htree₁, hr', hp₁, hl₁, h₁⟩ := hreplaced.ofRight
  have hwhole₁ : Apart ((s.extents path.before ++ s.extents (inorder l)) ++
      (s.memory p).toExtent :: (removed g.maxSubPage c.extent.lba c.extent.length
        (s.extents (inorder r)) ++ s.extents path.after)) := by
    have hmiddle := @Apart.removed_middle g.maxSubPage c.extent.lba c.extent.length
      (s.extents (inorder r))
      (s.extents path.before ++ (s.extents (inorder l) ++ [(s.memory p).toExtent]))
      (s.extents path.after) (by simpa using hwhole) hpos.le
    simpa using hmiddle
  have hs₁ : s₁.Ordered := h₁.ordered (by simpa using hwhole₁)
  have hcount : (removed g.maxSubPage c.extent.lba c.extent.length
      (s.extents (inorder r))).length ≤ (inorder r).length := by
    refine (length_removed_le fun f hf => .inl ?_).trans (by simp [extents])
    have hle := hrightKeys f hf
    omega
  have hroom₁ : s₁.HasRoom c.lruPos := by
    refine h₁.hasRoom htree hroom ?_
    simp only [inorder, List.length_append, List.length_cons, extents, List.length_map] at hcount ⊢
    omega
  have hlba₁ : (s₁.memory p).lba = (s.memory p).lba := congrArg Extent.lba hp₁
  have hlength₁ : (s₁.memory p).length = (s.memory p).length := congrArg Extent.length hp₁
  -- the node itself
  obtain ⟨s₂, hinvalidate, hretired⟩ := replaced_retire (-(s₁.memory p).length)
    (by omega : 0 ≤ (s₁.memory p).length) hroom₁ htree₁ hs₁
  obtain ⟨s₃, hs₃⟩ : ∃ s₃, ((s₂.changeVaildSubPageCnt (-(s₁.memory p).length)).uncache
    p).deleteNode (s₁.memory p).lba = s₃ := ⟨_, rfl⟩
  rw [hs₃, hl₁, hr'] at hretired
  have h₃ := h₁.trans hretired
  have hs₃' : s₃.Ordered := h₃.ordered (by simpa using hwhole₁.erase)
  have hroom₃ : s₃.HasRoom c.lruPos := by
    refine h₃.hasRoom htree hroom ?_
    simp only [inorder, List.length_append, List.length_cons, extents, List.length_map] at hcount ⊢
    omega
  -- the other nodes behind the node
  have hne₃ : s₃.mrmTreeRoot ≠ .nil := by
    intro hnil
    obtain ⟨rfl, hempty⟩ := h₃.root_of_nil hnil
    obtain ⟨hl, hr⟩ := List.append_eq_nil_iff.mp hempty
    obtain rfl := inorder_eq_nil_of_extents hl
    have hinside : ∀ e ∈ s.extents (inorder s.mrmTreeRoot), c.extent.lba ≤ e.lba ∧
        e.lba + e.length ≤ c.extent.lba + c.extent.length := by
      intro e he
      rw [htree] at he
      change e ∈ (s.memory p).toExtent :: s.extents (inorder r) at he
      rcases List.mem_cons.mp he with rfl | he
      · omega
      · have hle := hrightKeys e he
        exact ⟨by omega, (apart_cons.mp (apart_append.mp hapart).2.1).2.1.end_le_of_removed_eq_nil
          hr he⟩
    exact hsafe ⟨p, .nil, r, htree, fun e he => (hinside e he).1,
      .inr ⟨hlba, hlength.ne', fun e he => (hinside e he).2⟩⟩
  have hkeys₃ : ∀ e ∈ s₃.extents (inorder s₃.mrmTreeRoot), e.lba ≠ c.extent.lba := by
    intro e he
    have hpos' := hs₃'.apart.positive e he
    rw [h₃.extents_eq, List.append_assoc, ← List.append_assoc] at he
    rcases hwhole₁.clear_inside le_rfl le_rfl he with hle | hle
    all_goals omega
  have hsafe₃ : ¬ s₃.Empties c.extent.lba c.extent.length := fun hempties =>
    hsafe (takesAll_of_empties htree hs hlba h₃ hempties)
  obtain ⟨s₄, hremove, h₄⟩ := removeFromRoot_spec hs₃' hne₃ hpos hkeys₃ hroom₃ hsafe₃
  have h : Replaced c.lruPos .root s s₄ (removed g.maxSubPage c.extent.lba c.extent.length
      (s.extents (inorder s.mrmTreeRoot))) 0 := by
    refine (h₃.whole.trans h₄).congr ?_ (by omega)
    rw [h₃.extents_eq, extents_around htree, hwhole.removed_behind hlba.le, Extent.without, if_neg,
      if_neg (by omega), if_neg (by omega)]
    · have hl : removed g.maxSubPage c.extent.lba c.extent.length
          (s.extents path.before ++ s.extents (inorder l)) =
            s.extents path.before ++ s.extents (inorder l) :=
        removed_of_clear fun f hf => .inl (hlba ▸ (apart_append.mp hwhole).2.2 f hf _
          List.mem_cons_self)
      have hr := (apart_cons.mp (apart_append.mp hapart).2.1).2.1
      have htwice : removed g.maxSubPage c.extent.lba c.extent.length
          (removed g.maxSubPage c.extent.lba c.extent.length (s.extents (inorder r))) =
            removed g.maxSubPage c.extent.lba c.extent.length (s.extents (inorder r)) :=
        removed_of_clear fun f hf => hr.clear_of_mem_removed hf
      rw [← List.append_assoc, ← List.append_assoc, List.append_assoc _ _ (s.extents path.after),
        removed_append, hl, removed_append, removed_append, htwice]
      simp
    · unfold Extent.Clear
      omega
  obtain ⟨s₅, hinsert, hwritten⟩ := written_insertNode hs hpos h
  exact ⟨s₁, s₂, s₄, s₅, by rw [hs.rightChild htree]; exact hright, hinvalidate,
    by rw [hs₃]; exact hremove, hinsert, hwritten⟩

end Found

/-- The list of cached nodes and the states of the nodes, after the node of a call was found. -/
theorem sameNodes_status (s : VirtualRegion) (node : Pointer) (old new : Bool) :
    SameNodes s ((if old = false ∧ new = true then
        (s.changeCacheTreeNodeCnt 1).addToCachedNodeList node
      else if old = true ∧ new = false then
        (s.changeCacheTreeNodeCnt (-1)).deleteCachedNodeFromList node
      else s).setCacheStatus node new) := by
  refine SameNodes.trans ?_ (sameNodes_setCacheStatus ..)
  split
  · exact (sameNodes_changeCacheTreeNodeCnt s _).trans (sameNodes_addToCachedNodeList _ node)
  · split
    · exact (sameNodes_changeCacheTreeNodeCnt s _).trans
        (sameNodes_deleteCachedNodeFromList _ node)
    · exact sameNodes_refl s

theorem Written.sameNodes {s'' : VirtualRegion} (h : Written g c s s')
    (hsame : SameNodes s' s'') : Written g c s s'' := by
  obtain ⟨xs, ys, hsplit, hapart, hreplaced⟩ := h
  exact ⟨xs, ys, hsplit, hapart, hreplaced.sameNodes hsame⟩

/-- A call that does not take all nodes writes its extent. -/
theorem written_createMrMNode (hc : c.Accepted g) (hs : s.Ordered) (hnodes : s.nodeBalance = 0)
    (hroom : s.HasRoom c.lruPos) (hsafe : ¬ s.TakesAll c.extent.lba c.extent.length) :
    ∃ s', s.createMrMNode g c = .ok s' ∧ Written g c s s' := by
  have hpos := hc.positive
  have hpage := hc.pageAddr
  have hoff := hc.subPageOff
  rw [createMrMNode]
  simp only
  rw [if_neg (by omega), if_neg (by have hspan := hc.span; omega), if_neg (by omega),
    if_neg (by omega)]
  cases htop : s.mrmTreeRoot with
  | nil =>
    rw [if_neg (by simp [root, htop, rootOf])]
    have hempty : Replaced c.lruPos .root s s (s.extents (inorder s.mrmTreeRoot)) 0 :=
      replaced_refl c.lruPos rfl hs
    obtain ⟨s', hinsert, hwritten⟩ := @written_insertNode g s s c hs (by omega) (by
      rw [htop]
      exact hempty.congr (by rw [htop]; rfl) rfl)
    exact ⟨_, by rw [hinsert, ok_bind], hwritten⟩
  | node top left right =>
    have hne : s.mrmTreeRoot ≠ .nil := htop ▸ fun h => by cases h
    have hcount : s.nodeCount ≠ 0 := by
      rw [nodeBalance, htop] at hnodes
      simp only [inorder, List.length_append, List.length_cons] at hnodes
      omega
    rw [if_pos ⟨by simp [root, htop, rootOf], hcount⟩, hc.checked, if_neg Bool.false_ne_true,
      ← htop]
    cases hfind : find s.memory c.extent.lba s.mrmTreeRoot with
    | none =>
      have hkeys : ∀ e ∈ s.extents (inorder s.mrmTreeRoot), e.lba ≠ c.extent.lba := by
        intro e he
        obtain ⟨q, hq, rfl⟩ := mem_extents.mp he
        exact find_none (keys_increasing hs.apart) hfind q hq
      obtain ⟨s₁, hremove, h₁⟩ := removeFromRoot_spec hs hne (by omega) hkeys hroom
        fun hempties => hsafe hempties.takesAll
      obtain ⟨s₂, hinsert, hwritten⟩ := written_insertNode hs (by omega) h₁
      exact ⟨_, by simp only [hremove, ok_bind, hinsert], hwritten⟩
    | some p =>
      obtain ⟨hp, hlba⟩ := find_some hfind
      obtain ⟨path, l, r, hplace⟩ := exists_path hp
      simp only
      rcases lt_trichotomy c.extent.length (s.memory p).length with hlt | heq | hgt
      · obtain ⟨s₁, s₂, s₃, s₄, hinvalidate, hs₂, hremove, hinsert, hremove', hinsert', hwritten⟩ :=
          written_shorter hplace.symm hs hlba (by omega) hroom hlt hsafe rfl
            (s.memory p).cacheStatus
        refine ⟨_, ?_, hwritten⟩
        rw [if_neg hlt.ne, if_pos hlt, hinvalidate, ok_bind, hs₂, if_neg, hremove, ok_bind, hinsert,
          ok_bind, hremove', ok_bind, hinsert', ok_bind]
        rw [Extent.length_drop]
        omega
      · obtain ⟨s₁, hinvalidate, hmemory, hwritten⟩ :=
          written_same hplace.symm hs hlba (by omega) hroom heq
        have hmoved : { c.extent with lba := (s.memory p).lba, length := (s.memory p).length } =
            c.extent := by
          rw [hlba, ← heq]
        refine ⟨_, ?_, (hwritten ⟨c.extent, (s.memory p).cacheStatus⟩ rfl).sameNodes
          (sameNodes_status _ p (s.memory p).cacheStatus c.allCached)⟩
        rw [if_pos heq, hinvalidate, ok_bind, hmoved]
      · obtain ⟨s₁, s₂, s₃, s₄, hright, hinvalidate, hremove, hinsert, hwritten⟩ :=
          written_longer hplace.symm hs hlba (by omega) hroom hgt hsafe
        refine ⟨_, ?_, hwritten⟩
        rw [if_neg hgt.ne', if_neg (by omega), hright, ok_bind, hinvalidate, ok_bind, hremove,
          ok_bind, hinsert, ok_bind]

end VirtualRegion

end WiscKey.Beyond
