import WiscKey.Core.Separator

/-!
# The index keys of a table's blocks

The index entry of a block has a key between its last key and the first key of the next block. A
lookup goes to the first block whose index key is not in front of its target.
-/

namespace WiscKey

/-- The keys of a data block; a block that is empty is not written. -/
structure BlockKeys where
  keys : List Bytes
  nonempty : keys ≠ []

namespace BlockKeys

/-- The first key. -/
def first (block : BlockKeys) : Bytes := block.keys.head block.nonempty

/-- The last key. -/
def last (block : BlockKeys) : Bytes := block.keys.getLast block.nonempty

theorem first_mem (block : BlockKeys) : block.first ∈ block.keys := List.head_mem block.nonempty

theorem last_mem (block : BlockKeys) : block.last ∈ block.keys := List.getLast_mem block.nonempty

end BlockKeys

/-- The keys that `TableBuilder::Add` and `Finish` give the blocks in the index. -/
def indexKeys : List BlockKeys → List Bytes
  | [] => []
  | [block] => [internalShortSuccessor block.last]
  | block :: next :: blocks =>
    internalShortestSeparator block.last next.first :: indexKeys (next :: blocks)

/-- The block that a `Seek` in the index finds. -/
def seekBlock (target : Bytes) (blocks : List BlockKeys) : Option BlockKeys :=
  (((indexKeys blocks).zip blocks).find? fun x =>
    bytewiseComparator.internalCompare target x.1 ≠ .gt).map Prod.snd

/-- The target of a lookup: a user key as of a sequence number. -/
def lookupTarget (userKey : Bytes) (sequence : Nat) : Bytes :=
  appendInternalKey ⟨userKey, sequence, .value⟩

/-- The entry that a lookup must find: the first one from the target on, if it has the user key of
the target. -/
structure Answers (keys : List Bytes) (target e : Bytes) : Prop where
  mem : e ∈ keys
  user : extractUserKey e = extractUserKey target
  behind : bytewiseComparator.internalCompare target e ≠ .gt
  first : ∀ e' ∈ keys, bytewiseComparator.internalCompare target e' ≠ .gt →
    bytewiseComparator.internalCompare e e' ≠ .gt

/-- The keys of the blocks, in their order. -/
def tableKeys (blocks : List BlockKeys) : List Bytes := blocks.flatMap BlockKeys.keys

variable {block next : BlockKeys} {blocks : List BlockKeys} {target e a b : Bytes}

/-- A target behind the last key of a block is behind its separator too if the answer is in the
next block or behind it. -/
theorem gt_internalShortestSeparator (hlast : bytewiseComparator.internalCompare a target = .lt)
    (hanswer : bytewiseComparator.internalCompare b e ≠ .gt)
    (huser : extractUserKey e = extractUserKey target) :
    bytewiseComparator.internalCompare target (internalShortestSeparator a b) = .gt := by
  rcases internalShortestSeparator_cases a b with heq | hlt
  · rw [heq]
    exact Std.OrientedCmp.gt_of_lt hlast
  · -- the separator's user key is in front of that of the next block, and so of the target's
    have hle : bytewiseComparator.compare (extractUserKey b) (extractUserKey target) ≠ .gt := by
      rw [← huser]
      intro hgt
      rw [Comparator.internalCompare, hgt] at hanswer
      exact hanswer rfl
    have hbefore := lt_of_lt_of_not_gt hlt hle
    rw [Comparator.internalCompare, Std.OrientedCmp.gt_of_lt hbefore]
    rfl

/-- No key of a block is behind its last. -/
theorem BlockKeys.not_gt_last (hinc : Increasing bytewiseComparator.internalCompare block.keys)
    (he : e ∈ block.keys) : bytewiseComparator.internalCompare e block.last ≠ .gt := by
  have hsplit := List.dropLast_append_getLast block.nonempty
  rw [← hsplit] at he hinc
  rcases List.mem_append.mp he with he | he
  · have hlt := (List.pairwise_append.mp hinc).2.2 e he _ (List.mem_singleton_self _)
    rw [BlockKeys.last, hlt]
    exact Ordering.noConfusion
  · rw [List.mem_singleton.mp he]
    exact not_gt_self

/-- No key of a block is in front of its first. -/
theorem BlockKeys.first_not_gt (hinc : Increasing bytewiseComparator.internalCompare block.keys)
    (he : e ∈ block.keys) : bytewiseComparator.internalCompare block.first e ≠ .gt := by
  have hsplit := List.cons_head_tail block.nonempty
  rw [← hsplit] at he hinc
  rcases List.mem_cons.mp he with rfl | he
  · exact not_gt_self
  · rw [BlockKeys.first, (List.pairwise_cons.mp hinc).1 e he]
    exact Ordering.noConfusion

theorem increasing_tableKeys_cons
    (h : Increasing bytewiseComparator.internalCompare (tableKeys (block :: blocks))) :
    Increasing bytewiseComparator.internalCompare block.keys ∧
      Increasing bytewiseComparator.internalCompare (tableKeys blocks) ∧
      ∀ a ∈ block.keys, ∀ b ∈ tableKeys blocks, bytewiseComparator.internalCompare a b = .lt := by
  rw [tableKeys, List.flatMap_cons] at h
  exact List.pairwise_append.mp h

/-- The first index key is not in front of the first block. -/
theorem exists_indexKeys_cons (block : BlockKeys) (blocks : List BlockKeys) :
    ∃ tmp, indexKeys (block :: blocks) = orShortened block.last tmp :: indexKeys blocks := by
  cases blocks with
  | nil => exact ⟨_, rfl⟩
  | cons next blocks => exact ⟨_, rfl⟩

theorem not_gt_indexKey (hinc : Increasing bytewiseComparator.internalCompare block.keys)
    (he : e ∈ block.keys) (tmp : Bytes) :
    bytewiseComparator.internalCompare e (orShortened block.last tmp) ≠ .gt :=
  not_gt_trans (BlockKeys.not_gt_last hinc he) (not_gt_orShortened _ _)

/-- The block that the index leads to has the answer. -/
theorem seekBlock_answer
    (hinc : Increasing bytewiseComparator.internalCompare (tableKeys blocks))
    (h : Answers (tableKeys blocks) target e) :
    ∃ block, seekBlock target blocks = some block ∧ e ∈ block.keys := by
  induction blocks with
  | nil => exact absurd h.mem List.not_mem_nil
  | cons block blocks ih =>
    obtain ⟨hblock, hrest, hapart⟩ := increasing_tableKeys_cons hinc
    obtain ⟨tmp, hkeys⟩ := exists_indexKeys_cons block blocks
    have hmem := h.mem
    rw [tableKeys, List.flatMap_cons] at hmem
    rcases List.mem_append.mp hmem with he | he
    · have hle := not_gt_trans h.behind (not_gt_indexKey hblock he tmp)
      refine ⟨block, ?_, he⟩
      rw [seekBlock, hkeys, List.zip_cons_cons, List.find?_cons_of_pos (by simpa using hle)]
      rfl
    · -- the target is behind the block, for otherwise the last key of the block were the answer
      have hlast : bytewiseComparator.internalCompare block.last target = .lt := by
        by_contra hnot
        have hfirst := h.first block.last
          (List.mem_flatMap.mpr ⟨block, List.mem_cons_self, block.last_mem⟩)
          (not_gt_iff_not_lt.mpr hnot)
        exact not_gt_iff_not_lt.mp hfirst (hapart _ block.last_mem e he)
      have hpassed :
          bytewiseComparator.internalCompare target (orShortened block.last tmp) = .gt := by
        cases blocks with
        | nil => exact absurd he List.not_mem_nil
        | cons next blocks =>
          have hseparator : orShortened block.last tmp =
              internalShortestSeparator block.last next.first := (List.cons.inj hkeys).1.symm
          obtain ⟨hnext, -, hapart'⟩ := increasing_tableKeys_cons hrest
          rw [hseparator]
          refine gt_internalShortestSeparator hlast ?_ h.user
          rw [List.flatMap_cons] at he
          rcases List.mem_append.mp he with he | he
          · exact BlockKeys.first_not_gt hnext he
          · rw [hapart' _ next.first_mem e he]
            exact Ordering.noConfusion
      obtain ⟨found, hfound, hefound⟩ := ih hrest ⟨he, h.user, h.behind, fun e' he' hle =>
        h.first e' (List.mem_append_right _ he') hle⟩
      refine ⟨found, ?_, hefound⟩
      rw [seekBlock, hkeys, List.zip_cons_cons, List.find?_cons_of_neg (by simpa using hpassed)]
      exact hfound

/-- Internal keys over the bytewise comparator are in a strict total order, their user keys up and
their sequence numbers and types down. A separator of two keys is a key from the first one on and in
front of the second, a successor is a key from its key on. With them as the index keys of a table's
blocks, a lookup of any user key as of any sequence number goes to the block that has its answer. -/
theorem internalKey_separators :
    ((∀ a, bytewiseComparator.internalCompare a a ≠ .lt) ∧
      (∀ a b c, bytewiseComparator.internalCompare a b = .lt →
        bytewiseComparator.internalCompare b c = .lt →
          bytewiseComparator.internalCompare a c = .lt) ∧
      (∀ a b, ValidInternalKey a → ValidInternalKey b →
        bytewiseComparator.internalCompare a b = .lt ∨ a = b ∨
          bytewiseComparator.internalCompare b a = .lt) ∧
      ∀ x y : ParsedInternalKey, x.sequence ≤ kMaxSequenceNumber → y.sequence ≤ kMaxSequenceNumber →
        (bytewiseComparator.internalCompare (appendInternalKey x) (appendInternalKey y) = .lt ↔
          bytewiseComparator.compare x.userKey y.userKey = .lt ∨ x.userKey = y.userKey ∧
            (y.sequence < x.sequence ∨
              x.sequence = y.sequence ∧ y.type.code < x.type.code))) ∧
    (∀ a b, ValidInternalKey a → bytewiseComparator.internalCompare a b = .lt →
      ValidInternalKey (internalShortestSeparator a b) ∧
      bytewiseComparator.internalCompare a (internalShortestSeparator a b) ≠ .gt ∧
      bytewiseComparator.internalCompare (internalShortestSeparator a b) b = .lt) ∧
    (∀ a, ValidInternalKey a → ValidInternalKey (internalShortSuccessor a) ∧
      bytewiseComparator.internalCompare a (internalShortSuccessor a) ≠ .gt) ∧
    ∀ blocks : List BlockKeys, Increasing bytewiseComparator.internalCompare (tableKeys blocks) →
      ∀ (userKey : Bytes) (sequence : Nat) (e : Bytes),
        Answers (tableKeys blocks) (lookupTarget userKey sequence) e →
          ∃ block, seekBlock (lookupTarget userKey sequence) blocks = some block ∧
            e ∈ block.keys := by
  refine ⟨⟨fun a => not_gt_iff_not_lt.mp not_gt_self, fun a b c => Std.TransCmp.lt_trans,
    fun a b ha hb => ?_, fun x y hx hy => internalCompare_lt_iff hx hy⟩, fun a b ha hlt =>
    ⟨validInternalKey_orShortened ha _, not_gt_orShortened _ _, internalShortestSeparator_lt hlt⟩,
    fun a ha => ⟨validInternalKey_orShortened ha _, not_gt_orShortened _ _⟩,
    fun blocks hinc userKey sequence e he => seekBlock_answer hinc he⟩
  cases hcmp : bytewiseComparator.internalCompare a b with
  | lt => exact .inl rfl
  | eq => exact .inr (.inl (eq_of_internalCompare ha hb hcmp))
  | gt => exact .inr (.inr (Std.OrientedCmp.lt_of_gt hcmp))

/-- Two entries of one user key and one of another, and a block behind them. -/
def shortenedBlocks : List BlockKeys :=
  [⟨[appendInternalKey ⟨[97], 9, .value⟩, appendInternalKey ⟨[97], 4, .deletion⟩,
      appendInternalKey ⟨[98, 7], 7, .value⟩], List.cons_ne_nil _ _⟩,
    ⟨[appendInternalKey ⟨[100, 5], 3, .value⟩], List.cons_ne_nil _ _⟩]

/-- The index keys of the blocks have shorter user keys. A lookup as of a sequence number between
the first two entries goes to the first block, and one of the last user key to the second. -/
theorem internalKey_separators_shortened :
    indexKeys shortenedBlocks = [appendInternalKey ⟨[99], kMaxSequenceNumber, .value⟩,
      appendInternalKey ⟨[101], kMaxSequenceNumber, .value⟩] ∧
    (∃ block, seekBlock (lookupTarget [97] 6) shortenedBlocks = some block ∧
      appendInternalKey ⟨[97], 4, .deletion⟩ ∈ block.keys) ∧
    (∃ block, seekBlock (lookupTarget [100, 5] 5) shortenedBlocks = some block ∧
      appendInternalKey ⟨[100, 5], 3, .value⟩ ∈ block.keys) ∧
    bytewiseComparator.internalCompare (appendInternalKey ⟨[98, 7], 7, .value⟩)
      (internalShortestSeparator (appendInternalKey ⟨[98, 7], 7, .value⟩)
        (appendInternalKey ⟨[100, 5], 3, .value⟩)) ≠ .gt := by
  obtain ⟨-, hseparator, -, hlookup⟩ := internalKey_separators
  have hinc : Increasing bytewiseComparator.internalCompare (tableKeys shortenedBlocks) := by
    unfold Increasing
    decide +kernel
  refine ⟨by decide +kernel, hlookup _ hinc _ _ _ ?_, hlookup _ hinc _ _ _ ?_, ?_⟩
  · exact ⟨by decide +kernel, by decide +kernel, by decide +kernel, by decide +kernel⟩
  · exact ⟨by decide +kernel, by decide +kernel, by decide +kernel, by decide +kernel⟩
  · exact (hseparator _ _ (by decide +kernel) (by decide +kernel)).2.1

end WiscKey
